import SsaGraph.Program.Read
import SsaGraph.Proofs.Program.Reading

/-!
Functions that are read from a text have an arena in order.  Each line names only values
that are there when it is pushed: locals, literals, symbols and labels, which are read
through the builder.  A line with a fault may leave literals behind, but no instruction.
-/

namespace SsaGraph
namespace Reader

/-- The operands of a line are in the arena. -/
def Scopes (n : Nat) (line : Line) : Prop := Inside n line.operands

section
variable {n : Nat}

/-! ## Lines -/

theorem keeps_line {opcode : Opcode} {operands : List Handle} {type : Ty}
    {predicate : Option Predicate} (h : Inside n operands) :
    Keeps n (pure ⟨opcode, operands, type, predicate⟩ : Reader Line) Scopes :=
  .pure fun _ hle => h.mono hle

theorem keeps_alloca : Keeps n alloca Scopes :=
  (keeps_eatKeyword _).discard.andThen fun _ => keeps_type.discard.andThen fun _ =>
    keeps_line .nil

theorem keeps_skipAccessFlags : Keeps n skipAccessFlags Anything :=
  (keeps_eatKeyword _).discard.andThen fun _ => (keeps_eatKeyword _).discard

theorem keeps_load : Keeps n load Scopes := by
  refine keeps_skipAccessFlags.andThen fun _ => keeps_type.andThen fun ty => ?_
  refine (keeps_expect .comma).andThen fun _ => keeps_typedValue.bind fun p l _ hp => ?_
  exact keeps_line (.cons hp .nil)

theorem keeps_store : Keeps n store Scopes := by
  refine keeps_skipAccessFlags.andThen fun _ => keeps_typedValue.bind fun v l _ hv => ?_
  refine (keeps_expect .comma).andThen fun _ => keeps_typedValue.bind fun p l' hle hp => ?_
  exact keeps_line (.cons (Nat.lt_of_lt_of_le hv hle) (.cons hp .nil))

theorem keeps_addressOperands : Keeps n addressOperands Inside := by
  refine .iterate (fun operands l _ hl => ?_) fun _ _ => .nil
  refine keeps_peek.andThen fun next => keeps_peekNext.andThen fun after => ?_
  split
  · refine keeps_advance.andThen fun _ => keeps_typedValue.bind fun v l' hle hv => ?_
    have hall : Inside l' (operands ++ [v.1]) := .append (hl.mono hle) (.cons hv .nil)
    exact .pure fun _ hle' => hall.mono hle'
  · exact .pure fun _ hle => hl.mono hle

theorem keeps_getelementptr : Keeps n getelementptr Scopes := by
  refine (keeps_skip _).andThen fun _ => keeps_type.discard.andThen fun _ => ?_
  exact keeps_addressOperands.bind fun operands l _ hl => .ite (keeps_fail_bind _) (keeps_line hl)

theorem keeps_arithmetic (opcode : Opcode) : Keeps n (arithmetic opcode) Scopes :=
  keeps_skipFastMathFlags.andThen fun _ => keeps_operandPair.bind fun _ _ _ h => keeps_line h

theorem keeps_fneg : Keeps n fneg Scopes :=
  keeps_skipFastMathFlags.andThen fun _ => keeps_typedValue.bind fun _ _ _ h =>
    keeps_line (.cons h .nil)

theorem keeps_predicate {α : Type} (read : String → Option α) (refuse : String → SyntaxError) :
    Keeps n (predicate read refuse) Anything := by
  refine keeps_expectWord.andThen fun word => ?_
  split
  · exact .answer
  · exact keeps_throw _

theorem keeps_fcmp : Keeps n fcmp Scopes :=
  keeps_skipFastMathFlags.andThen fun _ => (keeps_predicate _ _).andThen fun _ =>
    keeps_operandPair.bind fun _ _ _ h => keeps_line h

theorem keeps_icmp : Keeps n icmp Scopes :=
  (keeps_eatKeyword _).discard.andThen fun _ => (keeps_predicate _ _).andThen fun _ =>
    keeps_operandPair.bind fun _ _ _ h => keeps_line h

theorem keeps_zext : Keeps n zext Scopes := by
  refine (keeps_eatKeyword _).discard.andThen fun _ => keeps_typedValue.bind fun v l _ hv => ?_
  refine (keeps_expectKeyword "to").andThen fun _ => keeps_type.andThen fun ty => ?_
  exact keeps_line (.cons hv .nil)

theorem keeps_or : Keeps n Reader.or Scopes :=
  (keeps_eatKeyword _).discard.andThen fun _ => keeps_operandPair.bind fun _ _ _ h => keeps_line h

/-- Three typed values with commas between them. -/
theorem keeps_three {α : Type} {k : Handle × Ty → Handle × Ty → Handle × Ty → Reader α}
    {post : Nat → α → Prop}
    (hk : ∀ a b c l, Inside l [a.1, b.1, c.1] → Keeps l (k a b c) post) :
    Keeps n (typedValue >>= fun a => expect .comma >>= fun _ => typedValue >>= fun b =>
      expect .comma >>= fun _ => typedValue >>= fun c => k a b c) post := by
  refine keeps_typedValue.bind fun a l₁ _ ha => (keeps_expect .comma).andThen fun _ => ?_
  refine keeps_typedValue.bind fun b l₂ h₂ hb => (keeps_expect .comma).andThen fun _ => ?_
  refine keeps_typedValue.bind fun c l₃ h₃ hc => hk a b c l₃ (.cons ?_ (.cons ?_ (.cons hc .nil)))
  · exact Nat.lt_of_lt_of_le ha (Nat.le_trans h₂ h₃)
  · exact Nat.lt_of_lt_of_le hb h₃

theorem keeps_select : Keeps n select Scopes :=
  keeps_skipFastMathFlags.andThen fun _ => keeps_three fun _ _ _ _ h => keeps_line h

theorem keeps_callee : Keeps n callee fun l v => v < l := by
  refine keeps_peek.andThen fun next => ?_
  split
  next name =>
    exact keeps_advance.andThen fun _ =>
      keeps_build_value fun b hb => Builder.symbol_answers hb name
  · exact keeps_fail _

theorem keeps_callArguments : Keeps n callArguments Inside := by
  refine .iterate (fun operands l _ hl => ?_) fun _ _ => .nil
  refine keeps_peek.andThen fun next => ?_
  split
  · exact .pure fun _ hle => hl.mono hle
  · refine keeps_type.andThen fun ty => keeps_skipArgumentAttributes.andThen fun _ => ?_
    refine (keeps_value ty).bind fun v l' hle hv => (keeps_eat .comma).andThen fun more => ?_
    have hall : Inside l' (operands ++ [v]) := .append (hl.mono hle) (.cons hv .nil)
    split <;> exact .pure fun _ hle' => hall.mono hle'

theorem keeps_callHead : Keeps n callHead fun l a => a.2 < l := by
  have hrest : ∀ ty : Ty, Keeps n (callee >>= fun callee => expect .lparen >>= fun _ =>
      pure (ty, callee)) fun l a => a.2 < l := by
    intro ty
    refine keeps_callee.bind fun callee l _ hcallee => (keeps_expect _).andThen fun _ => ?_
    exact .pure fun _ hle => Nat.lt_of_lt_of_le hcallee hle
  refine (keeps_skip _).andThen fun _ => keeps_type.andThen fun ty => ?_
  exact keeps_peek.andThen fun next => .ite ((keeps_skip _).andThen fun _ => hrest ty) (hrest ty)

theorem keeps_call : Keeps n call Scopes := by
  refine keeps_callHead.bind fun head l _ hcallee => ?_
  refine keeps_callArguments.bind fun args l' hle hargs => (keeps_expect _).andThen fun _ => ?_
  exact keeps_line (.append hargs (.cons (Nat.lt_of_lt_of_le hcallee hle) .nil))

theorem keeps_br : Keeps n br Scopes := by
  refine (keeps_eatKeyword _).andThen fun jump => ?_
  split
  · exact (keeps_value .label).bind fun v l _ hv => keeps_line (.cons hv .nil)
  · exact keeps_three fun _ _ _ _ h => keeps_line h

theorem keeps_ret : Keeps n ret Scopes := by
  refine (keeps_eatKeyword _).andThen fun void => ?_
  split
  · exact keeps_line .nil
  · exact keeps_typedValue.bind fun v l _ hv => keeps_line (.cons hv .nil)

/-- The operands gathered so far are in the arena. -/
def Gathers (n : Nat) (r : Round Gathered) : Prop := Inside n r.result.operands

theorem keeps_passOver {g : Gathered} (hg : Inside n g.operands) {m : Reader Unit}
    (hm : Keeps n m Anything) : Keeps n (m >>= fun _ => pure (Round.again g)) Gathers :=
  hm.andThen fun _ => .pure fun _ hle => hg.mono hle

theorem keeps_firstType {g : Gathered} (hg : Inside n g.operands) {m : Reader Unit}
    (hm : Keeps n m Anything) :
    Keeps n (attempt type >>= fun ty => match ty with
      | some ty => pure (Round.again { g with firstType := some ty })
      | none => m >>= fun _ => pure (Round.again g)) Gathers := by
  refine (keeps_attempt keeps_type).andThen fun ty => ?_
  split
  · exact .pure fun _ hle => hg.mono hle
  · exact keeps_passOver hg hm

theorem keeps_gather : Keeps n gather fun l g => Inside l g.operands := by
  refine .iterate (fun g l _ hg => ?_) fun _ _ => .nil
  show Keeps l _ Gathers
  refine keeps_peek.andThen fun t => ?_
  split
  · exact .pure fun _ hle => hg.mono hle
  split
  next name _ =>
    refine (keeps_local? name).bind fun v l' hle hv => keeps_advance.andThen fun _ => ?_
    have hall : Inside l' (g.operands ++ v.toList) := .append (hg.mono hle) hv
    exact .pure fun _ hle' => hall.mono hle'
  · split
    · refine keeps_advance.andThen fun _ => (keeps_tolerate keeps_type).andThen fun ty => ?_
      exact .pure fun _ hle => hg.mono hle
    · split
      · exact keeps_passOver hg keeps_advance
      · exact keeps_firstType hg keeps_advance
  · split
    · exact keeps_passOver hg (keeps_skip _)
    · exact keeps_firstType hg (keeps_skip _)
  · exact keeps_passOver hg keeps_advance

theorem keeps_unknown (opcode : String) (named : Bool) : Keeps n (unknown opcode named) Scopes :=
  keeps_gather.bind fun _ _ _ hg => keeps_line hg

/-- However an instruction is written, its operands are in the arena. -/
theorem keeps_operandsOf (opcode : String) (named : Bool) :
    Keeps n (operandsOf opcode named) Scopes := by
  unfold operandsOf
  split
  · exact keeps_alloca
  · exact keeps_load
  · exact keeps_store
  · exact keeps_getelementptr
  · exact keeps_arithmetic _
  · exact keeps_arithmetic _
  · exact keeps_arithmetic _
  · exact keeps_arithmetic _
  · exact keeps_fneg
  · exact keeps_fcmp
  · exact keeps_icmp
  · exact keeps_zext
  · exact keeps_or
  · exact keeps_select
  · exact keeps_call
  · exact (keeps_expectKeyword _).andThen fun _ => keeps_call
  · exact (keeps_expectKeyword _).andThen fun _ => keeps_call
  · exact (keeps_expectKeyword _).andThen fun _ => keeps_call
  · exact keeps_br
  · exact keeps_ret
  · exact keeps_unknown opcode named

theorem keeps_resultName : Keeps n resultName Anything := by
  refine keeps_peek.andThen fun next => keeps_peekNext.andThen fun after => ?_
  split
  · exact keeps_advance.andThen fun _ => keeps_advance.andThen fun _ => .answer
  · exact .answer

theorem keeps_push {line : Line} (hline : Scopes n line) (name : Option String) :
    Keeps n (build (·.push line.opcode line.operands line.type line.predicate name))
      fun l v => Inside l v.toList := by
  refine keeps_build fun b hb hn => ?_
  obtain ⟨hgrows, hresult⟩ :=
    Builder.size_push b line.opcode line.operands line.type line.predicate name
  refine ⟨Builder.sound_push hb (hline.mono hn) _ _ _ _, hgrows, fun v hv => ?_⟩
  exact hresult v (Option.mem_toList.mp hv)

theorem keeps_setSpan (span : ReadState → Span) :
    Keeps n (modify fun s => { s with builder := { s.builder with span := span s } }) Anything :=
  fun _ hs hn => ⟨⟨⟨hs.builder.func, hs.builder.symbols, hs.builder.labels⟩, hs.locals⟩, hn, trivial⟩

theorem keeps_instruction : Keeps n instruction Anything := by
  refine (keeps_setSpan fun s => lineSpan s.rest).andThen fun _ => ?_
  refine keeps_resultName.andThen fun name => keeps_expectWord.andThen fun opcode => ?_
  refine (keeps_operandsOf _ _).bind fun line l _ hline => (keeps_push hline name).bind ?_
  intro result l _ hresult
  split
  next name v => exact keeps_define name (hresult v List.mem_cons_self)
  · exact keeps_throw _
  · exact .answer

/-! ## Functions -/

theorem keeps_functionName : Keeps n functionName Anything := by
  refine (keeps_skip _).andThen fun _ => keeps_peek.andThen fun next => ?_
  split
  · exact keeps_advance.andThen fun _ => .answer
  · exact keeps_fail _

theorem keeps_parameterName? : Keeps n parameterName? Anything := by
  refine (keeps_skip _).andThen fun _ => keeps_peek.andThen fun next => ?_
  split
  · exact keeps_advance.andThen fun _ => .answer
  · exact .answer
  · exact .answer
  · exact keeps_fail _

theorem keeps_parameters : Keeps n parameters Anything := by
  refine .iterate (fun params l _ _ => ?_) fun _ _ => trivial
  refine keeps_peek.andThen fun next => .ite .answer (.ite (keeps_fail_bind _) ?_)
  refine keeps_type.andThen fun ty => keeps_parameterName?.andThen fun name => ?_
  exact (keeps_eat .comma).andThen fun more => .ite .answer .answer

theorem keeps_openBody : Keeps n openBody Anything := by
  refine (keeps_skip _).andThen fun _ => keeps_peek.andThen fun next => ?_
  split
  · exact keeps_advance
  · exact keeps_fail _

theorem keeps_label? : Keeps n label? Anything := by
  refine keeps_peek.andThen fun next => keeps_peekNext.andThen fun after => ?_
  split <;> exact .answer

/-- A body keeps the function in order, also past lines with a fault. -/
theorem keeps_body : Keeps n body Anything := by
  refine .iterate (fun _ l _ _ => ?_) fun _ _ => trivial
  refine keeps_label?.andThen fun label => ?_
  split
  next name =>
    refine keeps_advance.andThen fun _ => keeps_advance.andThen fun _ => ?_
    refine Keeps.andThen (keeps_build_value fun b hb => ?_).discard fun _ => .answer
    exact Builder.label_answers hb name
  · refine keeps_peek.andThen fun next => ?_
    split
    · exact keeps_advance.andThen fun _ => .answer
    · exact keeps_advance.andThen fun _ => .answer
    · exact keeps_fail _
    · exact (keeps_recover keeps_instruction).andThen fun _ => (keeps_skip _).andThen fun _ => .answer

end

theorem get?_foldl_insert {ps : List ((Ty × String) × Handle)} {t : Table String Handle}
    {name : String} {v : Handle}
    (h : (ps.foldl (fun t p => t.insert p.1.2 p.2) t).get? name = some v) :
    (∃ type, ((type, name), v) ∈ ps) ∨ t.get? name = some v := by
  induction ps generalizing t with
  | nil => exact .inr h
  | cons p rest ih =>
    rcases ih h with ⟨type, hmem⟩ | ht
    · exact .inl ⟨type, List.mem_cons_of_mem p hmem⟩
    · rw [Table.get?_insert] at ht
      split at ht
      next hname =>
        cases ht
        subst hname
        exact .inl ⟨p.1.1, List.mem_cons_self⟩
      · exact .inr ht

/-- Parameters are the arguments of a new function. -/
theorem keeps_enter (name : String) (params : List (Ty × String)) :
    Keeps 0 (enter name params) Anything := by
  intro s _ _
  have hsound := Builder.sound_start name params
  refine ⟨⟨hsound, fun {_ v} hv => ?_⟩, Nat.zero_le _, trivial⟩
  rcases get?_foldl_insert hv with ⟨a, ha⟩ | hnone
  · obtain ⟨i, hi⟩ := List.mem_iff_getElem?.mp (List.of_mem_zip ha).2
    exact Func.lt_of_kind? (hsound.func.args hi).2
  · cases hnone

theorem keeps_function : Keeps 0 function fun _ f => f.Arena := by
  refine keeps_advance.andThen fun _ => keeps_functionName.andThen fun name => ?_
  refine (keeps_expect _).andThen fun _ => keeps_parameters.andThen fun params => ?_
  refine (keeps_expect _).andThen fun _ => keeps_openBody.andThen fun _ => ?_
  refine (keeps_enter name params).andThen fun _ => keeps_body.andThen fun _ => ?_
  exact fun s hs hn => ⟨hs, hn, hs.builder.arena⟩

/-- A definition that is given up leaves nothing behind among the functions. -/
theorem keeps_definition {fs : List Func} (hfs : ∀ f ∈ fs, f.Arena) :
    Keeps 0 (definition fs) fun _ r => ∀ f ∈ r.result, f.Arena := by
  intro s hs hn
  have hfunction := keeps_function s hs hn
  rw [definition]
  cases hr : function s with
  | ok f t =>
    rw [hr] at hfunction
    refine ⟨hfunction.1, hfunction.2.1, List.forall_mem_append.mpr ⟨hfs, ?_⟩⟩
    exact List.forall_mem_singleton.mpr hfunction.2.2
  | error e t =>
    rw [hr] at hfunction
    exact ⟨⟨hfunction.1.builder, hfunction.1.locals⟩, hfunction.2, hfs⟩

theorem keeps_functions : Keeps 0 functions fun _ fs => ∀ f ∈ fs, f.Arena := by
  refine .iterate_ends (fun fs s hs hn hfs => ?_) fun _ _ => by nofun
  have hsame : ∀ {m : Reader Unit}, Keeps 0 m Anything →
      Keeps 0 (m >>= fun _ => pure (Round.again fs)) fun _ r => ∀ f ∈ r.result, f.Arena :=
    fun hm => hm.andThen fun _ => .pure fun _ _ => hfs
  refine keeps_peek.andThen (fun next => ?_) s hs hn
  split
  · exact .pure fun _ _ => hfs
  · exact hsame keeps_advance
  · exact .ite (keeps_definition hfs) (hsame (keeps_skip _))
  · exact hsame (keeps_skip _)

end Reader

theorem ReadState.sound_default (rest : List (Located Token)) :
    ReadState.Sound ⟨rest, [], default, .empty⟩ where
  builder :=
    have h := Builder.sound_start "" []
    ⟨h.func, h.symbols, h.labels⟩
  locals h := nomatch h

/-- Every function that is read has an arena in order. -/
theorem Program.arena_of_read {text : String} {p : Program} (h : Program.read text = .ok p) :
    ∀ f ∈ p.functions, f.Arena := by
  unfold read at h
  simp only at h
  split at h
  · unfold ofTokens at h
    have hkeeps := Reader.keeps_functions _ (ReadState.sound_default (Token.scan text).tokens)
      (Nat.zero_le _)
    split at h
    next fs t hr =>
      rw [hr] at hkeeps
      split at h
      · cases h
        exact hkeeps.2.2
      · cases h
    · cases h
  · cases h

end SsaGraph

import SsaGraph.Proofs.Program.Operands

/-!
Reading what stands behind an opcode.  Whatever the opcode, the tokens of operands that
fit it are read as a line with the same opcode, type and predicate, and with operands that
denote the same (`reading_operandsOf`).
-/

namespace SsaGraph
namespace Reader

/-- The line of an instruction with the given operands. -/
def Says (f : Func) (vs : List Handle) (opcode : Opcode) (type : Ty) (predicate : Option Predicate)
    (g : Func) (line : Line) : Prop :=
  ∃ ws, line = ⟨opcode, ws, type, predicate⟩ ∧ List.Forall₂ (f.Denotes g) vs ws

section
variable {f g : Func} {i : Nat} {x : List Token} {v v' : Handle} {u u' : Value} {type element : Ty}

/-! ## Memory -/

theorem reading_alloca (h : element.Valid) :
    Reading f i g (element.tokens ++ .newline :: x) (.newline :: x) alloca
      (Says f [] .alloca .ptr none) := by
  refine (takes_eatKeyword_other h (by decide)).discard.thenReading ?_
  refine (takes_type h (by simp)).discard.thenReading ?_
  exact .pure fun g' _ => ⟨[], rfl, .nil⟩

theorem takes_skipAccessFlags (h : type.Valid) :
    Takes (type.tokens ++ x) (type.tokens ++ x) skipAccessFlags () :=
  (takes_eatKeyword_other h (by decide)).discard.bind
    (takes_eatKeyword_other h (by decide)).discard

theorem reading_load (h : type.Valid) (hu : Usable f i v u) :
    Reading f i g (type.tokens ++ .comma :: (u.typed ++ x)) x load
      (Says f [v] .load type none) := by
  refine (takes_skipAccessFlags h).thenReading ((takes_type h (by simp)).thenReading ?_)
  refine (takes_expect (by simp)).thenReading ((reading_typedValue hu).bind fun a g₁ _ ha => ?_)
  exact .pure fun g₂ hg => ⟨[a.1], rfl, .cons (ha.1.mono hg) .nil⟩

theorem reading_store (hu : Usable f i v u) (hu' : Usable f i v' u') :
    Reading f i g (u.typed ++ .comma :: (u'.typed ++ x)) x store
      (Says f [v, v'] .store .void none) := by
  have hflags := takes_skipAccessFlags (x := u.token :: .comma :: (u'.typed ++ x)) hu.typed.valid
  rw [← Value.typed_append] at hflags
  refine hflags.thenReading ((reading_typedValue hu).bind fun a g₁ _ ha => ?_)
  refine (takes_expect (by simp)).thenReading ((reading_typedValue hu').bind fun a' g₂ hg ha' => ?_)
  exact .pure fun g₃ hg' =>
    ⟨[a.1, a'.1], rfl, .cons (ha.1.mono (hg.trans hg')) (.cons (ha'.1.mono hg') .nil)⟩

/-! ## Addresses -/

theorem isMetadata_of_startsType {t : Token} (h : t.startsType = true) : isMetadata t = false := by
  cases t with
  | metadata _ => cases h
  | _ => rfl

/-- Operands read so far, and one more. -/
theorem denotes_append {g' : Func} {vs ws : List Handle} {w : Handle}
    (h : List.Forall₂ (f.Denotes g) vs ws) (hg : g.Extends g') (hw : f.Denotes g' v w) :
    List.Forall₂ (f.Denotes g') (vs ++ [v]) (ws ++ [w]) :=
  List.rel_append (h.imp fun _ _ hvw => hvw.mono hg) (.cons hw .nil)

theorem reading_addressOperand {vs ws : List Handle} (hws : List.Forall₂ (f.Denotes g) vs ws)
    (hu : Usable f i v u) :
    Reading f i g (.comma :: (u.typed ++ x)) x (addressOperand ws) fun g' r =>
      ∃ ws', r = .again ws' ∧ List.Forall₂ (f.Denotes g') (vs ++ [v]) ws' := by
  obtain ⟨t, ts, htokens, ht, _⟩ := Ty.exists_tokens hu.typed.valid
  have hmetadata : isMetadata ((u.typed ++ x).headD .comma) = false := by
    rw [Value.typed_append, htokens]
    exact isMetadata_of_startsType ht
  refine takes_peek.thenReading (takes_peekNext.thenReading ?_)
  rw [if_pos ⟨rfl, by rw [hmetadata]; rfl⟩]
  refine (takes_advance (by simp)).thenReading ((reading_typedValue hu).bind fun a g₁ hg ha => ?_)
  exact .pure fun g₂ hg' => ⟨_, rfl, denotes_append hws (hg.trans hg') (ha.1.mono hg')⟩

/-- Base and indices, each behind a comma.  Those read before denote `vs`. -/
theorem reading_addressOperands {vs vs' ws : List Handle} {us : List Value}
    (hws : List.Forall₂ (f.Denotes g) vs ws) (h : List.Forall₂ (Usable f i) vs' us) :
    Reading f i g (us.flatMap (fun u => .comma :: u.typed) ++ .newline :: x) (.newline :: x)
      (iterate addressOperand ws) fun g' ws' => List.Forall₂ (f.Denotes g') (vs ++ vs') ws' := by
  induction h generalizing g vs ws with
  | nil =>
    refine .iterate_done (takes_peek.thenReading (takes_peekNext.thenReading ?_))
    rw [if_neg (by simp), List.append_nil]
    exact .pure fun g' hg => ⟨ws, rfl, hws.imp fun _ _ hvw => hvw.mono hg⟩
  | @cons v u vs' us hu h ih =>
    rw [List.flatMap_cons, List.append_assoc, List.cons_append]
    refine .iterate_again (reading_addressOperand hws hu) ?_ fun ws' g' hg hws' => ?_
    · simp only [List.length_append, List.length_cons]
      omega
    · rw [List.append_cons vs]
      exact ih hws'

/-- Words that are no types do not start one. -/
theorem contains_of_startsType {words : List String}
    (hwords : ∀ w ∈ words, (Token.word w).startsType = false) {w : String}
    (h : (Token.word w).startsType = true) : words.contains w = false := by
  refine Bool.eq_false_iff.mpr fun hcontains => ?_
  rw [hwords w (List.contains_iff_mem.mp hcontains)] at h
  cases h

theorem isAddressFlag_of_startsType {t : Token} (h : t.startsType = true) :
    isAddressFlag t = false := by
  cases t with
  | word w => exact contains_of_startsType (by decide) h
  | _ => rfl

theorem reading_getelementptr (h : element.Valid) {vs : List Handle} {us : List Value}
    (hus : List.Forall₂ (Usable f i) (v :: vs) (u :: us)) :
    Reading f i g
      (element.tokens ++ ((u :: us).flatMap (fun u => .comma :: u.typed) ++ .newline :: x))
      (.newline :: x) getelementptr (Says f (v :: vs) .getelementptr .ptr none) := by
  refine (takes_skip_other h fun _ => isAddressFlag_of_startsType).thenReading ?_
  refine (takes_type h (by simp)).discard.thenReading ?_
  refine (reading_addressOperands .nil hus).bind fun ws g₁ _ hws => ?_
  cases hws with
  | @cons _ w _ ws hw hws =>
    exact .pure fun g₂ hg => ⟨w :: ws, rfl, .cons (hw.mono hg) (hws.imp fun _ _ h => h.mono hg)⟩

/-! ## Arithmetic -/

theorem isFastMathFlag_of_startsType {t : Token} (h : t.startsType = true) :
    isFastMathFlag t = false := by
  cases t with
  | word w => exact contains_of_startsType (by decide) h
  | _ => rfl

theorem takes_skipFastMathFlags (h : type.Valid) :
    Takes (type.tokens ++ x) (type.tokens ++ x) skipFastMathFlags () :=
  takes_skip_other h fun _ => isFastMathFlag_of_startsType

/-- The same in front of an operand. -/
theorem takes_skipFastMathFlags_typed (hu : Usable f i v u) :
    Takes (u.typed ++ x) (u.typed ++ x) skipFastMathFlags () := by
  rw [Value.typed_append]
  exact takes_skipFastMathFlags hu.typed.valid

theorem takes_eatKeyword_typed (hu : Usable f i v u) {keyword : String}
    (hkeyword : Ty.ofWord? keyword ≠ some u.type) :
    Takes (u.typed ++ x) (u.typed ++ x) (eatKeyword keyword) false := by
  rw [Value.typed_append]
  exact takes_eatKeyword_of_ne hu.typed.valid hkeyword

theorem takes_eatKeyword_typed_other (hu : Usable f i v u) {keyword : String}
    (hkeyword : Ty.ofWord? keyword = none) :
    Takes (u.typed ++ x) (u.typed ++ x) (eatKeyword keyword) false :=
  takes_eatKeyword_typed hu (by simp [hkeyword])

/-- A line of two operands behind one type. -/
theorem reading_pairLine {opcode : Opcode} {predicate : Option Predicate}
    {k : Handle × Handle × Ty → Line} (hu : Usable f i v u) (hu' : Usable f i v' u')
    (htype : u'.type = u.type)
    (hk : ∀ w w', k (w, w', u.type) = ⟨opcode, [w, w'], type, predicate⟩) :
    Reading f i g (u.typed ++ .comma :: u'.token :: x) x
      (operandPair >>= fun a => Pure.pure (k a)) (Says f [v, v'] opcode type predicate) := by
  refine (reading_operandPair hu hu' htype).bind fun a g₁ _ ha => .pure fun g₂ hg => ?_
  obtain ⟨w, w', _⟩ := a
  obtain ⟨hops, rfl⟩ := ha
  exact ⟨[w, w'], hk w w', hops.imp fun _ _ hvw => hvw.mono hg⟩

theorem reading_arithmetic (opcode : Opcode) (hu : Usable f i v u) (hu' : Usable f i v' u')
    (htype : u'.type = u.type) :
    Reading f i g (u.typed ++ .comma :: u'.token :: x) x (arithmetic opcode)
      (Says f [v, v'] opcode u.type none) := by
  refine (takes_skipFastMathFlags_typed hu).thenReading ?_
  exact reading_pairLine hu hu' htype fun _ _ => rfl

theorem reading_or (hu : Usable f i v u) (hu' : Usable f i v' u') (htype : u'.type = u.type) :
    Reading f i g (u.typed ++ .comma :: u'.token :: x) x Reader.or
      (Says f [v, v'] .or u.type none) := by
  refine (takes_eatKeyword_typed_other hu (by decide)).discard.thenReading ?_
  exact reading_pairLine hu hu' htype fun _ _ => rfl

theorem reading_fneg (hu : Usable f i v u) :
    Reading f i g (u.typed ++ x) x fneg (Says f [v] .fneg u.type none) := by
  refine (takes_skipFastMathFlags_typed hu).thenReading ?_
  refine (reading_typedValue hu).bind fun a g₁ _ ha => .pure fun g₂ hg => ?_
  exact ⟨_, by rw [ha.2], .cons (ha.1.mono hg) .nil⟩

/-! ## Comparisons and conversions -/

/-- A predicate is read by its word. -/
theorem takes_predicate {α : Type} {read : String → Option α} {refuse : String → SyntaxError}
    {w : String} {p : α} (h : read w = some p) :
    Takes (.word w :: x) x (predicate read refuse) p := by
  intro b l
  refine reads_expectWord.bind fun word b' l' hword => ?_
  obtain ⟨rfl, rfl, rfl⟩ := hword
  rw [h]
  exact .pure ⟨rfl, rfl, rfl⟩

theorem takes_skipFastMathFlags_predicate (p : FloatPredicate) :
    Takes (.word p.word :: x) (.word p.word :: x) skipFastMathFlags () := by
  have hflag : isFastMathFlag (.word p.word) = false := by cases p <;> rfl
  exact takes_skip_none fun _ => hflag

theorem reading_fcmp (p : FloatPredicate) (hu : Usable f i v u) (hu' : Usable f i v' u')
    (htype : u'.type = u.type) :
    Reading f i g (.word p.word :: (u.typed ++ .comma :: u'.token :: x)) x fcmp
      (Says f [v, v'] .fcmp (.int 1) (some (.float p))) := by
  refine (takes_skipFastMathFlags_predicate p).thenReading ?_
  refine (takes_predicate p.ofName?_word).thenReading ?_
  exact reading_pairLine hu hu' htype fun _ _ => rfl

theorem reading_icmp (p : IntPredicate) (hu : Usable f i v u) (hu' : Usable f i v' u')
    (htype : u'.type = u.type) :
    Reading f i g (.word p.word :: (u.typed ++ .comma :: u'.token :: x)) x icmp
      (Says f [v, v'] .icmp (.int 1) (some (.int p))) := by
  have hsamesign : Token.word p.word ≠ .word "samesign" := by cases p <;> decide
  refine (takes_eat_other hsamesign).discard.thenReading ?_
  refine (takes_predicate p.ofName?_word).thenReading ?_
  exact reading_pairLine hu hu' htype fun _ _ => rfl

theorem reading_zext (h : type.Valid) (hu : Usable f i v u) :
    Reading f i g (u.typed ++ .word "to" :: (type.tokens ++ .newline :: x)) (.newline :: x) zext
      (Says f [v] .zext type none) := by
  refine (takes_eatKeyword_typed_other hu (by decide)).discard.thenReading ?_
  refine (reading_typedValue hu).bind fun a g₁ _ ha => takes_expectKeyword.thenReading ?_
  refine (takes_type h (by simp)).thenReading (.pure fun g₂ hg => ?_)
  exact ⟨[a.1], rfl, .cons (ha.1.mono hg) .nil⟩

/-! ## Choices -/

/-- Three operands, as `select` and `br` have them. -/
theorem reading_three {α : Type} {v₁ v₂ v₃ : Handle} {u₁ u₂ u₃ : Value}
    (h₁ : Usable f i v₁ u₁) (h₂ : Usable f i v₂ u₂) (h₃ : Usable f i v₃ u₃)
    {k : Handle × Ty → Handle × Ty → Handle × Ty → α} {post : Func → α → Prop}
    (hk : ∀ {g a b c}, List.Forall₂ (f.Denotes g) [v₁, v₂, v₃] [a.1, b.1, c.1] → b.2 = u₂.type →
      post g (k a b c)) :
    Reading f i g (u₁.typed ++ .comma :: (u₂.typed ++ .comma :: (u₃.typed ++ x))) x
      (do
        let a ← typedValue
        expect .comma
        let b ← typedValue
        expect .comma
        let c ← typedValue
        return k a b c) post := by
  refine (reading_typedValue h₁).bind fun a g₁ _ ha => (takes_expect (by simp)).thenReading ?_
  refine (reading_typedValue h₂).bind fun b g₂ hg₂ hb => (takes_expect (by simp)).thenReading ?_
  refine (reading_typedValue h₃).bind fun c g₃ hg₃ hc => .pure fun g₄ hg₄ => hk ?_ hb.2
  exact .cons (ha.1.mono (hg₂.trans (hg₃.trans hg₄)))
    (.cons (hb.1.mono (hg₃.trans hg₄)) (.cons (hc.1.mono hg₄) .nil))

theorem reading_select {v₁ v₂ v₃ : Handle} {u₁ u₂ u₃ : Value} (h₁ : Usable f i v₁ u₁)
    (h₂ : Usable f i v₂ u₂) (h₃ : Usable f i v₃ u₃) :
    Reading f i g (u₁.typed ++ .comma :: (u₂.typed ++ .comma :: (u₃.typed ++ x))) x select
      (Says f [v₁, v₂, v₃] .select u₂.type none) := by
  refine (takes_skipFastMathFlags_typed h₁).thenReading (reading_three h₁ h₂ h₃ ?_)
  intro g a b c hops htype
  exact ⟨_, by rw [htype], hops⟩

theorem reading_jump (hu : Usable f i v u) (hlabel : u.type = .label) :
    Reading f i g (u.typed ++ x) x br (Says f [v] .br .void none) := by
  have hvalue := reading_value (g := g) (x := x) hu
  rw [hlabel] at hvalue
  rw [Value.typed_append, hlabel]
  refine (takes_eat (by simp)).thenReading (hvalue.bind fun w g₁ _ hw => ?_)
  exact .pure fun g₂ hg => ⟨[w], rfl, .cons (hw.mono hg) .nil⟩

theorem reading_branch {v₁ v₂ v₃ : Handle} {u₁ u₂ u₃ : Value} (h₁ : Usable f i v₁ u₁)
    (h₂ : Usable f i v₂ u₂) (h₃ : Usable f i v₃ u₃) (hcondition : u₁.type = .int 1) :
    Reading f i g (u₁.typed ++ .comma :: (u₂.typed ++ .comma :: (u₃.typed ++ x))) x br
      (Says f [v₁, v₂, v₃] .br .void none) := by
  have hlabel : Ty.ofWord? "label" ≠ some u₁.type := by simp [Ty.ofWord?, hcondition]
  refine (takes_eatKeyword_typed h₁ hlabel).thenReading (reading_three h₁ h₂ h₃ ?_)
  intro g a b c hops _
  exact ⟨_, rfl, hops⟩

/-! ## Returns -/

theorem reading_retVoid :
    Reading f i g (.word "void" :: x) x ret (Says f [] .ret .void none) :=
  (takes_eat (by simp)).thenReading (.pure fun _ _ => ⟨[], rfl, .nil⟩)

theorem reading_ret (hu : Usable f i v u) :
    Reading f i g (u.typed ++ x) x ret (Says f [v] .ret .void none) := by
  have hvoid : Ty.ofWord? "void" ≠ some u.type := fun e => hu.typed.ne_void (Option.some.inj e).symm
  refine (takes_eatKeyword_typed hu hvoid).thenReading ((reading_typedValue hu).bind ?_)
  intro a g₁ _ ha
  exact .pure fun g₂ hg => ⟨[a.1], rfl, .cons (ha.1.mono hg) .nil⟩

/-! ## Calls -/

/-- No attributes stand in front of a value. -/
theorem takes_skipArgumentAttributes {t : Token} (ht : t.isOperand = true) :
    Takes (t :: x) (t :: x) skipArgumentAttributes () := by
  refine .iterate_done (takes_peek.bind ?_)
  cases t with
  | word w => cases ht
  | _ => exact .pure

/-- An argument.  The comma behind it decides whether more are read. -/
theorem reading_callArgument {vs ws : List Handle} (hws : List.Forall₂ (f.Denotes g) vs ws)
    (hu : Usable f i v u) {y : List Token} {more : Bool} (hcomma : Takes x y (eat .comma) more) :
    Reading f i g (u.typed ++ x) y (callArgument ws) fun g' r => ∃ ws',
      r = (if more then .again ws' else .done ws') ∧
        List.Forall₂ (f.Denotes g') (vs ++ [v]) ws' := by
  obtain ⟨t, ht, hpeek⟩ := takes_peek_type (x := u.token :: x) hu.typed.valid
  rw [Value.typed_append]
  refine hpeek.thenReading ?_
  rw [if_neg (Token.ne_of_startsType ht rfl)]
  refine (takes_type hu.typed.valid (Token.ne_of_isOperand u.isOperand_token rfl)).thenReading ?_
  refine (takes_skipArgumentAttributes u.isOperand_token).thenReading ?_
  refine (reading_value hu).bind fun w g₁ hg hw => hcomma.thenReading ?_
  have hall : ∀ g₂, g₁.Extends g₂ → List.Forall₂ (f.Denotes g₂) (vs ++ [v]) (ws ++ [w]) :=
    fun g₂ hg' => denotes_append hws (hg.trans hg') (hw.mono hg')
  cases more with
  | true => exact .pure fun g₂ hg' => ⟨_, rfl, hall g₂ hg'⟩
  | false => exact .pure fun g₂ hg' => ⟨_, rfl, hall g₂ hg'⟩

/-- Arguments with commas between them.  Those read before denote `vs`. -/
theorem reading_callArguments {vs vs' ws : List Handle} {us : List Value}
    (hws : List.Forall₂ (f.Denotes g) vs ws) (h : List.Forall₂ (Usable f i) vs' us) :
    Reading f i g (commaSeparated (us.map Value.typed) ++ .rparen :: x) (.rparen :: x)
      (iterate callArgument ws) fun g' ws' => List.Forall₂ (f.Denotes g') (vs ++ vs') ws' := by
  induction h generalizing g vs ws with
  | nil =>
    rw [List.append_nil]
    refine .iterate_done (takes_peek.thenReading ?_)
    rw [if_pos rfl]
    exact .pure fun g' hg => ⟨ws, rfl, hws.imp fun _ _ hvw => hvw.mono hg⟩
  | @cons v u vs' us hu h ih =>
    cases h with
    | nil =>
      rw [List.map_singleton, commaSeparated_singleton]
      exact .iterate_done (reading_callArgument hws hu (takes_eat_other (by simp)))
    | cons _ _ =>
      rw [commaSeparated_typed, List.append_cons vs]
      refine .iterate_again (reading_callArgument hws hu (takes_eat (by simp))) ?_ ?_
      · simp only [List.length_append, List.length_cons]
        omega
      · exact fun ws' g' hg hws' => ih hws'

theorem reading_callee (hu : Usable f i v u) {name : String} (hname : u.kind = .symbol name) :
    Reading f i g (u.token :: x) x callee fun g' w => f.Denotes g' v w := by
  obtain ⟨_, type, given⟩ := u
  obtain rfl : _ = ValueKind.symbol name := hname
  obtain ⟨rfl, _⟩ := hu.typed
  exact takes_peek.thenReading ((takes_advance (Token.ne_of_isOperand rfl rfl)).thenReading
    (reading_build hu.value fun hb ht => Builder.symbol_gives hb ht name))

theorem reading_callHead (h : type.Valid) (hu : Usable f i v u) {name : String}
    (hname : u.kind = .symbol name) :
    Reading f i g (type.tokens ++ u.token :: .lparen :: x) x callHead
      fun g' a => a.1 = type ∧ f.Denotes g' v a.2 := by
  have hoperand := u.isOperand_token
  refine (takes_skip_other h fun _ => isCallDecoration_of_startsType).thenReading ?_
  refine (takes_type h (Token.ne_of_isOperand hoperand rfl)).thenReading (takes_peek.thenReading ?_)
  rw [if_neg (Token.ne_of_isOperand hoperand rfl)]
  refine (reading_callee hu hname).bind fun w g₁ _ hw => (takes_expect (by simp)).thenReading ?_
  exact .pure fun g₂ hg => ⟨rfl, hw.mono hg⟩

theorem reading_call (h : type.Valid) {vs : List Handle} {us : List Value}
    (hus : List.Forall₂ (Usable f i) vs us) (hu : Usable f i v u) {name : String}
    (hname : u.kind = .symbol name) :
    Reading f i g (type.tokens ++ u.token :: .lparen ::
        (commaSeparated (us.map Value.typed) ++ .rparen :: x)) x call
      (Says f (vs ++ [v]) .call type none) := by
  refine (reading_callHead h hu hname).bind fun head g₁ _ hhead => ?_
  obtain ⟨hty, hw⟩ := hhead
  refine (reading_callArguments .nil hus).bind fun ws g₂ hg hws => ?_
  refine (takes_expect (by simp)).thenReading (.pure fun g₃ hg' => ⟨ws ++ [head.2], by rw [← hty], ?_⟩)
  exact denotes_append hws hg' (hw.mono (hg.trans hg'))

/-! ## All opcodes -/

/-- The operands of an instruction are read from the tokens they are written to. -/
theorem reading_operandsOf {opcode : Opcode} {predicate : Option Predicate} {vs : List Handle}
    {us : List Value} (hopcode : opcode.Typed predicate us type)
    (hus : List.Forall₂ (Usable f i) vs us) (h : element.Valid) (named : Bool) :
    Reading f i g (operandTokens element type predicate opcode us ++ .newline :: x) (.newline :: x)
      (operandsOf opcode.name named) (Says f vs opcode type predicate) := by
  cases hopcode with
  | alloca =>
    obtain _ | _ := hus
    exact reading_alloca h
  | load htype =>
    obtain _ | ⟨hu, _ | _⟩ := hus
    show Reading f i g (commaSeparated [_, _] ++ _) _ _ _
    rw [commaSeparated_two]
    exact reading_load htype hu
  | store =>
    obtain _ | ⟨hu, _ | ⟨hu', _ | _⟩⟩ := hus
    show Reading f i g (commaSeparated [_, _] ++ _) _ _ _
    rw [commaSeparated_two]
    exact reading_store hu hu'
  | address =>
    obtain _ | ⟨hu, hus⟩ := hus
    show Reading f i g (commaSeparated (_ :: List.map _ (_ :: _)) ++ _) _ _ _
    rw [commaSeparated_cons, List.flatMap_map, List.append_assoc]
    exact reading_getelementptr h (.cons hu hus)
  | arithmetic hmem htype =>
    obtain _ | ⟨hu, _ | ⟨hu', _ | _⟩⟩ := hus
    simp only [List.mem_cons, List.not_mem_nil, or_false] at hmem
    rcases hmem with rfl | rfl | rfl | rfl | rfl
    all_goals
      show Reading f i g (_ ++ [.comma, _] ++ _) _ _ _
      rw [List.append_assoc]
    · exact reading_arithmetic .fadd hu hu' htype
    · exact reading_arithmetic .fsub hu hu' htype
    · exact reading_arithmetic .fmul hu hu' htype
    · exact reading_arithmetic .fdiv hu hu' htype
    · exact reading_or hu hu' htype
  | fneg =>
    obtain _ | ⟨hu, _ | _⟩ := hus
    show Reading f i g (commaSeparated [_] ++ _) _ _ _
    rw [commaSeparated_singleton]
    exact reading_fneg hu
  | fcmp p htype =>
    obtain _ | ⟨hu, _ | ⟨hu', _ | _⟩⟩ := hus
    show Reading f i g (.word p.word :: (_ ++ [.comma, _] ++ _)) _ _ _
    rw [List.append_assoc]
    exact reading_fcmp p hu hu' htype
  | icmp p htype =>
    obtain _ | ⟨hu, _ | ⟨hu', _ | _⟩⟩ := hus
    show Reading f i g (.word p.word :: (_ ++ [.comma, _] ++ _)) _ _ _
    rw [List.append_assoc]
    exact reading_icmp p hu hu' htype
  | zext htype =>
    obtain _ | ⟨hu, _ | _⟩ := hus
    show Reading f i g (_ ++ (.word "to" :: _) ++ _) _ _ _
    rw [List.append_assoc]
    exact reading_zext htype hu
  | select =>
    obtain _ | ⟨h₁, _ | ⟨h₂, _ | ⟨h₃, _ | _⟩⟩⟩ := hus
    show Reading f i g (commaSeparated [_, _, _] ++ _) _ _ _
    rw [commaSeparated_three]
    exact reading_select h₁ h₂ h₃
  | @call args callee name _ hcallee htype =>
    have hargs := List.forall₂_take_append vs args [callee] hus
    have hlast := List.forall₂_drop_append vs args [callee] hus
    obtain ⟨v, _, hu, hnil, hdrop⟩ := List.forall₂_cons_right_iff.mp hlast
    rw [List.forall₂_nil_right_iff.mp hnil] at hdrop
    have htokens : operandTokens element type none .call (args ++ [callee]) ++ .newline :: x =
        type.tokens ++ callee.token :: .lparen ::
          (commaSeparated (args.map Value.typed) ++ .rparen :: .newline :: x) := by
      simp [operandTokens]
    rw [htokens, ← List.take_append_drop args.length vs, hdrop]
    exact reading_call htype hargs hu hcallee
  | jump hlabel =>
    obtain _ | ⟨hu, _ | _⟩ := hus
    show Reading f i g (commaSeparated [_] ++ _) _ _ _
    rw [commaSeparated_singleton]
    exact reading_jump hu hlabel
  | branch hcondition =>
    obtain _ | ⟨h₁, _ | ⟨h₂, _ | ⟨h₃, _ | _⟩⟩⟩ := hus
    show Reading f i g (commaSeparated [_, _, _] ++ _) _ _ _
    rw [commaSeparated_three]
    exact reading_branch h₁ h₂ h₃ hcondition
  | retVoid =>
    obtain _ | _ := hus
    exact reading_retVoid
  | ret =>
    obtain _ | ⟨hu, _ | _⟩ := hus
    show Reading f i g (commaSeparated [_] ++ _) _ _ _
    rw [commaSeparated_singleton]
    exact reading_ret hu

end

end Reader
end SsaGraph

import SsaGraph.Proofs.Program.Arena
import SsaGraph.Proofs.Program.Lines
import SsaGraph.Proofs.Program.Parameters

/-!
Reading whole functions.  The header of a function gives its arguments (`knows_start`),
and each line one more of its instructions (`reads_instruction`).  So a body is read to a
function with the same instructions (`reads_function`).
-/

namespace SsaGraph
namespace Reader

section
variable {f : Func} {i : Nat} {b : Builder} {l : Table String Handle} {inst : Instruction}

/-! ## Instructions -/

/-- One more instruction of the function. -/
theorem Knows.step {b' : Builder} {l' : Table String Handle} {new : Instruction}
    (h : Knows f i b l) (hinst : f.instructions[i]? = some inst) (hsound : b'.Sound)
    (htyped : b'.func.NamesTyped) (hgrows : b.func.Extends b'.func)
    (hname : b'.func.name = b.func.name) (hargs : b'.func.args = b.func.args)
    (hinsts : b'.func.instructions = b.func.instructions.push new)
    (hnew : f.SameInstruction b'.func inst new)
    (hlocals : ∀ {v x name}, f.value? v = some x → x.isLocal = true → x.name = some name →
      (∀ j, x.kind = .result j → j < i + 1) → ∃ w, l'.get? name = some w ∧ f.Denotes b'.func v w) :
    Knows f (i + 1) b' l' where
  sound := hsound
  typed := htyped
  name := hname.trans h.name
  args := by
    rw [hargs]
    exact h.args.imp fun _ _ hvw => hvw.mono hgrows
  instructions := by
    have htake : f.instructions.toList.take (i + 1) = f.instructions.toList.take i ++ [inst] := by
      rw [List.take_add_one, Array.getElem?_toList, hinst]
      rfl
    rw [htake, hinsts, Array.toList_push]
    exact List.rel_append (h.instructions.imp fun _ _ hab => hab.mono hgrows) (.cons hnew .nil)
  locals := hlocals

theorem Knows.size (h : Knows f i b l) (hinst : f.instructions[i]? = some inst) :
    b.func.instructions.size = i := by
  obtain ⟨hlt, _⟩ := Array.getElem?_eq_some_iff.mp hinst
  have hlength := h.instructions.length_eq
  rw [List.length_take, Array.length_toList, Array.length_toList] at hlength
  omega

/-- Operands that denote something are in the arena. -/
theorem lt_of_denotes {g : Func} {vs ws : List Handle} (h : List.Forall₂ (f.Denotes g) vs ws) :
    ∀ w ∈ ws, w < g.values.size := by
  induction h with
  | nil => simp
  | cons hvw _ ih =>
    obtain ⟨_, y, _, hy, _⟩ := hvw
    exact List.forall_mem_cons.mpr ⟨Func.lt_of_value? hy, ih⟩

/-- What is not the result of an instruction was defined before it. -/
theorem defined_before (hf : f.Scoped) (hinst : f.instructions[i]? = some inst) {v : Handle}
    {x : Value} (hx : f.value? v = some x) (hother : inst.result ≠ some v)
    (hdefined : ∀ j, x.kind = .result j → j < i + 1) : ∀ j, x.kind = .result j → j < i := by
  intro j hj
  refine Nat.lt_of_le_of_ne (Nat.le_of_lt_succ (hdefined j hj)) fun e => ?_
  have hkind : f.kind? v = some (.result i) := by rw [Func.kind?, hx, Option.map_some, hj, e]
  obtain ⟨inst', hinst', hv⟩ := hf.results.mp hkind
  rw [hinst] at hinst'
  cases hinst'
  exact hother hv

/-- An instruction without a result changes no name. -/
theorem Knows.push_effect (hf : f.Writable) (h : Knows f i b l)
    (hinst : f.instructions[i]? = some inst) (hresult : inst.result = none) {ws : List Handle}
    (hws : List.Forall₂ (f.Denotes b.func) inst.operands ws) :
    Knows f (i + 1) (b.push inst.opcode ws .void inst.predicate none).1 l := by
  have hsound :=
    Builder.sound_push h.sound (lt_of_denotes hws) inst.opcode .void inst.predicate none
  rw [Builder.push_void] at hsound ⊢
  refine h.step hinst hsound h.typed (.refl _) rfl rfl rfl ⟨rfl, rfl, hws, ?_⟩ ?_
  · rw [hresult]
    exact .none
  · intro v x name hv hlocal hname hdefined
    have hother : inst.result ≠ some v := by simp [hresult]
    exact h.locals hv hlocal hname (defined_before hf.toScoped hinst hv hother hdefined)

/-- The result of an instruction gets its name. -/
theorem Knows.push_result (hf : f.Writable) (h : Knows f i b l)
    (hinst : f.instructions[i]? = some inst) {v : Handle} {x : Value} {name : String}
    (hresult : inst.result = some v) (hx : f.value? v = some x) (hkind : x.kind = .result i)
    (hname : x.name = some name) (hvoid : x.type ≠ .void) {ws : List Handle}
    (hws : List.Forall₂ (f.Denotes b.func) inst.operands ws) :
    Knows f (i + 1) (b.push inst.opcode ws x.type inst.predicate (some name)).1
      (l.insert name b.func.values.size) := by
  have hsound :=
    Builder.sound_push h.sound (lt_of_denotes hws) inst.opcode x.type inst.predicate (some name)
  rw [Builder.push_of_ne_void hvoid] at hsound ⊢
  have hlocal : x.isLocal = true := by rw [Value.isLocal, hkind]
  have hgrows := b.func.extends_pushValue (.result b.func.instructions.size) x.type (some name)
  have hnew := b.func.value?_pushValue_new (.result b.func.instructions.size) x.type (some name)
  refine h.step hinst hsound (h.typed.pushValue (by simp) (by simp) _) hgrows rfl rfl rfl
    ⟨rfl, rfl, hws.imp fun _ _ hvw => hvw.mono hgrows, ?_⟩ ?_
  · rw [hresult]
    exact .some ⟨x, _, hx, hnew, rfl, hname.symm⟩
  · intro v' x' name' hv' hlocal' hname' hdefined
    by_cases hv : v' = v
    · subst hv
      rw [hx] at hv'
      cases hv'
      rw [hname] at hname'
      cases hname'
      refine ⟨b.func.values.size, Table.get?_insert_self l name _, x, _, hx, hnew, ?_, rfl⟩
      rw [hkind, ← h.size hinst]
    · have hother : inst.result ≠ some v' := fun e => hv (Option.some.inj (e.symm.trans hresult))
      obtain ⟨w, hw, hvw⟩ :=
        h.locals hv' hlocal' hname' (defined_before hf.toScoped hinst hv' hother hdefined)
      refine ⟨w, ?_, hvw.mono hgrows⟩
      rw [Table.get?_insert_of_ne l _ fun e => hv ?_, hw]
      exact hf.eq_of_name hv' hx hlocal' hlocal (by rw [hname', hname, e])

variable {x : List Token}

theorem takes_resultName {name : String} :
    Takes (.loc name :: .equals :: x) x resultName (some name) :=
  takes_peek.bind (takes_peekNext.bind
    ((takes_advance (by simp)).bind ((takes_advance (by simp)).bind .pure)))

theorem takes_resultName_none {w : String} :
    Takes (.word w :: x) (.word w :: x) resultName none :=
  takes_peek.bind (takes_peekNext.bind .pure)

/-- The span of a line does not matter. -/
theorem reads_setSpan (h : Knows f i b l) (span : ReadState → Span) :
    Reads b l x x (modify fun s => { s with builder := { s.builder with span := span s } })
      fun _ b' l' => Knows f i b' l' := by
  intro s hb hl hx
  refine ⟨(), _, rfl, hx, rfl, ?_⟩
  show Knows f i { s.builder with span := span s } s.locals
  rw [hb, hl]
  exact ⟨⟨h.sound.func, h.sound.symbols, h.sound.labels⟩, h.typed, h.name, h.args, h.instructions,
    h.locals⟩

theorem reads_build {α : Type} (make : Builder → Builder × α) :
    Reads b l x x (build make) fun a b' l' => a = (make b).2 ∧ b' = (make b).1 ∧ l' = l := by
  intro s hb hl hx
  refine ⟨_, _, rfl, hx, rfl, ?_⟩
  rw [hb]
  exact ⟨rfl, rfl, hl⟩

theorem reads_define (name : String) (v : Handle) :
    Reads b l x x (define name v) fun _ b' l' => b' = b ∧ l' = l.insert name v := by
  intro s hb hl hx
  exact ⟨(), _, rfl, hx, rfl, hb, by rw [← hl]⟩

/-- Operands are defined before they are used. -/
theorem usable_operands (hf : f.Writable) (hinst : f.instructions[i]? = some inst) :
    List.Forall₂ (Usable f i) inst.operands (f.operandValues inst) := by
  refine forall₂_filterMap fun v hv => ?_
  obtain ⟨k, hk, hdefined⟩ := hf.operands hinst hv
  obtain ⟨u, hu, hkind⟩ := Option.map_eq_some_iff.mp hk
  exact ⟨u, hu, hu, hf.wellTyped hu, fun j hj => hdefined j (hkind.symm.trans hj)⟩

/-- What stands behind an opcode is read and pushed. -/
theorem reads_operands {element : Ty} (hf : f.Writable) (h : Knows f i b l)
    (hinst : f.instructions[i]? = some inst) (helement : element.Valid) (name : Option String) :
    Reads b l
      (operandTokens element (f.resultType inst) inst.predicate inst.opcode
        (f.operandValues inst) ++ .newline :: x) (.newline :: x)
      (do
        let line ← operandsOf inst.opcode.name name.isSome
        build (·.push line.opcode line.operands line.type line.predicate name))
      fun v b' l' => ∃ b₁ ws, Knows f i b₁ l' ∧
        List.Forall₂ (f.Denotes b₁.func) inst.operands ws ∧
        b' = (b₁.push inst.opcode ws (f.resultType inst) inst.predicate name).1 ∧
        v = (b₁.push inst.opcode ws (f.resultType inst) inst.predicate name).2 := by
  have hopcode := hf.instructions inst (Array.mem_toList_iff.mpr (Array.mem_of_getElem? hinst))
  have husable := usable_operands hf hinst
  have hline := reading_operandsOf (g := b.func) (x := x) hopcode husable helement name.isSome
  refine (hline b l h (.refl _)).bind fun line b₁ l₁ hb₁ => ?_
  obtain ⟨hb₁, _, ws, rfl, hws⟩ := hb₁
  refine (reads_build _).imp fun v b₂ l₂ hb₂ => ?_
  obtain ⟨rfl, rfl, rfl⟩ := hb₂
  exact ⟨b₁, ws, hb₁, hws, rfl, rfl⟩

theorem reads_instruction {element : Ty} (hf : f.Writable) (h : Knows f i b l)
    (hinst : f.instructions[i]? = some inst) (helement : element.Valid) :
    Reads b l (f.lineTokens element inst ++ .newline :: x) (.newline :: x) instruction
      fun _ b' l' => Knows f (i + 1) b' l' := by
  refine (reads_setSpan h fun s => lineSpan s.rest).bind fun _ b l h => ?_
  cases hresult : inst.result with
  | none =>
    have hnone : f.result? inst = none := by rw [Func.result?, hresult, Option.bind_none]
    have hvoid : f.resultType inst = .void := by rw [Func.resultType, hnone]; rfl
    rw [Func.lineTokens, hnone]
    refine takes_resultName_none.andThen (reads_expectWord.bind fun word b l hword => ?_)
    obtain ⟨hword, rfl, rfl⟩ := hword
    rw [hword, ← bind_assoc]
    refine (reads_operands hf h hinst helement none).bind fun v b' l' hpush => .pure ?_
    obtain ⟨b₁, ws, hb₁, hws, rfl, _⟩ := hpush
    rw [hvoid]
    exact hb₁.push_effect hf hinst hresult hws
  | some v =>
    obtain ⟨y, name, hy, hkind, hname, hvoid⟩ := hf.result hinst hresult
    have hsome : f.result? inst = some y := by rw [Func.result?, hresult, Option.bind_some, hy]
    have htype : f.resultType inst = y.type := by rw [Func.resultType, hsome]; rfl
    have htoken : y.token = .loc name := by rw [Value.token, hkind, hname]; rfl
    rw [Func.lineTokens, hsome]
    dsimp only
    rw [htoken]
    refine takes_resultName.andThen (reads_expectWord.bind fun word b l hword => ?_)
    obtain ⟨hword, rfl, rfl⟩ := hword
    rw [hword, ← bind_assoc]
    refine (reads_operands hf h hinst helement (some name)).bind fun w b' l' hpush => ?_
    obtain ⟨b₁, ws, hb₁, hws, rfl, rfl⟩ := hpush
    have hknows := hb₁.push_result hf hinst hresult hy hkind hname hvoid hws
    rw [htype]
    rw [Builder.push_of_ne_void hvoid] at hknows ⊢
    refine (reads_define name _).imp fun _ b₂ l₂ hdefine => ?_
    obtain ⟨rfl, rfl⟩ := hdefine
    exact hknows

/-! ## Bodies -/

theorem takes_label? {t : Token}
    (h : ((∀ w, t ≠ .word w) ∧ (∀ n, t ≠ .int n) ∧ ∀ s, t ≠ .str s) ∨ x.headD t ≠ .colon) :
    Takes (t :: x) (t :: x) label? none := by
  refine takes_peek.bind (takes_peekNext.bind ?_)
  split
  next w hcolon => exact (h.elim (fun ht => ht.1 w rfl) fun hx => hx hcolon).elim
  next n hcolon => exact (h.elim (fun ht => ht.2.1 n rfl) fun hx => hx hcolon).elim
  next s hcolon => exact (h.elim (fun ht => ht.2.2 s rfl) fun hx => hx hcolon).elim
  · exact .pure

theorem reads_recover {y : List Token} {m : Reader Unit}
    {post : Unit → Builder → Table String Handle → Prop} (h : Reads b l x y m post) :
    Reads b l x y (recover m) post := by
  intro s hb hl hx
  obtain ⟨_, t, hr, hy, hfaults, hpost⟩ := h s hb hl hx
  refine ⟨(), t, ?_, hy, hfaults, hpost⟩
  rw [recover, hr]

theorem takes_fromLineEnd : Takes (.newline :: x) (.newline :: x) (skip fromLineEnd) () :=
  takes_skip_none fun _ => rfl

theorem headD_ne_colon {ts : List Token} (h : ∀ t ∈ ts, t.Plain) (x : List Token) (t : Token) :
    (ts ++ .newline :: x).headD t ≠ .colon := by
  cases ts with
  | nil => simp
  | cons u ts => exact (h u List.mem_cons_self).2

/-- No line starts with a label or ends the body. -/
theorem exists_line (element : Ty) (hf : f.Writable) (hinst : f.instructions[i]? = some inst)
    (x : List Token) : ∃ t ts, f.lineTokens element inst ++ .newline :: x = t :: ts ∧
      Takes (t :: ts) (t :: ts) label? none ∧ ((∃ name, t = .loc name) ∨ ∃ w, t = .word w) := by
  unfold Func.lineTokens
  split
  next y hy =>
    obtain ⟨v, hv, hvalue⟩ := Option.bind_eq_some_iff.mp hy
    obtain ⟨y', name, hy', hkind, hname, _⟩ := hf.result hinst hv
    rw [hvalue] at hy'
    cases hy'
    have htoken : y.token = .loc name := by rw [Value.token, hkind, hname]; rfl
    exact ⟨_, _, rfl, takes_label? (.inl (by simp [htoken])), .inl ⟨name, htoken⟩⟩
  · have hvalues : ∀ u ∈ f.operandValues inst, u.WellTyped := hf.wellTyped_of_mem
    have hplain :=
      plain_operandTokens element (f.resultType inst) inst.predicate inst.opcode hvalues
    exact ⟨_, _, rfl, takes_label? (.inr (headD_ne_colon hplain x _)), .inr ⟨_, rfl⟩⟩

theorem reads_line {element : Ty} (hf : f.Writable) (h : Knows f i b l)
    (hinst : f.instructions[i]? = some inst) (helement : element.Valid) :
    Reads b l (f.lineTokens element inst ++ .newline :: x) (.newline :: x) bodyPart
      fun r b' l' => ∃ u, r = .again u ∧ Knows f (i + 1) b' l' := by
  have hline := reads_instruction (x := x) hf h hinst helement
  obtain ⟨t, ts, htokens, hlabel, ht⟩ := exists_line element hf hinst x
  rw [htokens] at hline ⊢
  refine hlabel.andThen (takes_peek.andThen ?_)
  rcases ht with ⟨name, rfl⟩ | ⟨w, rfl⟩
  · refine (reads_recover hline).bind fun _ b' l' h' => takes_fromLineEnd.andThen ?_
    exact .pure ⟨(), rfl, h'⟩
  · refine (reads_recover hline).bind fun _ b' l' h' => takes_fromLineEnd.andThen ?_
    exact .pure ⟨(), rfl, h'⟩

theorem takes_lineEnd : Takes (.newline :: x) x bodyPart (.again ()) :=
  (takes_label? (.inl (by simp))).bind (takes_peek.bind ((takes_advance (by simp)).bind .pure))

theorem takes_bodyEnd : Takes (.rbrace :: x) x bodyPart (.done ()) :=
  (takes_label? (.inl (by simp))).bind (takes_peek.bind ((takes_advance (by simp)).bind .pure))

theorem Knows.sameAs (h : Knows f i b l) (hall : f.instructions.toList.drop i = []) :
    f.SameAs b.func := by
  refine ⟨h.name, h.args, ?_⟩
  have hinsts := h.instructions
  rwa [List.take_of_length_le (List.drop_eq_nil_iff.mp hall)] at hinsts

/-- The lines that are left, and the closing brace. -/
theorem reads_body {elements : Nat → Ty} (hf : f.Writable) (helements : ∀ i, (elements i).Valid)
    (h : Knows f i b l) {insts : List Instruction} (hinsts : f.instructions.toList.drop i = insts) :
    Reads b l (f.bodyTokens elements i insts ++ .rbrace :: x) x (iterate (fun _ => bodyPart) ())
      fun _ b' _ => f.SameAs b'.func := by
  induction insts generalizing i b l with
  | nil =>
    refine .iterate_done ((takes_bodyEnd b l).imp fun r b' l' hr => ?_)
    obtain ⟨rfl, rfl, rfl⟩ := hr
    exact ⟨(), rfl, h.sameAs hinsts⟩
  | cons inst insts ih =>
    have hinst : f.instructions[i]? = some inst := by
      rw [← Array.getElem?_toList, ← List.head?_drop, hinsts]
      rfl
    have hrest : f.instructions.toList.drop (i + 1) = insts := by
      rw [← List.tail_drop, hinsts]
      rfl
    rw [Func.bodyTokens, List.append_assoc, List.cons_append]
    have hlength := List.length_pos_iff.mpr (f.lineTokens_ne_nil (elements i) inst)
    refine .iterate_again (reads_line hf h hinst (helements i)) ?_ fun _ b' l' h' => ?_
    · simp only [List.length_append]
      omega
    · exact takes_lineEnd.iterate_andThen (by simp) (ih h' hrest)

/-! ## Headers -/

def parameterOf (u : Value) : Ty × String := (u.type, u.name.getD "")

theorem endsResult_of_mem_tokens {returns : Ty} {t : Token} (ht : t ∈ returns.tokens) :
    endsResult t = false := by
  rcases Ty.mem_tokens ht with rfl | rfl | ⟨n, rfl⟩ | ⟨w, rfl⟩ <;> rfl

/-- Arguments are written as parameters. -/
theorem entry_typed {u : Value} (hu : u.WellTyped) (hlocal : u.isLocal = true) (n : Nat) :
    Entry n u.typed (parameterOf u) := by
  have hentry := Entry.intro (n := n) (some (u.name.getD "")) (Ty.spelled_tokens hu.valid)
    (List.forall_mem_nil _) (by simp)
  rw [List.append_nil, Option.map_some, ← Value.token_of_isLocal hlocal] at hentry
  exact hentry

theorem listed_typed {us : List Value} (h : ∀ u ∈ us, u.WellTyped ∧ u.isLocal = true) (n : Nat) :
    Listed n (commaSeparated (us.map Value.typed)) (us.map parameterOf) := by
  induction us generalizing n with
  | nil => exact .nil
  | cons u us ih =>
    obtain ⟨⟨hu, hlocal⟩, hus⟩ := List.forall_mem_cons.mp h
    cases us with
    | nil =>
      rw [List.map_singleton, commaSeparated_singleton]
      exact .last (entry_typed hu hlocal n)
    | cons u' us =>
      rw [List.map_cons, List.map_cons, commaSeparated_cons_cons]
      exact .cons (entry_typed hu hlocal n) (ih hus (n + 1))

/-! ## Functions -/

/-- A name that belongs to one handle only stands for it. -/
theorem get?_foldl_insert_of_unique {ps : List ((Ty × String) × Handle)} {t : Table String Handle}
    {name : String} {v : Handle} (hunique : ∀ p ∈ ps, p.1.2 = name → p.2 = v)
    (h : (∃ p ∈ ps, p.1.2 = name) ∨ t.get? name = some v) :
    (ps.foldl (fun t p => t.insert p.1.2 p.2) t).get? name = some v := by
  induction ps generalizing t with
  | nil => exact h.resolve_left (by simp)
  | cons p ps ih =>
    obtain ⟨hp, hps⟩ := List.forall_mem_cons.mp hunique
    refine ih hps ?_
    show _ ∨ (t.insert p.1.2 p.2).get? name = some v
    by_cases hname : p.1.2 = name
    · rw [hname, Table.get?_insert_self, hp hname]
      exact .inr rfl
    · rw [Table.get?_insert_of_ne t _ fun e => hname e.symm]
      refine h.imp_left ?_
      rintro ⟨q, hq, hqname⟩
      rcases List.mem_cons.mp hq with rfl | hq
      · exact absurd hqname hname
      · exact ⟨q, hq, hqname⟩

theorem forall₂_argumentValues (hf : f.Writable) :
    List.Forall₂ (fun v u => f.value? v = some u) f.args f.argumentValues := by
  refine forall₂_filterMap fun v hv => ?_
  obtain ⟨j, hj⟩ := List.mem_iff_getElem?.mp hv
  obtain ⟨u, hu, _⟩ := Option.map_eq_some_iff.mp (hf.args hj).2
  exact ⟨u, hu, hu⟩

/-- The argument at a position, and the parameter it is written as. -/
theorem argument_at (hf : f.Writable) {j : Nat} {v : Handle} (hv : f.args[j]? = some v) :
    v = j ∧ ∃ u name, f.value? v = some u ∧ u.kind = .argument j ∧ u.name = some name ∧
      (f.argumentValues.map parameterOf)[j]? = some (u.type, name) := by
  obtain ⟨hvj, hkind⟩ := hf.args hv
  obtain ⟨u, huj, hu⟩ := forall₂_getElem? (forall₂_argumentValues hf) hv
  rw [Func.kind?, hu] at hkind
  have hkind : u.kind = .argument j := Option.some.inj hkind
  have htyped := hf.wellTyped hu
  rw [Value.WellTyped, hkind] at htyped
  obtain ⟨_, _, _, name, hname, _⟩ := htyped
  refine ⟨hvj, u, name, hu, hkind, hname, ?_⟩
  rw [List.getElem?_map, huj, Option.map_some, parameterOf, hname]
  rfl

theorem args_eq_range (hf : f.Writable) :
    f.args = List.range (f.argumentValues.map parameterOf).length := by
  have hlength := (forall₂_argumentValues hf).length_eq
  refine List.ext_getElem (by simp [hlength]) fun j hj _ => ?_
  rw [List.getElem_range, (hf.args (List.getElem?_eq_getElem hj)).1]

theorem namesTyped_withArgs (name : String) (params : List (Ty × String)) :
    (Func.withArgs name params).NamesTyped := by
  intro v u hu
  rw [Func.value?_withArgs] at hu
  obtain ⟨p, _, rfl⟩ := Option.map_eq_some_iff.mp hu
  exact ⟨by simp, by simp⟩

/-- The name of an argument stands for its position. -/
theorem get?_argument (hf : f.Writable) {params : List (Ty × String)}
    (hparams : params = f.argumentValues.map parameterOf) {j : Nat} {v : Handle} {u : Value}
    {name : String} (hv : f.args[j]? = some v) (hu : f.value? v = some u)
    (hlocal : u.isLocal = true) (hname : u.name = some name)
    (hp : params[j]? = some (u.type, name)) :
    ((params.zip f.args).foldl (fun t p => t.insert p.1.2 p.2) Table.empty).get? name = some v := by
  refine get?_foldl_insert_of_unique (fun p hp hpname => ?_) (.inl ⟨((u.type, name), v), ?_, rfl⟩)
  · obtain ⟨k, hk⟩ := List.mem_iff_getElem?.mp hp
    obtain ⟨hkparam, hkarg⟩ := List.getElem?_zip_eq_some.mp hk
    obtain ⟨_, u', name', hu', hkind', hname', hparam'⟩ := argument_at hf hkarg
    rw [← hparams, hkparam] at hparam'
    have hsame : u'.name = u.name := by
      rw [hname', hname, ← hpname, Option.some.inj hparam']
    exact hf.eq_of_name hu' hu (by rw [Value.isLocal, hkind']) hlocal hsame
  · exact List.mem_iff_getElem?.mpr ⟨j, List.getElem?_zip_eq_some.mpr ⟨hp, hv⟩⟩

/-- The header of a function gives its arguments. -/
theorem knows_start (hf : f.Writable) {params : List (Ty × String)}
    (hparams : params = f.argumentValues.map parameterOf) :
    Knows f 0 (.start (.withArgs f.name params))
      ((params.zip (Func.withArgs f.name params).args).foldl (fun t p => t.insert p.1.2 p.2)
        .empty) := by
  have hargs : (Func.withArgs f.name params).args = f.args := by
    rw [args_eq_range hf, ← hparams]
    rfl
  refine ⟨Builder.sound_start _ _, namesTyped_withArgs _ _, rfl, ?_, .nil, ?_⟩
  · show List.Forall₂ _ f.args (Func.withArgs f.name params).args
    rw [hargs, List.forall₂_same]
    intro v hv
    obtain ⟨j, hj⟩ := List.mem_iff_getElem?.mp hv
    obtain ⟨rfl, u, name, hu, _, hname, hp⟩ := argument_at hf hj
    refine ⟨u, ⟨.argument v, u.type, some name⟩, hu, ?_, rfl, hname.symm⟩
    show (Func.withArgs f.name params).value? v = _
    rw [Func.value?_withArgs, hparams, hp]
    rfl
  · intro v u name hu hlocal hname hdefined
    obtain ⟨j, hkind⟩ : ∃ j, u.kind = .argument j := by
      unfold Value.isLocal at hlocal
      split at hlocal
      next j hkind => exact ⟨j, hkind⟩
      next j hkind => exact absurd (hdefined j hkind) (Nat.not_lt_zero j)
      · cases hlocal
    have hv : f.args[j]? = some v :=
      hf.arg_of_kind (by rw [Func.kind?, hu, Option.map_some, hkind])
    obtain ⟨hvj, u', name', hu', _, hname', hp⟩ := argument_at hf hv
    rw [hu] at hu'
    cases hu'
    rw [hname] at hname'
    cases hname'
    rw [← hparams] at hp
    refine ⟨v, ?_, u, ⟨.argument v, u.type, some name⟩, hu, ?_, ?_, rfl⟩
    · rw [hargs]
      exact get?_argument hf hparams hv hu hlocal hname hp
    · show (Func.withArgs f.name params).value? v = _
      rw [Func.value?_withArgs, hvj, hp]
      rfl
    · rw [hkind, hvj]

theorem reads_enter (name : String) (params : List (Ty × String)) :
    Reads b l x x (enter name params) fun _ b' l' => b' = .start (.withArgs name params) ∧
      l' = (params.zip (Func.withArgs name params).args).foldl (fun t p => t.insert p.1.2 p.2)
        .empty :=
  fun _ _ _ hx => ⟨(), _, rfl, hx, rfl, rfl, rfl⟩

/-- The values of arguments are typed and have names. -/
theorem argumentValues_isLocal (hf : f.Writable) :
    ∀ u ∈ f.argumentValues, u.WellTyped ∧ u.isLocal = true := by
  intro u hu
  obtain ⟨v, hv, huv⟩ := List.mem_filterMap.mp hu
  obtain ⟨j, hj⟩ := List.mem_iff_getElem?.mp hv
  have hkind := (hf.args hj).2
  rw [Func.kind?, huv] at hkind
  have hkind : u.kind = .argument j := Option.some.inj hkind
  exact ⟨hf.wellTyped huv, by rw [Value.isLocal, hkind]⟩

/-- A function is read back from its tokens. -/
theorem reads_function (hf : f.Writable) (returns : Ty) {elements : Nat → Ty}
    (helements : ∀ i, (elements i).Valid) :
    Reads b l (f.tokens returns elements ++ x) (.newline :: x) function
      fun g _ _ => f.SameAs g := by
  have htokens : f.tokens returns elements ++ x = .word "define" :: (returns.tokens ++
      .glob f.name :: .lparen :: (commaSeparated (f.argumentValues.map Value.typed) ++ .rparen ::
        .lbrace :: .newline :: (f.bodyTokens elements 0 f.instructions.toList ++
          .rbrace :: .newline :: x))) := by
    simp [Func.tokens]
  rw [htokens]
  refine (takes_advance (by simp)).andThen ?_
  refine (takes_functionName fun t => endsResult_of_mem_tokens).andThen ?_
  refine (takes_expect (by simp)).andThen ?_
  refine (takes_parameters (listed_typed (argumentValues_isLocal hf) 0)).andThen ?_
  refine (takes_expect (by simp)).andThen ((takes_openBody (List.forall_mem_nil _)).andThen ?_)
  refine (reads_enter _ _).bind fun _ b l h => ?_
  obtain ⟨rfl, rfl⟩ := h
  have hbody := reads_body (x := .newline :: x) hf helements (knows_start hf rfl) rfl
  refine Reads.bind (takes_lineEnd.iterate_andThen (by simp) hbody) ?_
  intro _ b l hsame s hb _ hx
  exact ⟨s.builder.func, s, rfl, hx, rfl, by rwa [hb]⟩

/-! ## Texts -/

theorem reads_definition {y : List Token} {fs : List Func}
    {post : Func → Builder → Table String Handle → Prop} (h : Reads b l x y function post) :
    Reads b l x y (definition fs) fun r b' l' => ∃ gs, r = .again gs ∧
      ∃ g, gs = fs ++ [g] ∧ post g b' l' := by
  intro s hb hl hx
  obtain ⟨g, t, hr, hy, hfaults, hpost⟩ := h s hb hl hx
  refine ⟨.again (fs ++ [g]), t, ?_, hy, hfaults, _, rfl, g, rfl, hpost⟩
  rw [definition, hr]

/-- A text with one function. -/
theorem reads_functions (hf : f.Writable) (returns : Ty) {elements : Nat → Ty}
    (helements : ∀ i, (elements i).Valid) :
    Reads b l (f.tokens returns elements ++ [.eof]) [.eof] functions
      fun fs _ _ => ∃ g, fs = [g] ∧ f.SameAs g := by
  have hfunction : Reads b l (f.tokens returns elements ++ [.eof]) [.newline, .eof] (textPart [])
      fun r b' l' => ∃ gs, r = .again gs ∧ ∃ g, gs = [] ++ [g] ∧ f.SameAs g :=
    takes_peek.andThen (reads_definition (reads_function hf returns helements))
  have hnewline : ∀ fs : List Func, Takes [.newline, .eof] [.eof] (textPart fs) (.again fs) :=
    fun fs => takes_peek.bind ((takes_advance (by simp)).bind .pure)
  have heof : ∀ fs : List Func, Takes [.eof] [.eof] (textPart fs) (.done fs) :=
    fun fs => takes_peek.bind .pure
  refine hfunction.iterate_again ?_ fun fs b l h => ?_
  · have hlength : 2 < (f.tokens returns elements).length := by
      simp only [Func.tokens, List.length_cons, List.length_append]
      omega
    simp only [List.length_append, List.length_cons]
    omega
  · refine (hnewline fs).iterate_andThen (by simp) ((Takes.iterate_done (heof fs) b l).imp ?_)
    rintro _ _ _ ⟨rfl, _⟩
    exact h

end

end Reader
end SsaGraph

import SsaGraph.Func.Step
import SsaGraph.Proofs.Lowering.Buffer

/-!
The arena of a function.  In a function with `Arena` the arguments come first,
every operand is in the arena and was defined before, and a value is a result
exactly of the instruction that says so.  A builder keeps this whatever is built, as
long as the operands it is given are in its arena (`Builder.Sound`).
-/

namespace SsaGraph
namespace Func

def kind? (f : Func) (v : Handle) : Option ValueKind := (f.value? v).map (·.kind)

/-- Operands are defined before they are used, and values have one definition. -/
structure Scoped (f : Func) : Prop where
  args : ∀ {i v}, f.args[i]? = some v → v = i ∧ f.kind? v = some (.argument i)
  operands : ∀ {i inst v}, f.instructions[i]? = some inst → v ∈ inst.operands →
    ∃ k, f.kind? v = some k ∧ ∀ j, k = .result j → j < i
  results : ∀ {i v}, f.kind? v = some (.result i) ↔
    ∃ inst, f.instructions[i]? = some inst ∧ inst.result = some v

structure Arena (f : Func) : Prop extends Scoped f where
  symbols : ∀ {v w name}, f.kind? v = some (.symbol name) → f.kind? w = some (.symbol name) → v = w
  blocks : ∀ {v w name}, f.kind? v = some (.block name) → f.kind? w = some (.block name) → v = w

variable {f : Func}

/-- Two instructions have different results. -/
theorem Scoped.result_inj (h : f.Scoped) {i j : Nat} {a b : Instruction} {v : Handle}
    (ha : f.instructions[i]? = some a) (hb : f.instructions[j]? = some b)
    (hva : a.result = some v) (hvb : b.result = some v) : i = j := by
  have hi := h.results.mpr ⟨a, ha, hva⟩
  have hj := h.results.mpr ⟨b, hb, hvb⟩
  rw [hi] at hj
  cases hj
  rfl

theorem lt_size_iff {v : Handle} : v < f.values.size ↔ ∃ k, f.kind? v = some k := by
  unfold kind? value?
  by_cases h : v < f.values.size
  · simp [h]
  · simp [h]

theorem kind?_pushValue (f : Func) (kind : ValueKind) (type : Ty) (name : Option String)
    (v : Handle) :
    (f.pushValue kind type name).1.kind? v =
      if v = f.values.size then some kind else f.kind? v := by
  unfold kind? value? pushValue
  rw [Array.getElem?_push]
  split <;> rfl

theorem lt_of_kind? {v : Handle} {k : ValueKind} (h : f.kind? v = some k) : v < f.values.size :=
  lt_size_iff.mpr ⟨k, h⟩

theorem kind?_of_float? {v : Handle} {x : Binary64} (h : f.float? v = some x) :
    f.kind? v = some (.float x) := by
  unfold float? at h
  split at h
  next hv =>
    cases h
    rw [kind?, hv]
    rfl
  · cases h

/-- Values that were there keep their kind. -/
theorem kind?_pushValue_of_eq_some {v : Handle} {k : ValueKind} (h : f.kind? v = some k)
    (kind : ValueKind) (type : Ty) (name : Option String) :
    (f.pushValue kind type name).1.kind? v = some k := by
  rw [kind?_pushValue, if_neg (Nat.ne_of_lt (lt_of_kind? h)), h]

theorem Scoped.pushValue (h : f.Scoped) {kind : ValueKind} (hkind : ∀ i, kind ≠ .result i)
    (type : Ty) (name : Option String) : (f.pushValue kind type name).1.Scoped where
  args ha := ⟨(h.args ha).1, kind?_pushValue_of_eq_some (h.args ha).2 kind type name⟩
  operands hi hv := by
    obtain ⟨k, hk, hj⟩ := h.operands hi hv
    exact ⟨k, kind?_pushValue_of_eq_some hk kind type name, hj⟩
  results {i v} := by
    rw [kind?_pushValue]
    split
    next hv =>
      -- The new value is no result, and no instruction has it as one.
      refine ⟨fun e => absurd (Option.some.inj e) (hkind i), fun ⟨inst, hi, hr⟩ => ?_⟩
      have hlt := lt_of_kind? (h.results.mpr ⟨inst, hi, hr⟩)
      exact absurd hv (Nat.ne_of_lt hlt)
    · exact h.results

/-- An instruction without a result. -/
theorem Scoped.pushEffect (h : f.Scoped) {inst : Instruction} (hresult : inst.result = none)
    (hops : ∀ v ∈ inst.operands, v < f.values.size) :
    Scoped { f with instructions := f.instructions.push inst } where
  args ha := h.args ha
  operands {i old v} hi hv := by
    rw [Array.getElem?_push] at hi
    split at hi
    next hsize =>
      cases hi
      obtain ⟨k, hk⟩ := lt_size_iff.mp (hops v hv)
      refine ⟨k, hk, fun j hj => ?_⟩
      obtain ⟨_, hget, _⟩ := h.results.mp (hj ▸ hk)
      obtain ⟨hlt, _⟩ := Array.getElem?_eq_some_iff.mp hget
      omega
    · exact h.operands hi hv
  results {i v} := by
    show f.kind? v = some (.result i) ↔ _
    rw [h.results, Array.getElem?_push]
    split
    next hsize =>
      rw [hsize, Array.getElem?_eq_none (Nat.le_refl _)]
      refine ⟨fun ⟨_, he, _⟩ => (nomatch he), fun ⟨old, he, hr⟩ => ?_⟩
      cases he
      rw [hresult] at hr
      cases hr
    · exact Iff.rfl

/-- An instruction whose result is the next value. -/
theorem Scoped.pushResult (h : f.Scoped) {inst : Instruction}
    (hresult : inst.result = some f.values.size) (hops : ∀ v ∈ inst.operands, v < f.values.size)
    (type : Ty) (name : Option String) :
    Scoped { (f.pushValue (.result f.instructions.size) type name).1 with
      instructions := f.instructions.push inst } where
  args ha := ⟨(h.args ha).1, kind?_pushValue_of_eq_some (h.args ha).2 _ type name⟩
  operands {i old v} hi hv := by
    rw [Array.getElem?_push] at hi
    split at hi
    next hsize =>
      cases hi
      obtain ⟨k, hk⟩ := lt_size_iff.mp (hops v hv)
      refine ⟨k, kind?_pushValue_of_eq_some hk _ type name, fun j hj => ?_⟩
      obtain ⟨_, hget, _⟩ := h.results.mp (hj ▸ hk)
      obtain ⟨hlt, _⟩ := Array.getElem?_eq_some_iff.mp hget
      omega
    · obtain ⟨k, hk, hj⟩ := h.operands hi hv
      exact ⟨k, kind?_pushValue_of_eq_some hk _ type name, hj⟩
  results {i v} := by
    show (f.pushValue (.result f.instructions.size) type name).1.kind? v = _ ↔ _
    rw [kind?_pushValue, Array.getElem?_push]
    by_cases hv : v = f.values.size
    · rw [if_pos hv, Option.some.injEq, ValueKind.result.injEq]
      constructor
      · intro hi
        rw [if_pos hi.symm]
        exact ⟨inst, rfl, hv ▸ hresult⟩
      · rintro ⟨old, hget, hr⟩
        split at hget
        next hi => exact hi.symm
        · have hlt := lt_of_kind? (h.results.mpr ⟨old, hget, hr⟩)
          exact absurd hv (Nat.ne_of_lt hlt)
    · rw [if_neg hv, h.results]
      split
      next hi =>
        rw [hi, Array.getElem?_eq_none (Nat.le_refl _)]
        refine ⟨fun ⟨_, he, _⟩ => (nomatch he), fun ⟨old, he, hr⟩ => ?_⟩
        cases he
        rw [hresult] at hr
        cases hr
        exact absurd rfl hv
      · exact Iff.rfl

/-! ## Values in an arena -/

/-- All values of `f` are in `g`. -/
def Extends (f g : Func) : Prop := ∀ ⦃v x⦄, f.value? v = some x → g.value? v = some x

theorem Extends.refl (f : Func) : f.Extends f := fun _ _ h => h

theorem Extends.trans {f g h : Func} (hfg : f.Extends g) (hgh : g.Extends h) : f.Extends h :=
  fun _ _ hv => hgh (hfg hv)

theorem value?_withArgs (name : String) (params : List (Ty × String)) (v : Handle) :
    (withArgs name params).value? v = params[v]?.map fun p => ⟨.argument v, p.1, some p.2⟩ := by
  simp [withArgs, value?]

theorem value?_pushValue (f : Func) (kind : ValueKind) (type : Ty) (name : Option String)
    (v : Handle) :
    (f.pushValue kind type name).1.value? v =
      if v = f.values.size then some ⟨kind, type, name⟩ else f.value? v := by
  unfold value? pushValue
  rw [Array.getElem?_push]

theorem value?_pushValue_new (f : Func) (kind : ValueKind) (type : Ty) (name : Option String) :
    (f.pushValue kind type name).1.value? f.values.size = some ⟨kind, type, name⟩ := by
  rw [value?_pushValue, if_pos rfl]

theorem lt_of_value? {f : Func} {v : Handle} {x : Value} (h : f.value? v = some x) :
    v < f.values.size := (Array.getElem?_eq_some_iff.mp h).choose

theorem extends_pushValue (f : Func) (kind : ValueKind) (type : Ty) (name : Option String) :
    f.Extends (f.pushValue kind type name).1 := by
  intro v x h
  rw [value?_pushValue, if_neg (Nat.ne_of_lt (lt_of_value? h)), h]

end Func

namespace Builder

/-- The table has exactly the values of one kind, by their names. -/
def Names (f : Func) (kind : String → ValueKind) (t : Table String Handle) : Prop :=
  ∀ name v, t.get? name = some v ↔ f.kind? v = some (kind name)

section
variable {f : Func} {kind : String → ValueKind} {t : Table String Handle} (h : Names f kind t)
include h

theorem Names.unique {name : String} {v w : Handle} (hv : f.kind? v = some (kind name))
    (hw : f.kind? w = some (kind name)) : v = w :=
  Option.some.inj (((h name v).mpr hv).symm.trans ((h name w).mpr hw))

theorem Names.pushValue_other {other : ValueKind} (hother : ∀ name, other ≠ kind name) (type : Ty)
    (given : Option String) : Names (f.pushValue other type given).1 kind t := by
  intro name v
  rw [h name v, Func.kind?_pushValue]
  split
  next hv =>
    refine ⟨fun hk => absurd hv (Nat.ne_of_lt (Func.lt_of_kind? hk)), fun hk => ?_⟩
    exact absurd (Option.some.inj hk) (hother name)
  · exact Iff.rfl

theorem Names.pushValue_new (hkind : ∀ a b, kind a = kind b → a = b) {name : String}
    (hnew : t.get? name = none) (type : Ty) (given : Option String) :
    Names (f.pushValue (kind name) type given).1 kind (t.insert name f.values.size) := by
  intro other v
  rw [Table.get?_insert, Func.kind?_pushValue]
  by_cases hv : v = f.values.size
  · rw [if_pos hv, Option.some.injEq]
    split
    next ho => simp [ho, hv]
    next ho =>
      refine ⟨fun hs => ?_, fun hk => absurd (hkind _ _ hk).symm ho⟩
      exact absurd hv (Nat.ne_of_lt (Func.lt_of_kind? ((h other v).mp hs)))
  · rw [if_neg hv]
    split
    next ho =>
      refine ⟨fun hs => absurd (Option.some.inj hs).symm hv, fun hk => ?_⟩
      rw [ho, ← h, hnew] at hk
      cases hk
    · exact h other v

end

/-- The function is in order, and the builder knows its symbols and its labels. -/
structure Sound (b : Builder) : Prop where
  func : b.func.Scoped
  symbols : Names b.func .symbol b.symbols
  labels : Names b.func .block b.labels

theorem Sound.arena {b : Builder} (h : b.Sound) : b.func.Arena :=
  ⟨h.func, h.symbols.unique, h.labels.unique⟩

theorem sound_start (name : String) (args : List (Ty × String)) :
    (start (.withArgs name args)).Sound := by
  have hkind : ∀ v k, (Func.withArgs name args).kind? v = some k → k = .argument v := by
    intro v k h
    simp only [Func.kind?, Func.value?, Func.withArgs, List.getElem?_toArray, List.getElem?_mapIdx,
      Option.map_map, Option.map_eq_some_iff] at h
    obtain ⟨a, _, rfl⟩ := h
    rfl
  have hempty : ∀ (i : Nat) inst, (Func.withArgs name args).instructions[i]? ≠ some inst := by
    intro i inst
    simp [Func.withArgs]
  refine ⟨⟨?_, ?_, ?_⟩, ?_, ?_⟩
  · intro i v hi
    obtain ⟨hlt, hv⟩ := List.getElem?_eq_some_iff.mp hi
    have hv : i = v := by simpa [start, Func.withArgs] using hv
    have hlt : i < args.length := by simpa [start, Func.withArgs] using hlt
    subst hv
    refine ⟨rfl, ?_⟩
    simp [start, Func.kind?, Func.value?, Func.withArgs, hlt]
  · intro i inst v hi
    exact absurd hi (hempty i inst)
  · intro i v
    refine ⟨fun h => ?_, fun ⟨inst, hi, _⟩ => absurd hi (hempty i inst)⟩
    cases hkind v _ h
  · intro s v
    refine ⟨fun h => absurd h (by simp [start]), fun h => ?_⟩
    cases hkind v _ h
  · intro s v
    refine ⟨fun h => absurd h (by simp [start]), fun h => ?_⟩
    cases hkind v _ h

section
variable {b : Builder} (h : b.Sound)
include h

theorem sound_float (x : Binary64) : (b.float x).1.Sound :=
  ⟨h.func.pushValue (by nofun) _ _, h.symbols.pushValue_other (by nofun) _ _,
    h.labels.pushValue_other (by nofun) _ _⟩

theorem sound_int (bits : Nat) (n : UInt64) : (b.int bits n).1.Sound :=
  ⟨h.func.pushValue (by nofun) _ _, h.symbols.pushValue_other (by nofun) _ _,
    h.labels.pushValue_other (by nofun) _ _⟩

theorem sound_symbol (name : String) : (b.symbol name).1.Sound := by
  unfold symbol
  split
  · exact h
  next hnew =>
    exact ⟨h.func.pushValue (by nofun) _ _,
      h.symbols.pushValue_new (fun _ _ e => ValueKind.symbol.inj e) hnew _ _,
      h.labels.pushValue_other (by nofun) _ _⟩

theorem sound_label (name : String) : (b.label name).1.Sound := by
  unfold label
  split
  · exact h
  next hnew =>
    exact ⟨h.func.pushValue (by nofun) _ _, h.symbols.pushValue_other (by nofun) _ _,
      h.labels.pushValue_new (fun _ _ e => ValueKind.block.inj e) hnew _ _⟩

omit h in
theorem push_void (opcode : Opcode) (operands : List Handle) (predicate : Option Predicate)
    (name : Option String) :
    b.push opcode operands .void predicate name =
      ({ b with func := { b.func with
          instructions := b.func.instructions.push ⟨opcode, operands, none, predicate, b.span⟩ } },
        none) := rfl

omit h in
theorem push_of_ne_void {type : Ty} (htype : type ≠ .void) (opcode : Opcode)
    (operands : List Handle) (predicate : Option Predicate) (name : Option String) :
    b.push opcode operands type predicate name =
      ({ b with func :=
          { (b.func.pushValue (.result b.func.instructions.size) type name).1 with
            instructions := b.func.instructions.push
              ⟨opcode, operands, some b.func.values.size, predicate, b.span⟩ } },
        some b.func.values.size) := by
  simp only [push, htype, if_false]
  rfl

theorem sound_push {operands : List Handle} (hops : ∀ v ∈ operands, v < b.func.values.size)
    (opcode : Opcode) (type : Ty) (predicate : Option Predicate) (name : Option String) :
    (b.push opcode operands type predicate name).1.Sound := by
  by_cases htype : type = .void
  · rw [htype, push_void]
    exact ⟨h.func.pushEffect rfl hops, h.symbols, h.labels⟩
  · rw [push_of_ne_void htype]
    exact ⟨h.func.pushResult rfl hops type name, h.symbols.pushValue_other (by nofun) type name,
      h.labels.pushValue_other (by nofun) type name⟩

end

/-! ## Handles -/

/-- A builder that is still in order, has all it had, and answers a value of its
own. -/
structure Answers (b : Builder) (r : Builder × Handle) : Prop where
  sound : r.1.Sound
  grows : b.func.values.size ≤ r.1.func.values.size
  handle : r.2 < r.1.func.values.size

section
variable {b : Builder} (h : b.Sound)
include h

theorem float_answers (x : Binary64) : b.Answers (b.float x) := by
  refine ⟨sound_float h x, ?_, ?_⟩ <;> simp [float, literal, Func.pushValue]

theorem int_answers (bits : Nat) (n : UInt64) : b.Answers (b.int bits n) := by
  refine ⟨sound_int h bits n, ?_, ?_⟩ <;> simp [int, literal, Func.pushValue]

theorem symbol_answers (name : String) : b.Answers (b.symbol name) := by
  have hsound := sound_symbol h name
  unfold symbol at hsound ⊢
  split at hsound
  next v hv => exact ⟨hsound, Nat.le_refl _, Func.lt_of_kind? ((h.symbols name v).mp hv)⟩
  · exact ⟨hsound, by simp [Func.pushValue], by simp [Func.pushValue]⟩

theorem label_answers (name : String) : b.Answers (b.label name) := by
  have hsound := sound_label h name
  unfold label at hsound ⊢
  split at hsound
  next v hv => exact ⟨hsound, Nat.le_refl _, Func.lt_of_kind? ((h.labels name v).mp hv)⟩
  · exact ⟨hsound, by simp [Func.pushValue], by simp [Func.pushValue]⟩

omit h in
theorem size_push (b : Builder) (opcode : Opcode) (operands : List Handle) (type : Ty)
    (predicate : Option Predicate) (name : Option String) :
    b.func.values.size ≤ (b.push opcode operands type predicate name).1.func.values.size ∧
      ∀ v, (b.push opcode operands type predicate name).2 = some v →
        v < (b.push opcode operands type predicate name).1.func.values.size := by
  by_cases htype : type = .void
  · rw [htype, push_void]
    exact ⟨Nat.le_refl _, nofun⟩
  · rw [push_of_ne_void htype]
    refine ⟨by simp [Func.pushValue], ?_⟩
    intro v hv
    cases hv
    simp [Func.pushValue]

end

/-! ## Steps -/

/-- The values that a step uses. -/
def Step.operands : Step → List Handle
  | .load pointer => [pointer]
  | .store value pointer => [value, pointer]
  | .element base _ => [base]
  | .arithmetic _ left right | .compareFloat _ left right | .compareInt _ left right
  | .or left right => [left, right]
  | .negate operand | .extend operand _ => [operand]
  | .select condition ifTrue ifFalse => [condition, ifTrue, ifFalse]
  | .call _ args _ => args
  | .callAtomic _ _ args _ results => [args, results]
  | .branch condition _ _ => [condition]
  | .ret value => [value]
  | .push _ operands _ _ _ => operands
  | .arg _ | .float _ | .int _ _ | .symbol _ | .label _ | .alloca | .jump _ | .retOk
  | .setSpan _ => []

theorem pushValue?_sound {b b' : Builder} {a : Option Handle} (h : b.Sound) {operands : List Handle}
    (hops : ∀ v ∈ operands, v < b.func.values.size) {opcode : Opcode} {type : Ty}
    {predicate : Option Predicate} (hp : b.pushValue? opcode operands type predicate = some (b', a)) :
    b'.Sound := by
  have hpush := sound_push h hops opcode type predicate none
  unfold pushValue? at hp
  split at hp
  next r v hr =>
    cases hp
    rwa [hr] at hpush
  · cases hp

theorem sound_of_push {b b' : Builder} {a : Option Handle} (h : b.Sound) {operands : List Handle}
    (hops : ∀ v ∈ operands, v < b.func.values.size) {opcode : Opcode} {type : Ty}
    {predicate : Option Predicate} {name : Option String}
    (hp : some (b.push opcode operands type predicate name) = some (b', a)) : b'.Sound := by
  have hpush := sound_push h hops opcode type predicate name
  rwa [Option.some.inj hp] at hpush

/-- A step whose operands are in the arena keeps the builder in order. -/
theorem perform_sound {b b' : Builder} {s : Step} {a : Option Handle} (h : b.Sound)
    (hops : ∀ v ∈ s.operands, v < b.func.values.size) (hp : b.perform s = some (b', a)) :
    b'.Sound := by
  cases s with
  | arg position =>
    obtain ⟨v, _, hv⟩ := Option.map_eq_some_iff.mp hp
    cases hv
    exact h
  | float x => cases hp; exact sound_float h x
  | int bits n => cases hp; exact sound_int h bits n
  | symbol name => cases hp; exact sound_symbol h name
  | label name => cases hp; exact sound_label h name
  | alloca =>
    simp only [perform] at hp
    exact pushValue?_sound h (by nofun) hp
  | load _ | arithmetic _ _ _ | negate _ | compareFloat _ _ _ | compareInt _ _ _ | extend _ _ =>
    simp only [perform] at hp
    exact pushValue?_sound h hops hp
  | store _ _ | ret _ | push _ _ _ _ _ =>
    simp only [perform] at hp
    exact sound_of_push h hops hp
  | element base offset =>
    have hint := int_answers h 64 offset
    simp only [perform] at hp
    refine pushValue?_sound hint.sound ?_ hp
    intro v hv
    rcases List.mem_cons.mp hv with rfl | hv
    · exact Nat.lt_of_lt_of_le (hops v List.mem_cons_self) hint.grows
    · rw [List.mem_singleton.mp hv]
      exact hint.handle
  | or left right =>
    obtain ⟨type, _, hp⟩ := Option.bind_eq_some_iff.mp hp
    exact pushValue?_sound h hops hp
  | select condition ifTrue ifFalse =>
    obtain ⟨type, _, hp⟩ := Option.bind_eq_some_iff.mp hp
    exact pushValue?_sound h hops hp
  | call callee args type =>
    have hsymbol := symbol_answers h callee
    simp only [perform] at hp
    refine sound_of_push hsymbol.sound ?_ hp
    intro v hv
    rcases List.mem_append.mp hv with hv | hv
    · exact Nat.lt_of_lt_of_le (hops v hv) hsymbol.grows
    · rw [List.mem_singleton.mp hv]
      exact hsymbol.handle
  | callAtomic callee count args resultCount results =>
    have hn := int_answers h 64 count
    simp only [perform] at hp
    generalize b.int 64 count = n at hn hp
    have hm := int_answers hn.sound 64 resultCount
    generalize n.1.int 64 resultCount = m at hm hp
    have hl := int_answers hm.sound 64 0
    generalize m.1.int 64 0 = noLength at hl hp
    obtain ⟨message, hmessage, hp⟩ := Option.bind_eq_some_iff.mp hp
    have hf := symbol_answers hl.sound callee
    generalize noLength.1.symbol callee = f at hf hp
    have harg := Func.lt_of_kind? (hl.sound.func.args hmessage).2
    have hgrows := Nat.le_trans hn.grows (Nat.le_trans hm.grows (Nat.le_trans hl.grows hf.grows))
    refine pushValue?_sound hf.sound ?_ hp
    simp only [List.forall_mem_cons]
    refine ⟨?_, ?_, ?_, ?_, ?_, ?_, hf.handle, nofun⟩
    · exact Nat.lt_of_lt_of_le hn.handle (Nat.le_trans hm.grows (Nat.le_trans hl.grows hf.grows))
    · exact Nat.lt_of_lt_of_le (hops args List.mem_cons_self) hgrows
    · exact Nat.lt_of_lt_of_le hm.handle (Nat.le_trans hl.grows hf.grows)
    · exact Nat.lt_of_lt_of_le (hops results (List.mem_cons_of_mem _ List.mem_cons_self)) hgrows
    · exact Nat.lt_of_lt_of_le hl.handle hf.grows
    · exact Nat.lt_of_lt_of_le harg hf.grows
  | branch condition ifTrue ifFalse =>
    have ht := label_answers h ifTrue
    have he := label_answers ht.sound ifFalse
    simp only [perform] at hp
    refine sound_of_push he.sound ?_ hp
    simp only [List.forall_mem_cons]
    refine ⟨?_, Nat.lt_of_lt_of_le ht.handle he.grows, he.handle, nofun⟩
    exact Nat.lt_of_lt_of_le (hops condition List.mem_cons_self) (Nat.le_trans ht.grows he.grows)
  | jump target =>
    have ht := label_answers h target
    simp only [perform] at hp
    refine sound_of_push ht.sound ?_ hp
    intro v hv
    rw [List.mem_singleton.mp hv]
    exact ht.handle
  | retOk =>
    have hcode := int_answers h 32 0
    simp only [perform] at hp
    refine sound_of_push hcode.sound ?_ hp
    intro v hv
    rw [List.mem_singleton.mp hv]
    exact hcode.handle
  | setSpan span => cases hp; exact ⟨h.func, h.symbols, h.labels⟩

/-- Whether each step uses only values that are in the arena by then. -/
def known (b : Builder) : List Step → Bool
  | [] => true
  | s :: rest =>
    s.operands.all (· < b.func.values.size) &&
      match b.perform s with
      | none => true
      | some (b', _) => b'.known rest

theorem run_sound {b b' : Builder} {steps : List Step} (h : b.Sound) (hknown : b.known steps = true)
    (hrun : (b.run steps).2 = some b') : b'.Sound := by
  induction steps generalizing b with
  | nil => exact Option.some.inj hrun ▸ h
  | cons s rest ih =>
    simp only [known, Bool.and_eq_true, List.all_eq_true, decide_eq_true_eq] at hknown
    rw [run] at hrun
    cases hp : b.perform s with
    | none =>
      rw [hp] at hrun
      cases hrun
    | some r =>
      rw [hp] at hrun hknown
      exact ih (perform_sound h hknown.1 hp) hknown.2 hrun

end Builder

/-- The function that steps build from the conventional arguments. -/
def Func.ofSteps? (name : String) (steps : List Builder.Step) : Option Func :=
  ((Builder.start (.standard name)).run steps).2.map (·.func)

theorem Func.arena_of_ofSteps? {name : String} {steps : List Builder.Step} {f : Func}
    (hknown : (Builder.start (.standard name)).known steps = true)
    (h : Func.ofSteps? name steps = some f) : f.Arena := by
  obtain ⟨b, hb, rfl⟩ := Option.map_eq_some_iff.mp h
  exact (Builder.run_sound (Builder.sound_start _ _) hknown hb).arena

end SsaGraph

import SsaGraph.Proofs.Func.Arena

/-!
Functions that are built by steps with any operands.  An operand need not be in the arena,
but the arguments and the results of instructions are (`Func.Owned`).
-/

namespace SsaGraph
namespace Func

/-- Arguments and results are values of the function, whatever its operands are. -/
structure Owned (f : Func) : Prop where
  args : ∀ {i v}, f.args[i]? = some v → f.kind? v = some (.argument i)
  results : ∀ {i inst v}, f.instructions[i]? = some inst → inst.result = some v →
    f.kind? v = some (.result i)

variable {f : Func}

theorem Scoped.owned (h : f.Scoped) : f.Owned where
  args ha := (h.args ha).2
  results hi hv := h.results.mpr ⟨_, hi, hv⟩

theorem Owned.pushValue (h : f.Owned) (kind : ValueKind) (type : Ty) (name : Option String) :
    (f.pushValue kind type name).1.Owned where
  args ha := kind?_pushValue_of_eq_some (h.args ha) kind type name
  results hi hv := kind?_pushValue_of_eq_some (h.results hi hv) kind type name

/-- An instruction with no result, or one that is a value of the function. -/
theorem Owned.pushInstruction (h : f.Owned) {inst : Instruction}
    (hresult : ∀ v, inst.result = some v → f.kind? v = some (.result f.instructions.size)) :
    Owned { f with instructions := f.instructions.push inst } where
  args ha := h.args ha
  results {i old v} hi hv := by
    rw [Array.getElem?_push] at hi
    split at hi
    next hsize =>
      cases hi
      rw [hsize]
      exact hresult v hv
    · exact h.results hi hv

end Func

namespace Builder

section
variable {b : Builder} (h : b.func.Owned)
include h

theorem owned_symbol (name : String) : (b.symbol name).1.func.Owned := by
  unfold symbol
  split
  · exact h
  · exact h.pushValue _ _ _

theorem owned_label (name : String) : (b.label name).1.func.Owned := by
  unfold label
  split
  · exact h
  · exact h.pushValue _ _ _

theorem owned_push (opcode : Opcode) (operands : List Handle) (type : Ty)
    (predicate : Option Predicate) (name : Option String) :
    (b.push opcode operands type predicate name).1.func.Owned := by
  by_cases htype : type = .void
  · rw [htype, push_void]
    exact h.pushInstruction nofun
  · rw [push_of_ne_void htype]
    refine (h.pushValue (.result b.func.instructions.size) type name).pushInstruction ?_
    rintro v ⟨⟩
    rw [Func.kind?_pushValue, if_pos rfl]
    rfl

end

theorem owned_of_push {b b' : Builder} {a : Option Handle} {opcode : Opcode}
    {operands : List Handle} {type : Ty} {predicate : Option Predicate} {name : Option String}
    (h : b.func.Owned) (hp : some (b.push opcode operands type predicate name) = some (b', a)) :
    b'.func.Owned := by
  have hpush := owned_push h opcode operands type predicate name
  rwa [Option.some.inj hp] at hpush

theorem owned_of_pushValue? {b b' : Builder} {a : Option Handle} {opcode : Opcode}
    {operands : List Handle} {type : Ty} {predicate : Option Predicate} (h : b.func.Owned)
    (hp : b.pushValue? opcode operands type predicate = some (b', a)) : b'.func.Owned := by
  unfold pushValue? at hp
  split at hp
  next r v hr =>
    cases hp
    exact owned_of_push h (congrArg some hr)
  · cases hp

/-- A step keeps this, with any operands. -/
theorem owned_of_perform {b b' : Builder} {s : Step} {a : Option Handle} (h : b.func.Owned)
    (hp : b.perform s = some (b', a)) : b'.func.Owned := by
  cases s with
  | arg position =>
    obtain ⟨v, _, hv⟩ := Option.map_eq_some_iff.mp hp
    cases hv
    exact h
  | float _ | int _ _ =>
    cases hp
    exact h.pushValue _ _ _
  | symbol name => cases hp; exact owned_symbol h name
  | label name => cases hp; exact owned_label h name
  | alloca | load _ | arithmetic _ _ _ | negate _ | compareFloat _ _ _ | compareInt _ _ _
  | extend _ _ =>
    simp only [perform] at hp
    exact owned_of_pushValue? h hp
  | store _ _ | ret _ | push _ _ _ _ _ =>
    simp only [perform] at hp
    exact owned_of_push h hp
  | element base offset =>
    simp only [perform] at hp
    exact owned_of_pushValue? (h.pushValue (.int offset) (.int 64) none) hp
  | or left right =>
    obtain ⟨type, _, hp⟩ := Option.bind_eq_some_iff.mp hp
    exact owned_of_pushValue? h hp
  | select condition ifTrue ifFalse =>
    obtain ⟨type, _, hp⟩ := Option.bind_eq_some_iff.mp hp
    exact owned_of_pushValue? h hp
  | call callee args type =>
    simp only [perform] at hp
    exact owned_of_push (owned_symbol h callee) hp
  | callAtomic callee count args resultCount results =>
    simp only [perform] at hp
    obtain ⟨message, _, hp⟩ := Option.bind_eq_some_iff.mp hp
    refine owned_of_pushValue? (owned_symbol ?_ callee) hp
    exact ((h.pushValue _ _ _).pushValue _ _ _).pushValue _ _ _
  | branch condition ifTrue ifFalse =>
    simp only [perform] at hp
    exact owned_of_push (owned_label (owned_label h ifTrue) ifFalse) hp
  | jump target =>
    simp only [perform] at hp
    exact owned_of_push (owned_label h target) hp
  | retOk =>
    simp only [perform] at hp
    exact owned_of_push (h.pushValue (.int 0) (.int 32) none) hp
  | setSpan span => cases hp; exact h

theorem owned_of_run {b b' : Builder} {steps : List Step} (h : b.func.Owned)
    (hrun : (b.run steps).2 = some b') : b'.func.Owned := by
  induction steps generalizing b with
  | nil => exact Option.some.inj hrun ▸ h
  | cons s rest ih =>
    rw [run] at hrun
    cases hp : b.perform s with
    | none =>
      rw [hp] at hrun
      cases hrun
    | some r =>
      rw [hp] at hrun
      exact ih (owned_of_perform h hp) hrun

end Builder

/-- The function that steps build from the given arguments. -/
def Func.builtFrom? (name : String) (args : List (Ty × String)) (steps : List Builder.Step) :
    Option Func :=
  ((Builder.start (.withArgs name args)).run steps).2.map (·.func)

theorem Func.owned_of_builtFrom? {name : String} {args : List (Ty × String)}
    {steps : List Builder.Step} {f : Func} (h : Func.builtFrom? name args steps = some f) :
    f.Owned := by
  obtain ⟨b, hb, rfl⟩ := Option.map_eq_some_iff.mp h
  exact Builder.owned_of_run (Builder.sound_start name args).func.owned hb

end SsaGraph

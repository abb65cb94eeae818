import SsaGraph.Proofs.Lowering.Outcome
import SsaGraph.Proofs.Lowering.StoredAddress

/-!
The two passes agree.

Some causes of a refusal only guard the second pass against what the first one should have
done: an argument buffer that was not registered or has another number of slots, nodes past
the largest word, an output that is no buffer of slots.  None of them is ever the cause.

The calls that the second pass lowers are those that the first pass registered (`Agreed`):
it registers all calls in the form of an atomic one, and a buffer that has slots keeps their
number, whatever is stored or bound later.  Nodes stay far below the largest word, since no
more than `maxNode` of them are handed out.
-/

namespace SsaGraph

/-- The failure has no defensive cause. -/
def Fault.Ordinary (e : Fault) : Prop := ∀ r, e = .malformed r → r.defensive = false

theorem Fault.ordinary_malformed (r : Reason) (h : r.defensive = false) :
    Ordinary (.malformed r) := by
  rintro _ ⟨⟩
  exact h

namespace Lowering

/-! ## What the first pass registers -/

/-- The buffer has `n` slots. -/
def Reserves (s : Lowering) (base : Handle) (n : Nat) : Prop :=
  ∃ written, s.bindings.layouts.get? base = some (.scattered n written)

/-- The argument buffers of the calls among `is` have the slots that the calls ask for. -/
def Agreed (f : Func) (is : List Instruction) (s : Lowering) : Prop :=
  ∀ i ∈ is, ∀ base n, f.argumentSlots? i = some (base, n) → s.Reserves base n

section
variable {f : Func} {s t : Lowering} {i : Instruction}

theorem Reserves.register {b : Bindings} {base other : Handle} {slots n : Nat}
    (h : s.Reserves other n) (hb : s.bindings.registerScattered base slots = .ok b) :
    Reserves { s with bindings := b } other n := by
  rcases Bindings.registerScattered_eq_ok.mp hb with ⟨hnone, rfl⟩ | ⟨_, rfl⟩
  · obtain ⟨written, hl⟩ := h
    have hne : other ≠ base := by
      rintro rfl
      rw [hnone] at hl
      cases hl
    exact ⟨written, (Table.get?_insert_of_ne _ _ hne).trans hl⟩
  · exact h

theorem reserves_of_register {b : Bindings} {base : Handle} {n : Nat}
    (hb : s.bindings.registerScattered base n = .ok b) :
    Reserves { s with bindings := b } base n := by
  rcases Bindings.registerScattered_eq_ok.mp hb with ⟨_, rfl⟩ | ⟨hold, rfl⟩
  · exact ⟨#[], Table.get?_insert_self _ _ _⟩
  · exact hold

theorem reserves_of_registerArguments {base : Handle} {n : Nat}
    (hslots : f.argumentSlots? i = some (base, n)) (ht : registerArguments f s i = .ok t) :
    t.Reserves base n := by
  obtain ⟨counted, a, b, d, e, g, w, hop, hargs, htype, hw, rfl⟩ :=
    Func.argumentSlots?_eq_some_iff.mp hslots
  simp only [registerArguments, hop, hargs] at ht
  obtain ⟨type, htype', ht⟩ := bind_eq_ok.mp ht
  rw [typeOf_eq_ok, htype] at htype'
  cases htype'
  rw [if_neg (by decide), hw] at ht
  obtain ⟨bound, hbound, ht⟩ := bind_eq_ok.mp ht
  cases ht
  exact reserves_of_register (orFault_eq_ok.mp hbound)

/-- One more instruction of the first pass. -/
theorem agreed_discover {inputs : Nat} {done : List Instruction} (h : Agreed f done s)
    (ht : discover f inputs s i = .ok t) : Agreed f (done ++ [i]) t := by
  intro j hj base n hslots
  rcases List.mem_append.mp hj with hj | hj
  · have hpooled : (i.operands.foldl (pool f inputs) s).Reserves base n := by
      rw [Reserves, (foldl_pool_frame inputs i.operands s).2]
      exact h j hj base n hslots
    rcases registerArguments_cases ht with ⟨_, rfl⟩ | ⟨_, _, b, _, hb, rfl⟩
    · exact hpooled
    · exact hpooled.register hb
  · rw [List.mem_singleton.mp hj] at hslots
    exact reserves_of_registerArguments hslots ht

theorem agreed_of_prepared {c : Context} {output : Handle} (h : f.prepared c = .ok (s, output)) :
    Agreed f f.instructions.toList s := by
  obtain ⟨input, r, _, _, hr, hs⟩ := Func.prepared_eq_ok h
  have hdiscovered : Agreed f f.instructions.toList r := by
    refine pass_follows (P := Agreed f) (fun _ _ _ _ => agreed_discover) ?_ hr
    intro i hi
    cases hi
  obtain ⟨hfree, _, b, hb, rfl⟩ := prepare_eq_ok hs
  intro i hi base n hslots
  obtain ⟨written, hl⟩ := hdiscovered i hi base n hslots
  -- The input has no slots, so binding it leaves all of them.
  have hne : base ≠ input := by
    rintro rfl
    exact hfree n written hl
  have hbound : Reserves { r with bindings := r.bindings.consecutive input 1 c.inputs } base n :=
    ⟨written, (Table.get?_insert_of_ne _ _ hne).trans hl⟩
  exact hbound.register hb

end

/-! ## Steps without a defensive cause -/

section
variable {f : Func} {c : Context} {s : Lowering} {i : Instruction}

theorem Stopped.ordinary {e : Fault} (h : Stopped f s i e) : e.Ordinary := by
  cases h <;> nofun

/-- What the passes agree on leaves no place for a defensive cause. -/
theorem not_guarded {output : Handle} (hagreed : Agreed f f.instructions.toList s)
    (hin : InOrder c output s) (hi : i ∈ f.instructions.toList) (r : Reason) : ¬Guarded f s i r := by
  intro h
  cases h with
  | offset hl hlt hwords =>
    have hnodes := hin.within.consecutive hl
    have hlast := succ_lt_words hin.limit
    omega
  | arguments hslots hnot =>
    obtain ⟨written, hl⟩ := hagreed i hi _ _ hslots
    exact hnot written hl

theorem ordinary_instruction {output : Handle} (hagreed : Agreed f f.instructions.toList s)
    (hin : InOrder c output s) (hi : i ∈ f.instructions.toList) :
    FailsOnly Fault.Ordinary (instruction f s i) :=
  failsOnly_instruction Fault.ordinary_malformed (fun _ => Stopped.ordinary) fun r h =>
    absurd h (not_guarded hagreed hin hi r)

theorem ordinary_bufferArguments : FailsOnly Fault.Ordinary (bufferArguments f) :=
  failsOnly_bufferArguments Fault.ordinary_malformed fun _ _ _ => nofun

theorem ordinary_discover {inputs : Nat} : FailsOnly Fault.Ordinary (discover f inputs s i) :=
  failsOnly_discover Fault.ordinary_malformed fun _ _ _ => nofun

theorem ordinary_prepare {input output : Handle} (hmax : c.inputs < maxNode) :
    FailsOnly Fault.Ordinary (prepare c input output s) :=
  failsOnly_prepare Fault.ordinary_malformed hmax

end

/-! ## Runs -/

/-- The run is not refused for a defensive cause. -/
def RunAgrees {α : Type} (x : Except Stop α) : Prop :=
  ∀ k r, x = .error (.refused (.malformed k r)) → r.defensive = false

section
variable {α β : Type}

theorem RunAgrees.bind {x : Except Stop α} {k : α → Except Stop β} (hx : RunAgrees x)
    (hk : ∀ a, x = .ok a → RunAgrees (k a)) : RunAgrees (x >>= k) := by
  intro n r h
  rcases bind_eq_error h with h | ⟨a, ha, h⟩
  · exact hx n r h
  · exact hk a ha n r h

theorem runAgrees_atInstruction {e : Fault} (h : e.Ordinary) (index : Nat) :
    RunAgrees (.error (e.atInstruction index) : Except Stop α) := by
  intro k r hr
  cases e with
  | malformed =>
    cases hr
    exact h r rfl
  | unsupported | unresolved | foreign | unaddressable => cases hr

theorem runAgrees_outside {x : Except Fault α} (hx : FailsOnly Fault.Ordinary x) :
    RunAgrees (outside x) := by
  cases x with
  | ok a => exact fun _ _ h => nomatch h
  | error e => exact runAgrees_atInstruction (hx e rfl) 0

/-- Steps that are not refused for a defensive cause make up a pass that is not. -/
theorem runAgrees_pass {step : Lowering → Instruction → Except Fault Lowering} {index : Nat}
    {s : Lowering} {is : List Instruction}
    (hstep : ∀ k i t, is[k]? = some i → pass step index s (is.take k) = .ok t →
      FailsOnly Fault.Ordinary (step t i)) :
    RunAgrees (pass step index s is) := by
  intro n r h
  obtain ⟨k, i, t, e, hi, ht, he, hstop⟩ := pass_eq_error h
  have he := hstep k i t hi ht e he
  exact runAgrees_atInstruction (α := Lowering) he _ n r (congrArg Except.error hstop.symm)

end
end Lowering

namespace Func

open Lowering

variable {f : Func} {c : Context} {s : Lowering} {index : Nat}

theorem before_min (f : Func) (c : Context) (index : Nat) :
    f.before c (min index f.instructions.size) = f.before c index := by
  unfold before
  rw [← Array.length_toList, ← List.take_eq_take_min]

/-- What the passes agree on holds in every state of the second one. -/
theorem agreed_before (hs : f.before c index = .ok s) :
    Agreed f f.instructions.toList s ∧
      ∃ output, f.args[Convention.output]? = some output ∧ InOrder c output s := by
  rw [← before_min] at hs
  have hle := Nat.min_le_right index f.instructions.size
  obtain ⟨r, hr⟩ := exists_before_of_le (Nat.zero_le _) hs
  obtain ⟨output, hp⟩ := before_zero_eq_ok.mp hr
  obtain ⟨_, hready⟩ := ready_of_prepared hp
  obtain ⟨a, b, d, message, hargs⟩ := hready.args
  refine ⟨?_, output, by rw [hargs]; rfl, inOrder_before hp hle hs⟩
  refine before_keeps (P := fun _ s => Agreed f f.instructions.toList s) ?_ ?_ hle hs
  · intro s output hp
    exact agreed_of_prepared hp
  · intro _ i s t _ hs hstep j hj base n hslots
    exact slotCount_of_lowered hstep (hs j hj base n hslots)

/-- A function that is prepared has an output of slots all the way, so the end does not miss
it. -/
theorem runAgrees_finish {output : Handle} {last : Nat} (hin : InOrder c output s) :
    RunAgrees (finish output last s) := by
  obtain ⟨written, hl⟩ := hin.output
  intro k r h
  rw [finish, Bindings.scattered?_eq_some.mpr hl] at h
  simp only at h
  cases hfilled : Slots.filled c.dependents written with
  | error k =>
    rw [hfilled] at h
    cases h
  | ok nodes =>
    rw [hfilled] at h
    cases h

theorem runAgrees_prepared : RunAgrees (f.prepared c) := by
  unfold prepared
  refine (runAgrees_outside ordinary_bufferArguments).bind fun buffers _ => ?_
  by_cases hmax : maxNode ≤ c.inputs
  · simp only [hmax, if_true]
    have hinputs := Fault.ordinary_malformed (.tooManyInputs c.inputs) rfl
    exact (runAgrees_outside (failsOnly_error hinputs)).bind fun _ h => nomatch h
  · simp only [hmax, if_false]
    refine (runAgrees_pass fun _ _ _ _ _ => ordinary_discover).bind fun r _ => ?_
    refine (runAgrees_outside (ordinary_prepare (Nat.not_le.mp hmax))).bind fun _ _ => ?_
    exact fun _ _ h => nomatch h

theorem runAgrees_lower : RunAgrees (f.lower c) := by
  rw [lower_eq]
  refine runAgrees_prepared.bind fun p hp => ?_
  refine (runAgrees_pass fun k i s hi hs => ?_).bind fun s hs => ?_
  · obtain ⟨hagreed, _, _, hin⟩ := agreed_before (bind_eq_ok.mpr ⟨p, hp, hs⟩)
    exact ordinary_instruction hagreed hin (List.mem_of_getElem? hi)
  · have hrun : f.before c f.instructions.size = .ok s := by
      rw [before_size]
      exact bind_eq_ok.mpr ⟨p, hp, hs⟩
    exact runAgrees_finish (inOrder_before hp (Nat.le_refl _) hrun)

/-- Once the first pass is through and the buffers are bound, no state of the second pass has a
defensive cause to refuse any instruction of the function, nor the end; so no lowering is ever
refused for one. -/
theorem passes_agree (f : Func) (c : Context) :
    (∀ index s, f.before c index = .ok s →
      (∀ i ∈ f.instructions.toList, ∀ r,
        instruction f s i = .error (.malformed r) → r.defensive = false) ∧
      ∀ output, f.args[Convention.output]? = some output → ∀ last k r,
        finish output last s = .error (.refused (.malformed k r)) → r.defensive = false) ∧
    ∀ k r, f.lower c = .error (.refused (.malformed k r)) → r.defensive = false := by
  refine ⟨fun index s hs => ?_, runAgrees_lower⟩
  obtain ⟨hagreed, output, houtput, hin⟩ := agreed_before hs
  refine ⟨fun i hi r hr => ordinary_instruction hagreed hin hi _ hr r rfl, ?_⟩
  intro other hother last
  obtain rfl : other = output := Option.some.inj (hother.symm.trans houtput)
  exact runAgrees_finish hin

/-- Two calls that take their argument from the output and fill one result buffer, and a call
whose arguments are not there. -/
def sharedBuffers : Func :=
  (ofSteps? "f" [.load 1, .alloca, .alloca, .store 6 3, .callAtomic "atomic_foo" 1 3 2 7,
    .callAtomic "atomic_bar" 1 3 1 7, .callAtomic "atomic_baz" 2 8 1 7, .retOk]).getD default

theorem passes_agree_sharedBuffers :
    ∃ s i, sharedBuffers.before ⟨"f", 0, 1, 1⟩ 6 = .ok s ∧ i ∈ sharedBuffers.instructions.toList ∧
      instruction sharedBuffers s i = .error (.malformed (.atomicUnset 0 "baz")) ∧
      (Reason.atomicUnset 0 "baz").defensive = false ∧
      sharedBuffers.lower ⟨"f", 0, 1, 1⟩ =
        .error (.refused (.malformed 6 (.atomicUnset 0 "baz"))) := by
  have hrun : okAnd (fun s => (sharedBuffers.instructions[6]?).any fun i =>
      decide ((instruction sharedBuffers s i).map (fun _ => ()) =
        .error (.malformed (.atomicUnset 0 "baz")))) (sharedBuffers.before ⟨"f", 0, 1, 1⟩ 6) =
      true := by
    decide +kernel
  obtain ⟨s, hs, hrun⟩ := okAnd_eq_true.mp hrun
  obtain ⟨i, hi, hrun⟩ := (Option.any_eq_true _ _).mp hrun
  have he := map_eq_error.mp (of_decide_eq_true hrun)
  have hmem : i ∈ sharedBuffers.instructions.toList := by
    rw [← Array.getElem?_toList] at hi
    exact List.mem_of_getElem? hi
  exact ⟨s, i, hs, hmem, he, ((passes_agree sharedBuffers _).1 6 s hs).1 i hmem _ he,
    lower_eq_error_of_step hs hi he⟩

end Func
end SsaGraph

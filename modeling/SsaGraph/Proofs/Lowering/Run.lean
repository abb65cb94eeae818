import SsaGraph.Proofs.Lowering.Success

/-!
The run of a lowering.  `Func.prepared` is its part before the second pass and
`Func.before` the state in front of each instruction; what every lowered
instruction keeps holds in all of these states.
-/

namespace SsaGraph
namespace Lowering

/-! ## Passes -/

section
variable {step : Lowering → Instruction → Except Fault Lowering}

theorem pass_append (index : Nat) (s : Lowering) (is js : List Instruction) :
    pass step index s (is ++ js) =
      (pass step index s is >>= fun t => pass step (index + is.length) t js) := by
  induction is generalizing index s with
  | nil => rfl
  | cons i rest ih =>
    rw [List.cons_append, pass, pass]
    cases step s i with
    | error e => rfl
    | ok t =>
      show pass step (index + 1) t (rest ++ js) = _
      rw [ih, List.length_cons, Nat.add_right_comm index 1, Nat.add_assoc index]

theorem pass_singleton_eq_ok {index : Nat} {s t : Lowering} {i : Instruction} :
    pass step index s [i] = .ok t ↔ step s i = .ok t := by
  rw [pass]
  cases step s i with
  | error e => exact ⟨fun h => (nomatch h), fun h => (nomatch h)⟩
  | ok r =>
    show (Except.ok r : Except Stop Lowering) = .ok t ↔ (Except.ok r : Except Fault Lowering) = .ok t
    rw [Except.ok.injEq, Except.ok.injEq]

/-- What every step keeps, a pass keeps. -/
theorem pass_keeps {P : Lowering → Prop} {index : Nat} {is : List Instruction} {s t : Lowering}
    (hstep : ∀ i ∈ is, ∀ s t, P s → step s i = .ok t → P t) (hs : P s)
    (h : pass step index s is = .ok t) : P t := by
  induction is generalizing index s with
  | nil => exact Except.ok.inj h ▸ hs
  | cons i rest ih =>
    rw [pass] at h
    cases hi : step s i with
    | error e => rw [hi] at h; cases h
    | ok r =>
      rw [hi] at h
      exact ih (fun j hj => hstep j (List.mem_cons_of_mem i hj))
        (hstep i List.mem_cons_self s r hs hi) h

/-- What every step keeps as the pass goes on.  `P` may speak about the instructions that are
done. -/
theorem pass_follows {P : List Instruction → Lowering → Prop} {index : Nat} {is : List Instruction}
    {s t : Lowering} (hstep : ∀ done i s t, P done s → step s i = .ok t → P (done ++ [i]) t)
    (hs : P [] s) (h : pass step index s is = .ok t) : P is t := by
  have hrest : ∀ (is done : List Instruction) (index : Nat) (s : Lowering), P done s →
      pass step index s is = .ok t → P (done ++ is) t := by
    intro is
    induction is with
    | nil =>
      intro done index s hs h
      rw [List.append_nil]
      exact Except.ok.inj h ▸ hs
    | cons i rest ih =>
      intro done index s hs h
      rw [pass] at h
      cases hi : step s i with
      | error e => rw [hi] at h; cases h
      | ok r =>
        rw [hi] at h
        rw [List.append_cons]
        exact ih _ _ r (hstep done i s r hs hi) h
  exact hrest is [] index s hs h

/-- A pass that stops does so at an instruction, behind steps that succeed. -/
theorem pass_eq_error {index : Nat} {s : Lowering} {is : List Instruction} {stop : Stop}
    (h : pass step index s is = .error stop) :
    ∃ (k : Nat) (i : Instruction) (t : Lowering) (e : Fault), is[k]? = some i ∧
      pass step index s (is.take k) = .ok t ∧ step t i = .error e ∧
        stop = e.atInstruction (index + k) := by
  induction is generalizing index s with
  | nil => cases h
  | cons i rest ih =>
    rw [pass] at h
    cases hi : step s i with
    | error e =>
      rw [hi] at h
      cases h
      exact ⟨0, i, s, e, rfl, rfl, hi, rfl⟩
    | ok r =>
      rw [hi] at h
      obtain ⟨k, j, t, e, hj, ht, he, rfl⟩ := ih h
      refine ⟨k + 1, j, t, e, hj, ?_, he, by rw [Nat.add_right_comm, Nat.add_assoc]⟩
      rw [List.take_succ_cons, pass, hi]
      exact ht

theorem pass_eq_error_of_step {index k : Nat} {s t : Lowering} {is : List Instruction}
    {i : Instruction} {e : Fault} (hi : is[k]? = some i)
    (ht : pass step index s (is.take k) = .ok t) (he : step t i = .error e) :
    pass step index s is = .error (e.atInstruction (index + k)) := by
  obtain ⟨hlt, rfl⟩ := List.getElem?_eq_some_iff.mp hi
  rw [← List.take_append_drop k is, pass_append, ht, List.drop_eq_getElem_cons hlt]
  show pass step _ t (_ :: _) = _
  rw [pass, he, List.length_take, Nat.min_eq_left (Nat.le_of_lt hlt)]

end

theorem outside_eq_ok {α : Type} {x : Except Fault α} {a : α} :
    outside x = .ok a ↔ x = .ok a := by
  cases x <;> simp [outside]

end Lowering

open Lowering

/-! ## The run of a function -/

namespace Func

/-- The state in front of the second pass, with the output buffer. -/
def prepared (f : Func) (c : Context) : Except Stop (Lowering × Handle) := do
  let (input, output) ← outside (bufferArguments f)
  if maxNode ≤ c.inputs then outside (malformed (.tooManyInputs c.inputs))
  let s ← pass (discover f c.inputs) 0 (start c) f.instructions.toList
  let s ← outside (prepare c input output s)
  return (s, output)

/-- The state in front of an instruction, in the second pass. -/
def before (f : Func) (c : Context) (index : Nat) : Except Stop Lowering := do
  let (s, _) ← f.prepared c
  pass (instruction f) 0 s (f.instructions.toList.take index)

variable {f : Func} {c : Context}

theorem lower_eq (f : Func) (c : Context) :
    f.lower c = (f.prepared c >>= fun p =>
      pass (instruction f) 0 p.1 f.instructions.toList >>=
        finish p.2 (f.instructions.toList.length - 1)) := by
  unfold lower prepared
  cases outside (bufferArguments f) with
  | error e => rfl
  | ok p =>
    by_cases hmax : maxNode ≤ c.inputs
    · simp only [hmax, if_true]
      rfl
    · simp only [hmax, if_false]
      cases pass (discover f c.inputs) 0 (start c) f.instructions.toList with
      | error e => rfl
      | ok s =>
        cases hs : outside (prepare c p.1 p.2 s) with
        | error e => simp only [Except.bind, bind, hs]
        | ok t => simp only [Except.bind, bind, hs, pure, Except.pure]

theorem before_size (f : Func) (c : Context) :
    f.before c f.instructions.size =
      (f.prepared c >>= fun p => pass (instruction f) 0 p.1 f.instructions.toList) := by
  unfold before
  rw [← Array.length_toList, List.take_length]

theorem lower_eq_ok {g : Graph} :
    f.lower c = .ok g ↔
      ∃ s output t, f.prepared c = .ok (s, output) ∧ f.before c f.instructions.size = .ok t ∧
        finish output (f.instructions.toList.length - 1) t = .ok g := by
  rw [lower_eq, before_size]
  constructor
  · intro h
    obtain ⟨⟨s, output⟩, hp, h⟩ := bind_eq_ok.mp h
    obtain ⟨t, ht, h⟩ := bind_eq_ok.mp h
    exact ⟨s, output, t, hp, bind_eq_ok.mpr ⟨_, hp, ht⟩, h⟩
  · rintro ⟨s, output, t, hp, ht, h⟩
    obtain ⟨p, hp', ht⟩ := bind_eq_ok.mp ht
    rw [hp] at hp'
    cases hp'
    exact bind_eq_ok.mpr ⟨_, hp, bind_eq_ok.mpr ⟨t, ht, h⟩⟩

theorem before_zero_eq_ok {s : Lowering} :
    f.before c 0 = .ok s ↔ ∃ output, f.prepared c = .ok (s, output) := by
  unfold before
  rw [bind_eq_ok]
  constructor
  · rintro ⟨⟨r, output⟩, hp, h⟩
    cases h
    exact ⟨output, hp⟩
  · rintro ⟨output, hp⟩
    exact ⟨_, hp, rfl⟩

theorem before_succ (f : Func) (c : Context) {index : Nat} {i : Instruction}
    (hi : f.instructions[index]? = some i) :
    f.before c (index + 1) =
      (f.before c index >>= fun s => pass (instruction f) index s [i]) := by
  have hlt : index < f.instructions.toList.length := by
    obtain ⟨h, _⟩ := Array.getElem?_eq_some_iff.mp hi
    simpa using h
  have htake : f.instructions.toList.take (index + 1) =
      f.instructions.toList.take index ++ [i] := by
    rw [← Array.getElem?_toList] at hi
    rw [List.take_add_one, hi]
    rfl
  have hlen : (f.instructions.toList.take index).length = index := by
    rw [List.length_take]
    omega
  unfold before
  cases f.prepared c with
  | error e => rfl
  | ok p =>
    show pass _ 0 p.1 (f.instructions.toList.take (index + 1)) = _
    rw [htake, pass_append, hlen, Nat.zero_add]
    rfl

theorem before_succ_eq_ok {index : Nat} {i : Instruction}
    (hi : f.instructions[index]? = some i) {t : Lowering} :
    f.before c (index + 1) = .ok t ↔
      ∃ s, f.before c index = .ok s ∧ instruction f s i = .ok t := by
  rw [before_succ f c hi, bind_eq_ok]
  exact exists_congr fun s => and_congr_right fun _ => pass_singleton_eq_ok

/-- A run that gets behind an instruction was in front of it. -/
theorem exists_before_of_le {index later : Nat} {t : Lowering} (hle : index ≤ later)
    (h : f.before c later = .ok t) : ∃ s, f.before c index = .ok s := by
  unfold before at h ⊢
  obtain ⟨⟨r, output⟩, hp, h⟩ := bind_eq_ok.mp h
  rw [hp]
  rw [← Nat.add_sub_cancel' hle, List.take_add] at h
  have h : pass _ 0 r (_ ++ _) = .ok t := h
  rw [pass_append] at h
  obtain ⟨s, hs, _⟩ := bind_eq_ok.mp h
  exact ⟨s, hs⟩

/-- What lowered instructions keep from the start on holds in front of every
instruction.  `P` may speak about how far the run has got. -/
theorem before_keeps {P : Nat → Lowering → Prop}
    (hstart : ∀ s output, f.prepared c = .ok (s, output) → P 0 s)
    (hstep : ∀ index i s t, f.instructions[index]? = some i → P index s → Lowered f s i t →
      P (index + 1) t) {index : Nat} {s : Lowering} (hle : index ≤ f.instructions.size)
    (h : f.before c index = .ok s) : P index s := by
  induction index generalizing s with
  | zero =>
    obtain ⟨output, hp⟩ := before_zero_eq_ok.mp h
    exact hstart s output hp
  | succ index ih =>
    have hi : f.instructions[index]? = some f.instructions[index] :=
      Array.getElem?_eq_getElem (Nat.lt_of_succ_le hle)
    obtain ⟨r, hr, ht⟩ := (before_succ_eq_ok hi).mp h
    exact hstep index _ r s hi (ih (Nat.le_of_succ_le hle) hr) (lowered_of_instruction ht)

/-- What holds in front of one instruction, and is kept up to another one, holds in
front of that. -/
theorem keeps_between {P : Lowering → Prop} {start stop : Nat} {s t : Lowering} (hle : start ≤ stop)
    (hsize : stop ≤ f.instructions.size) (hs : f.before c start = .ok s) (hP : P s)
    (hstep : ∀ k i s t, start ≤ k → k < stop → f.instructions[k]? = some i → P s →
      Lowered f s i t → P t) (ht : f.before c stop = .ok t) : P t := by
  induction stop generalizing t with
  | zero =>
    rw [Nat.le_zero.mp hle, ht] at hs
    cases hs
    exact hP
  | succ k ih =>
    rcases Nat.lt_or_eq_of_le hle with hlt | rfl
    · have hi : f.instructions[k]? = some f.instructions[k] :=
        Array.getElem?_eq_getElem (Nat.lt_of_succ_le hsize)
      obtain ⟨r, hr, hlowered⟩ := (before_succ_eq_ok hi).mp ht
      refine hstep k _ r t (Nat.le_of_lt_succ hlt) (Nat.lt_succ_self k) hi ?_
        (lowered_of_instruction hlowered)
      exact ih (Nat.le_of_lt_succ hlt) (Nat.le_of_succ_le hsize)
        (fun j i s t hj hj' => hstep j i s t hj (Nat.lt_succ_of_lt hj')) hr
    · rw [hs] at ht
      cases ht
      exact hP

/-- Where a lowering stops: before the second pass, at an instruction of it, or behind
it. -/
theorem lower_eq_error {stop : Stop} (h : f.lower c = .error stop) :
    f.prepared c = .error stop ∨
    (∃ index i s e, f.before c index = .ok s ∧ f.instructions[index]? = some i ∧
      instruction f s i = .error e ∧ stop = e.atInstruction index) ∨
    ∃ s output, finish output (f.instructions.toList.length - 1) s = .error stop := by
  rw [lower_eq] at h
  cases hp : f.prepared c with
  | error e =>
    rw [hp] at h
    cases h
    exact .inl rfl
  | ok p =>
    rw [hp] at h
    have h : (pass (instruction f) 0 p.1 f.instructions.toList >>= finish p.2 _) = _ := h
    cases hpass : pass (instruction f) 0 p.1 f.instructions.toList with
    | ok s =>
      rw [hpass] at h
      exact .inr (.inr ⟨s, p.2, h⟩)
    | error e =>
      rw [hpass] at h
      cases h
      obtain ⟨k, i, s, e, hi, hs, he, rfl⟩ := pass_eq_error hpass
      rw [Array.getElem?_toList] at hi
      refine .inr (.inl ⟨k, i, s, e, ?_, hi, he, by rw [Nat.zero_add]⟩)
      exact bind_eq_ok.mpr ⟨p, hp, hs⟩

theorem lower_eq_error_of_step {index : Nat} {i : Instruction} {s : Lowering} {e : Fault}
    (hs : f.before c index = .ok s) (hi : f.instructions[index]? = some i)
    (he : instruction f s i = .error e) : f.lower c = .error (e.atInstruction index) := by
  obtain ⟨p, hp, hs⟩ := bind_eq_ok.mp hs
  rw [← Array.getElem?_toList] at hi
  have hpass := pass_eq_error_of_step hi hs he
  rw [Nat.zero_add] at hpass
  rw [lower_eq, hp]
  show (pass (instruction f) 0 p.1 f.instructions.toList >>= finish p.2 _) = _
  rw [hpass]
  rfl

end Func
end SsaGraph

import SsaGraph.Diagnostic
import SsaGraph.Proofs.Lowering.Outcome
import SsaGraph.Proofs.Program.Places

/-!
Where a refusal is reported.  A refusal of an unknown opcode or callee does not say which
instruction it is about, so it is reported at the first one of that name.  For an opcode this
is the right one, as none of its name is lowered.  A name may stand for something in a call
with six arguments and for nothing in another one, or the other way round, so a call that is
refused may be reported at an earlier one that is lowered.
-/

namespace SsaGraph

open Lowering

namespace Func

variable {f : Func} {c : Context}

/-- Instruction number `index` is a call of the function `name`. -/
def Calls (f : Func) (index : Nat) (name : String) : Prop :=
  ∃ i, f.instructions[index]? = some i ∧ i.callee?.bind f.symbol? = some name

theorem exists_step_before {index k : Nat} {s : Lowering} {j : Instruction}
    (hs : f.before c index = .ok s) (hk : k < index) (hj : f.instructions[k]? = some j) :
    ∃ r t, instruction f r j = .ok t := by
  obtain ⟨t, ht⟩ := exists_before_of_le hk hs
  obtain ⟨r, _, hstep⟩ := (before_succ_eq_ok hj).mp ht
  exact ⟨r, t, hstep⟩

/-- The first instruction that fits is found. -/
theorem find?_of_first {p : Instruction → Bool} {index : Nat} {i : Instruction}
    (hi : f.instructions[index]? = some i) (hp : p i = true)
    (hfirst : ∀ k < index, ∀ j, f.instructions[k]? = some j → p j = false) :
    f.instructions.find? p = some i := by
  obtain ⟨hlt, hget⟩ := Array.getElem?_eq_some_iff.mp hi
  refine Array.find?_eq_some_iff_getElem.mpr ⟨hp, index, hlt, hget, fun k hk => ?_⟩
  rw [hfirst k hk _ (Array.getElem?_eq_getElem (Nat.lt_trans hk hlt))]
  rfl

/-- One that fits in front of another is found, or one before it. -/
theorem exists_find? {p : Instruction → Bool} {k : Nat} {j : Instruction}
    (hj : f.instructions[k]? = some j) (hp : p j = true) :
    ∃ first ≤ k, ∃ i, f.instructions[first]? = some i ∧ f.instructions.find? p = some i := by
  induction k using Nat.strongRecOn generalizing j with
  | ind k ih =>
    by_cases hfirst : ∀ l < k, ∀ i, f.instructions[l]? = some i → p i = false
    · exact ⟨k, Nat.le_refl k, j, hj, find?_of_first hj hp hfirst⟩
    · simp only [Classical.not_forall, Bool.not_eq_false] at hfirst
      obtain ⟨l, hl, i, hi, hpi⟩ := hfirst
      obtain ⟨first, hle, found⟩ := ih l hl hi hpi
      exact ⟨first, Nat.le_trans hle (Nat.le_of_lt hl), found⟩

end Func

/-! ## Names that stand for something -/

namespace Lowering

variable {f : Func} {s t : Lowering} {i : Instruction} {name : String}

/-- The name stands for a function of numbers, or for an atomic function. -/
def Resolves (name : String) (arguments : Nat) : Prop :=
  if arguments = Convention.arity then reservedRest? atomicStart name ≠ none
  else reservedRest? discreteStart name ≠ none ∨ Op.ofCallee? name ≠ none

theorem resolves_of_lowered (h : Lowered f s i t) (hname : i.callee?.bind f.symbol? = some name) :
    Resolves name i.callArguments.length := by
  have hcall : i.opcode = .call := by
    by_contra hop
    rw [Instruction.callee?, if_neg hop] at hname
    cases hname
  have hsymbol : ∀ args {callee rest}, i.operands = args ++ [callee] →
      f.symbol? callee = some rest → rest = name ∧ i.callArguments = args := by
    intro args callee rest hargs hsymbol
    obtain ⟨hcallee, harguments⟩ := callee_of_operands hcall hargs
    rw [hcallee, Option.bind_some, hsymbol] at hname
    exact ⟨Option.some.inj hname, harguments⟩
  cases h with
  | math _ hargs hlen hname' _ _ hcallee =>
    obtain ⟨rfl, harguments⟩ := hsymbol _ hargs hname'
    rw [Resolves, harguments, if_neg (by rcases hlen with h | h <;> rw [h] <;> decide), hcallee]
    exact .inr (Option.some_ne_none _)
  | @discrete callee arg _ _ _ _ _ hargs hname' _ hrest =>
    obtain ⟨rfl, harguments⟩ := hsymbol [arg] hargs hname'
    rw [Resolves, harguments, if_neg (by simp [Convention.arity]), hrest]
    exact .inl (Option.some_ne_none _)
  | @atomic a b d e g h callee _ _ _ _ _ _ _ hargs hname' hrest =>
    obtain ⟨rfl, harguments⟩ := hsymbol [a, b, d, e, g, h] hargs hname'
    rw [Resolves, harguments, if_pos (by rfl), hrest]
    exact Option.some_ne_none _
  | binary hop =>
    rw [hcall] at hop
    cases hop
  | compare hop => simp [hcall] at hop
  | alloca hop | load hop | element hop | pointer hop | message hop | store hop | negate hop
  | extend hop | combine hop | selectCode hop | select hop | branch hop | ret hop =>
    rw [hcall] at hop
    cases hop

theorem not_resolves_of_unresolved (h : Unresolved f i name) :
    ¬ Resolves name i.callArguments.length := by
  obtain ⟨hop, args, callee, hargs, _, hnone⟩ := h
  rw [Resolves, (callee_of_operands hop hargs).2]
  rcases hnone with ⟨hlen, hdiscrete, hcallee⟩ | ⟨hlen, hatomic⟩
  · rw [if_neg (by rcases hlen with h | h <;> rw [h] <;> decide), hdiscrete, hcallee]
    exact fun h => h.elim (absurd rfl) (absurd rfl)
  · rw [if_pos hlen, hatomic]
    exact absurd rfl

theorem callee_of_unresolved (h : Unresolved f i name) : i.callee?.bind f.symbol? = some name := by
  obtain ⟨hop, args, callee, hargs, hname, _⟩ := h
  rw [(callee_of_operands hop hargs).1]
  exact hname

/-- If a call is lowered and another one of the same name is not, then one of them has the six
arguments of an atomic call and the other has not. -/
theorem arity_iff_of_unresolved {j : Instruction} (hj : Lowered f s j t)
    (hname : j.callee?.bind f.symbol? = some name) (hi : Unresolved f i name) :
    j.callArguments.length = Convention.arity ↔ i.callArguments.length ≠ Convention.arity := by
  have hresolves := resolves_of_lowered hj hname
  have hnot := not_resolves_of_unresolved hi
  unfold Resolves at hresolves hnot
  by_cases hji : j.callArguments.length = Convention.arity <;>
    by_cases hii : i.callArguments.length = Convention.arity
  · rw [if_pos hji] at hresolves
    rw [if_pos hii] at hnot
    exact absurd hresolves hnot
  · exact ⟨fun _ => hii, fun _ => hji⟩
  · exact ⟨fun h => absurd h hji, fun h => absurd hii h⟩
  · rw [if_neg hji] at hresolves
    rw [if_neg hii] at hnot
    exact absurd hresolves hnot

theorem opcode_ne_other (h : instruction f s i = .ok t) : i.opcode ≠ .other name := by
  intro hop
  rw [instruction, hop] at h
  cases h

end Lowering

namespace Diagnostic

variable {f : Func} {r : Refusal} {i : Instruction}

theorem span_ofRefusal (h : r.culprit? f = some i) : (ofRefusal r f).span = i.span := by
  rw [ofRefusal, h]
  rfl

end Diagnostic

section
variable {text : String} {program : Program} {f : Func} {c : Context} {index : Nat} {s : Lowering}
  {i : Instruction} {name : String}

/-- The first instruction with the name of an unknown opcode is the one that is refused. -/
theorem Program.culprit_of_unsupported (hread : read text = .ok program) (hf : f ∈ program.functions)
    (hs : f.before c index = .ok s) (hi : f.instructions[index]? = some i)
    (hop : i.opcode = .other name) : (Refusal.unsupported name).culprit? f = some i := by
  have hnamed : ∀ {k : Nat} {j : Instruction}, f.instructions[k]? = some j →
      j.opcode = .ofName j.opcode.name := by
    intro k j hj
    obtain ⟨_, _, hwritten⟩ := writtenAt_of_read hread hf (Array.mem_of_getElem? hj)
    exact hwritten.opcode
  refine Func.find?_of_first hi (by rw [hop]; exact beq_self_eq_true name) fun k hk j hj => ?_
  refine beq_eq_false_iff_ne.mpr fun hsame => ?_
  obtain ⟨r, t, hstep⟩ := Func.exists_step_before hs hk hj
  have hname : i.opcode.name = name := by
    rw [hop]
    rfl
  have hother : j.opcode = .other name := calc
    j.opcode = .ofName j.opcode.name := hnamed hj
    _ = .ofName i.opcode.name := by rw [hsame, hname]
    _ = i.opcode := (hnamed hi).symm
    _ = .other name := hop
  exact opcode_ne_other hstep hother

/-- A call that is not resolved is reported at its place if it is the first one of its name. -/
theorem Func.span_of_first_call (hi : f.instructions[index]? = some i)
    (hname : i.callee?.bind f.symbol? = some name) (hfirst : ∀ k < index, ¬ f.Calls k name) :
    (Diagnostic.ofRefusal (.unresolved name) f).span = i.span := by
  refine Diagnostic.span_ofRefusal (Func.find?_of_first hi (beq_iff_eq.mpr hname) fun k hk j hj => ?_)
  exact Bool.eq_false_iff.mpr fun hcalls => hfirst k hk ⟨j, hj, beq_iff_eq.mp hcalls⟩

/-- In a text whose places fit, a call that is reported at its place is the first one of its
name. -/
theorem Program.first_call_of_span (hsize : text.utf8ByteSize < UInt32.size)
    (hread : read text = .ok program) (hf : f ∈ program.functions) (hi : f.instructions[index]? = some i)
    (hspan : (Diagnostic.ofRefusal (.unresolved name) f).span = i.span) :
    ∀ k < index, ¬ f.Calls k name := by
  rintro k hk ⟨j, hj, hcalls⟩
  obtain ⟨first, hle, i', hi', hfound⟩ := Func.exists_find?
    (p := fun j => (j.callee?.bind f.symbol?) == some name) hj (beq_iff_eq.mpr hcalls)
  have hfound : (Refusal.unresolved name).culprit? f = some i' := hfound
  rw [Diagnostic.span_ofRefusal hfound] at hspan
  have hsame := span_inj_of_read hsize hread hf hi' hi hspan
  omega

/-- An instruction that is refused behind others that are lowered ends the lowering with its
refusal.  This is reported at the place of the instruction, unless it is a call of a name that
stands for nothing and an earlier call has the same name: that one has six arguments and this
one has not, or the other way round.  In a text whose places fit into words, the place that is
reported is another one then. -/
theorem Program.refusal_place_iff {e : Fault} {r : Refusal} (hread : read text = .ok program)
    (hf : f ∈ program.functions) (hs : f.before c index = .ok s)
    (hi : f.instructions[index]? = some i) (he : instruction f s i = .error e)
    (hr : e.atInstruction index = .refused r) :
    f.lower c = .error (.refused r) ∧
    ((∀ name, r = .unresolved name → ∀ k < index, ¬ f.Calls k name) →
      (Diagnostic.ofRefusal r f).span = i.span) ∧
    (text.utf8ByteSize < UInt32.size → (Diagnostic.ofRefusal r f).span = i.span →
      ∀ name, r = .unresolved name → ∀ k < index, ¬ f.Calls k name) ∧
    ∀ name, r = .unresolved name → ∀ k < index, ∀ j, f.instructions[k]? = some j →
      j.callee?.bind f.symbol? = some name →
      (j.callArguments.length = Convention.arity ↔ i.callArguments.length ≠ Convention.arity) := by
  refine ⟨hr ▸ Func.lower_eq_error_of_step hs hi he, ?_⟩
  rcases settlesUnless_instruction e he with ⟨reason, rfl⟩ | hstopped
  · cases hr
    have hspan : (Diagnostic.ofRefusal (.malformed index reason) f).span = i.span :=
      Diagnostic.span_ofRefusal hi
    exact ⟨fun _ => hspan, fun _ _ => nofun, nofun⟩
  cases hstopped with
  | unsupported hop =>
    cases hr
    have hspan := Diagnostic.span_ofRefusal (culprit_of_unsupported hread hf hs hi hop)
    exact ⟨fun _ => hspan, fun _ _ => nofun, nofun⟩
  | unresolved hunresolved =>
    cases hr
    refine ⟨fun h => ?_, fun hsize hspan => ?_, ?_⟩
    · exact Func.span_of_first_call hi (callee_of_unresolved hunresolved) (h _ rfl)
    · rintro _ ⟨⟩
      exact first_call_of_span hsize hread hf hi hspan
    · rintro _ ⟨⟩ k hk j hj hname
      obtain ⟨_, _, hstep⟩ := Func.exists_step_before hs hk hj
      exact arity_iff_of_unresolved (lowered_of_instruction hstep) hname hunresolved
  | foreign _ _ => cases hr
  | unaddressable _ => cases hr

end

/-- A call of a name that stands for something, and behind it one of a name that does not. -/
def Program.unknownCallee : String :=
  "define i32 @f(i64, ptr, i64, ptr, i64, ptr) \x7b
    %x = load double, ptr %1
    %y = call double @sin(double %x)
    %z = call double @sinc(double %y)
    ret i32 0
  \x7d"

set_option maxRecDepth 4000 in
theorem Program.refusal_place_unknownCallee :
    ∃ program f i, read unknownCallee = .ok program ∧ f ∈ program.functions ∧
      f.instructions[2]? = some i ∧
      f.lower ⟨"f", 0, 1, 1⟩ = .error (.refused (.unresolved "sinc")) ∧
      (Diagnostic.ofRefusal (.unresolved "sinc") f).span = i.span := by
  have hread : okAnd (fun program => program.functions.any fun f =>
      (f.instructions[2]?).any fun i => okAnd (fun s =>
        decide ((instruction f s i).map (fun _ => ()) = .error (.unresolved "sinc") ∧ ∀ k < 2,
          (f.instructions[k]?.bind fun j => j.callee?.bind f.symbol?) ≠ some "sinc"))
        (f.before ⟨"f", 0, 1, 1⟩ 2)) (read unknownCallee) = true := by
    rw [show read unknownCallee = _ from read_ofList _]
    decide +kernel
  obtain ⟨program, hp, hread⟩ := okAnd_eq_true.mp hread
  obtain ⟨f, hf, hrun⟩ := List.any_eq_true.mp hread
  obtain ⟨i, hi, hrun⟩ := (Option.any_eq_true _ _).mp hrun
  obtain ⟨s, hs, hrun⟩ := okAnd_eq_true.mp hrun
  obtain ⟨he, hnone⟩ := of_decide_eq_true hrun
  obtain ⟨hlower, hspan, _⟩ := refusal_place_iff hp hf hs hi (map_eq_error.mp he) rfl
  refine ⟨program, f, i, hp, hf, hi, hlower, hspan ?_⟩
  rintro name ⟨⟩ k hk ⟨j, hj, hcalls⟩
  refine hnone k hk ?_
  rw [hj]
  exact hcalls

/-- A call of a function of one number, and behind it one of the same name with six
arguments. -/
def Program.calleeTwice : String :=
  "define i32 @f(i64, ptr, i64, ptr, i64, ptr) \x7b
    %x = load double, ptr %1
    %y = call double @sin(double %x)
    %z = call i32 @sin(i64 %0, ptr %1, i64 %2, ptr %3, i64 %4, ptr %5)
    ret i32 0
  \x7d"

set_option maxRecDepth 4000 in
/-- The second call is refused, and the first one, which is lowered, is reported. -/
theorem Program.refusal_misplaced :
    ∃ program f i j, read calleeTwice = .ok program ∧ f ∈ program.functions ∧
      f.instructions[1]? = some i ∧ f.instructions[2]? = some j ∧
      (∃ s, f.before ⟨"f", 0, 1, 1⟩ 2 = .ok s ∧ instruction f s j = .error (.unresolved "sin")) ∧
      f.lower ⟨"f", 0, 1, 1⟩ = .error (.refused (.unresolved "sin")) ∧
      (Diagnostic.ofRefusal (.unresolved "sin") f).span = i.span ∧ i.span ≠ j.span := by
  have hread : okAnd (fun program => program.functions.any fun f =>
      (f.instructions[1]?).any fun i => (f.instructions[2]?).any fun j => okAnd (fun s =>
        decide ((instruction f s j).map (fun _ => ()) = .error (.unresolved "sin") ∧
          f.lower ⟨"f", 0, 1, 1⟩ = .error (.refused (.unresolved "sin")) ∧
          (Diagnostic.ofRefusal (.unresolved "sin") f).span = i.span ∧ i.span ≠ j.span))
        (f.before ⟨"f", 0, 1, 1⟩ 2)) (read calleeTwice) = true := by
    rw [show read calleeTwice = _ from read_ofList _]
    decide +kernel
  obtain ⟨program, hp, hread⟩ := okAnd_eq_true.mp hread
  obtain ⟨f, hf, hrun⟩ := List.any_eq_true.mp hread
  obtain ⟨i, hi, hrun⟩ := (Option.any_eq_true _ _).mp hrun
  obtain ⟨j, hj, hrun⟩ := (Option.any_eq_true _ _).mp hrun
  obtain ⟨s, hs, hrun⟩ := okAnd_eq_true.mp hrun
  obtain ⟨he, hreport⟩ := of_decide_eq_true hrun
  exact ⟨program, f, i, j, hp, hf, hi, hj, ⟨s, hs, map_eq_error.mp he⟩, hreport⟩

end SsaGraph

import SsaGraph.Proofs.Func.Owned
import SsaGraph.Proofs.Lowering.Recording
import SsaGraph.Proofs.Lowering.StoredAddress

/-!
Which values the nodes of a graph come from.

An operator takes the nodes of values: the operands of its instruction, what a comparison
compared, or what was last stored in an argument buffer.  The dependents are what was last
stored in the output.  All of this can be read off the instructions alone: `Func.supplied` and
`Func.returned` ask for the latest instruction that compares, addresses or stores, and
`Traced` says that the tables of a lowering hold the same.

A value keeps its node when no two instructions have the same result and none has that of a
literal (`Func.Owned`), so the nodes of a finished graph can be looked up at the end of the
run.
-/

namespace SsaGraph

/-- What the latest place in front of `stop` gives, of those that give something. -/
def latest? {α : Type} (at? : Nat → Option α) : Nat → Option α
  | 0 => none
  | stop + 1 => (at? stop).or (latest? at? stop)

/-- An insertion of the one key for which `p` gives something. -/
theorem Table.get?_insert_or {κ α : Type} [BEq κ] [LawfulBEq κ] [DecidableEq κ] (t : Table κ α)
    {p : κ → Option α} {k : κ} {a : α} (hself : p k = some a)
    (honly : ∀ j b, p j = some b → j = k) (j : κ) :
    (t.insert k a).get? j = (p j).or (t.get? j) := by
  rw [Table.get?_insert]
  by_cases hj : j = k
  · rw [hj, if_pos rfl, hself, Option.some_or]
  · have hnone : p j = none := by
      apply Option.eq_none_iff_forall_ne_some.mpr
      intro b hb
      exact hj (honly j b hb)
    rw [if_neg hj, hnone, Option.none_or]

namespace Func

/-! ## What the instructions say -/

/-- The comparison that instruction number `index` makes, if `v` is its result. -/
def comparedAt? (f : Func) (v : Handle) (index : Nat) : Option Comparison :=
  match f.instructions[index]? with
  | some ⟨opcode, [left, right], result, some p, _⟩ =>
    if (opcode = .fcmp ∨ opcode = .icmp) ∧ result = some v then some ⟨p, left, right⟩ else none
  | _ => none

/-- The comparison in front of instruction number `index` that has result `v`. -/
def comparison? (f : Func) (index : Nat) (v : Handle) : Option Comparison :=
  latest? (f.comparedAt? v) index

/-- The buffers that are written slot by slot: the argument buffers of calls, and the
output. -/
def slotBuffers (f : Func) : List Handle :=
  f.instructions.toList.filterMap f.registered? ++ (f.args[Convention.output]?).toList

/-- The slot whose address instruction number `index` computes, if `p` is its result. -/
def addressedAt? (f : Func) (p : Handle) (index : Nat) : Option Element :=
  match f.instructions[index]? with
  | none => none
  | some i =>
    if i.opcode = .getelementptr ∧ i.result = some p then
      match Lowering.addressParts f i with
      | .ok (base, offset) => if base ∈ f.slotBuffers then some ⟨base, offset⟩ else none
      | .error _ => none
    else none

/-- The slot that is stored to through `p`, in front of instruction number `index`.  A buffer
stands for its first slot. -/
def element? (f : Func) (index : Nat) (p : Handle) : Option Element :=
  (latest? (f.addressedAt? p) index).or (if p ∈ f.slotBuffers then some ⟨p, 0⟩ else none)

/-- What instruction number `index` stores in a slot.  Stores of a message are dropped. -/
def storedAt? (f : Func) (base : Handle) (offset index : Nat) : Option Handle :=
  match f.instructions[index]? with
  | some ⟨.store, [x, p], _, _, _⟩ =>
    if f.args[Convention.message]? ≠ some p ∧ f.element? index p = some ⟨base, offset⟩ then some x
    else none
  | _ => none

/-- What was last stored in a slot, in front of instruction number `index`. -/
def stored? (f : Func) (index : Nat) (base : Handle) (offset : Nat) : Option Handle :=
  latest? (f.storedAt? base offset) index

/-- What was last stored in the first slots of a buffer. -/
def contents (f : Func) (index : Nat) (base : Handle) (count : Nat) : List Handle :=
  (List.range count).filterMap (f.stored? index base)

/-- The values whose nodes an instruction gives to operators, operator by operator. -/
def suppliedBy (f : Func) (index : Nat) (i : Instruction) : List (List Handle) :=
  match i.opcode, i.operands with
  | .fadd, vs | .fsub, vs | .fmul, vs | .fdiv, vs | .fneg, vs => [vs]
  | .zext, vs | .or, vs => (vs.filterMap (f.comparison? index)).map fun d => [d.right, d.left]
  | .select, [condition, ifTrue, ifFalse] =>
    if f.type? ifTrue = some .double then
      (f.comparison? index condition).toList.map fun d => [d.left, d.right, ifTrue, ifFalse]
    else []
  | .call, [counted, base, _, _, _, _, _] =>
    [f.contents index base (((f.int? counted).map UInt64.toNat).getD 0)]
  | .call, _ => [i.callArguments]
  | _, _ => []

/-- The values whose nodes the first `count` instructions give to operators. -/
def supplied (f : Func) (count : Nat) : List (List Handle) :=
  (List.range count).flatMap fun index =>
    ((f.instructions[index]?).map (f.suppliedBy index)).getD []

/-- The values whose nodes are the dependents. -/
def returned (f : Func) (c : Context) : List Handle :=
  ((f.args[Convention.output]?).map fun output =>
    f.contents f.instructions.size output c.dependents).getD []

section
variable {f : Func} {index : Nat} {i : Instruction} (hi : f.instructions[index]? = some i)
include hi

theorem comparedAt?_eq_some_iff {v : Handle} {d : Comparison} :
    f.comparedAt? v index = some d ↔ (i.opcode = .fcmp ∨ i.opcode = .icmp) ∧
      i.operands = [d.left, d.right] ∧ i.predicate = some d.predicate ∧ i.result = some v := by
  obtain ⟨p, left, right⟩ := d
  rw [comparedAt?, hi]
  split
  next heq =>
    cases heq
    rw [Option.ite_none_right_eq_some]
    simp only [Option.some.injEq, Comparison.mk.injEq, List.cons.injEq, and_true]
    constructor
    · rintro ⟨⟨hop, hv⟩, rfl, rfl, rfl⟩
      exact ⟨hop, ⟨rfl, rfl⟩, rfl, hv⟩
    · rintro ⟨hop, ⟨rfl, rfl⟩, rfl, hv⟩
      exact ⟨⟨hop, hv⟩, rfl, rfl, rfl⟩
  next hother =>
    constructor
    · intro h
      cases h
    · rintro ⟨_, hargs, hpred, _⟩
      obtain ⟨opcode, operands, result, predicate, span⟩ := i
      cases hargs
      cases hpred
      exact absurd rfl (hother _ _ _ _ _ _)

theorem addressedAt?_eq_some_iff {p : Handle} {e : Element} :
    f.addressedAt? p index = some e ↔ i.opcode = .getelementptr ∧ i.result = some p ∧
      Lowering.addressParts f i = .ok (e.base, e.offset) ∧ e.base ∈ f.slotBuffers := by
  obtain ⟨base, offset⟩ := e
  rw [addressedAt?, hi]
  simp only [Option.ite_none_right_eq_some, and_assoc]
  refine and_congr_right fun _ => and_congr_right fun _ => ?_
  split
  next hparts =>
    rw [hparts, Option.ite_none_right_eq_some]
    simp only [Option.some.injEq, Element.mk.injEq, Except.ok.injEq, Prod.mk.injEq]
    constructor
    · rintro ⟨hmem, rfl, rfl⟩
      exact ⟨⟨rfl, rfl⟩, hmem⟩
    · rintro ⟨⟨rfl, rfl⟩, hmem⟩
      exact ⟨hmem, rfl, rfl⟩
  next hparts =>
    rw [hparts]
    exact ⟨fun h => (nomatch h), fun h => (nomatch h.1)⟩

theorem storedAt?_eq_some_iff {base x : Handle} {offset : Nat} :
    f.storedAt? base offset index = some x ↔ ∃ p, i.opcode = .store ∧ i.operands = [x, p] ∧
      f.args[Convention.message]? ≠ some p ∧ f.element? index p = some ⟨base, offset⟩ := by
  rw [storedAt?, hi]
  split
  next y p _ _ _ heq =>
    cases heq
    rw [Option.ite_none_right_eq_some]
    simp only [Option.some.injEq, List.cons.injEq, and_true, true_and]
    constructor
    · rintro ⟨⟨hm, he⟩, rfl⟩
      exact ⟨p, ⟨rfl, rfl⟩, hm, he⟩
    · rintro ⟨_, ⟨rfl, rfl⟩, hm, he⟩
      exact ⟨⟨hm, he⟩, rfl⟩
  next hother =>
    constructor
    · intro h
      cases h
    · rintro ⟨p, hop, hargs, _⟩
      obtain ⟨opcode, operands, result, predicate, span⟩ := i
      cases hop
      cases hargs
      exact absurd rfl (hother _ _ _ _ _)

theorem supplied_succ : f.supplied (index + 1) = f.supplied index ++ f.suppliedBy index i := by
  rw [supplied, List.range_succ, List.flatMap_append, List.flatMap_singleton, hi]
  rfl

end

end Func

namespace Lowering

/-- The node in a slot of a buffer. -/
def slot? (s : Lowering) (base : Handle) (offset : Nat) : Option NodeId :=
  (s.bindings.scattered? base).bind fun b => Slots.get? b.2 offset

variable {f : Func} {s t : Lowering} {i : Instruction} {index : Nat}

/-! ## The first pass -/

/-- The buffers with slots are those of a list, and each of them stands for its first slot. -/
def SlotsOf (s : Lowering) (bases : List Handle) : Prop :=
  ∀ p, (s.HasSlots p ↔ p ∈ bases) ∧
    s.elements.get? p = if p ∈ bases then some ⟨p, 0⟩ else none

theorem SlotsOf.record {bases : List Handle} (h : s.SlotsOf bases) {b : Bindings} {base : Handle}
    {slots : Nat} (hb : s.bindings.registerScattered base slots = .ok b) :
    ({ s with bindings := b }.recordElement base ⟨base, 0⟩).SlotsOf (bases ++ [base]) := by
  intro p
  have hmem : p ∈ bases ++ [base] ↔ p = base ∨ p ∈ bases := by
    rw [List.mem_append, List.mem_singleton, or_comm]
  constructor
  · rw [hmem, ← (h p).1]
    exact hasSlots_registerScattered hb p
  · show (s.elements.insert base ⟨base, 0⟩).get? p = _
    rw [Table.get?_insert, (h p).2]
    by_cases hp : p = base
    · rw [if_pos hp, if_pos (hmem.mpr (.inl hp)), hp]
    · simp only [hmem, hp, if_false, false_or]

theorem slotsOf_discover {inputs : Nat} {bases : List Handle} (h : s.SlotsOf bases)
    (ht : discover f inputs s i = .ok t) : t.SlotsOf (bases ++ (f.registered? i).toList) := by
  obtain ⟨helements, hlayouts⟩ := foldl_pool_frame (f := f) inputs i.operands s
  have hpooled : (i.operands.foldl (pool f inputs) s).SlotsOf bases := by
    intro p
    rw [HasSlots, hlayouts, helements]
    exact h p
  rcases registerArguments_cases ht with ⟨hnone, rfl⟩ | ⟨base, slots, b, hbase, hb, rfl⟩
  · rw [hnone, Option.toList_none, List.append_nil]
    exact hpooled
  · rw [hbase, Option.toList_some]
    exact hpooled.record hb

/-- The input has no slots. -/
theorem SlotsOf.consecutive {bases : List Handle} (h : s.SlotsOf bases) {base : Handle}
    (hfree : ∀ slots written, s.bindings.layouts.get? base ≠ some (.scattered slots written))
    (first length : Nat) :
    SlotsOf { s with bindings := s.bindings.consecutive base first length } bases := by
  intro p
  refine ⟨?_, (h p).2⟩
  rw [← (h p).1]
  by_cases hp : p = base
  · subst hp
    simp only [HasSlots, Bindings.consecutive, Table.get?_insert_self]
    constructor
    · rintro ⟨_, _, he⟩
      cases he
    · rintro ⟨slots, written, he⟩
      exact absurd he (hfree slots written)
  · simp only [HasSlots, Bindings.consecutive, Table.get?_insert_of_ne _ _ hp]

theorem slotsOf_of_prepared {c : Context} {output : Handle} (h : f.prepared c = .ok (s, output)) :
    s.SlotsOf f.slotBuffers := by
  obtain ⟨input, r, hargs, _, hr, hs⟩ := Func.prepared_eq_ok h
  obtain ⟨⟨a, b, d, message, hshape⟩, _⟩ := bufferArguments_eq_ok hargs
  have hdiscovered : r.SlotsOf (f.instructions.toList.filterMap f.registered?) := by
    refine pass_follows (P := fun done r => r.SlotsOf (done.filterMap f.registered?)) ?_ ?_ hr
    · intro done i s t hs ht
      rw [List.filterMap_append]
      have hstep := slotsOf_discover hs ht
      cases hbase : f.registered? i <;> simpa [hbase] using hstep
    · intro p
      exact ⟨⟨fun ⟨_, _, he⟩ => (nomatch he), fun he => (nomatch he)⟩, rfl⟩
  obtain ⟨hfree, _, b', hb, rfl⟩ := prepare_eq_ok hs
  rw [Func.slotBuffers, hshape]
  exact (hdiscovered.consecutive hfree 1 c.inputs).record hb

/-! ## One instruction -/

theorem comparisons_step_eq (hi : f.instructions[index]? = some i) (h : Lowered f s i t)
    (v : Handle) :
    t.comparisons.get? v = (f.comparedAt? v index).or (s.comparisons.get? v) := by
  rcases comparisons_of_lowered h with ⟨hfcmp, hicmp, hsame⟩ | ⟨w, d, hop, hargs, hpred, hw, hnew⟩
  · have hnone : f.comparedAt? v index = none := by
      apply Option.eq_none_iff_forall_ne_some.mpr
      intro d hd
      obtain ⟨hop | hop, _⟩ := (Func.comparedAt?_eq_some_iff hi).mp hd
      · exact hfcmp hop
      · exact hicmp hop
    rw [hnone, hsame, Option.none_or]
  · rw [hnew]
    apply Table.get?_insert_or s.comparisons (p := fun v => f.comparedAt? v index)
    · exact (Func.comparedAt?_eq_some_iff hi).mpr ⟨hop, hargs, hpred, hw⟩
    · intro v e he
      obtain ⟨_, _, _, hv⟩ := (Func.comparedAt?_eq_some_iff hi).mp he
      exact Option.some.inj (hv.symm.trans hw)

theorem hasSlots_of_lowered (h : Lowered f s i t) (base : Handle) :
    t.HasSlots base ↔ s.HasSlots base := by
  refine ⟨?_, scattered_of_lowered h⟩
  rcases bindings_of_lowered h with ⟨_, hsame⟩ | ⟨_, _, _, _, _, _, _, _, _, ht⟩ |
    ⟨other, slots, written, _, _, hslots, ht⟩ | ⟨other, count, _, _, ht⟩
  · rw [HasSlots, hsame]
    exact id
  · rw [HasSlots, ht]
    exact id
  · intro hbase
    by_cases he : base = other
    · exact he ▸ ⟨slots, written, hslots⟩
    · rw [HasSlots, ht] at hbase
      simp only [Bindings.withSlot, Table.get?_insert_of_ne _ _ he] at hbase
      exact hbase
  · intro hbase
    by_cases he : base = other
    · subst he
      rw [HasSlots, ht] at hbase
      simp only [Bindings.consecutive, Table.get?_insert_self] at hbase
      obtain ⟨_, _, hbase⟩ := hbase
      cases hbase
    · rw [HasSlots, ht] at hbase
      simp only [Bindings.consecutive, Table.get?_insert_of_ne _ _ he] at hbase
      exact hbase

theorem elements_step_eq (hi : f.instructions[index]? = some i)
    (hslots : ∀ base, s.HasSlots base ↔ base ∈ f.slotBuffers) (h : Lowered f s i t) (p : Handle) :
    t.elements.get? p = (f.addressedAt? p index).or (s.elements.get? p) := by
  rcases elements_of_lowered h with ⟨hsame, hnone⟩ | ⟨q, base, offset, hop, hq, hparts, hbase, hnew⟩
  · have hnone : f.addressedAt? p index = none := by
      apply Option.eq_none_iff_forall_ne_some.mpr
      intro e he
      obtain ⟨hop, _, hparts, hbase⟩ := (Func.addressedAt?_eq_some_iff hi).mp he
      exact hnone hop hparts ((hslots _).mpr hbase)
    rw [hnone, hsame, Option.none_or]
  · rw [hnew]
    apply Table.get?_insert_or s.elements (p := fun q => f.addressedAt? q index)
    · exact (Func.addressedAt?_eq_some_iff hi).mpr ⟨hop, hq, hparts, (hslots _).mp hbase⟩
    · intro p e he
      obtain ⟨_, hp, _⟩ := (Func.addressedAt?_eq_some_iff hi).mp he
      exact Option.some.inj (hp.symm.trans hq)

theorem slot?_eq {base : Handle} {length : Nat} {written : Array (Option NodeId)}
    (hl : s.bindings.layouts.get? base = some (.scattered length written)) (offset : Nat) :
    s.slot? base offset = Slots.get? written offset := by
  rw [slot?, Bindings.scattered?_eq_some.mpr hl]
  rfl

theorem slot?_congr {base : Handle}
    (h : t.bindings.layouts.get? base = s.bindings.layouts.get? base) (offset : Nat) :
    t.slot? base offset = s.slot? base offset := by
  rw [slot?, slot?, Bindings.scattered?, Bindings.scattered?, h]

theorem slot?_of_not_hasSlots {base : Handle} (h : ¬ s.HasSlots base) (offset : Nat) :
    s.slot? base offset = none := by
  cases hl : s.bindings.scattered? base with
  | none => rw [slot?, hl]; rfl
  | some b => exact absurd ⟨b.1, b.2, Bindings.scattered?_eq_some.mp hl⟩ h

theorem slot?_withSlot {base other : Handle} {slots offset k : Nat}
    {written : Array (Option NodeId)} {n : NodeId}
    (hl : s.bindings.layouts.get? base = some (.scattered slots written)) :
    slot? { s with bindings := s.bindings.withSlot base slots written offset n } other k =
      if other = base ∧ k = offset then some n else s.slot? other k := by
  by_cases hother : other = base
  · subst hother
    rw [slot?_eq (Table.get?_insert_self _ _ _), Slots.get?_write, slot?_eq hl]
    simp only [true_and]
  · rw [slot?_congr (Table.get?_insert_of_ne _ _ hother), if_neg fun he => hother he.1]

/-- A store writes the node of a value to one slot, and other instructions leave the slots as
they are. -/
theorem slots_of_lowered (h : Lowered f s i t) :
    ((∀ base k, t.slot? base k = s.slot? base k) ∧
      ∀ {x p}, i.opcode = .store → i.operands = [x, p] → f.args[Convention.message]? = some p) ∨
    ∃ x p n e, i.opcode = .store ∧ i.operands = [x, p] ∧ f.args[Convention.message]? ≠ some p ∧
      s.bindings.values.get? x = some n ∧ s.elements.get? p = some e ∧
      ∀ base k, t.slot? base k = if base = e.base ∧ k = e.offset then some n else s.slot? base k := by
  by_cases hop : i.opcode = .store
  · cases h with
    | message _ hargs hm =>
      refine .inl ⟨fun _ _ => rfl, fun _ hargs' => ?_⟩
      rw [hargs] at hargs'
      cases hargs'
      exact hm
    | store _ hargs hm _ _ hn he hl =>
      exact .inr ⟨_, _, _, _, hop, hargs, hm, hn, he, fun _ _ => slot?_withSlot hl⟩
    | alloca hop' | load hop' | element hop' | pointer hop' | binary hop' | negate hop'
    | extend hop' | combine hop' | selectCode hop' | select hop' | math hop' | discrete hop'
    | atomic hop' | branch hop' | ret hop' =>
      rw [hop] at hop'
      cases hop'
    | compare hop' => rcases hop' with hop' | hop' <;> rw [hop] at hop' <;> cases hop'
  · refine .inl ⟨fun base k => ?_, fun hop' => absurd hop' hop⟩
    cases h with
    | store hop' => exact absurd hop' hop
    | extend _ _ _ ht | combine _ _ ht =>
      rw [recordOperands_frame ht]
      rfl
    | atomic _ _ _ _ _ _ _ _ hfree =>
      -- The result buffer has no slots, neither in front of the call nor behind it.
      by_cases hbase : s.HasSlots base
      · apply slot?_congr
        apply Table.get?_insert_of_ne
        rintro rfl
        obtain ⟨slots, written, hl⟩ := hbase
        exact hfree slots written hl
      · rw [slot?_of_not_hasSlots hbase, slot?_of_not_hasSlots]
        rintro ⟨slots, written, hl⟩
        simp only [Bindings.consecutive, Table.get?_insert] at hl
        split at hl
        · cases hl
        · exact hbase ⟨slots, written, hl⟩
    | _ => rfl

end Lowering

namespace Func

open Lowering

variable {f : Func} {c : Context} {g : Graph} {s t : Lowering} {i : Instruction} {index : Nat}

/-! ## The run -/

/-- The tables in front of instruction number `index` hold what the instructions before it
say. -/
structure Traced (f : Func) (index : Nat) (s : Lowering) : Prop where
  comparisons : ∀ v, s.comparisons.get? v = f.comparison? index v
  slotted : ∀ base, s.HasSlots base ↔ base ∈ f.slotBuffers
  elements : ∀ p, s.elements.get? p = f.element? index p
  /-- A result has a node only behind its instruction. -/
  values : ∀ {v n j}, s.bindings.values.get? v = some n → f.kind? v = some (.result j) → j < index
  stored : ∀ {base k x}, f.stored? index base k = some x →
    ∃ n, s.slot? base k = some n ∧ s.bindings.values.get? x = some n
  empty : ∀ {base k}, f.stored? index base k = none → s.slot? base k = none

/-- In front of the second pass all slots are empty. -/
theorem slot?_of_prepared {output : Handle} (h : f.prepared c = .ok (s, output)) (base : Handle)
    (k : Nat) : s.slot? base k = none := by
  obtain ⟨input, hready⟩ := ready_of_prepared h
  by_cases hbase : s.HasSlots base
  · obtain ⟨slots, written, hl⟩ := hbase
    rw [slot?_eq hl]
    have hne : base ≠ input := by
      rintro rfl
      rw [hready.input_layout] at hl
      cases hl
    obtain ⟨_, _, he⟩ := hready.layouts hl hne
    cases he
    rfl
  · exact slot?_of_not_hasSlots hbase k

theorem traced_of_prepared {output : Handle} (h : f.prepared c = .ok (s, output)) :
    f.Traced 0 s := by
  obtain ⟨input, hready⟩ := ready_of_prepared h
  have hslots := slotsOf_of_prepared h
  refine ⟨hready.comparisons, fun base => (hslots base).1, fun p => (hslots p).2, ?_, nofun, ?_⟩
  · intro v n j hv hkind
    obtain ⟨_, x, hx, _⟩ := hready.values hv
    rw [kind?_of_float? hx] at hkind
    cases hkind
  · intro base k _
    exact slot?_of_prepared h base k

section
variable (hown : f.Owned) (hi : f.instructions[index]? = some i) (hs : f.Traced index s)
  (h : Lowered f s i t)
include hown hi hs h

/-- What has a node is not the result of the instruction. -/
theorem Traced.kept {v : Handle} {n : NodeId} (hv : s.bindings.values.get? v = some n) :
    t.bindings.values.get? v = some n := by
  rw [values_of_lowered h]
  · exact hv
  · intro hresult
    exact absurd (hs.values hv (hown.results hi hresult)) (Nat.lt_irrefl index)

theorem Traced.values_step {v : Handle} {n : NodeId} {j : Nat}
    (hv : t.bindings.values.get? v = some n) (hkind : f.kind? v = some (.result j)) :
    j < index + 1 := by
  by_cases hresult : i.result = some v
  · have hindex := hown.results hi hresult
    rw [hkind] at hindex
    cases hindex
    exact Nat.lt_succ_self index
  · rw [values_of_lowered h hresult] at hv
    exact Nat.lt_succ_of_lt (hs.values hv hkind)

theorem Traced.slots_step (base : Handle) (k : Nat) :
    (∃ x n, f.stored? (index + 1) base k = some x ∧ t.slot? base k = some n ∧
      t.bindings.values.get? x = some n) ∨
    (f.stored? (index + 1) base k = none ∧ t.slot? base k = none) := by
  -- Where nothing is stored in the slot, it is as it was, and so is the node in it.
  have hkeep : f.storedAt? base k index = none → t.slot? base k = s.slot? base k →
      (∃ x n, f.stored? (index + 1) base k = some x ∧ t.slot? base k = some n ∧
        t.bindings.values.get? x = some n) ∨
      (f.stored? (index + 1) base k = none ∧ t.slot? base k = none) := by
    intro hnone hslot
    have hstored : f.stored? (index + 1) base k = f.stored? index base k := by
      show (f.storedAt? base k index).or _ = _
      rw [hnone, Option.none_or]
      rfl
    rw [hstored, hslot]
    cases hx : f.stored? index base k with
    | none => exact .inr ⟨rfl, hs.empty hx⟩
    | some x =>
      obtain ⟨n, hn, hv⟩ := hs.stored hx
      exact .inl ⟨x, n, rfl, hn, hs.kept hown hi h hv⟩
  rcases slots_of_lowered h with ⟨hsame, hmessage⟩ | ⟨x, p, n, e, hop, hargs, hm, hv, he, hslot⟩
  · apply hkeep _ (hsame base k)
    apply Option.eq_none_iff_forall_ne_some.mpr
    intro x hx
    obtain ⟨p, hop, hargs, hm, _⟩ := (storedAt?_eq_some_iff hi).mp hx
    exact hm (hmessage hop hargs)
  · rw [hs.elements] at he
    by_cases hat : base = e.base ∧ k = e.offset
    · obtain ⟨rfl, rfl⟩ := hat
      refine .inl ⟨x, n, ?_, by rw [hslot, if_pos ⟨rfl, rfl⟩], hs.kept hown hi h hv⟩
      show (f.storedAt? e.base e.offset index).or _ = _
      rw [(storedAt?_eq_some_iff hi).mpr ⟨p, hop, hargs, hm, he⟩, Option.some_or]
    · apply hkeep _ (by rw [hslot, if_neg hat])
      apply Option.eq_none_iff_forall_ne_some.mpr
      intro y hy
      obtain ⟨q, _, hargs', _, he'⟩ := (storedAt?_eq_some_iff hi).mp hy
      rw [hargs] at hargs'
      cases hargs'
      rw [he] at he'
      cases he'
      exact hat ⟨rfl, rfl⟩

theorem Traced.step : f.Traced (index + 1) t where
  comparisons v := by
    rw [comparisons_step_eq hi h, hs.comparisons]
    rfl
  slotted base := (hasSlots_of_lowered h base).trans (hs.slotted base)
  elements p := by
    rw [elements_step_eq hi hs.slotted h, hs.elements, element?, ← Option.or_assoc]
    rfl
  values := hs.values_step hown hi h
  stored {base k x} hx := by
    rcases hs.slots_step hown hi h base k with ⟨y, n, hy, hn⟩ | ⟨hnone, _⟩
    · rw [hx] at hy
      cases hy
      exact ⟨n, hn⟩
    · rw [hx] at hnone
      cases hnone
  empty {base k} hx := by
    rcases hs.slots_step hown hi h base k with ⟨y, n, hy, _⟩ | ⟨_, hnone⟩
    · rw [hx] at hy
      cases hy
    · exact hnone

end

theorem traced_before (hown : f.Owned) (hle : index ≤ f.instructions.size)
    (hs : f.before c index = .ok s) : f.Traced index s := by
  refine before_keeps (P := f.Traced) ?_ ?_ hle hs
  · intro s output hp
    exact traced_of_prepared hp
  · intro index i s t hi hs ht
    exact hs.step hown hi ht

/-! ## The nodes of a graph -/

theorem hasNodes_filterMap {at? : Nat → Option Handle} {ks : List Nat} {ns : List NodeId}
    (h : List.Forall₂ (fun k n => ∃ x, at? k = some x ∧ s.bindings.values.get? x = some n) ks ns) :
    s.HasNodes (ks.filterMap at?) ns := by
  unfold HasNodes
  induction h with
  | nil => exact .nil
  | cons hk _ ih =>
    obtain ⟨x, hx, hn⟩ := hk
    rw [List.filterMap_cons_some hx]
    exact .cons hn ih

/-- What was stored in a full buffer has the nodes in it. -/
theorem Traced.hasNodes_contents (hs : f.Traced index s) {base : Handle} {count : Nat}
    {written : Array (Option NodeId)} {nodes : List NodeId}
    (hl : s.bindings.layouts.get? base = some (.scattered count written))
    (hnodes : Slots.filled count written = .ok nodes) :
    s.HasNodes (f.contents index base count) nodes := by
  obtain ⟨hlen, hget⟩ := Slots.filled_eq_ok_iff.mp hnodes
  apply hasNodes_filterMap
  apply List.forall₂_iff_get.mpr
  refine ⟨by rw [List.length_range, hlen], fun k hk hk' => ?_⟩
  rw [List.length_range] at hk
  have hslot := (slot?_eq hl k).trans (hget k hk)
  rw [List.getElem?_eq_getElem hk'] at hslot
  simp only [List.get_eq_getElem, List.getElem_range]
  cases hx : f.stored? index base k with
  | none =>
    rw [hs.empty hx] at hslot
    cases hslot
  | some x =>
    obtain ⟨n, hn, hv⟩ := hs.stored hx
    rw [hslot] at hn
    cases hn
    exact ⟨x, rfl, hv⟩

end Func

namespace Lowering

variable {f : Func} {s t : Lowering} {i : Instruction} {index : Nat}

theorem nodes_of_yields {op : Op} {n : Nat} (h : op.Yields n) (args : List Nat) :
    Operator.nodes ⟨op, args⟩ = args := by
  rw [Operator.nodes, h.1]
  rfl

theorem operators_of_recordOperands {vs : List Handle} (hflat : s.graph.Flat)
    (h : vs.foldlM (recordOperand f) s = .ok t) :
    ∃ new, t.graph.operators = s.graph.operators ++ new ∧
      List.Forall₂ (fun o ws => s.HasNodes ws o.nodes) new
        ((vs.filterMap s.comparisons.get?).map fun d => [d.right, d.left]) := by
  induction vs generalizing s with
  | nil =>
    cases h
    exact ⟨[], (List.append_nil _).symm, .nil⟩
  | cons v vs ih =>
    rw [List.foldlM_cons] at h
    obtain ⟨r, hr, ht⟩ := bind_eq_ok.mp h
    rcases recordOperand_cases hr with ⟨hnone, rfl⟩ | ⟨d, op, m, n, hd, hop, hnodes, rfl⟩
    · rw [List.filterMap_cons_none hnone]
      exact ih hflat ht
    · obtain ⟨new, hnew, hrest⟩ := ih (Graph.flat_pushOperator hflat _ _) ht
      refine ⟨⟨op, [n, m]⟩ :: new, ?_, ?_⟩
      · rw [hnew, emit, Graph.operators_pushOperator hflat, List.append_assoc]
        rfl
      · rw [List.filterMap_cons_some hd, List.map_cons]
        refine .cons ?_ hrest
        rw [nodes_of_yields (Op.yields_of_recording? hop)]
        exact hnodes

/-- The operators that an instruction appends take the nodes of the values it supplies. -/
theorem operators_of_lowered (hflat : s.graph.Flat) (hs : f.Traced index s)
    (h : Lowered f s i t) :
    ∃ new, t.graph.operators = s.graph.operators ++ new ∧
      List.Forall₂ (fun o vs => s.HasNodes vs o.nodes) new (f.suppliedBy index i) := by
  have hone : ∀ {o : Operator} {vs : List Handle}, f.suppliedBy index i = [vs] →
      s.HasNodes vs o.nodes → t.graph.operators = s.graph.operators ++ [o] →
      ∃ new, t.graph.operators = s.graph.operators ++ new ∧
        List.Forall₂ (fun o vs => s.HasNodes vs o.nodes) new (f.suppliedBy index i) := by
    intro o vs hvs hnodes hnew
    exact ⟨[o], hnew, hvs ▸ .cons hnodes .nil⟩
  have hzero : f.suppliedBy index i = [] → t.graph = s.graph →
      ∃ new, t.graph.operators = s.graph.operators ++ new ∧
        List.Forall₂ (fun o vs => s.HasNodes vs o.nodes) new (f.suppliedBy index i) := by
    intro hnone hsame
    exact ⟨[], by rw [hsame, List.append_nil], hnone ▸ .nil⟩
  cases h with
  | alloca hop | load hop | element hop | pointer hop | message hop | store hop | branch hop
  | ret hop =>
    exact hzero (by simp only [Func.suppliedBy, hop]) rfl
  | compare hop =>
    apply hzero _ rfl
    rcases hop with hop | hop <;> simp only [Func.suppliedBy, hop]
  | @binary op left right v m n hop hargs _ hn =>
    have hsupplied : f.suppliedBy index i = [[left, right]] := by
      unfold binaryOp? at hop
      split at hop
      case h_5 => cases hop
      all_goals
        rename_i hcode
        simp only [Func.suppliedBy, hcode, hargs]
    apply hone hsupplied _ (Graph.operators_pushOperator hflat op [m, n])
    rw [nodes_of_yields (Op.yields_of_binaryOp? hop)]
    exact hn
  | @negate operand v n hop hargs _ hn =>
    exact hone (by simp only [Func.suppliedBy, hop]) (hargs ▸ hn)
      (Graph.operators_pushOperator hflat .neg [n])
  | extend hop _ _ ht =>
    obtain ⟨new, hnew, hvs⟩ := operators_of_recordOperands (s := { s with extended := true }) hflat ht
    refine ⟨new, hnew, ?_⟩
    simp only [Func.suppliedBy, hop, ← funext hs.comparisons]
    exact hvs
  | combine hop _ ht =>
    obtain ⟨new, hnew, hvs⟩ := operators_of_recordOperands hflat ht
    refine ⟨new, hnew, ?_⟩
    simp only [Func.suppliedBy, hop, ← funext hs.comparisons]
    exact hvs
  | selectCode hop hargs _ ht hd =>
    apply hzero _ rfl
    simp only [Func.suppliedBy, hop, hargs, ht, Option.some.injEq, hd, if_false]
  | @select condition ifTrue ifFalse v d _ _ _ _ _ hop hargs hc hsel hd hn =>
    have hsupplied : f.suppliedBy index i = [[d.left, d.right, ifTrue, ifFalse]] := by
      simp only [Func.suppliedBy, hop, hargs, hd.1, if_true, ← hs.comparisons, hc]
      rfl
    apply hone hsupplied _ (Graph.operators_pushOperator hflat _ _)
    rw [nodes_of_yields (Op.yields_of_selecting? hsel)]
    exact hn
  | @math callee v name op args ns hop hargs hlen _ _ _ hcallee hn =>
    have hsupplied : f.suppliedBy index i = [i.callArguments] := by
      rcases hlen with hlen | hlen
      · obtain ⟨a, rfl⟩ := List.length_eq_one_iff.mp hlen
        simp only [Func.suppliedBy, hop, hargs, List.cons_append, List.nil_append]
      · obtain ⟨a, b, rfl⟩ := List.length_eq_two.mp hlen
        simp only [Func.suppliedBy, hop, hargs, List.cons_append, List.nil_append]
    rw [(callee_of_operands hop hargs).2] at hsupplied
    apply hone hsupplied _ (Graph.operators_pushOperator hflat op ns)
    rw [nodes_of_yields (Op.yields_of_ofCallee? hcallee)]
    exact hn
  | @discrete callee arg v name rest n hop hargs _ _ _ hn =>
    have hsupplied : f.suppliedBy index i = [i.callArguments] := by
      simp only [Func.suppliedBy, hop, hargs]
    rw [(callee_of_operands hop (show i.operands = [arg] ++ [callee] from hargs)).2] at hsupplied
    refine hone (o := ⟨.discrete, [(s.graph.internDiscrete rest).2, n]⟩) hsupplied hn ?_
    refine (Graph.operators_pushOperator (Graph.grown_internDiscrete hflat rest).flat _ _).trans ?_
    rw [Graph.operators_internDiscrete]
  | @atomic counted arguments _ _ _ _ _ _ rest _ results _ nodes hop hargs _ _ hcount _ hl hnodes =>
    obtain ⟨w, hw, rfl⟩ := count_eq_ok.mp hcount
    have hsupplied : f.suppliedBy index i = [f.contents index arguments w.toNat] := by
      simp only [Func.suppliedBy, hop, hargs, hw, Option.map_some, Option.getD_some]
    refine hone (o := ⟨.atom, (s.graph.internAtomic rest).2 :: results :: w.toNat :: nodes⟩)
      hsupplied (hs.hasNodes_contents hl hnodes) ?_
    refine (Graph.operators_pushOperator (Graph.grown_internAtomic hflat rest).flat _ _).trans ?_
    rw [Graph.operators_internAtomic]

end Lowering

namespace Func

open Lowering

variable {f : Func} {c : Context} {g : Graph} {s : Lowering} {index : Nat}

/-- The values have the nodes at the end of the run, in order. -/
def FinalNodes (f : Func) (c : Context) (vs : List Handle) (ns : List NodeId) : Prop :=
  List.Forall₂ (fun v n => f.node? c f.instructions.size v = some n) vs ns

/-- A value keeps its node. -/
theorem node?_mono (hown : f.Owned) (hlower : f.lower c = .ok g) {later : Nat} {v : Handle}
    {n : NodeId} (hle : index ≤ later) (hsize : later ≤ f.instructions.size)
    (hv : f.node? c index v = some n) : f.node? c later v = some n := by
  obtain ⟨_, _, final, _, hfinal, _⟩ := lower_eq_ok.mp hlower
  obtain ⟨t, ht⟩ := exists_before_of_le hsize hfinal
  obtain ⟨s, hs⟩ := exists_before_of_le hle ht
  rw [node?, hs] at hv
  rw [node?, ht]
  have htraced := traced_before hown (Nat.le_trans hle hsize) hs
  refine keeps_between (P := fun r => r.bindings.values.get? v = some n) hle hsize hs hv ?_ ht
  intro k i r r' hk _ hi hr hstep
  rw [values_of_lowered hstep]
  · exact hr
  · -- What has a node is the result of an instruction in front of `index`, if of any.
    intro hresult
    have hearlier := htraced.values hv (hown.results hi hresult)
    omega

theorem finalNodes_of_hasNodes (hown : f.Owned) (hlower : f.lower c = .ok g)
    (hle : index ≤ f.instructions.size) (hs : f.before c index = .ok s) {vs : List Handle}
    {ns : List NodeId} (h : s.HasNodes vs ns) : f.FinalNodes c vs ns := by
  refine List.Forall₂.imp ?_ h
  intro v n hv
  apply node?_mono hown hlower hle (Nat.le_refl _)
  rw [node?, hs]
  exact hv

/-- In front of an instruction, the operators have the nodes of the values that were supplied
so far. -/
theorem supplied_before (hown : f.Owned) (hlower : f.lower c = .ok g)
    (hle : index ≤ f.instructions.size) (hs : f.before c index = .ok s) :
    List.Forall₂ (fun o vs => f.FinalNodes c vs o.nodes) s.graph.operators (f.supplied index) := by
  induction index generalizing s with
  | zero =>
    obtain ⟨output, hp⟩ := before_zero_eq_ok.mp hs
    obtain ⟨input, hready⟩ := ready_of_prepared hp
    rw [hready.graph]
    exact .nil
  | succ index ih =>
    have hi : f.instructions[index]? = some f.instructions[index] :=
      Array.getElem?_eq_getElem (Nat.lt_of_succ_le hle)
    obtain ⟨r, hr, hstep⟩ := (before_succ_eq_ok hi).mp hs
    have hle := Nat.le_of_succ_le hle
    obtain ⟨_, output, _, hp, _, _⟩ := lower_eq_ok.mp hlower
    obtain ⟨new, hnew, hvs⟩ := operators_of_lowered (inOrder_before hp hle hr).ordered.flat
      (traced_before hown hle hr) (lowered_of_instruction hstep)
    rw [hnew, supplied_succ hi]
    refine List.rel_append (ih hle hr) (hvs.imp ?_)
    intro o vs ho
    exact finalNodes_of_hasNodes hown hlower hle hr ho

/-- The dependents are the nodes of what was last stored in the output. -/
theorem finalNodes_returned (hown : f.Owned) (hlower : f.lower c = .ok g) :
    f.FinalNodes c (f.returned c) g.dependents.toList := by
  obtain ⟨_, output, final, hp, hfinal, hg⟩ := lower_eq_ok.mp hlower
  obtain ⟨_, hready⟩ := ready_of_prepared hp
  obtain ⟨a, b, d, message, hargs⟩ := hready.args
  have hin := inOrder_before hp (Nat.le_refl _) hfinal
  obtain ⟨written, nodes, hl, hnodes, rfl⟩ := hin.finish_eq_ok hg
  have htraced := traced_before hown (Nat.le_refl _) hfinal
  rw [returned, hargs]
  exact finalNodes_of_hasNodes hown hlower (Nat.le_refl _) hfinal
    (htraced.hasNodes_contents hl hnodes)

end Func
end SsaGraph

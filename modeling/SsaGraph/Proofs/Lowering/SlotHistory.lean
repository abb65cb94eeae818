import Mathlib.Data.List.Induction
import SsaGraph.Proofs.Lowering.Sources

/-!
Slots and the stores that wrote them.

The array behind a buffer is only as long as the stores so far made it, and it has gaps.
Nothing of this can be seen from outside: a slot holds the node of the last store to it
that succeeded, and the buffer is filled or misses its least slot without a store
(`Slots.Holds`).  The same is true of a whole run, where the stores can be read off the
instructions (`Func.storesTo`), so a run ends with the nodes of the last stores to the
output, or with the first slot of it that no instruction stores to.

A store fails where the buffer has no such slot.  It also fails where no memory holds
that many slots, however long the buffer is.
-/

namespace SsaGraph

namespace Slots

/-- The node of the last store to a slot. -/
def latest (stores : List (Nat × NodeId)) (k : Nat) : Option NodeId :=
  ((stores.filter fun p => p.1 = k).getLast?).map (·.2)

/-- Whether a store to a buffer of `n` slots succeeds. -/
def succeeds (n : Nat) (p : Nat × NodeId) : Bool := decide (p.1 < n ∧ p.1 + 1 < limit)

/-- The slots of a buffer of length `n` behind stores: each holds the node of the last one to
it, and the whole buffer is given in order or the least slot is missed that has none. -/
structure Holds (n : Nat) (stores : List (Nat × NodeId)) (written : Array (Option NodeId)) :
    Prop where
  get? : ∀ k, get? written k = latest stores k
  full : ∀ nodes, filled n written = .ok nodes ↔
    nodes.length = n ∧ ∀ k < n, latest stores k = nodes[k]?
  gap : ∀ k, filled n written = .error k ↔
    k < n ∧ latest stores k = none ∧ ∀ j < k, latest stores j ≠ none

theorem latest_concat (stores : List (Nat × NodeId)) (offset k : Nat) (node : NodeId) :
    latest (stores ++ [(offset, node)]) k = if k = offset then some node else latest stores k := by
  unfold latest
  rw [List.filter_append]
  by_cases hk : k = offset
  · rw [if_pos hk, List.filter_cons_of_pos (by simp [hk]), List.filter_nil, List.getLast?_concat]
    rfl
  · rw [if_neg hk, List.filter_cons_of_neg (by simp [Ne.symm hk]), List.filter_nil, List.append_nil]

theorem filledFrom_eq_error_iff {n offset k : Nat} {slots : List (Option NodeId)} :
    filledFrom (offset + n) offset slots = .error k ↔
      ∃ j, k = offset + j ∧ j < n ∧ (slots[j]?).join = none ∧
        ∀ l < j, (slots[l]?).join ≠ none := by
  induction n generalizing offset slots with
  | zero =>
    rw [filledFrom_step, if_neg (by omega)]
    refine ⟨fun h => (nomatch h), fun ⟨j, _, hj, _⟩ => absurd hj (Nat.not_lt_zero j)⟩
  | succ n ih =>
    rw [filledFrom_step, if_pos (by omega), List.head?_eq_getElem?]
    cases hslot : (slots[0]?).join with
    | none =>
      simp only [Except.error.injEq]
      constructor
      · intro h
        exact ⟨0, h.symm, Nat.succ_pos n, hslot, fun l hl => absurd hl (Nat.not_lt_zero l)⟩
      · rintro ⟨j, rfl, _, _, hfirst⟩
        cases j with
        | zero => rfl
        | succ j => exact absurd hslot (hfirst 0 (Nat.succ_pos j))
    | some node =>
      simp only
      rw [Lowering.map_eq_error, ← Nat.add_assoc, Nat.add_right_comm, ih]
      constructor
      · rintro ⟨j, rfl, hj, hnone, hfirst⟩
        refine ⟨j + 1, by omega, by omega, by simpa using hnone, fun l hl => ?_⟩
        cases l with
        | zero => simp [hslot]
        | succ l => simpa using hfirst l (by omega)
      · rintro ⟨j, rfl, hj, hnone, hfirst⟩
        cases j with
        | zero => simp [hslot] at hnone
        | succ j =>
          refine ⟨j, by omega, by omega, by simpa using hnone, fun l hl => ?_⟩
          simpa using hfirst (l + 1) (by omega)

theorem filled_eq_error_iff {length k : Nat} {written : Array (Option NodeId)} :
    filled length written = .error k ↔
      k < length ∧ get? written k = none ∧ ∀ j < k, get? written j ≠ none := by
  have h := @filledFrom_eq_error_iff length 0 k written.toList
  simp only [Nat.zero_add, Array.getElem?_toList, exists_eq_left'] at h
  exact h

theorem holds_of_get? {n : Nat} {stores : List (Nat × NodeId)} {written : Array (Option NodeId)}
    (h : ∀ k, get? written k = latest stores k) : Holds n stores written where
  get? := h
  full nodes := by
    rw [filled_eq_ok_iff]
    simp only [h]
  gap k := by
    rw [filled_eq_error_iff]
    simp only [h]

end Slots

/-! ## Stores to one buffer -/

namespace Bindings

/-- Stores to a buffer, one after the other.  One that fails changes nothing. -/
def storeEach (b : Bindings) (base : Handle) (stores : List (Nat × NodeId)) : Bindings :=
  stores.foldl (fun b p => (b.store base p.1 p.2).toOption.getD b) b

/-- How a store to a buffer ends. -/
theorem store_eq {b : Bindings} {base : Handle} {n : Nat} {written : Array (Option NodeId)}
    (hl : b.layouts.get? base = some (.scattered n written)) (k : Nat) (node : NodeId) :
    b.store base k node =
      if n ≤ k then .error (.storeBeyond k n)
      else if Slots.limit ≤ k + 1 then .error (.unaddressable k)
      else .ok (b.withSlot base n written k node) := by
  rw [store, hl]
  rfl

/-- A store either fails and changes nothing, or writes its slot. -/
theorem store_or {b : Bindings} {base : Handle} {n : Nat} {written : Array (Option NodeId)}
    (hl : b.layouts.get? base = some (.scattered n written)) (p : Nat × NodeId) :
    (b.store base p.1 p.2).toOption.getD b =
      if Slots.succeeds n p then b.withSlot base n written p.1 p.2 else b := by
  rw [store_eq hl]
  by_cases hs : n ≤ p.1
  · have hfails : Slots.succeeds n p = false := decide_eq_false (by omega)
    rw [if_pos hs, hfails]
    rfl
  · by_cases hm : Slots.limit ≤ p.1 + 1
    · have hfails : Slots.succeeds n p = false := decide_eq_false (by omega)
      rw [if_neg hs, if_pos hm, hfails]
      rfl
    · have hholds : Slots.succeeds n p = true := decide_eq_true (by omega)
      rw [if_neg hs, if_neg hm, hholds]
      rfl

theorem storeEach_concat (b : Bindings) (base : Handle) (stores : List (Nat × NodeId))
    (p : Nat × NodeId) :
    b.storeEach base (stores ++ [p]) =
      ((b.storeEach base stores).store base p.1 p.2).toOption.getD (b.storeEach base stores) := by
  rw [storeEach, List.foldl_append]
  rfl

/-- Stores that fail could as well not be made. -/
theorem storeEach_filter {b : Bindings} {base : Handle} {n : Nat} {written : Array (Option NodeId)}
    (hl : b.layouts.get? base = some (.scattered n written)) (stores : List (Nat × NodeId)) :
    b.storeEach base (stores.filter (Slots.succeeds n)) = b.storeEach base stores := by
  induction stores generalizing b written with
  | nil => rfl
  | cons p stores ih =>
    show _ = ((b.store base p.1 p.2).toOption.getD b).storeEach base stores
    rw [store_or hl]
    by_cases hp : Slots.succeeds n p = true
    · rw [List.filter_cons_of_pos hp, if_pos hp, ← ih (Table.get?_insert_self _ _ _)]
      show ((b.store base p.1 p.2).toOption.getD b).storeEach base _ = _
      rw [store_or hl, if_pos hp]
    · rw [List.filter_cons_of_neg hp, if_neg hp]
      exact ih hl

/-- Behind stores, a buffer holds what the successful ones left, and the rest is as it was. -/
theorem storeEach_spec {b : Bindings} {base : Handle} {n : Nat}
    (hl : b.layouts.get? base = some (.scattered n #[])) (stores : List (Nat × NodeId)) :
    ∃ written, (b.storeEach base stores).layouts.get? base = some (.scattered n written) ∧
      (∀ k, Slots.get? written k = Slots.latest (stores.filter (Slots.succeeds n)) k) ∧
      (∀ other, other ≠ base → (b.storeEach base stores).layouts.get? other = b.layouts.get? other) ∧
      (b.storeEach base stores).values = b.values ∧
      (b.storeEach base stores).pointers = b.pointers := by
  induction stores using List.reverseRecOn with
  | nil => exact ⟨#[], hl, fun k => rfl, fun _ _ => rfl, rfl, rfl⟩
  | append_singleton stores p ih =>
    obtain ⟨written, hwritten, hget, hother, hvalues, hpointers⟩ := ih
    have hstep : b.storeEach base (stores ++ [p]) =
        if Slots.succeeds n p then (b.storeEach base stores).withSlot base n written p.1 p.2
        else b.storeEach base stores := by
      rw [storeEach_concat]
      exact store_or hwritten p
    rw [hstep, List.filter_append]
    by_cases hp : Slots.succeeds n p = true
    · rw [if_pos hp, List.filter_cons_of_pos hp, List.filter_nil]
      refine ⟨_, Table.get?_insert_self _ _ _, fun k => ?_, fun other hne => ?_, hvalues, hpointers⟩
      · rw [Slots.get?_write, Slots.latest_concat, hget]
      · exact (Table.get?_insert_of_ne _ _ hne).trans (hother other hne)
    · rw [if_neg hp, List.filter_cons_of_neg hp, List.filter_nil, List.append_nil]
      exact ⟨written, hwritten, hget, hother, hvalues, hpointers⟩

end Bindings

/-! ## The stores of a run -/

namespace Func

open Lowering

variable {f : Func} {c : Context} {s t : Lowering} {i : Instruction} {index : Nat}

/-- The slot of a buffer that instruction number `index` stores to, with the node that it stores.
Stores of a message are dropped. -/
def storeAt? (f : Func) (c : Context) (base : Handle) (index : Nat) : Option (Nat × NodeId) :=
  match f.instructions[index]? with
  | some ⟨.store, [x, p], _, _, _⟩ =>
    if f.args[Convention.message]? = some p then none
    else (f.element? index p).bind fun e =>
      if e.base = base then (f.node? c index x).map fun n => (e.offset, n) else none
  | _ => none

/-- The stores to a buffer in front of instruction number `stop`, in order. -/
def storesTo (f : Func) (c : Context) (base : Handle) (stop : Nat) : List (Nat × NodeId) :=
  (List.range stop).filterMap (f.storeAt? c base)

theorem storesTo_succ (f : Func) (c : Context) (base : Handle) (index : Nat) :
    f.storesTo c base (index + 1) = f.storesTo c base index ++ (f.storeAt? c base index).toList := by
  rw [storesTo, List.range_succ, List.filterMap_append]
  cases h : f.storeAt? c base index <;> simp [storesTo, h]

/-- What the tables of slots in front of instruction number `index` hold. -/
structure Tracked (f : Func) (c : Context) (index : Nat) (s : Lowering) : Prop where
  slotted : ∀ base, s.HasSlots base ↔ base ∈ f.slotBuffers
  elements : ∀ p, s.elements.get? p = f.element? index p
  slots : ∀ base k, s.slot? base k = Slots.latest (f.storesTo c base index) k

theorem storeAt?_eq (hi : f.instructions[index]? = some i) {x p : Handle} (hop : i.opcode = .store)
    (hargs : i.operands = [x, p]) (base : Handle) :
    f.storeAt? c base index =
      if f.args[Convention.message]? = some p then none
      else (f.element? index p).bind fun e =>
        if e.base = base then (f.node? c index x).map fun n => (e.offset, n) else none := by
  obtain ⟨opcode, operands, result, predicate, span⟩ := i
  cases hop
  cases hargs
  rw [storeAt?, hi]

theorem storeAt?_of_ne (hi : f.instructions[index]? = some i)
    (hno : ∀ {x p}, i.opcode = .store → i.operands = [x, p] → f.args[Convention.message]? = some p)
    (base : Handle) : f.storeAt? c base index = none := by
  rw [storeAt?, hi]
  split
  next heq =>
    cases heq
    exact if_pos (hno rfl rfl)
  · rfl

theorem Tracked.step (hi : f.instructions[index]? = some i) (hbefore : f.before c index = .ok s)
    (hs : f.Tracked c index s) (h : Lowered f s i t) : f.Tracked c (index + 1) t where
  slotted base := (hasSlots_of_lowered h base).trans (hs.slotted base)
  elements p := by
    rw [elements_step_eq hi hs.slotted h, hs.elements, element?, ← Option.or_assoc]
    rfl
  slots base k := by
    rw [storesTo_succ]
    rcases slots_of_lowered h with ⟨hsame, hmessage⟩ | ⟨x, p, n, e, hop, hargs, hm, hv, he, hslot⟩
    · rw [storeAt?_of_ne hi hmessage, Option.toList_none, List.append_nil, hsame]
      exact hs.slots base k
    · have hnode : f.node? c index x = some n := by
        rw [node?, hbefore]
        exact hv
      rw [storeAt?_eq hi hop hargs, if_neg hm, ← hs.elements, he, Option.bind_some, hnode, hslot,
        hs.slots]
      by_cases hbase : e.base = base
      · rw [if_pos hbase, Option.map_some, Option.toList_some, Slots.latest_concat]
        simp only [hbase, true_and]
      · rw [if_neg hbase, Option.toList_none, List.append_nil, if_neg fun he => hbase he.1.symm]

theorem tracked_before (hle : index ≤ f.instructions.size) (hs : f.before c index = .ok s) :
    f.Tracked c index s := by
  induction index generalizing s with
  | zero =>
    obtain ⟨output, hp⟩ := before_zero_eq_ok.mp hs
    have hslots := slotsOf_of_prepared hp
    exact ⟨fun base => (hslots base).1, fun p => (hslots p).2, slot?_of_prepared hp⟩
  | succ index ih =>
    have hi : f.instructions[index]? = some f.instructions[index] :=
      Array.getElem?_eq_getElem (Nat.lt_of_succ_le hle)
    obtain ⟨r, hr, hstep⟩ := (before_succ_eq_ok hi).mp hs
    exact (ih (Nat.le_of_succ_le hle) hr).step hi hr (lowered_of_instruction hstep)

/-- The output behind a run holds what its stores left. -/
theorem output_of_run (hs : f.before c f.instructions.size = .ok s) :
    ∃ output written, f.args[Convention.output]? = some output ∧
      s.bindings.layouts.get? output = some (.scattered c.dependents written) ∧
      Slots.Holds c.dependents (f.storesTo c output f.instructions.size) written ∧
      f.lower c = finish output (f.instructions.toList.length - 1) s ∧ s.graph.dependents = #[] := by
  obtain ⟨⟨r, output⟩, hp, hpass⟩ := bind_eq_ok.mp ((before_size f c).symm.trans hs)
  obtain ⟨_, hready⟩ := ready_of_prepared hp
  obtain ⟨a, b, d, message, hargs⟩ := hready.args
  have hin := inOrder_before hp (Nat.le_refl _) hs
  obtain ⟨written, hl⟩ := hin.output
  have htracked := tracked_before (Nat.le_refl _) hs
  refine ⟨output, written, by rw [hargs]; rfl, hl, Slots.holds_of_get? fun k => ?_, ?_, hin.pending⟩
  · rw [← slot?_eq hl, htracked.slots]
  · rw [lower_eq, hp]
    show (pass (instruction f) 0 r f.instructions.toList >>= finish output _) = _
    rw [hpass]
    rfl

/-- A lowering ends as the stores to the output say: with the least slot that has none, or with
the nodes of the last ones as dependents. -/
def Delivers (f : Func) (c : Context) (stores : List (Nat × NodeId)) : Prop :=
  (∃ k, f.lower c = .error (.refused (.incomplete k)) ∧ k < c.dependents ∧
    Slots.latest stores k = none ∧ ∀ j < k, Slots.latest stores j ≠ none) ∨
  ∃ g, f.lower c = .ok g ∧ g.dependents.size = c.dependents ∧
    ∀ k < c.dependents, g.dependents[k]? = Slots.latest stores k

theorem delivers_of_run (hs : f.before c f.instructions.size = .ok s) :
    ∃ output, f.args[Convention.output]? = some output ∧
      f.Delivers c (f.storesTo c output f.instructions.size) := by
  obtain ⟨output, written, hargs, hl, hholds, hlower, hpending⟩ := output_of_run hs
  refine ⟨output, hargs, ?_⟩
  rw [finish, Bindings.scattered?_eq_some.mpr hl] at hlower
  cases hfilled : Slots.filled c.dependents written with
  | error k =>
    simp only [hfilled] at hlower
    exact .inl ⟨k, hlower, (hholds.gap k).mp hfilled⟩
  | ok nodes =>
    simp only [hfilled] at hlower
    obtain ⟨hlen, hnodes⟩ := (hholds.full nodes).mp hfilled
    rw [Graph.foldl_pushDependent_eq, hpending, Array.empty_append] at hlower
    refine .inr ⟨_, hlower, hlen, fun k hk => ?_⟩
    rw [hnodes k hk]
    exact List.getElem?_toArray

end Func

/-! ## The theorem -/

/-- A buffer grows as it is stored to and behaves as if all its slots were there, if its slots
can be addressed at all: a store succeeds exactly if the buffer has the slot and memory holds it,
and one that fails changes nothing; each slot holds the last store to it, and the buffer is given
in order or misses its least slot without a store; nothing else is touched.  So a run that gets
behind all instructions ends as the stores to the output say. -/
theorem Bindings.stores_of_registered {b : Bindings} {base : Handle}
    (hfree : b.layouts.get? base = none) (n : Nat) :
    (∃ b₀, b.registerScattered base n = .ok b₀ ∧ ∀ stores : List (Nat × NodeId), ∃ written,
      (b₀.storeEach base stores).scattered? base = some (n, written) ∧
      Slots.Holds n (stores.filter (Slots.succeeds n)) written ∧
      b₀.storeEach base (stores.filter (Slots.succeeds n)) = b₀.storeEach base stores ∧
      (∀ k node, (b₀.storeEach base stores).store base k node =
        if n ≤ k then .error (.storeBeyond k n)
        else if Slots.limit ≤ k + 1 then .error (.unaddressable k)
        else .ok (b₀.storeEach base (stores ++ [(k, node)]))) ∧
      (∀ other, other ≠ base →
        (b₀.storeEach base stores).layouts.get? other = b.layouts.get? other) ∧
      (b₀.storeEach base stores).values = b.values ∧
      (b₀.storeEach base stores).pointers = b.pointers) ∧
    ∀ {f : Func} {c : Context} {s : Lowering}, f.before c f.instructions.size = .ok s →
      ∃ output, f.args[Convention.output]? = some output ∧
        f.Delivers c (f.storesTo c output f.instructions.size) := by
  refine ⟨⟨_, by rw [registerScattered, hfree], fun stores => ?_⟩, Func.delivers_of_run⟩
  have hl := Table.get?_insert_self b.layouts base (Layout.scattered n #[])
  obtain ⟨written, hwritten, hget, hother, hvalues, hpointers⟩ := storeEach_spec
    (b := { b with layouts := b.layouts.insert base (.scattered n #[]) }) hl stores
  refine ⟨written, scattered?_eq_some.mpr hwritten, Slots.holds_of_get? hget,
    storeEach_filter hl stores, fun k node => ?_, fun other hne => ?_, hvalues, hpointers⟩
  · rw [storeEach_concat, store_eq hwritten]
    by_cases hs : n ≤ k
    · rw [if_pos hs, if_pos hs]
    · by_cases hm : Slots.limit ≤ k + 1
      · rw [if_neg hs, if_neg hs, if_pos hm, if_pos hm]
      · rw [if_neg hs, if_neg hs, if_neg hm, if_neg hm]
        rfl
  · exact (hother other hne).trans (Table.get?_insert_of_ne _ _ hne)

/-- Stores to the output from its last slot to the first, the middle one twice. -/
def Program.backward : String :=
  "define i32 @f(i64 %0, ptr %in, i64 %2, ptr %out, i64 %4, ptr %msg) \x7b
    %x = load double, ptr %in
    %p = getelementptr double, ptr %out, i64 2
    store double %x, ptr %p
    %q = getelementptr double, ptr %out, i64 1
    store double %x, ptr %q
    store double 1.0, ptr %out
    store double 1.0, ptr %q
    ret i32 0
  \x7d"

set_option maxRecDepth 4000 in
theorem Bindings.stores_of_registered_backward :
    (∃ b₀ written, empty.registerScattered 7 4 = .ok b₀ ∧
      (b₀.storeEach 7 [(2, 5), (0, 3), (4, 1), (2, 6)]).scattered? 7 = some (4, written) ∧
      Slots.get? written 2 = some 6 ∧ Slots.filled 4 written = .error 1) ∧
    ∃ program f s, Program.read Program.backward = .ok program ∧ f ∈ program.functions ∧
      f.before ⟨"f", 0, 1, 3⟩ f.instructions.size = .ok s ∧
      f.args[Convention.output]? = some 3 ∧
      f.storesTo ⟨"f", 0, 1, 3⟩ 3 f.instructions.size = [(2, 1), (1, 1), (0, 2), (1, 3)] ∧
      f.Delivers ⟨"f", 0, 1, 3⟩ [(2, 1), (1, 1), (0, 2), (1, 3)] := by
  obtain ⟨⟨b₀, hb, hstores⟩, hends⟩ :=
    stores_of_registered (show empty.layouts.get? 7 = none from rfl) 4
  obtain ⟨written, hwritten, hholds, _⟩ := hstores [(2, 5), (0, 3), (4, 1), (2, 6)]
  have hgap : Slots.filled 4 written = .error 1 :=
    (hholds.gap 1).mpr ⟨by decide, by decide, by decide⟩
  refine ⟨⟨b₀, written, hb, hwritten, hholds.get? 2, hgap⟩, ?_⟩
  have hread : Lowering.okAnd (fun program => program.functions.any fun f =>
      Lowering.okAnd (fun _ => decide (f.args[Convention.output]? = some 3 ∧
          f.storesTo ⟨"f", 0, 1, 3⟩ 3 f.instructions.size = [(2, 1), (1, 1), (0, 2), (1, 3)]))
        (f.before ⟨"f", 0, 1, 3⟩ f.instructions.size)) (Program.read Program.backward) = true := by
    rw [show Program.read Program.backward = _ from Program.read_ofList _]
    decide +kernel
  obtain ⟨program, hp, hread⟩ := Lowering.okAnd_eq_true.mp hread
  obtain ⟨f, hf, hread⟩ := List.any_eq_true.mp hread
  obtain ⟨s, hs, hread⟩ := Lowering.okAnd_eq_true.mp hread
  obtain ⟨hargs, hstored⟩ := of_decide_eq_true hread
  obtain ⟨output, houtput, hdelivers⟩ := hends hs
  obtain rfl : output = 3 := Option.some.inj (houtput.symm.trans hargs)
  exact ⟨program, f, s, hp, hf, hs, hargs, hstored, hstored ▸ hdelivers⟩

/-- A store to the first slot of the output, and one to a slot that no memory holds. -/
def Program.distantStore : String :=
  "define i32 @f(i64 %0, ptr %in, i64 %2, ptr %out, i64 %4, ptr %msg) \x7b
    %p = getelementptr double, ptr %out, i64 576460752303423488
    store double 1.0, ptr %out
    store double 1.0, ptr %p
    ret i32 0
  \x7d"

set_option maxRecDepth 4000 in
/-- With an output that is longer than memory, a store fails to a slot that is there. -/
theorem Program.store_distant_fails :
    (∃ b, Bindings.empty.registerScattered 7 (1 <<< 60) = .ok b ∧
      b.store 7 (1 <<< 59) 1 = .error (.unaddressable (1 <<< 59))) ∧
    ∃ program f, read distantStore = .ok program ∧ f ∈ program.functions ∧
      f.lower ⟨"f", 0, 1, 1 <<< 60⟩ = .error (.unaddressable (1 <<< 59)) := by
  refine ⟨⟨_, rfl, ?_⟩, ?_⟩
  · rw [Bindings.store_eq (n := 1 <<< 60) (Table.get?_insert_self Bindings.empty.layouts 7 _)]
    rfl
  have hread : Lowering.okAnd (fun program => program.functions.any fun f =>
      decide (f.lower ⟨"f", 0, 1, 1 <<< 60⟩ = .error (.unaddressable (1 <<< 59))))
      (read distantStore) = true := by
    rw [show read distantStore = _ from read_ofList _]
    decide +kernel
  obtain ⟨program, hp, hread⟩ := Lowering.okAnd_eq_true.mp hread
  obtain ⟨f, hf, hread⟩ := List.any_eq_true.mp hread
  exact ⟨program, f, hp, hf, of_decide_eq_true hread⟩

end SsaGraph

import Mathlib.Data.List.Basic
import SsaGraph.Lowering.Buffer

/-!
What the operations on buffers do.  Slots behave as if all of them had been there
from the start: one that was never written is empty, whether the array reaches it
or not.
-/

namespace SsaGraph

namespace Table

variable {κ α : Type} [BEq κ] [LawfulBEq κ] [DecidableEq κ]

theorem get?_insert (t : Table κ α) (k j : κ) (a : α) :
    (t.insert k a).get? j = if j = k then some a else t.get? j := by
  by_cases h : j = k
  · subst h
    rw [get?_insert_self, if_pos rfl]
  · rw [get?_insert_of_ne t a h, if_neg h]

theorem get?_erase (t : Table κ α) (k j : κ) :
    (t.erase k).get? j = if j = k then none else t.get? j := by
  by_cases h : j = k
  · subst h
    rw [get?_erase_self, if_pos rfl]
  · rw [get?_erase_of_ne t h, if_neg h]

end Table

namespace Slots

theorem get?_write (written : Array (Option NodeId)) (offset k : Nat) (node : NodeId) :
    get? (write written offset node) k = if k = offset then some node else get? written k := by
  unfold get? write
  rw [Array.getElem?_setIfInBounds]
  by_cases hk : offset = k
  · subst hk
    have hlt : offset < (written ++ Array.replicate (offset + 1 - written.size) none).size := by
      rw [Array.size_append, Array.size_replicate]
      omega
    rw [if_pos rfl, if_pos hlt, if_pos rfl]
    rfl
  · rw [if_neg hk, if_neg (Ne.symm hk), Array.getElem?_append]
    by_cases hlt : k < written.size
    · rw [if_pos hlt]
    · rw [if_neg hlt, Array.getElem?_eq_none (Nat.le_of_not_lt hlt), Array.getElem?_replicate]
      split <;> rfl

/-- Reading goes slot by slot, and a slot past the end of the array is an empty
one. -/
theorem filledFrom_step (length offset : Nat) (slots : List (Option NodeId)) :
    filledFrom length offset slots =
      if offset < length then
        match slots.head?.join with
        | none => .error offset
        | some node => (filledFrom length (offset + 1) slots.tail).map (node :: ·)
      else .ok [] := by
  cases slots with
  | nil => rfl
  | cons slot rest => cases slot <;> rfl

theorem filledFrom_eq_ok_iff {n offset : Nat} {slots : List (Option NodeId)}
    {nodes : List NodeId} :
    filledFrom (offset + n) offset slots = .ok nodes ↔
      nodes.length = n ∧ ∀ k, k < n → (slots[k]?).join = nodes[k]? := by
  induction n generalizing offset slots nodes with
  | zero =>
    rw [filledFrom_step, if_neg (by omega), Except.ok.injEq, List.length_eq_zero_iff]
    exact ⟨fun h => ⟨h.symm, fun k hk => absurd hk (Nat.not_lt_zero k)⟩, fun h => h.1.symm⟩
  | succ n ih =>
    rw [filledFrom_step, if_pos (by omega), List.head?_eq_getElem?]
    cases hslot : (slots[0]?).join with
    | none =>
      refine ⟨fun h => (nomatch h), fun ⟨hlen, hget⟩ => ?_⟩
      have hzero := hget 0 (Nat.succ_pos n)
      rw [hslot, List.getElem?_eq_getElem (by omega)] at hzero
      cases hzero
    | some node =>
      have hrest : filledFrom (offset + (n + 1)) (offset + 1) slots.tail =
          filledFrom (offset + 1 + n) (offset + 1) slots.tail := by
        rw [Nat.add_right_comm offset 1 n]; rfl
      simp only [hrest]
      constructor
      · intro h
        cases hlater : filledFrom (offset + 1 + n) (offset + 1) slots.tail with
        | error k => rw [hlater] at h; cases h
        | ok later =>
          rw [hlater] at h
          cases h
          obtain ⟨hlen, hget⟩ := ih.mp hlater
          refine ⟨congrArg Nat.succ hlen, fun k hk => ?_⟩
          cases k with
          | zero => exact hslot
          | succ k => simpa using hget k (Nat.lt_of_succ_lt_succ hk)
      · rintro ⟨hlen, hget⟩
        cases nodes with
        | nil => cases hlen
        | cons first later =>
          have hfirst := hget 0 (Nat.succ_pos n)
          rw [hslot] at hfirst
          cases hfirst
          have hlater : filledFrom (offset + 1 + n) (offset + 1) slots.tail = .ok later :=
            ih.mpr ⟨Nat.succ.inj hlen, fun k hk => by
              simpa using hget (k + 1) (Nat.succ_lt_succ hk)⟩
          rw [hlater]
          rfl

theorem filled_eq_ok_iff {length : Nat} {written : Array (Option NodeId)} {nodes : List NodeId} :
    filled length written = .ok nodes ↔
      nodes.length = length ∧ ∀ k, k < length → get? written k = nodes[k]? := by
  rw [filled]
  have h := @filledFrom_eq_ok_iff length 0 written.toList nodes
  simpa only [Nat.zero_add, Array.getElem?_toList, get?] using h

end Slots

namespace Bindings

/-- A buffer bound to consecutive nodes. -/
def consecutive (b : Bindings) (base : Handle) (first : NodeId) (length : Nat) : Bindings :=
  { b with
    pointers := if length = 0 then b.pointers.erase base else b.pointers.insert base first
    layouts := b.layouts.insert base (.contiguous first length) }

theorem bindContiguous_eq_ok {b b' : Bindings} {base : Handle} {first : NodeId} {length : Nat} :
    b.bindContiguous base first length = .ok b' ↔
      (∀ slots written, b.layouts.get? base ≠ some (.scattered slots written)) ∧
        first + length < 1 <<< 64 ∧ b' = b.consecutive base first length := by
  unfold bindContiguous
  split
  next slots written h => simp [h]
  next h =>
    by_cases hw : 1 <<< 64 ≤ first + length
    · simp only [hw, if_true, reduceCtorEq, false_iff]
      exact fun ⟨_, hlt, _⟩ => absurd hw (Nat.not_le.mpr hlt)
    · simp only [hw, if_false, Except.ok.injEq]
      exact ⟨fun e => ⟨fun slots written hl => h slots written hl, Nat.not_le.mp hw, e.symm⟩,
        fun ⟨_, _, e⟩ => e.symm⟩

theorem registerScattered_eq_ok {b b' : Bindings} {base : Handle} {length : Nat} :
    b.registerScattered base length = .ok b' ↔
      (b.layouts.get? base = none ∧
        b' = { b with layouts := b.layouts.insert base (.scattered length #[]) }) ∨
      ((∃ written, b.layouts.get? base = some (.scattered length written)) ∧ b' = b) := by
  unfold registerScattered
  split
  next h => simp [h, eq_comm]
  next slots written h =>
    by_cases hs : slots = length
    · simp [h, hs, eq_comm]
    · simp [h, hs]
  next h => simp [h]

theorem scattered?_eq_some {b : Bindings} {base : Handle} {length : Nat}
    {written : Array (Option NodeId)} :
    b.scattered? base = some (length, written) ↔
      b.layouts.get? base = some (.scattered length written) := by
  unfold scattered?
  split
  next h => simp [h]
  next h => exact ⟨fun e => (nomatch e), fun e => absurd e (h _ _)⟩

/-- A slot of a buffer written. -/
def withSlot (b : Bindings) (base : Handle) (slots : Nat) (written : Array (Option NodeId))
    (offset : Nat) (node : NodeId) : Bindings :=
  { b with layouts := b.layouts.insert base (.scattered slots (Slots.write written offset node)) }

theorem store_eq_ok {b b' : Bindings} {base : Handle} {offset : Nat} {node : NodeId} :
    b.store base offset node = .ok b' ↔
      ∃ slots written, b.layouts.get? base = some (.scattered slots written) ∧ offset < slots ∧
        offset + 1 < Slots.limit ∧ b' = b.withSlot base slots written offset node := by
  unfold store
  split
  next slots written h =>
    by_cases hs : slots ≤ offset
    · simp only [hs, if_true, reduceCtorEq, h, Option.some.injEq, Layout.scattered.injEq, false_iff]
      rintro ⟨_, _, ⟨rfl, rfl⟩, hlt, _⟩
      omega
    · by_cases hl : Slots.limit ≤ offset + 1
      · simp only [hs, hl, if_true, if_false, reduceCtorEq, false_iff]
        rintro ⟨_, _, _, _, hlt, _⟩
        omega
      · simp only [hs, hl, if_false, Except.ok.injEq]
        constructor
        · intro e
          exact ⟨slots, written, h, by omega, by omega, e.symm⟩
        · rintro ⟨slots', written', h', _, _, e⟩
          rw [h] at h'
          cases h'
          exact e.symm
  next h =>
    refine ⟨fun e => (nomatch e), ?_⟩
    rintro ⟨slots, written, h', _⟩
    exact absurd h' (h slots written)

end Bindings
end SsaGraph

/-!
Finite maps as association lists, newest binding first.  Look-up sees the
newest binding of a key, so `insert` replaces.
-/

namespace SsaGraph

structure Table (κ α : Type) where
  entries : List (κ × α)
  deriving Repr

namespace Table

variable {κ α : Type} [BEq κ]

def empty : Table κ α := ⟨[]⟩

instance : Inhabited (Table κ α) := ⟨empty⟩

def get? (t : Table κ α) (k : κ) : Option α := t.entries.lookup k

def insert (t : Table κ α) (k : κ) (a : α) : Table κ α := ⟨(k, a) :: t.entries⟩

def erase (t : Table κ α) (k : κ) : Table κ α := ⟨t.entries.filter fun e => !(e.1 == k)⟩

def contains (t : Table κ α) (k : κ) : Bool := (t.get? k).isSome

@[simp] theorem get?_empty (k : κ) : (empty : Table κ α).get? k = none := rfl

variable [LawfulBEq κ]

@[simp] theorem get?_insert_self (t : Table κ α) (k : κ) (a : α) :
    (t.insert k a).get? k = some a := by
  simp [get?, insert]

theorem get?_insert_of_ne (t : Table κ α) {k j : κ} (a : α) (h : j ≠ k) :
    (t.insert k a).get? j = t.get? j := by
  simp [get?, insert, List.lookup_cons, beq_false_of_ne h]

@[simp] theorem get?_erase_self (t : Table κ α) (k : κ) : (t.erase k).get? k = none := by
  obtain ⟨es⟩ := t
  simp only [get?, erase]
  induction es with
  | nil => rfl
  | cons e rest ih =>
    obtain ⟨i, a⟩ := e
    by_cases h : i = k
    · rw [List.filter_cons_of_neg (by simp [h])]
      exact ih
    · rw [List.filter_cons_of_pos (by simp [h]), List.lookup_cons, beq_false_of_ne (Ne.symm h)]
      exact ih

theorem get?_erase_of_ne (t : Table κ α) {k j : κ} (h : j ≠ k) :
    (t.erase k).get? j = t.get? j := by
  obtain ⟨es⟩ := t
  simp only [get?, erase]
  induction es with
  | nil => rfl
  | cons e rest ih =>
    obtain ⟨i, a⟩ := e
    by_cases hk : i = k
    · rw [List.filter_cons_of_neg (by simp [hk]), List.lookup_cons,
        beq_false_of_ne (fun hj => h (hj.trans hk))]
      exact ih
    · rw [List.filter_cons_of_pos (by simp [hk]), List.lookup_cons, List.lookup_cons, ih]

end Table
end SsaGraph

/-!
Byte ranges of a source text, and values that carry one.
-/

namespace SsaGraph

/-- The bytes `start`, …, `stop - 1` of a text.  `Span.absent` marks something
that was not read from a text. -/
structure Span where
  start : UInt32
  stop : UInt32
  deriving DecidableEq, Repr

namespace Span

/-- The span of the bytes from `start` to `stop`.  What does not fit in thirty-two
bits is cut off, so in a text of `2 ^ 32` bytes or more it may be another place. -/
def ofOffsets (start stop : Nat) : Span := ⟨UInt32.ofNat start, UInt32.ofNat stop⟩

def absent : Span := ⟨0, 0⟩

instance : Inhabited Span := ⟨absent⟩

def isAbsent (s : Span) : Bool := s == absent

/-- The least span that covers both. -/
def merge (a b : Span) : Span where
  start := if b.start < a.start then b.start else a.start
  stop := if a.stop < b.stop then b.stop else a.stop

theorem merge_self (a : Span) : a.merge a = a := by
  simp [merge]

theorem toNat_merge (a b : Span) : (a.merge b).start.toNat = min a.start.toNat b.start.toNat ∧
    (a.merge b).stop.toNat = max a.stop.toNat b.stop.toNat := by
  unfold merge
  constructor
  all_goals
    dsimp only
    split
    all_goals
      next h =>
        rw [UInt32.lt_iff_toNat_lt] at h
        omega

end Span

/-- A value together with the place it was read from. -/
structure Located (α : Type) where
  val : α
  span : Span
  deriving DecidableEq, Repr

end SsaGraph

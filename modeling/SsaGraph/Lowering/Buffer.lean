import SsaGraph.Func
import SsaGraph.Graph
import SsaGraph.Table

/-!
Buffers during a lowering: which node an offset into a buffer is.
-/

namespace SsaGraph

/-- How offsets into a buffer become nodes. -/
inductive Layout where
  /-- Offset `k` is node `first + k`. -/
  | contiguous (first : NodeId) (length : Nat)
  /-- Offset `k` is the node last written to slot `k`.  Slots are made as they
  are written; `length` bounds the offsets. -/
  | scattered (length : Nat) (written : Array (Option NodeId))
  deriving DecidableEq, Repr

/-- Why a buffer cannot be used as asked. -/
inductive BufferFault where
  | reusedWith (slots asked : Nat)
  | holdsConsecutive
  | holdsScattered
  | pastWords (length first : Nat)
  | storeBeyond (offset slots : Nat)
  | notScattered
  | unaddressable (offset : Nat)
  deriving DecidableEq, Repr

def BufferFault.text : BufferFault → String
  | reusedWith slots asked => s!"buffer registered with {slots} slots is reused with {asked}"
  | holdsConsecutive => "buffer already holds consecutive nodes"
  | holdsScattered => "buffer is already written element by element"
  | pastWords length first => s!"{length} nodes starting at {first} overflow the node ids"
  | storeBeyond offset slots => s!"store to element {offset} of a buffer with {slots} slots"
  | notScattered => "store into a buffer that is not written element by element"
  | unaddressable offset => s!"slot {offset} cannot be addressed"

namespace Slots

def get? (written : Array (Option NodeId)) (offset : Nat) : Option NodeId :=
  (written[offset]?).join

/-- Number of slots that a buffer cannot have.  A slot takes sixteen bytes, and
memory has fewer than `2 ^ 63`.  This is a limit on what can be asked for at
all: memory that is used up, and room that is set aside for later slots, are
not modelled. -/
def limit : Nat := 1 <<< 59

/-- Write a slot.  Slots before it that were not there yet are empty. -/
def write (written : Array (Option NodeId)) (offset : Nat) (node : NodeId) :
    Array (Option NodeId) :=
  (written ++ Array.replicate (offset + 1 - written.size) none).setIfInBounds offset (some node)

/-- The nodes of `length` slots in order, the first of which is number `offset`,
or the first offset that is empty. -/
def filledFrom (length offset : Nat) : List (Option NodeId) → Except Nat (List NodeId)
  | [] => if offset < length then .error offset else .ok []
  | slot :: rest =>
    if offset < length then
      match slot with
      | none => .error offset
      | some node => (filledFrom length (offset + 1) rest).map (node :: ·)
    else .ok []

/-- The nodes of all slots in order, or the first offset that is empty. -/
def filled (length : Nat) (written : Array (Option NodeId)) : Except Nat (List NodeId) :=
  filledFrom length 0 written.toList

end Slots

/-- What values and addresses stand for. -/
structure Bindings where
  /-- The node of a value. -/
  values : Table Handle NodeId
  /-- The node that is loaded through an address. -/
  pointers : Table Handle NodeId
  /-- The layout of a buffer, by its address. -/
  layouts : Table Handle Layout

namespace Bindings

def empty : Bindings := ⟨.empty, .empty, .empty⟩

def bindValue (b : Bindings) (v : Handle) (node : NodeId) : Bindings :=
  { b with values := b.values.insert v node }

def bindPointer (b : Bindings) (p : Handle) (node : NodeId) : Bindings :=
  { b with pointers := b.pointers.insert p node }

/-- Bind a buffer to consecutive nodes, in place of earlier ones.  The address
of the buffer is that of its first element, if it has one. -/
def bindContiguous (b : Bindings) (base : Handle) (first : NodeId) (length : Nat) :
    Except BufferFault Bindings :=
  match b.layouts.get? base with
  | some (.scattered _ _) => .error .holdsScattered
  | _ =>
    if 1 <<< 64 ≤ first + length then .error (.pastWords length first)
    else .ok { b with
      pointers := if length = 0 then b.pointers.erase base else b.pointers.insert base first
      layouts := b.layouts.insert base (.contiguous first length) }

/-- Make a buffer one that is written element by element.  Doing so again needs
the same length. -/
def registerScattered (b : Bindings) (base : Handle) (length : Nat) :
    Except BufferFault Bindings :=
  match b.layouts.get? base with
  | none => .ok { b with layouts := b.layouts.insert base (.scattered length #[]) }
  | some (.scattered slots _) =>
    if slots = length then .ok b else .error (.reusedWith slots length)
  | some (.contiguous _ _) => .error .holdsConsecutive

/-- Length and slots of a buffer that is written element by element. -/
def scattered? (b : Bindings) (base : Handle) : Option (Nat × Array (Option NodeId)) :=
  match b.layouts.get? base with
  | some (.scattered length written) => some (length, written)
  | _ => none

/-- Write a node to a slot of a buffer.  Memory is taken to suffice for all slots
below `Slots.limit`. -/
def store (b : Bindings) (base : Handle) (offset : Nat) (node : NodeId) :
    Except BufferFault Bindings :=
  match b.layouts.get? base with
  | some (.scattered length written) =>
    if length ≤ offset then .error (.storeBeyond offset length)
    else if Slots.limit ≤ offset + 1 then .error (.unaddressable offset)
    else .ok { b with
      layouts := b.layouts.insert base (.scattered length (Slots.write written offset node)) }
  | _ => .error .notScattered

end Bindings
end SsaGraph

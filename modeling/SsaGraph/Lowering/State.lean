import SsaGraph.Lowering.Comparison
import SsaGraph.Lowering.Fault

/-!
The state of a lowering, and the steps that instructions share.
-/

namespace SsaGraph

/-- What a function does not say about itself.  The length arguments of the
calling convention are never looked at. -/
structure Context where
  /-- The name recorded in the graph. -/
  name : String
  /-- Dynamic parameters, the first elements of the input. -/
  dynamics : Nat
  /-- Independent variables, the elements after them. -/
  independents : Nat
  /-- Output elements, all of which must be stored. -/
  dependents : Nat
  deriving DecidableEq, Repr

/-- Length of the input, or the largest 64-bit word if it does not fit one. -/
def Context.inputs (c : Context) : Nat := min (c.dynamics + c.independents) (1 <<< 64 - 1)

/-- An element of a buffer that is written element by element. -/
structure Element where
  base : Handle
  offset : Nat
  deriving DecidableEq, Repr

structure Lowering where
  graph : Graph
  bindings : Bindings
  comparisons : Table Handle Comparison
  elements : Table Handle Element
  /-- The last node handed out. -/
  last : NodeId
  /-- Whether the one extension of the return code has been seen. -/
  extended : Bool

namespace Lowering

def start (c : Context) : Lowering where
  graph := { Graph.empty with name := c.name, dynamics := c.dynamics, independents := c.independents }
  bindings := .empty
  comparisons := .empty
  elements := .empty
  last := 0
  extended := false

def malformed {α : Type} (r : Reason) : Except Fault α := .error (.malformed r)

/-- Turn a buffer's refusal into a fault. -/
def orFault {α : Type} (reason : BufferFault → Reason) : Except BufferFault α → Except Fault α
  | .ok a => .ok a
  | .error (.unaddressable offset) => .error (.unaddressable offset)
  | .error cause => malformed (reason cause)

/-! ## Looking at values -/

/-- The type of a value that has to be there. -/
def typeOf (f : Func) (v : Handle) : Except Fault Ty :=
  match f.type? v with
  | some type => .ok type
  | none => .error (.foreign v)

/-- Refuse a value whose type is not as wanted. -/
def expectType (f : Func) (v : Handle) (wanted : Ty → Bool) (what : String) : Except Fault Unit :=
  match f.type? v with
  | none => malformed (.unknownValue v)
  | some type => if wanted type then .ok () else malformed (.wrongType (f.display v) type what)

def expectDouble (f : Func) (v : Handle) : Except Fault Unit := expectType f v Ty.isDouble "double"

def expectPointer (f : Func) (v : Handle) : Except Fault Unit := expectType f v Ty.isPtr "pointer"

def expectInt (f : Func) (v : Handle) : Except Fault Unit := expectType f v Ty.isInt "integer"

/-- The value of an integer literal. -/
def count (f : Func) (v : Handle) : Except Fault Nat :=
  match f.int? v with
  | some n => .ok n.toNat
  | none => malformed (.notCount (f.display v))

/-- The value that an instruction defines. -/
def resultOf (i : Instruction) : Except Fault Handle :=
  match i.result with
  | some v => .ok v
  | none => malformed (.noResult i.opcode)

def wrongCount {α : Type} (i : Instruction) (wanted : Nat) : Except Fault α :=
  malformed (.operandCount i.opcode wanted i.operands.length)

/-- The node of a value. -/
def node (f : Func) (s : Lowering) (v : Handle) : Except Fault NodeId :=
  match s.bindings.values.get? v with
  | some n => .ok n
  | none => malformed (.noNode (f.display v))

/-! ## Changing the state -/

/-- Hand out `n` nodes; the first of them is the answer. -/
def reserve (s : Lowering) (n : Nat) : Except Fault (Lowering × NodeId) :=
  if s.last + n ≤ maxNode then .ok ({ s with last := s.last + n }, s.last + 1)
  else malformed (.tooManyNodes n s.last)

def emit (s : Lowering) (op : Op) (args : List Nat) : Lowering :=
  { s with graph := s.graph.pushOperator op args }

/-- Append an operator with one result, and bind the instruction's value to
it. -/
def emitResult (s : Lowering) (i : Instruction) (op : Op) (args : List Nat) :
    Except Fault Lowering := do
  let v ← resultOf i
  let (s, n) ← s.reserve 1
  return { s with bindings := s.bindings.bindValue v n }.emit op args

def recordElement (s : Lowering) (address : Handle) (e : Element) : Lowering :=
  { s with elements := s.elements.insert address e }

end Lowering
end SsaGraph

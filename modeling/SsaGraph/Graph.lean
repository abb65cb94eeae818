import SsaGraph.Binary64
import SsaGraph.Op

/-!
Operator graphs.  Node 0 is never used.  The next nodes are the dynamic
parameters, the independent variables and the constants, in this order; the
others are the results of the operators, in operator order.  The arguments of
all operators are kept in one array, and each operator knows where its own
start.
-/

namespace SsaGraph

abbrev NodeId := Nat

/-- The largest node id that a graph may use. -/
def maxNode : NodeId := 1 <<< 32 - 1

/-- Sum of counts.  A count is a 64-bit word, and a sum that does not fit one is
not given; a graph within the node limit never gets there. -/
def addCount? (a b : Nat) : Option Nat := if a + b < 1 <<< 64 then some (a + b) else none

theorem addCount?_eq_some_iff {a b n : Nat} :
    addCount? a b = some n ↔ a + b < 1 <<< 64 ∧ a + b = n := by
  by_cases h : a + b < 1 <<< 64
  · rw [addCount?, if_pos h]
    exact ⟨fun e => ⟨h, Option.some.inj e⟩, fun e => congrArg some e.2⟩
  · rw [addCount?, if_neg h]
    exact ⟨fun e => (nomatch e), fun e => absurd e.1 h⟩

theorem addCount?_eq_none_iff {a b : Nat} : addCount? a b = none ↔ 1 <<< 64 ≤ a + b := by
  by_cases h : a + b < 1 <<< 64
  · rw [addCount?, if_pos h]
    exact ⟨fun e => (nomatch e), fun e => absurd h (Nat.not_lt.mpr e)⟩
  · rw [addCount?, if_neg h]
    exact ⟨fun _ => Nat.le_of_not_lt h, fun _ => rfl⟩

structure Graph where
  name : String
  dynamics : Nat
  independents : Nat
  constants : Array Binary64
  tags : Array Op
  /-- Where the arguments of each operator start in `args`. -/
  starts : Array Nat
  args : Array Nat
  atomicNames : Array String
  discreteNames : Array String
  dependents : Array NodeId
  deriving DecidableEq, Repr

/-- An operator with all its arguments. -/
structure Operator where
  op : Op
  args : List Nat
  deriving DecidableEq, Repr

namespace Operator

/-- The arguments that are nodes. -/
def nodes (o : Operator) : List NodeId := o.args.drop o.op.headSize

def resultCount (o : Operator) : Nat := o.op.resultCount o.args

end Operator

namespace Graph

def empty : Graph := ⟨"", 0, 0, #[], #[], #[], #[], #[], #[], #[]⟩

instance : Inhabited Graph := ⟨empty⟩

/-! ## Appending -/

def pushConstant (g : Graph) (x : Binary64) : Graph := { g with constants := g.constants.push x }

/-- Start an operator.  The arguments pushed from now on are its own. -/
def pushTag (g : Graph) (op : Op) : Graph :=
  { g with tags := g.tags.push op, starts := g.starts.push g.args.size }

def pushArg (g : Graph) (arg : Nat) : Graph := { g with args := g.args.push arg }

/-- Append an argument to the last operator, if there is one. -/
def appendArg? (g : Graph) (arg : Nat) : Option Graph :=
  if g.tags.isEmpty then none else some (g.pushArg arg)

/-- Append an operator with all its arguments. -/
def pushOperator (g : Graph) (op : Op) (args : List Nat) : Graph :=
  args.foldl pushArg (g.pushTag op)

def pushAtomicName (g : Graph) (name : String) : Graph :=
  { g with atomicNames := g.atomicNames.push name }

def pushDiscreteName (g : Graph) (name : String) : Graph :=
  { g with discreteNames := g.discreteNames.push name }

def pushDependent (g : Graph) (node : NodeId) : Graph :=
  { g with dependents := g.dependents.push node }

/-- Index of an atomic name, which is appended when it is new. -/
def internAtomic (g : Graph) (name : String) : Graph × Nat :=
  match g.atomicNames.idxOf? name with
  | some i => (g, i)
  | none => (g.pushAtomicName name, g.atomicNames.size)

/-- Index of a discrete name, which is appended when it is new. -/
def internDiscrete (g : Graph) (name : String) : Graph × Nat :=
  match g.discreteNames.idxOf? name with
  | some i => (g, i)
  | none => (g.pushDiscreteName name, g.discreteNames.size)

/-! ## Operators -/

/-- The elements `start`, …, `stop - 1`, if they are all there and in order. -/
def slice? (xs : Array Nat) (start stop : Nat) : Option (List Nat) :=
  if start ≤ stop ∧ stop ≤ xs.size then some (xs.extract start stop).toList else none

/-- The operator with the given index.  Its arguments end where those of the
next operator start. -/
def operator? (g : Graph) (index : Nat) : Option Operator := do
  let op ← g.tags[index]?
  let start ← g.starts[index]?
  let stop := (g.starts[index + 1]?).getD g.args.size
  return ⟨op, ← slice? g.args start stop⟩

def operators (g : Graph) : List Operator := (List.range g.tags.size).filterMap g.operator?

/-! ## Consistency -/

/-- Why a graph is refused. -/
inductive LayoutError where
  | offsetCount (operators offsets : Nat)
  | badOffset (start : Nat)
  | tooManyNodes
  deriving DecidableEq, Repr

def LayoutError.message : LayoutError → String
  | offsetCount operators offsets => s!"{operators} operators but {offsets} argument offsets"
  | badOffset start => s!"argument offset {start} is out of order or range"
  | tooManyNodes => s!"graph exceeds the node limit {maxNode}"

/-- The first offset that is below the one before it or beyond `size`. -/
def badOffset? (size : Nat) : Nat → List Nat → Option Nat
  | _, [] => none
  | previous, start :: rest =>
    if start < previous ∨ size < start then some start else badOffset? size start rest

/-- Number of results of operators, without a bound. -/
def results (os : List Operator) : Nat := os.foldr (fun o n => o.resultCount + n) 0

/-- Number of nodes of a graph, without a bound. -/
def totalNodes (g : Graph) : Nat :=
  g.dynamics + g.independents + g.constants.size + results g.operators

/-- Whether there is one offset for each operator, the offsets are in order and
in range, and the nodes are within the limit. -/
def check (g : Graph) : Except LayoutError Unit :=
  if g.starts.size ≠ g.tags.size then .error (.offsetCount g.tags.size g.starts.size)
  else match badOffset? g.args.size 0 g.starts.toList with
    | some start => .error (.badOffset start)
    | none => if g.totalNodes ≤ maxNode then .ok () else .error .tooManyNodes

end Graph
end SsaGraph

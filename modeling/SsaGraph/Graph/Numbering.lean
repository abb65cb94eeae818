import SsaGraph.Graph

/-!
The numbering of nodes.  Ids are 64-bit words: what would need a larger one is
not given.
-/

namespace SsaGraph

/-- What a node is.  Indices count from zero. -/
inductive NodeKind where
  | dynamic (index : Nat)
  | independent (index : Nat)
  | constant (index : Nat)
  /-- Result number `result` of operator number `operator`. -/
  | result (operator result : Nat)
  deriving DecidableEq, Repr

/-- Difference of counts; a negative one is not given. -/
def subCount? (a b : Nat) : Option Nat := if b ≤ a then some (a - b) else none

namespace Graph

/-- Number of nodes before the first operator result. -/
def leafCount? (g : Graph) : Option Nat := do
  addCount? (← addCount? g.dynamics g.independents) g.constants.size

/-- Number of nodes that operators produce. -/
def resultTotal? (os : List Operator) : Option Nat :=
  os.foldlM (fun n o => addCount? n o.resultCount) 0

/-- The highest node id in use. -/
def nodeCount? (g : Graph) : Option Nat := do
  addCount? (← g.leafCount?) (← resultTotal? g.operators)

/-- First result nodes of operators, when `next` is the next node.  The node
after the last result has to fit a word too. -/
def firstResultsFrom? (next : NodeId) : List Operator → Option (List (Option NodeId))
  | [] => some []
  | o :: rest => do
    let later ← firstResultsFrom? (← addCount? next o.resultCount) rest
    return (if 0 < o.resultCount then some next else none) :: later

/-- The first result node of each operator that produces one. -/
def firstResults? (g : Graph) : Option (List (Option NodeId)) := do
  firstResultsFrom? (← addCount? (← g.leafCount?) 1) g.operators

/-- The operator that owns result number `index`, counted from operator number
`operator`. -/
def ownerFrom (operator index : Nat) : List Operator → Option NodeKind
  | [] => none
  | o :: rest =>
    if index < o.resultCount then some (.result operator index)
    else ownerFrom (operator + 1) (index - o.resultCount) rest

/-- What a node is; none for 0 and for ids that are not in use. -/
def nodeKind? (g : Graph) (node : NodeId) : Option NodeKind :=
  if node = 0 then none
  else
    let index := node - 1
    if index < g.dynamics then some (.dynamic index)
    else
      let index := index - g.dynamics
      if index < g.independents then some (.independent index)
      else
        let index := index - g.independents
        if index < g.constants.size then some (.constant index)
        else ownerFrom 0 (index - g.constants.size) g.operators

end Graph
end SsaGraph

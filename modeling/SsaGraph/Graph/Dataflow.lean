import SsaGraph.Binary64.Style
import SsaGraph.Graph
import SsaGraph.Graph.Digraph

/-!
The dataflow view of a graph.  Each node is a vertex, and an operator without
results is a vertex of its own, so that its arguments stay visible.  Edges run
from an argument to what is computed from it and carry the argument's position.
-/

namespace SsaGraph

inductive Vertex where
  | dynamic (index : Nat)
  | independent (index : Nat)
  | constant (value : Binary64)
  | result (op : Op) (node : NodeId) (result : Nat)
  /-- An operator without results. -/
  | effect (op : Op)
  deriving DecidableEq, Repr

def Vertex.label : Vertex → String
  | dynamic i => s!"p{i}"
  | independent i => s!"x{i}"
  | constant x => x.text
  | result op node 0 => s!"{node} = {op.name}"
  | result op node k => s!"{node} = {op.name}#{k}"
  | effect op => op.name

/-- The vertices of dynamic parameters, independent variables and constants. -/
def Graph.leafVertices (g : Graph) : List Vertex :=
  (List.range g.dynamics).map .dynamic ++ (List.range g.independents).map .independent ++
    g.constants.toList.map .constant

/-- A view, with the directed graphs of a library. -/
structure Dataflow (L : DigraphLibrary Vertex) where
  graph : L.Carrier
  /-- The vertex of each node, from node 1 on. -/
  nodeVertices : Array Nat

namespace Dataflow

variable {L : DigraphLibrary Vertex}

def empty : Dataflow L := ⟨L.empty, #[]⟩

/-- Add the vertex of the next node, and say which it is.  There has to be a number for
the node behind it as well. -/
def addNode? (d : Dataflow L) (v : Vertex) : Option (Dataflow L × Nat) :=
  if d.nodeVertices.size + 1 < maxNode then do
    let (graph, index) ← L.addVertex? d.graph v
    return (⟨graph, d.nodeVertices.push index⟩, index)
  else none

/-- The vertex of a node. -/
def vertex? (d : Dataflow L) (node : NodeId) : Option Nat :=
  if node = 0 then none else d.nodeVertices[node - 1]?

/-- Add the vertex of one more result of an operator. -/
def addResult? (op : Op) (d : Dataflow L × List Nat) (result : Nat) :
    Option (Dataflow L × List Nat) := do
  let (e, index) ← d.1.addNode? (.result op (d.1.nodeVertices.size + 1) result)
  return (e, d.2 ++ [index])

/-- Add the vertices of an operator, one for each result, or one for the operator
itself, and say which they are. -/
def addOperator? (d : Dataflow L) (o : Operator) : Option (Dataflow L × List Nat) :=
  if o.resultCount = 0 then do
    let (graph, index) ← L.addVertex? d.graph (.effect o.op)
    return ({ d with graph := graph }, [index])
  else (List.range o.resultCount).foldlM (addResult? o.op) (d, [])

/-- Edges from an operator's arguments to its vertices.  Arguments that are not nodes
of the graph have none. -/
def arrows (d : Dataflow L) (targets : List Nat) (o : Operator) : List Edge :=
  (o.nodes.mapIdx fun position node =>
    match d.vertex? node with
    | none => []
    | some source => targets.map fun target => Edge.mk source target position).flatten

def addEdges? (d : Dataflow L) (es : List Edge) : Option (Dataflow L) := do
  let graph ← es.foldlM L.addEdge? d.graph
  return { d with graph := graph }

def append? (d : Dataflow L) (o : Operator) : Option (Dataflow L) := do
  let (e, targets) ← d.addOperator? o
  e.addEdges? (e.arrows targets o)

/-- The view of a graph; none if the library has no room for it, or if there is no
number behind those of its nodes. -/
def ofGraph? (L : DigraphLibrary Vertex) (g : Graph) : Option (Dataflow L) := do
  let d ← g.leafVertices.foldlM (fun d v => (d.addNode? v).map (·.1)) empty
  g.operators.foldlM append? d

/-- The node that a vertex shows. -/
def node? (d : Dataflow L) (vertex : Nat) : Option NodeId :=
  (d.nodeVertices.idxOf? vertex).map (· + 1)

/-- Argument positions first, then nodes. -/
def comesFirst (a b : Nat × NodeId) : Bool := a.1 < b.1 || (a.1 == b.1 && a.2 ≤ b.2)

/-- The nodes that a node is computed from, in the order of the arguments. -/
def inputs (d : Dataflow L) (node : NodeId) : List NodeId :=
  match d.vertex? node with
  | none => []
  | some target =>
    let incoming := (L.incoming d.graph target).filterMap fun e =>
      (d.node? e.source).map fun id => (e.position, id)
    (incoming.mergeSort comesFirst).map (·.2)

def isAcyclic (d : Dataflow L) : Bool := !L.isCyclic d.graph

/-- The view in the Graphviz language. -/
def dot (d : Dataflow L) : String :=
  let vertices := (L.vertices d.graph).mapIdx fun i v => s!"    {i} [ label = \"{v.label}\" ]\n"
  let edges := (L.edges d.graph).map fun e => s!"    {e.source} -> {e.target} [ ]\n"
  String.join ("digraph \x7b\n" :: vertices ++ edges ++ ["\x7d\n"])

end Dataflow

/-- The view of a graph on arrays. -/
def Graph.view? (g : Graph) : Option (Dataflow (.arrays Vertex)) := Dataflow.ofGraph? _ g

end SsaGraph

/-!
Directed graphs, as a library gives them.  The vertices carry labels, and the edges
carry positions.  What is built on top of a library uses its operations only.  There is
a bound on the number of vertices and on that of edges, and nothing can be added at the
bound.
-/

namespace SsaGraph

structure Edge where
  source : Nat
  target : Nat
  position : Nat
  deriving DecidableEq, Repr

/-- The operations of a library of directed graphs with labels in `V`. -/
structure DigraphLibrary (V : Type) where
  Carrier : Type
  empty : Carrier
  /-- Add a vertex, and say which it is; none if there is no room for it. -/
  addVertex? : Carrier → V → Option (Carrier × Nat)
  /-- Add an edge; none if there is no room for it, or not the vertices. -/
  addEdge? : Carrier → Edge → Option Carrier
  /-- The labels, in the order of the vertices. -/
  vertices : Carrier → List V
  /-- The edges, in the order in which they were added. -/
  edges : Carrier → List Edge
  /-- The edges into a vertex, in any order. -/
  incoming : Carrier → Nat → List Edge
  isCyclic : Carrier → Bool

/-- The most vertices, and the most edges, that there can be.  Both are numbered with
thirty-two bits, and the last number is never used. -/
def DigraphLibrary.limit : Nat := (1 <<< 32) - 1

/-! ## A library on arrays -/

structure ArrayDigraph (V : Type) where
  vertices : Array V
  edges : Array Edge
  deriving Repr

namespace ArrayDigraph

/-- The edges from vertices that an edge leads to. -/
def peel (es : List Edge) : List Edge := es.filter fun e => es.any fun d => d.target == e.source

/-- The edges that are left after peeling `n` times. -/
def peeled : Nat → List Edge → List Edge
  | 0, es => es
  | n + 1, es => peeled n (peel es)

/-- Whether there is a cycle.  Edges that all go forward have none.  Otherwise peeling
takes an edge away each time, as long as there is one that is on no cycle. -/
def hasCycle (es : List Edge) : Bool :=
  !es.all (fun e => e.source < e.target) && !(peeled es.length es).isEmpty

end ArrayDigraph

/-- Directed graphs on arrays. -/
def DigraphLibrary.arrays (V : Type) : DigraphLibrary V where
  Carrier := ArrayDigraph V
  empty := ⟨#[], #[]⟩
  addVertex? d v :=
    if d.vertices.size < limit then some ({ d with vertices := d.vertices.push v }, d.vertices.size)
    else none
  addEdge? d e :=
    if e.source < d.vertices.size ∧ e.target < d.vertices.size ∧ d.edges.size < limit then
      some { d with edges := d.edges.push e }
    else none
  vertices d := d.vertices.toList
  edges d := d.edges.toList
  incoming d v := (d.edges.toList.filter fun e => e.target == v).reverse
  isCyclic d := ArrayDigraph.hasCycle d.edges.toList

end SsaGraph

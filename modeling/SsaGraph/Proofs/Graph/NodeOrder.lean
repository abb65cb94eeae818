import SsaGraph.Graph.Numbering
import SsaGraph.Proofs.Graph.Storage

/-!
Node order.  In a well-formed graph an operator takes nodes that were there before
it: leaves, or results of the operators in front of it.  The graph under
construction keeps this (`Ordered`) when an operator is appended whose nodes are
all in use, and the counts in words are then the counts without a bound.
-/

namespace SsaGraph

/-- The operator takes nodes only, and has `n` results whatever they are. -/
def Op.Yields (op : Op) (n : Nat) : Prop :=
  op.headSize = 0 ∧ ∀ args, op.resultCount args = n

/-- The leading arguments of an operator are as the graph needs them. -/
structure Operator.Fits (g : Graph) (o : Operator) : Prop where
  atomic : o.op = .atom → ∃ i, o.args[0]? = some i ∧ i < g.atomicNames.size
  discrete : o.op = .discrete → ∃ i, o.args[0]? = some i ∧ i < g.discreteNames.size
  counted : o.op = .atom → o.args[2]? = some o.nodes.length

theorem Operator.fits_of_yields {g : Graph} {op : Op} {n : Nat} (h : op.Yields n)
    (args : List Nat) : Operator.Fits g ⟨op, args⟩ where
  atomic hop := by
    have hop : op = .atom := hop
    rw [hop] at h
    cases h.1
  discrete hop := by
    have hop : op = .discrete := hop
    rw [hop] at h
    cases h.1
  counted hop := by
    have hop : op = .atom := hop
    rw [hop] at h
    cases h.1

namespace Graph

/-- Number of nodes before the first operator result, without a bound. -/
def leaves (g : Graph) : Nat := g.dynamics + g.independents + g.constants.size

@[simp] theorem results_nil : results [] = 0 := rfl

@[simp] theorem results_cons (o : Operator) (os : List Operator) :
    results (o :: os) = o.resultCount + results os := rfl

@[simp] theorem results_append (os ps : List Operator) :
    results (os ++ ps) = results os + results ps := by
  induction os with
  | nil => simp
  | cons o rest ih => rw [List.cons_append, results_cons, results_cons, ih, Nat.add_assoc]

theorem totalNodes_eq (g : Graph) : g.totalNodes = g.leaves + results g.operators := rfl

/-- A graph in node order, with the given number of dependents. -/
structure WellFormed (g : Graph) (dependents : Nat) : Prop where
  layout : g.check = .ok ()
  complete : g.operators.length = g.tags.size
  leafCount : g.leafCount? = some g.leaves
  nodeCount : g.nodeCount? = some g.totalNodes
  limit : g.totalNodes ≤ maxNode
  order : ∀ j o, g.operators[j]? = some o → ∀ n ∈ o.nodes,
    1 ≤ n ∧ n ≤ g.leaves + results (g.operators.take j)
  firsts : ∃ firsts, g.firstResults? = some firsts ∧ ∀ (j : Nat) (o : Operator) (first : NodeId),
    g.operators[j]? = some o → firsts[j]? = some (some first) → ∀ n ∈ o.nodes, n < first
  fits : ∀ o ∈ g.operators, o.Fits g
  atomicNames : g.atomicNames.toList.Nodup
  discreteNames : g.discreteNames.toList.Nodup
  dependents_size : g.dependents.size = dependents
  dependents_range : ∀ n ∈ g.dependents.toList, 1 ≤ n ∧ n ≤ g.totalNodes

/-! ## Counting in words -/

theorem resultTotal?_eq {os : List Operator} (h : results os < 1 <<< 64) :
    resultTotal? os = some (results os) := by
  have hfold : ∀ (os : List Operator) (n : Nat), n + results os < 1 <<< 64 →
      os.foldlM (fun n o => addCount? n o.resultCount) n = some (n + results os) := by
    intro os
    induction os with
    | nil => intro n _; rfl
    | cons o rest ih =>
      intro n hn
      rw [results_cons] at hn ⊢
      have hadd : addCount? n o.resultCount = some (n + o.resultCount) := if_pos (by omega)
      rw [List.foldlM_cons, hadd, Option.bind_eq_bind, Option.bind_some, ih _ (by omega),
        Nat.add_assoc]
  have := hfold os 0 (by omega)
  rwa [Nat.zero_add] at this

theorem leafCount?_eq {g : Graph} (h : g.leaves < 1 <<< 64) : g.leafCount? = some g.leaves := by
  have h : g.dynamics + g.independents + g.constants.size < 1 <<< 64 := h
  have hinputs : addCount? g.dynamics g.independents = some (g.dynamics + g.independents) :=
    if_pos (by omega)
  rw [leafCount?, hinputs]
  exact if_pos h

theorem nodeCount?_eq {g : Graph} (h : g.totalNodes < 1 <<< 64) :
    g.nodeCount? = some g.totalNodes := by
  rw [totalNodes_eq] at h ⊢
  rw [nodeCount?, leafCount?_eq (by omega), resultTotal?_eq (by omega)]
  exact if_pos h

/-- The first result of an operator comes behind the results of the operators in
front of it. -/
theorem firstResultsFrom?_eq {next : Nat} {os : List Operator}
    (h : next + results os < 1 <<< 64) :
    ∃ firsts, firstResultsFrom? next os = some firsts ∧ ∀ j : Nat, firsts[j]? = (os[j]?).map fun o =>
      if 0 < o.resultCount then some (next + results (os.take j)) else none := by
  induction os generalizing next with
  | nil => exact ⟨[], rfl, fun j => rfl⟩
  | cons o rest ih =>
    rw [results_cons] at h
    have hadd : addCount? next o.resultCount = some (next + o.resultCount) := if_pos (by omega)
    obtain ⟨later, hlater, hfirst⟩ := @ih (next + o.resultCount) (by omega)
    refine ⟨(if 0 < o.resultCount then some next else none) :: later, ?_, ?_⟩
    · rw [firstResultsFrom?, hadd, Option.bind_eq_bind, Option.bind_some, hlater]
      rfl
    · intro j
      cases j with
      | zero => rfl
      | succ j =>
        rw [List.getElem?_cons_succ, List.getElem?_cons_succ, hfirst j]
        simp only [List.take_succ_cons, results_cons, Nat.add_assoc]

theorem firstResults?_eq {g : Graph} (h : g.totalNodes + 1 < 1 <<< 64) :
    ∃ firsts, g.firstResults? = some firsts ∧ ∀ j : Nat, firsts[j]? = (g.operators[j]?).map fun o =>
      if 0 < o.resultCount then some (g.leaves + 1 + results (g.operators.take j)) else none := by
  have hsum := g.totalNodes_eq
  have hnext : addCount? g.leaves 1 = some (g.leaves + 1) := if_pos (by omega)
  obtain ⟨firsts, hfirsts, hfirst⟩ :=
    @firstResultsFrom?_eq (g.leaves + 1) g.operators (by omega)
  refine ⟨firsts, ?_, hfirst⟩
  rw [firstResults?, leafCount?_eq (by omega), Option.bind_eq_bind, Option.bind_some, hnext]
  exact hfirsts

/-! ## Graphs under construction -/

/-- Node order while operators are still appended. -/
structure Ordered (g : Graph) : Prop where
  flat : g.Flat
  order : ∀ j o, g.operators[j]? = some o → ∀ n ∈ o.nodes,
    1 ≤ n ∧ n ≤ g.leaves + results (g.operators.take j)
  fits : ∀ o ∈ g.operators, o.Fits g
  atomicNames : g.atomicNames.toList.Nodup
  discreteNames : g.discreteNames.toList.Nodup

theorem leaves_pushOperator (g : Graph) (op : Op) (args : List Nat) :
    (g.pushOperator op args).leaves = g.leaves := by
  simp [leaves]

theorem totalNodes_pushOperator {g : Graph} (h : g.Flat) (op : Op) (args : List Nat) :
    (g.pushOperator op args).totalNodes = g.totalNodes + op.resultCount args := by
  rw [totalNodes_eq, totalNodes_eq, leaves_pushOperator, operators_pushOperator h, results_append,
    Nat.add_assoc, results_cons, results_nil, Nat.add_zero]
  rfl

theorem ordered_pushOperator {g : Graph} (h : g.Ordered) {op : Op} {args : List Nat}
    (hfits : Operator.Fits g ⟨op, args⟩)
    (hnodes : ∀ n ∈ Operator.nodes ⟨op, args⟩, 1 ≤ n ∧ n ≤ g.totalNodes) :
    (g.pushOperator op args).Ordered where
  flat := flat_pushOperator h.flat op args
  order := by
    intro j o hj
    rw [operators_pushOperator h.flat] at hj ⊢
    rw [leaves_pushOperator]
    by_cases hlt : j < g.operators.length
    · rw [List.getElem?_append_left hlt] at hj
      rw [List.take_append_of_le_length (Nat.le_of_lt hlt)]
      exact h.order j o hj
    · -- The new operator is the last one, and has all others in front of it.
      rw [List.getElem?_append_right (Nat.not_lt.mp hlt), List.getElem?_singleton] at hj
      split at hj
      next hzero =>
        cases hj
        have hj : j = g.operators.length := by omega
        rw [hj, List.take_append_of_le_length (Nat.le_refl _), List.take_length]
        exact hnodes
      · cases hj
  fits := by
    intro o ho
    rw [operators_pushOperator h.flat, List.mem_append, List.mem_singleton] at ho
    rcases ho with ho | rfl
    · exact ⟨by simpa using (h.fits o ho).atomic, by simpa using (h.fits o ho).discrete,
        (h.fits o ho).counted⟩
    · exact ⟨by simpa using hfits.atomic, by simpa using hfits.discrete, hfits.counted⟩
  atomicNames := by simpa using h.atomicNames
  discreteNames := by simpa using h.discreteNames

theorem size_le_internName (names : Array String) (name : String) :
    names.size ≤ (internName names name).1.size := by
  unfold internName
  cases names.idxOf? name with
  | none => simp
  | some i => exact Nat.le_refl _

theorem ordered_internAtomic {g : Graph} (h : g.Ordered) (name : String) :
    (g.internAtomic name).1.Ordered := by
  rw [internAtomic_eq]
  refine ⟨⟨h.flat.size, h.flat.sorted, h.flat.bounded⟩, h.order, ?_,
    internName_nodup h.atomicNames name, h.discreteNames⟩
  intro o ho
  refine ⟨fun hop => ?_, (h.fits o ho).discrete, (h.fits o ho).counted⟩
  obtain ⟨i, hi, hlt⟩ := (h.fits o ho).atomic hop
  exact ⟨i, hi, Nat.lt_of_lt_of_le hlt (size_le_internName _ _)⟩

theorem ordered_internDiscrete {g : Graph} (h : g.Ordered) (name : String) :
    (g.internDiscrete name).1.Ordered := by
  rw [internDiscrete_eq]
  refine ⟨⟨h.flat.size, h.flat.sorted, h.flat.bounded⟩, h.order, ?_, h.atomicNames,
    internName_nodup h.discreteNames name⟩
  intro o ho
  refine ⟨(h.fits o ho).atomic, fun hop => ?_, (h.fits o ho).counted⟩
  obtain ⟨i, hi, hlt⟩ := (h.fits o ho).discrete hop
  exact ⟨i, hi, Nat.lt_of_lt_of_le hlt (size_le_internName _ _)⟩

theorem totalNodes_internAtomic (g : Graph) (name : String) :
    (g.internAtomic name).1.totalNodes = g.totalNodes := by
  rw [internAtomic_eq]
  rfl

theorem totalNodes_internDiscrete (g : Graph) (name : String) :
    (g.internDiscrete name).1.totalNodes = g.totalNodes := by
  rw [internDiscrete_eq]
  rfl

theorem internName_lt (names : Array String) (name : String) :
    (internName names name).2 < (internName names name).1.size := by
  obtain ⟨hlt, _⟩ := Array.getElem?_eq_some_iff.mp (internName_getElem? names name)
  exact hlt

/-! ## Growth -/

/-- The second graph is the first one with more operators. -/
structure Grown (g g' : Graph) : Prop where
  flat : g'.Flat
  operators : g.operators <+: g'.operators
  leaves : g'.leaves = g.leaves

theorem Grown.refl {g : Graph} (h : g.Flat) : g.Grown g := ⟨h, List.prefix_refl _, rfl⟩

theorem Grown.trans {g g' g'' : Graph} (h : g.Grown g') (h' : g'.Grown g'') : g.Grown g'' :=
  ⟨h'.flat, h.operators.trans h'.operators, h'.leaves.trans h.leaves⟩

theorem grown_pushOperator {g : Graph} (h : g.Flat) (op : Op) (args : List Nat) :
    g.Grown (g.pushOperator op args) where
  flat := flat_pushOperator h op args
  operators := by
    rw [operators_pushOperator h]
    exact List.prefix_append _ _
  leaves := leaves_pushOperator g op args

theorem grown_internAtomic {g : Graph} (h : g.Flat) (name : String) :
    g.Grown (g.internAtomic name).1 := by
  rw [internAtomic_eq]
  exact ⟨⟨h.size, h.sorted, h.bounded⟩, List.prefix_refl _, rfl⟩

theorem grown_internDiscrete {g : Graph} (h : g.Flat) (name : String) :
    g.Grown (g.internDiscrete name).1 := by
  rw [internDiscrete_eq]
  exact ⟨⟨h.size, h.sorted, h.bounded⟩, List.prefix_refl _, rfl⟩

/-! ## Finished graphs -/

theorem foldl_pushDependent_eq (g : Graph) (ns : List NodeId) :
    ns.foldl pushDependent g = { g with dependents := g.dependents ++ ns.toArray } := by
  induction ns generalizing g with
  | nil => simp
  | cons n rest ih =>
    rw [List.foldl_cons, ih]
    simp [pushDependent]

theorem wellFormed_of_ordered {g : Graph} (h : g.Ordered) (hlimit : g.totalNodes ≤ maxNode)
    (hdependents : ∀ n ∈ g.dependents.toList, 1 ≤ n ∧ n ≤ g.totalNodes) :
    g.WellFormed g.dependents.size := by
  have hword : g.totalNodes + 1 < 1 <<< 64 := by
    have hlimit : g.totalNodes ≤ 1 <<< 32 - 1 := hlimit
    omega
  have hsum := g.totalNodes_eq
  refine ⟨check_eq_ok_iff.mpr ⟨h.flat, hlimit⟩, h.flat.length_operators, leafCount?_eq (by omega),
    nodeCount?_eq (by omega), hlimit, h.order, ?_, h.fits, h.atomicNames, h.discreteNames, rfl,
    hdependents⟩
  obtain ⟨firsts, hfirsts, hfirst⟩ := firstResults?_eq hword
  refine ⟨firsts, hfirsts, ?_⟩
  intro j o first hj hf n hn
  rw [hfirst, hj, Option.map_some, Option.some.injEq] at hf
  split at hf
  · rw [← Option.some.inj hf, Nat.add_right_comm]
    exact Nat.lt_succ_of_le (h.order j o hj n hn).2
  · cases hf

end Graph
end SsaGraph

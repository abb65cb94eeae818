import Mathlib.Tactic.MkIffOfInductiveProp
import SsaGraph.Graph.Document
import SsaGraph.Graph.Listing
import SsaGraph.Proofs.Graph.NodeOrder
import SsaGraph.Proofs.Lists

/-!
One numbering.  The counts, the first results of operators and the kinds of nodes
come from three walks over the operators: a sum, a running counter and a search
that subtracts.  `IsNode` says once which node has which kind, the search finds
exactly that (`nodeKind?_eq_some_iff`), and in a graph that passes the check the
other two agree with it.
-/

namespace SsaGraph

theorem subCount?_of_le {a b : Nat} (h : b ≤ a) : subCount? a b = some (a - b) := if_pos h

namespace Graph

/-- The node that is dynamic parameter, independent variable, constant or result
of an operator, by the order in which nodes are given out. -/
@[mk_iff]
inductive IsNode (g : Graph) : Nat → NodeKind → Prop
  | dynamic {i : Nat} (h : i < g.dynamics) : IsNode g (1 + i) (.dynamic i)
  | independent {i : Nat} (h : i < g.independents) :
      IsNode g (1 + g.dynamics + i) (.independent i)
  | constant {i : Nat} (h : i < g.constants.size) :
      IsNode g (1 + g.dynamics + g.independents + i) (.constant i)
  | result {j r : Nat} {o : Operator} (ho : g.operators[j]? = some o) (hr : r < o.resultCount) :
      IsNode g (g.leaves + 1 + results (g.operators.take j) + r) (.result j r)

/-! ## The search -/

theorem results_take_le (os : List Operator) (j : Nat) : results (os.take j) ≤ results os := by
  have h := results_append (os.take j) (os.drop j)
  rw [List.take_append_drop] at h
  omega

theorem results_take_add_le {os : List Operator} {j : Nat} {o : Operator}
    (ho : os[j]? = some o) : results (os.take j) + o.resultCount ≤ results os := by
  have hle := results_take_le os (j + 1)
  rw [List.take_add_one, ho] at hle
  simpa using hle

/-- The search finds the operator whose results the index falls into, past the
results of the operators in front of it. -/
theorem ownerFrom_eq_some_iff {k index : Nat} {os : List Operator} {kind : NodeKind} :
    ownerFrom k index os = some kind ↔
      ∃ j o r, kind = .result (k + j) r ∧ os[j]? = some o ∧ r < o.resultCount ∧
        index = results (os.take j) + r := by
  induction os generalizing k index with
  | nil => simp [ownerFrom]
  | cons o rest ih =>
    by_cases hlt : index < o.resultCount
    · rw [ownerFrom, if_pos hlt]
      constructor
      · intro h
        exact ⟨0, o, index, (Option.some.inj h).symm, rfl, hlt, by simp⟩
      · rintro ⟨j, p, r, rfl, hp, hr, hindex⟩
        -- An operator further behind would need a larger index.
        cases j with
        | zero => simp_all
        | succ j =>
          rw [List.take_succ_cons, results_cons] at hindex
          omega
    · rw [ownerFrom, if_neg hlt, ih]
      constructor
      · rintro ⟨j, p, r, rfl, hp, hr, hindex⟩
        refine ⟨j + 1, p, r, ?_, hp, hr, ?_⟩
        · rw [Nat.add_assoc, Nat.add_comm 1 j]
        · rw [List.take_succ_cons, results_cons]
          omega
      · rintro ⟨j, p, r, rfl, hp, hr, hindex⟩
        cases j with
        | zero =>
          cases hp
          simp only [List.take_zero, results_nil] at hindex
          omega
        | succ j =>
          refine ⟨j, p, r, ?_, hp, hr, ?_⟩
          · rw [Nat.add_assoc, Nat.add_comm 1 j]
          · rw [List.take_succ_cons, results_cons] at hindex
            omega

/-- What is subtracted on the way to a kind has been found to fit. -/
theorem nodeKind?_succ (g : Graph) (index : Nat) : g.nodeKind? (index + 1) =
    if index < g.dynamics then some (.dynamic index)
    else if index - g.dynamics < g.independents then some (.independent (index - g.dynamics))
    else if index - g.dynamics - g.independents < g.constants.size then
      some (.constant (index - g.dynamics - g.independents))
    else ownerFrom 0 (index - g.dynamics - g.independents - g.constants.size) g.operators := rfl

theorem isNode_of_nodeKind? {g : Graph} {id : Nat} {kind : NodeKind}
    (h : g.nodeKind? id = some kind) : g.IsNode id kind := by
  cases id with
  | zero => cases h
  | succ index =>
    rw [nodeKind?_succ] at h
    split at h
    next hd =>
      cases h
      rw [Nat.add_comm]
      exact .dynamic hd
    split at h
    next hd hv =>
      cases h
      have hid : index + 1 = 1 + g.dynamics + (index - g.dynamics) := by omega
      rw [hid]
      exact .independent hv
    split at h
    next hd hv hc =>
      cases h
      have hid : index + 1 =
          1 + g.dynamics + g.independents + (index - g.dynamics - g.independents) := by omega
      rw [hid]
      exact .constant hc
    next hd hv hc =>
      obtain ⟨j, o, r, rfl, ho, hr, hindex⟩ := ownerFrom_eq_some_iff.mp h
      have hid : index + 1 = g.leaves + 1 + results (g.operators.take j) + r := by
        unfold leaves
        omega
      rw [Nat.zero_add, hid]
      exact .result ho hr

theorem nodeKind?_of_isNode {g : Graph} {id : Nat} {kind : NodeKind}
    (h : g.IsNode id kind) : g.nodeKind? id = some kind := by
  cases h with
  | @dynamic i h => rw [Nat.add_comm, nodeKind?_succ, if_pos h]
  | @independent i h =>
    have hid : 1 + g.dynamics + i = g.dynamics + i + 1 := by omega
    have hindex : g.dynamics + i - g.dynamics = i := by omega
    rw [hid, nodeKind?_succ, if_neg (by omega), hindex, if_pos h]
  | @constant i h =>
    have hid : 1 + g.dynamics + g.independents + i = g.dynamics + g.independents + i + 1 := by omega
    have hindex : g.dynamics + g.independents + i - g.dynamics - g.independents = i := by omega
    rw [hid, nodeKind?_succ, if_neg (by omega), if_neg (by omega), hindex, if_pos h]
  | @result j r o ho hr =>
    have hid : g.leaves + 1 + results (g.operators.take j) + r =
        g.leaves + (results (g.operators.take j) + r) + 1 := by omega
    have hindex : g.leaves + (results (g.operators.take j) + r) - g.dynamics - g.independents -
        g.constants.size = results (g.operators.take j) + r := by
      unfold leaves
      omega
    have hle : g.dynamics + g.independents + g.constants.size ≤ g.leaves := Nat.le_refl _
    rw [hid, nodeKind?_succ, if_neg (by omega), if_neg (by omega), if_neg (by omega), hindex]
    exact ownerFrom_eq_some_iff.mpr ⟨j, o, r, by rw [Nat.zero_add], ho, hr, rfl⟩

theorem nodeKind?_eq_some_iff {g : Graph} {id : Nat} {kind : NodeKind} :
    g.nodeKind? id = some kind ↔ g.IsNode id kind :=
  ⟨isNode_of_nodeKind?, nodeKind?_of_isNode⟩

/-! ## Nodes in use -/

theorem IsNode.unique {g : Graph} {a b : Nat} {kind : NodeKind} (ha : g.IsNode a kind)
    (hb : g.IsNode b kind) : a = b := by
  cases ha <;> cases hb <;> rfl

theorem IsNode.range {g : Graph} {id : Nat} {kind : NodeKind} (h : g.IsNode id kind) :
    1 ≤ id ∧ id ≤ g.totalNodes := by
  have htotal := g.totalNodes_eq
  unfold leaves at htotal
  cases h with
  | dynamic h => omega
  | independent h => omega
  | constant h => omega
  | result ho hr =>
    have hle := results_take_add_le ho
    unfold leaves
    omega

/-- Every result number below the total belongs to an operator. -/
theorem exists_owner {os : List Operator} {index : Nat} (h : index < results os) :
    ∃ j o r, os[j]? = some o ∧ r < o.resultCount ∧ index = results (os.take j) + r := by
  induction os generalizing index with
  | nil => simp at h
  | cons o rest ih =>
    by_cases hlt : index < o.resultCount
    · exact ⟨0, o, index, rfl, hlt, by simp⟩
    · rw [results_cons] at h
      obtain ⟨j, p, r, hp, hr, hindex⟩ := @ih (index - o.resultCount) (by omega)
      refine ⟨j + 1, p, r, hp, hr, ?_⟩
      rw [List.take_succ_cons, results_cons]
      omega

theorem exists_isNode {g : Graph} {id : Nat} (hpos : 1 ≤ id) (hle : id ≤ g.totalNodes) :
    ∃ kind, g.IsNode id kind := by
  have htotal := g.totalNodes_eq
  by_cases hd : id ≤ g.dynamics
  · have hnode := @IsNode.dynamic g (id - 1) (by omega)
    rw [show 1 + (id - 1) = id by omega] at hnode
    exact ⟨_, hnode⟩
  by_cases hv : id ≤ g.dynamics + g.independents
  · have hnode := @IsNode.independent g (id - 1 - g.dynamics) (by omega)
    rw [show 1 + g.dynamics + (id - 1 - g.dynamics) = id by omega] at hnode
    exact ⟨_, hnode⟩
  by_cases hc : id ≤ g.leaves
  · unfold leaves at hc
    have hnode := @IsNode.constant g (id - 1 - g.dynamics - g.independents) (by omega)
    rw [show 1 + g.dynamics + g.independents + (id - 1 - g.dynamics - g.independents) = id
      by omega] at hnode
    exact ⟨_, hnode⟩
  · obtain ⟨j, o, r, ho, hr, hindex⟩ :=
      @exists_owner g.operators (id - 1 - g.leaves) (by omega)
    have hnode := IsNode.result ho hr
    rw [show g.leaves + 1 + results (g.operators.take j) + r = id by omega] at hnode
    exact ⟨_, hnode⟩

theorem nodeKind?_isSome_iff {g : Graph} {id : Nat} :
    (g.nodeKind? id).isSome ↔ 1 ≤ id ∧ id ≤ g.totalNodes := by
  rw [Option.isSome_iff_exists]
  constructor
  · rintro ⟨kind, h⟩
    exact (isNode_of_nodeKind? h).range
  · rintro ⟨hpos, hle⟩
    obtain ⟨kind, h⟩ := exists_isNode hpos hle
    exact ⟨kind, nodeKind?_of_isNode h⟩

/-! ## Differences -/

/-- `ownerFrom`, given only if no difference on the way is negative. -/
def checkedOwnerFrom? (operator index : Nat) : List Operator → Option (Option NodeKind)
  | [] => some none
  | o :: rest =>
    if index < o.resultCount then some (some (.result operator index))
    else do checkedOwnerFrom? (operator + 1) (← subCount? index o.resultCount) rest

/-- `nodeKind?`, given only if no difference on the way is negative. -/
def checkedKind? (g : Graph) (node : NodeId) : Option (Option NodeKind) :=
  if node = 0 then some none
  else do
    let index ← subCount? node 1
    if index < g.dynamics then some (some (.dynamic index))
    else
      let index ← subCount? index g.dynamics
      if index < g.independents then some (some (.independent index))
      else
        let index ← subCount? index g.independents
        if index < g.constants.size then some (some (.constant index))
        else checkedOwnerFrom? 0 (← subCount? index g.constants.size) g.operators

theorem checkedOwnerFrom?_eq (operator index : Nat) (os : List Operator) :
    checkedOwnerFrom? operator index os = some (ownerFrom operator index os) := by
  induction os generalizing operator index with
  | nil => rfl
  | cons o rest ih =>
    by_cases hlt : index < o.resultCount
    · rw [checkedOwnerFrom?, ownerFrom, if_pos hlt, if_pos hlt]
    · rw [checkedOwnerFrom?, ownerFrom, if_neg hlt, if_neg hlt, subCount?_of_le (by omega)]
      exact ih (operator + 1) (index - o.resultCount)

/-- Each difference is taken only behind the comparison that makes it safe. -/
theorem checkedKind?_eq (g : Graph) (node : Nat) :
    g.checkedKind? node = some (g.nodeKind? node) := by
  cases node with
  | zero => rfl
  | succ index =>
    rw [checkedKind?, if_neg (Nat.succ_ne_zero index), subCount?_of_le (by omega),
      Nat.add_sub_cancel, nodeKind?_succ, Option.bind_eq_bind, Option.bind_some]
    by_cases hd : index < g.dynamics
    · rw [if_pos hd, if_pos hd]
    rw [if_neg hd, if_neg hd, subCount?_of_le (by omega), Option.bind_some]
    by_cases hv : index - g.dynamics < g.independents
    · rw [if_pos hv, if_pos hv]
    rw [if_neg hv, if_neg hv, subCount?_of_le (by omega), Option.bind_some]
    by_cases hc : index - g.dynamics - g.independents < g.constants.size
    · rw [if_pos hc, if_pos hc]
    rw [if_neg hc, if_neg hc, subCount?_of_le (by omega), Option.bind_some]
    exact checkedOwnerFrom?_eq 0 _ g.operators

/-! ## The listing -/

theorem exists_constantLine {g : Graph} (h : g.totalNodes + 1 < 1 <<< 64) {x : Binary64}
    {i : Nat} (hi : i < g.constants.size) :
    ∃ line, constantLine? (g.dynamics + g.independents + 1) x i = some line := by
  have htotal := g.totalNodes_eq
  unfold leaves at htotal
  have hnode : addCount? (g.dynamics + g.independents + 1) i =
      some (g.dynamics + g.independents + 1 + i) := if_pos (by omega)
  rw [constantLine?, hnode]
  exact ⟨_, rfl⟩

theorem exists_operatorLine (g : Graph) (o : Operator) {first : Option Nat}
    (h : ∀ node, first = some node → 1 ≤ node ∧ node + o.resultCount < 1 <<< 64) :
    ∃ line, g.operatorLine? o first = some line := by
  cases first with
  | none => exact ⟨_, rfl⟩
  | some node =>
    obtain ⟨hpos, hlt⟩ := h node rfl
    have hsum : addCount? node o.resultCount = some (node + o.resultCount) := if_pos hlt
    by_cases hone : o.resultCount = 1
    · simp [operatorLine?, hone]
    · simp [operatorLine?, hone, hsum, subCount?_of_le (show 1 ≤ node + o.resultCount by omega)]

theorem exists_listing {g : Graph} (h : g.totalNodes + 1 < 1 <<< 64) :
    ∃ text, g.listing? = some text := by
  have htotal := g.totalNodes_eq
  unfold leaves at htotal
  have hinputs : addCount? g.dynamics g.independents = some (g.dynamics + g.independents) :=
    if_pos (by omega)
  have hfirst : addCount? (g.dynamics + g.independents) 1 =
      some (g.dynamics + g.independents + 1) := if_pos (by omega)
  obtain ⟨constants, hconstants⟩ : ∃ lines, g.constants.toList.zipIdx.mapM
      (fun c => constantLine? (g.dynamics + g.independents + 1) c.1 c.2) = some lines := by
    refine exists_mapM_eq_some fun c hc => exists_constantLine h ?_
    obtain ⟨_, hi, _⟩ := List.mem_zipIdx hc
    simpa using hi
  obtain ⟨firsts, hfirsts, hget⟩ := firstResults?_eq h
  obtain ⟨operators, hoperators⟩ : ∃ lines, (g.operators.zip firsts).mapM
      (fun o => g.operatorLine? o.1 o.2) = some lines := by
    refine exists_mapM_eq_some fun o ho => exists_operatorLine g o.1 fun node hnode => ?_
    obtain ⟨j, hj⟩ := List.mem_iff_getElem?.mp ho
    obtain ⟨hop, hf⟩ := List.getElem?_zip_eq_some.mp hj
    rw [hget j, hop, Option.map_some, hnode, Option.some.injEq] at hf
    have hle := results_take_add_le hop
    split at hf
    · have hnode : g.leaves + 1 + results (g.operators.take j) = node := Option.some.inj hf
      unfold leaves at hnode
      omega
    · cases hf
  simp only [listing?, hinputs, hfirst, hconstants, hfirsts, hoperators, Option.bind_eq_bind,
    Option.bind_some]
  exact ⟨_, rfl⟩

/-! ## Agreement -/

/-- The accessors of a graph answer, and number its nodes in the same way. -/
structure Numbering (g : Graph) (leaves nodes : Nat) (firsts : List (Option NodeId)) : Prop where
  /-- No operator is dropped. -/
  complete : g.operators.length = g.tags.size ∧
    ∀ j < g.tags.size, ∃ o, g.operator? j = some o ∧ g.operators[j]? = some o
  leafCount : g.leafCount? = some leaves ∧ leaves = g.dynamics + g.independents + g.constants.size
  nodeCount : g.nodeCount? = some nodes ∧ nodes = leaves + results g.operators
  firstResults : g.firstResults? = some firsts ∧ firsts.length = g.tags.size
  listing : ∃ text, g.listing? = some text
  /-- No difference on the way to a kind is negative. -/
  differences : ∀ id, g.checkedKind? id = some (g.nodeKind? id)
  inUse : ∀ id, (g.nodeKind? id).isSome ↔ 1 ≤ id ∧ id ≤ nodes
  injective : ∀ {a b kind}, g.nodeKind? a = some kind → g.nodeKind? b = some kind → a = b
  dynamic : ∀ {id i}, g.nodeKind? id = some (.dynamic i) ↔ i < g.dynamics ∧ id = 1 + i
  independent : ∀ {id i}, g.nodeKind? id = some (.independent i) ↔
    i < g.independents ∧ id = 1 + g.dynamics + i
  constant : ∀ {id i}, g.nodeKind? id = some (.constant i) ↔
    i < g.constants.size ∧ id = 1 + g.dynamics + g.independents + i
  result : ∀ {id j r}, g.nodeKind? id = some (.result j r) ↔
    ∃ o first, g.operator? j = some o ∧ firsts[j]? = some (some first) ∧ r < o.resultCount ∧
      id = first + r
  noResult : ∀ {j o}, g.operator? j = some o → (firsts[j]? = some none ↔ o.resultCount = 0)

/-- In a graph that passes the check, as one that is read from a document does, all
accessors answer and agree. -/
theorem numbering_of_check {g : Graph} (h : g.check = .ok () ∨ ∃ text, ofDocument text = .ok g) :
    ∃ leaves nodes firsts, g.Numbering leaves nodes firsts := by
  have hcheck : g.check = .ok () := h.elim id fun ⟨_, h⟩ => (Codec.ofDocument_eq_ok_iff.mp h).2
  obtain ⟨hflat, hlimit⟩ := check_eq_ok_iff.mp hcheck
  have hword : g.totalNodes + 1 < 1 <<< 64 := by
    have hlimit : g.totalNodes ≤ 1 <<< 32 - 1 := hlimit
    omega
  have htotal := g.totalNodes_eq
  obtain ⟨firsts, hfirsts, hget⟩ := firstResults?_eq hword
  have hlength : firsts.length = g.tags.size := by
    have hfirsts : firsts = g.operators.mapIdx fun j o =>
        if 0 < o.resultCount then some (g.leaves + 1 + results (g.operators.take j)) else none := by
      refine List.ext_getElem? fun j => ?_
      rw [hget, List.getElem?_mapIdx]
    rw [hfirsts, List.length_mapIdx, hflat.length_operators]
  refine ⟨g.leaves, g.totalNodes, firsts, ?_⟩
  constructor
  case complete =>
    refine ⟨hflat.length_operators, fun j hj => ?_⟩
    have ht := Array.getElem?_eq_getElem hj
    obtain ⟨start, hs⟩ := hflat.exists_start ht
    exact ⟨_, hflat.operator?_eq ht hs, (hflat.getElem?_operators j).trans (hflat.operator?_eq ht hs)⟩
  case leafCount => exact ⟨leafCount?_eq (by omega), rfl⟩
  case nodeCount => exact ⟨nodeCount?_eq (by omega), htotal⟩
  case firstResults => exact ⟨hfirsts, hlength⟩
  case listing => exact exists_listing hword
  case differences => exact g.checkedKind?_eq
  case inUse => exact fun id => nodeKind?_isSome_iff
  case injective =>
    intro a b kind ha hb
    exact (isNode_of_nodeKind? ha).unique (isNode_of_nodeKind? hb)
  case dynamic => simp [nodeKind?_eq_some_iff, isNode_iff]
  case independent => simp [nodeKind?_eq_some_iff, isNode_iff]
  case constant => simp [nodeKind?_eq_some_iff, isNode_iff]
  case result =>
    intro id j r
    rw [nodeKind?_eq_some_iff]
    constructor
    · intro h
      cases h with
      | @result _ _ o ho hr =>
        have hpos : 0 < o.resultCount := by omega
        refine ⟨o, _, (hflat.getElem?_operators j).symm.trans ho, ?_, hr, rfl⟩
        rw [hget, ho, Option.map_some, if_pos hpos]
    · rintro ⟨o, first, ho, hfirst, hr, rfl⟩
      have ho : g.operators[j]? = some o := (hflat.getElem?_operators j).trans ho
      have hpos : 0 < o.resultCount := by omega
      rw [hget, ho, Option.map_some, if_pos hpos] at hfirst
      cases hfirst
      exact .result ho hr
  case noResult =>
    intro j o ho
    have ho : g.operators[j]? = some o := (hflat.getElem?_operators j).trans ho
    rw [hget, ho, Option.map_some]
    by_cases hpos : 0 < o.resultCount
    · simp [hpos, Nat.ne_of_gt hpos]
    · simp [Nat.eq_zero_of_not_pos hpos]

/-- Operators with one result, none, several, and a call without any. -/
def mixed : Graph where
  name := "f"
  dynamics := 1
  independents := 2
  constants := #[⟨0x4004000000000000⟩]
  tags := #[.mul, .compLt, .atom, .atom4, .neg]
  starts := #[0, 2, 4, 8, 12]
  args := #[1, 4, 2, 5, 0, 2, 1, 5, 0, 7, 0, 0, 7]
  atomicNames := #["foo"]
  discreteNames := #[]
  dependents := #[8]

theorem numbering_of_check_mixed :
    mixed.check = .ok () ∧ mixed.nodeKind? 7 = some (.result 2 1) ∧
      ∃ leaves nodes firsts, mixed.Numbering leaves nodes firsts := by
  have hcheck : mixed.check = .ok () := by decide +kernel
  exact ⟨hcheck, by decide +kernel, numbering_of_check (.inl hcheck)⟩

end Graph
end SsaGraph

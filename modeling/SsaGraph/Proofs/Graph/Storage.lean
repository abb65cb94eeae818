import Mathlib.Data.List.Nodup
import SsaGraph.Graph

/-!
What a graph stores.  Tags, starts and arguments of operators stand in three
arrays, and `operators` cuts them back into a list.  As long as the starts are in
order and in range, which is `Flat`, no operator is lost in the cut, a new tag
appends an operator without arguments, and a new argument goes to the last
operator.  A name that is interned gets an index that names it from then on.
-/

namespace SsaGraph
namespace Graph

/-- One start for each operator, in order and within the arguments. -/
structure Flat (g : Graph) : Prop where
  size : g.starts.size = g.tags.size
  sorted : g.starts.toList.Pairwise (· ≤ ·)
  bounded : ∀ start ∈ g.starts.toList, start ≤ g.args.size

theorem badOffset?_eq_none_iff {size previous : Nat} {starts : List Nat} :
    badOffset? size previous starts = none ↔
      (previous :: starts).Pairwise (· ≤ ·) ∧ ∀ start ∈ starts, start ≤ size := by
  induction starts generalizing previous with
  | nil => simp [badOffset?]
  | cons start rest ih =>
    by_cases h : start < previous ∨ size < start
    · rw [badOffset?, if_pos h]
      simp only [List.pairwise_cons, List.mem_cons, forall_eq_or_imp]
      constructor
      · intro e; cases e
      · intro e; omega
    · rw [badOffset?, if_neg h, ih]
      simp only [List.pairwise_cons, List.mem_cons, forall_eq_or_imp]
      constructor
      · rintro ⟨⟨hstart, hrest⟩, hsize⟩
        refine ⟨⟨⟨by omega, fun b hb => ?_⟩, hstart, hrest⟩, by omega, hsize⟩
        have := hstart b hb
        omega
      · rintro ⟨⟨_, hstart, hrest⟩, _, hsize⟩
        exact ⟨⟨hstart, hrest⟩, hsize⟩

/-- The check accepts exactly the flat graphs within the node limit. -/
theorem check_eq_ok_iff {g : Graph} :
    g.check = .ok () ↔ g.Flat ∧ g.totalNodes ≤ maxNode := by
  by_cases hsize : g.starts.size = g.tags.size
  · rw [check, if_neg (not_not_intro hsize)]
    cases hbad : badOffset? g.args.size 0 g.starts.toList with
    | some start =>
      refine ⟨fun h => (nomatch h), fun h => ?_⟩
      have hnone : badOffset? g.args.size 0 g.starts.toList = none :=
        badOffset?_eq_none_iff.mpr
          ⟨List.pairwise_cons.mpr ⟨fun _ _ => Nat.zero_le _, h.1.sorted⟩, h.1.bounded⟩
      rw [hnone] at hbad
      cases hbad
    | none =>
      have hflat := badOffset?_eq_none_iff.mp hbad
      by_cases hmax : g.totalNodes ≤ maxNode
      · simp only [hmax, if_true]
        exact ⟨fun _ => ⟨⟨hsize, (List.pairwise_cons.mp hflat.1).2, hflat.2⟩, trivial⟩,
          fun _ => trivial⟩
      · simp only [hmax, if_false]
        exact ⟨fun h => (nomatch h), fun h => h.2.elim⟩
  · rw [check, if_pos hsize]
    exact ⟨fun h => (nomatch h), fun h => absurd h.1.size hsize⟩

/-! ## Cutting -/

/-- Where the arguments of an operator end. -/
def stop (g : Graph) (index : Nat) : Nat := (g.starts[index + 1]?).getD g.args.size

namespace Flat

variable {g : Graph} (h : g.Flat)
include h

theorem start_le {index start : Nat} (hs : g.starts[index]? = some start) :
    start ≤ g.stop index ∧ g.stop index ≤ g.args.size := by
  have hmem : start ∈ g.starts.toList := Array.mem_toList_iff.mpr (Array.mem_of_getElem? hs)
  have hle := h.bounded start hmem
  unfold stop
  cases hn : g.starts[index + 1]? with
  | none => exact ⟨hle, Nat.le_refl _⟩
  | some next =>
    have hnext : next ∈ g.starts.toList := Array.mem_toList_iff.mpr (Array.mem_of_getElem? hn)
    refine ⟨?_, h.bounded next hnext⟩
    rw [← Array.getElem?_toList] at hs hn
    obtain ⟨hi, rfl⟩ := List.getElem?_eq_some_iff.mp hs
    obtain ⟨hj, rfl⟩ := List.getElem?_eq_some_iff.mp hn
    exact List.pairwise_iff_getElem.mp h.sorted index (index + 1) hi hj (Nat.lt_succ_self index)

/-- Every operator is there, with the arguments between its start and its
stop. -/
theorem operator?_eq {index start : Nat} {op : Op} (ht : g.tags[index]? = some op)
    (hs : g.starts[index]? = some start) :
    g.operator? index = some ⟨op, (g.args.extract start (g.stop index)).toList⟩ := by
  have hslice : slice? g.args start (g.stop index) =
      some (g.args.extract start (g.stop index)).toList := if_pos (h.start_le hs)
  simp only [operator?, ht, hs, Option.bind_eq_bind, Option.bind_some]
  rw [show (g.starts[index + 1]?).getD g.args.size = g.stop index from rfl, hslice]
  rfl

theorem exists_start {index : Nat} {op : Op} (ht : g.tags[index]? = some op) :
    ∃ start, g.starts[index]? = some start := by
  obtain ⟨hi, _⟩ := Array.getElem?_eq_some_iff.mp ht
  rw [← h.size] at hi
  exact ⟨_, Array.getElem?_eq_getElem hi⟩

/-- Operators as a list and operators by index agree, so none is dropped. -/
theorem getElem?_operators (index : Nat) : g.operators[index]? = g.operator? index := by
  have hmap : g.operators =
      (List.range g.tags.size).map fun i => (g.operator? i).getD ⟨.abs, []⟩ := by
    unfold operators
    rw [← List.filterMap_eq_map']
    refine List.filterMap_congr fun i hi => ?_
    have ht : g.tags[i]? = some _ := Array.getElem?_eq_getElem (List.mem_range.mp hi)
    obtain ⟨start, hs⟩ := h.exists_start ht
    rw [h.operator?_eq ht hs]
    rfl
  rw [hmap, List.getElem?_map]
  by_cases hi : index < g.tags.size
  · have ht := Array.getElem?_eq_getElem hi
    obtain ⟨start, hs⟩ := h.exists_start ht
    rw [List.getElem?_range hi, Option.map_some, h.operator?_eq ht hs]
    rfl
  · have hnone : g.tags[index]? = none := Array.getElem?_eq_none (Nat.le_of_not_lt hi)
    rw [List.getElem?_eq_none (by simpa using hi)]
    simp [operator?, hnone]

theorem length_operators : g.operators.length = g.tags.size := by
  refine Nat.le_antisymm ?_ ?_
  · exact Nat.le_trans (List.length_filterMap_le _ _) (by simp)
  · refine Nat.le_of_not_lt fun hlt => ?_
    have ht := Array.getElem?_eq_getElem hlt
    obtain ⟨start, hs⟩ := h.exists_start ht
    have hop := h.getElem?_operators g.operators.length
    rw [h.operator?_eq ht hs, List.getElem?_eq_none (Nat.le_refl _)] at hop
    cases hop

end Flat

/-! ## Appending -/

theorem flat_pushTag {g : Graph} (h : g.Flat) (op : Op) : (g.pushTag op).Flat where
  size := by simp [pushTag, h.size]
  sorted := by
    simp only [pushTag, Array.toList_push]
    refine List.pairwise_append.mpr ⟨h.sorted, List.pairwise_singleton _ _, ?_⟩
    intro start hs size hsize
    rw [List.mem_singleton.mp hsize]
    exact h.bounded start hs
  bounded := by
    intro start hs
    simp only [pushTag, Array.toList_push, List.mem_append, List.mem_singleton] at hs ⊢
    rcases hs with hs | rfl
    · exact h.bounded start hs
    · exact Nat.le_refl _

theorem flat_pushArg {g : Graph} (h : g.Flat) (arg : Nat) : (g.pushArg arg).Flat where
  size := h.size
  sorted := h.sorted
  bounded := by
    intro start hs
    have := h.bounded start hs
    simp only [pushArg, Array.size_push]
    omega

theorem operators_pushTag {g : Graph} (h : g.Flat) (op : Op) :
    (g.pushTag op).operators = g.operators ++ [⟨op, []⟩] := by
  refine List.ext_getElem? fun index => ?_
  rw [(flat_pushTag h op).getElem?_operators]
  rcases Nat.lt_trichotomy index g.tags.size with hlt | rfl | hgt
  · have ht := Array.getElem?_eq_getElem hlt
    obtain ⟨start, hs⟩ := h.exists_start ht
    have ht' : (g.pushTag op).tags[index]? = some g.tags[index] := by
      simp [pushTag, Array.getElem?_push, Nat.ne_of_lt hlt, ht]
    have hs' : (g.pushTag op).starts[index]? = some start := by
      simp [pushTag, Array.getElem?_push, h.size, Nat.ne_of_lt hlt, hs]
    -- The new start is where the arguments ended before.
    have hstop : (g.pushTag op).stop index = g.stop index := by
      simp only [stop, pushTag, Array.getElem?_push]
      by_cases hn : index + 1 = g.starts.size
      · simp [hn]
      · simp [hn]
    rw [(flat_pushTag h op).operator?_eq ht' hs', hstop,
      List.getElem?_append_left (by rw [h.length_operators]; exact hlt), h.getElem?_operators,
      h.operator?_eq ht hs]
    rfl
  · have ht' : (g.pushTag op).tags[g.tags.size]? = some op := by simp [pushTag]
    have hs' : (g.pushTag op).starts[g.tags.size]? = some g.args.size := by
      rw [← h.size, pushTag, Array.getElem?_push_size]
    have hstop : (g.pushTag op).stop g.tags.size = g.args.size := by
      simp only [stop, pushTag]
      rw [Array.getElem?_eq_none (by simp [h.size])]
      rfl
    rw [(flat_pushTag h op).operator?_eq ht' hs', hstop, ← h.length_operators,
      List.getElem?_concat_length]
    simp
  · have hnone : (g.pushTag op).tags[index]? = none := by
      refine Array.getElem?_eq_none ?_
      simp only [pushTag, Array.size_push]
      omega
    rw [List.getElem?_eq_none (by simp [h.length_operators]; omega)]
    simp [operator?, hnone]

theorem operators_pushArg {g : Graph} (h : g.Flat) {os : List Operator} {op : Op}
    {args : List Nat} (hos : g.operators = os ++ [⟨op, args⟩]) (arg : Nat) :
    (g.pushArg arg).operators = os ++ [⟨op, args ++ [arg]⟩] := by
  have hlen : g.tags.size = os.length + 1 := by rw [← h.length_operators, hos]; simp
  refine List.ext_getElem? fun index => ?_
  rw [(flat_pushArg h arg).getElem?_operators]
  by_cases hi : index < g.tags.size
  · have ht := Array.getElem?_eq_getElem hi
    obtain ⟨start, hs⟩ := h.exists_start ht
    have hle := h.start_le hs
    have hold := h.getElem?_operators index
    rw [h.operator?_eq ht hs, hos] at hold
    rw [(flat_pushArg h arg).operator?_eq (g := g.pushArg arg) ht hs]
    by_cases hn : index + 1 < g.tags.size
    · have hstop : (g.pushArg arg).stop index = g.stop index := by
        obtain ⟨next, hnext⟩ := h.exists_start (Array.getElem?_eq_getElem hn)
        simp [stop, pushArg, hnext]
      rw [List.getElem?_append_left (by omega)] at hold ⊢
      rw [hold, hstop]
      simp only [pushArg, Array.extract_push_of_le hle.2]
    · have hidx : index = os.length := by omega
      have hend : g.starts[index + 1]? = none := Array.getElem?_eq_none (by rw [h.size]; omega)
      have hstop : g.stop index = g.args.size := by simp [stop, hend]
      have hstop' : (g.pushArg arg).stop index = g.args.size + 1 := by
        simp [stop, pushArg, hend]
      subst hidx
      rw [List.getElem?_concat_length, hstop] at hold
      rw [List.getElem?_concat_length, hstop']
      injection hold with hold
      injection hold with hop hargs
      rw [hop, hargs]
      have hcut : (g.args.push arg).extract start (g.args.size + 1) =
          (g.args.extract start g.args.size).push arg := by
        rw [Array.extract_push, if_neg (by omega), if_pos (by omega)]
      simp only [pushArg, hcut, Array.toList_push]
  · have hnone : (g.pushArg arg).tags[index]? = none :=
      Array.getElem?_eq_none (Nat.le_of_not_lt hi)
    rw [List.getElem?_eq_none (by simp; omega)]
    simp [operator?, hnone]

/-- Arguments appended one by one all go to the last operator. -/
theorem operators_foldl_pushArg {g : Graph} (h : g.Flat) {os : List Operator} {op : Op}
    {before : List Nat} (hos : g.operators = os ++ [⟨op, before⟩]) (args : List Nat) :
    (args.foldl pushArg g).Flat ∧
      (args.foldl pushArg g).operators = os ++ [⟨op, before ++ args⟩] := by
  induction args generalizing g before with
  | nil => simpa using ⟨h, hos⟩
  | cons arg rest ih =>
    have hnext := ih (flat_pushArg h arg) (operators_pushArg h hos arg)
    simpa using hnext

theorem flat_pushOperator {g : Graph} (h : g.Flat) (op : Op) (args : List Nat) :
    (g.pushOperator op args).Flat :=
  (operators_foldl_pushArg (flat_pushTag h op) (operators_pushTag h op) args).1

theorem operators_pushOperator {g : Graph} (h : g.Flat) (op : Op) (args : List Nat) :
    (g.pushOperator op args).operators = g.operators ++ [⟨op, args⟩] :=
  (operators_foldl_pushArg (flat_pushTag h op) (operators_pushTag h op) args).2

/-- Appending arguments changes nothing but the arguments. -/
theorem foldl_pushArg_eq (g : Graph) (args : List Nat) :
    args.foldl pushArg g = { g with args := (args.foldl pushArg g).args } := by
  induction args generalizing g with
  | nil => rfl
  | cons arg rest ih => exact ih (g.pushArg arg)

section
variable (g : Graph) (op : Op) (args : List Nat)

@[simp] theorem pushOperator_name : (g.pushOperator op args).name = g.name := by
  rw [pushOperator, foldl_pushArg_eq]; rfl

@[simp] theorem pushOperator_dynamics : (g.pushOperator op args).dynamics = g.dynamics := by
  rw [pushOperator, foldl_pushArg_eq]; rfl

@[simp] theorem pushOperator_independents :
    (g.pushOperator op args).independents = g.independents := by
  rw [pushOperator, foldl_pushArg_eq]; rfl

@[simp] theorem pushOperator_constants : (g.pushOperator op args).constants = g.constants := by
  rw [pushOperator, foldl_pushArg_eq]; rfl

@[simp] theorem pushOperator_atomicNames :
    (g.pushOperator op args).atomicNames = g.atomicNames := by
  rw [pushOperator, foldl_pushArg_eq]; rfl

@[simp] theorem pushOperator_discreteNames :
    (g.pushOperator op args).discreteNames = g.discreteNames := by
  rw [pushOperator, foldl_pushArg_eq]; rfl

@[simp] theorem pushOperator_dependents : (g.pushOperator op args).dependents = g.dependents := by
  rw [pushOperator, foldl_pushArg_eq]; rfl

end

/-! ## Names -/

/-- Both tables of names grow in this way. -/
def internName (names : Array String) (name : String) : Array String × Nat :=
  match names.idxOf? name with
  | some i => (names, i)
  | none => (names.push name, names.size)

theorem internAtomic_eq (g : Graph) (name : String) :
    g.internAtomic name =
      ({ g with atomicNames := (internName g.atomicNames name).1 },
        (internName g.atomicNames name).2) := by
  unfold internAtomic internName
  cases g.atomicNames.idxOf? name <;> rfl

theorem internDiscrete_eq (g : Graph) (name : String) :
    g.internDiscrete name =
      ({ g with discreteNames := (internName g.discreteNames name).1 },
        (internName g.discreteNames name).2) := by
  unfold internDiscrete internName
  cases g.discreteNames.idxOf? name <;> rfl

theorem operators_internAtomic (g : Graph) (name : String) :
    (g.internAtomic name).1.operators = g.operators := by
  rw [internAtomic_eq]
  rfl

theorem operators_internDiscrete (g : Graph) (name : String) :
    (g.internDiscrete name).1.operators = g.operators := by
  rw [internDiscrete_eq]
  rfl

theorem internName_getElem? (names : Array String) (name : String) :
    (internName names name).1[(internName names name).2]? = some name := by
  unfold internName
  cases h : names.idxOf? name with
  | none => simp
  | some i =>
    obtain ⟨names⟩ := names
    rw [List.idxOf?_toArray] at h
    obtain ⟨hi, hname, _⟩ := List.idxOf?_eq_some_iff.mp h
    rw [List.getElem?_toArray, List.getElem?_eq_getElem hi, hname]

/-- The index of a name does not change when another name is interned. -/
theorem internName_of_getElem? {names : Array String} {i : Nat} {old : String}
    (h : names[i]? = some old) (name : String) : (internName names name).1[i]? = some old := by
  unfold internName
  cases names.idxOf? name with
  | none =>
    obtain ⟨hi, hold⟩ := Array.getElem?_eq_some_iff.mp h
    rw [Array.getElem?_push_lt hi, hold]
  | some _ => exact h

theorem internName_nodup {names : Array String} (h : names.toList.Nodup) (name : String) :
    (internName names name).1.toList.Nodup := by
  unfold internName
  cases hi : names.idxOf? name with
  | none =>
    have hnew : name ∉ names := Array.idxOf?_eq_none_iff.mp hi
    rw [Array.toList_push, List.nodup_append]
    refine ⟨h, List.nodup_singleton name, ?_⟩
    intro old hold new hmem
    rw [List.mem_singleton.mp hmem]
    rintro rfl
    exact hnew (Array.mem_toList_iff.mp hold)
  | some _ => exact h

end Graph
end SsaGraph

import SsaGraph.Predicate
import SsaGraph.Proofs.Graph.Storage

/-!
What a graph computes.

`Graph.eval?` gives every node a value, in node order: the leaves first, then the
results of each operator from the values in front of it.  Values are of any type and
operators are not interpreted here: an `Interpretation` says what each operator, each
discrete and atomic function and each comparison stands for.  A graph whose operators
look at nodes or names that are not there has no value.

Two facts carry the use of this evaluation during a lowering.  Appending an operator
appends its results (`eval?_pushOperator`), and interning a name changes nothing
(`eval?_internAtomic`, `eval?_internDiscrete`).
-/

namespace SsaGraph

/-- What the operations stand for, over values of type `α`. -/
structure Interpretation (α : Type) where
  constant : Binary64 → α
  operator : Op → List α → α
  discrete : String → α → α
  /-- Result `k` of the `n` results of an atomic function, as `atomic name n args k`. -/
  atomic : String → Nat → List α → Nat → α
  holds : FloatPredicate → α → α → Bool

/-- The comparison that a conditional expression decides by. -/
def Op.condition? : Op → Option FloatPredicate
  | cexpEq => some .oeq
  | cexpLe => some .ole
  | cexpLt => some .olt
  | _ => none

variable {α : Type}

/-- The value of a node, when the first nodes have the given values. -/
def nodeAt (nodes : List α) (n : Nat) : Option α := if n = 0 then none else nodes[n - 1]?

theorem nodeAt_append {nodes : List α} {n : Nat} {a : α} (h : nodeAt nodes n = some a)
    (more : List α) : nodeAt (nodes ++ more) n = some a := by
  unfold nodeAt at h ⊢
  split at h
  · cases h
  next hn =>
    obtain ⟨hlt, _⟩ := List.getElem?_eq_some_iff.mp h
    rw [if_neg hn, List.getElem?_append_left hlt, h]

theorem nodeAt_length_add (nodes more : List α) (k : Nat) :
    nodeAt (nodes ++ more) (nodes.length + 1 + k) = more[k]? := by
  unfold nodeAt
  rw [if_neg (by omega), show nodes.length + 1 + k - 1 = nodes.length + k by omega,
    List.getElem?_append_right (Nat.le_add_right _ _), Nat.add_sub_cancel_left]

/-- The results of an operator, from the values in front of it. -/
def Operator.results? (I : Interpretation α) (atomicNames discreteNames : Array String)
    (nodes : List α) (o : Operator) : Option (List α) := do
  let args ← o.nodes.mapM (nodeAt nodes)
  match o.op with
  | .compEq | .compLe | .compLt | .compNe | .print => some []
  | .cexpEq | .cexpLe | .cexpLt =>
    match o.op.condition?, args with
    | some p, [left, right, yes, no] => some [if I.holds p left right then yes else no]
    | _, _ => none
  | .discrete =>
    let name ← (o.args[0]?).bind (discreteNames[·]?)
    match args with
    | [a] => some [I.discrete name a]
    | _ => none
  | .atom =>
    let name ← (o.args[0]?).bind (atomicNames[·]?)
    let n ← o.args[1]?
    some ((List.range n).map (I.atomic name n args))
  | .atom4 =>
    let name ← (o.args[0]?).bind (atomicNames[·]?)
    let n ← o.args[2]?
    some ((List.range n).map (I.atomic name n args))
  | op => some [I.operator op args]

namespace Graph

/-- The values of the dynamic parameters, the independent variables and the
constants, when the inputs are `x 0`, `x 1` and so on. -/
def leafValues (g : Graph) (I : Interpretation α) (x : Nat → α) : List α :=
  (List.range (g.dynamics + g.independents)).map x ++ g.constants.toList.map I.constant

/-- The values of all nodes.  Node `n` has the value at position `n - 1`. -/
def eval? (g : Graph) (I : Interpretation α) (x : Nat → α) : Option (List α) :=
  g.operators.foldlM
    (fun nodes o => (o.results? I g.atomicNames g.discreteNames nodes).map (nodes ++ ·))
    (g.leafValues I x)

variable {I : Interpretation α} {x : Nat → α} {g : Graph} {nodes : List α}

theorem eval?_pushOperator (hflat : g.Flat) (h : g.eval? I x = some nodes) {op : Op}
    {args : List Nat} {rs : List α}
    (hrs : Operator.results? I g.atomicNames g.discreteNames nodes ⟨op, args⟩ = some rs) :
    (g.pushOperator op args).eval? I x = some (nodes ++ rs) := by
  have hleaves : (g.pushOperator op args).leafValues I x = g.leafValues I x := by
    simp [leafValues]
  unfold eval? at h ⊢
  rw [operators_pushOperator hflat, hleaves, pushOperator_atomicNames, pushOperator_discreteNames,
    List.foldlM_append, h]
  simp [hrs]

/-! ## Names -/

/-- The second table has all names of the first one, with their indices. -/
def KeepsNames (old new : Array String) : Prop :=
  ∀ (i : Nat) (name : String), old[i]? = some name → new[i]? = some name

theorem keepsNames_internName (names : Array String) (name : String) :
    KeepsNames names (internName names name).1 :=
  fun _ _ h => internName_of_getElem? h name

theorem KeepsNames.bind {old new : Array String} (h : KeepsNames old new) {i : Option Nat}
    {name : String} (hi : i.bind (old[·]?) = some name) : i.bind (new[·]?) = some name := by
  obtain ⟨k, rfl, hk⟩ := Option.bind_eq_some_iff.mp hi
  exact h k name hk

/-- An operator that has results has the same ones when there are more names. -/
theorem results?_of_keepsNames {atomics atomics' discretes discretes' : Array String}
    (ha : KeepsNames atomics atomics') (hd : KeepsNames discretes discretes') {o : Operator}
    {rs : List α} (h : o.results? I atomics discretes nodes = some rs) :
    o.results? I atomics' discretes' nodes = some rs := by
  obtain ⟨op, args⟩ := o
  unfold Operator.results? at h ⊢
  obtain ⟨values, hvalues, h⟩ := Option.bind_eq_some_iff.mp h
  refine Option.bind_eq_some_iff.mpr ⟨values, hvalues, ?_⟩
  cases op with
  | discrete =>
    obtain ⟨name, hname, h⟩ := Option.bind_eq_some_iff.mp h
    exact Option.bind_eq_some_iff.mpr ⟨name, hd.bind hname, h⟩
  | atom | atom4 =>
    obtain ⟨name, hname, h⟩ := Option.bind_eq_some_iff.mp h
    exact Option.bind_eq_some_iff.mpr ⟨name, ha.bind hname, h⟩
  | _ => exact h

theorem eval?_of_keepsNames {atomics discretes : Array String}
    (ha : KeepsNames g.atomicNames atomics) (hd : KeepsNames g.discreteNames discretes)
    (h : g.eval? I x = some nodes) :
    { g with atomicNames := atomics, discreteNames := discretes }.eval? I x = some nodes := by
  unfold eval? at h ⊢
  show g.operators.foldlM _ (g.leafValues I x) = some nodes
  generalize g.leafValues I x = leaves at h ⊢
  generalize g.operators = os at h ⊢
  induction os generalizing leaves with
  | nil => exact h
  | cons o rest ih =>
    rw [List.foldlM_cons] at h ⊢
    obtain ⟨next, hnext, h⟩ := Option.bind_eq_some_iff.mp h
    obtain ⟨rs, hrs, hadd⟩ := Option.map_eq_some_iff.mp hnext
    refine Option.bind_eq_some_iff.mpr ⟨next, Option.map_eq_some_iff.mpr ⟨rs, ?_, hadd⟩, ih next h⟩
    exact results?_of_keepsNames ha hd hrs

theorem eval?_internAtomic (name : String) (h : g.eval? I x = some nodes) :
    (g.internAtomic name).1.eval? I x = some nodes := by
  rw [internAtomic_eq]
  exact eval?_of_keepsNames (keepsNames_internName g.atomicNames name) (fun _ _ hi => hi) h

theorem eval?_internDiscrete (name : String) (h : g.eval? I x = some nodes) :
    (g.internDiscrete name).1.eval? I x = some nodes := by
  rw [internDiscrete_eq]
  exact eval?_of_keepsNames (fun _ _ hi => hi) (keepsNames_internName g.discreteNames name) h

/-! ## Leaves -/

theorem nodeAt_input {k : Nat} (h : k < g.dynamics + g.independents) :
    nodeAt (g.leafValues I x) (1 + k) = some (x k) := by
  unfold nodeAt leafValues
  rw [if_neg (by omega), Nat.add_sub_cancel_left, List.getElem?_append_left (by simpa using h)]
  simp [h]

theorem nodeAt_constant {k : Nat} {b : Binary64} (h : g.constants[k]? = some b) :
    nodeAt (g.leafValues I x) (1 + (g.dynamics + g.independents) + k) = some (I.constant b) := by
  unfold nodeAt leafValues
  rw [if_neg (by omega), Nat.add_assoc, Nat.add_sub_cancel_left,
    List.getElem?_append_right (by simp), List.length_map, List.length_range,
    Nat.add_sub_cancel_left, List.getElem?_map, Array.getElem?_toList, h]
  rfl

theorem length_leafValues (g : Graph) (I : Interpretation α) (x : Nat → α) :
    (g.leafValues I x).length = g.dynamics + g.independents + g.constants.size := by
  simp [leafValues]

end Graph
end SsaGraph

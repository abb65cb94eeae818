import Mathlib.Data.Nat.Basic
import Mathlib.Order.Lattice
import SsaGraph.Proofs.Lowering.Arity
import SsaGraph.Proofs.Lowering.ResultBuffer
import SsaGraph.Proofs.Meaning.Agreement
import SsaGraph.Proofs.Program.Arena
import SsaGraph.Proofs.Program.Origin

/-!
What comparisons leave in a graph.

A comparison emits nothing where it stands.  It is remembered under its result, and each
operand of a `zext` or an `or` that is such a result becomes an operator on the nodes of
the compared values, in swapped order.  Numbers in a linear order are never unordered, so
the operator holds exactly when the comparison does not (`Comparison.holds_recording_iff`).
The remembered comparisons are those in front of an instruction (`comparisons_before`),
which makes the operators of a graph that record something the list of the combined tests
(`recorded_before`).
-/

namespace SsaGraph

/-! ## Conditions -/

section
variable {α : Type*} [LinearOrder α]

/-- A predicate of two numbers, neither of which is unordered. -/
def FloatPredicate.Holds : FloatPredicate → α → α → Prop
  | never, _, _ | uno, _, _ => False
  | always, _, _ | ord, _, _ => True
  | oeq, a, b | ueq, a, b => a = b
  | one, a, b | une, a, b => a ≠ b
  | olt, a, b | ult, a, b => a < b
  | ole, a, b | ule, a, b => a ≤ b
  | ogt, a, b | ugt, a, b => b < a
  | oge, a, b | uge, a, b => b ≤ a

/-- The condition that an operator records about two numbers. -/
def Op.Holds : Op → α → α → Prop
  | compEq, a, b => a = b
  | compNe, a, b => a ≠ b
  | compLt, a, b => a < b
  | compLe, a, b => a ≤ b
  | _, _, _ => False

/-- A comparison is recorded by the operator that holds when it does not. -/
theorem Comparison.holds_recording_iff {d : Comparison} {op : Op} (h : d.recording? = some op) :
    op.isComparison = true ∧ ∃ p, d.predicate = .float p ∧
      ∀ a b : α, op.Holds b a ↔ ¬ p.Holds a b := by
  unfold recording? at h
  split at h <;> cases h
  next hp => exact ⟨rfl, _, hp, fun a b => eq_comm.trans not_not.symm⟩
  next hp => exact ⟨rfl, _, hp, fun a b => not_lt.symm⟩
  next hp => exact ⟨rfl, _, hp, fun a b => not_le.symm⟩
  next hp => exact ⟨rfl, _, hp, fun a b => ne_comm⟩

end

namespace Op

theorem isComparison_of_binaryOp? {opcode : Opcode} {op : Op}
    (h : Lowering.binaryOp? opcode = some op) : op.isComparison = false := by
  unfold Lowering.binaryOp? at h
  split at h <;> cases h <;> rfl

theorem isComparison_of_selecting? {d : Comparison} {op : Op} (h : d.selecting? = some op) :
    op.isComparison = false := by
  unfold Comparison.selecting? at h
  split at h <;> cases h <;> rfl

/-- No call reaches an operator that records something. -/
theorem isComparison_of_ofCallee? {name : String} {op : Op} (h : ofCallee? name = some op) :
    op.isComparison = false := by
  have hcallee := callee?_of_ofCallee? h
  cases op <;> first | rfl | cases hcallee

theorem resultCount_of_isComparison {op : Op} (h : op.isComparison = true) (args : List Nat) :
    op.resultCount args = 0 := by
  cases op <;> first | rfl | cases h

end Op

/-- The operators that record a condition, in order. -/
def Graph.recorded (g : Graph) : List Operator := g.operators.filter (·.op.isComparison)

theorem Graph.recorded_pushOperator {g : Graph} (hflat : g.Flat) (op : Op) (args : List Nat) :
    (g.pushOperator op args).recorded =
      g.recorded ++ if op.isComparison then [⟨op, args⟩] else [] := by
  rw [recorded, operators_pushOperator hflat, List.filter_append]
  cases h : op.isComparison <;> simp [recorded, h]

theorem Graph.recorded_pushOperator_of_not {g : Graph} (hflat : g.Flat) {op : Op}
    (h : op.isComparison = false) (args : List Nat) :
    (g.pushOperator op args).recorded = g.recorded := by
  rw [recorded_pushOperator hflat, h]
  exact List.append_nil _

/-! ## One instruction -/

namespace Lowering

variable {f : Func} {s t : Lowering} {i : Instruction}

/-- Only the result of an instruction gets a node. -/
theorem values_of_lowered (h : Lowered f s i t) {v : Handle} (hv : i.result ≠ some v) :
    t.bindings.values.get? v = s.bindings.values.get? v := by
  have hbind : ∀ {w : Handle} (n : NodeId), i.result = some w →
      (s.bindings.bindValue w n).values.get? v = s.bindings.values.get? v := by
    intro w n hw
    apply Table.get?_insert_of_ne
    exact fun he => hv (he ▸ hw)
  cases h with
  | load _ _ _ _ hw | binary _ _ _ _ hw | negate _ _ _ _ hw | select _ _ _ _ _ _ hw
  | math _ _ _ _ _ _ _ _ hw | discrete _ _ _ _ _ _ hw => exact hbind _ hw
  | extend _ _ _ ht | combine _ _ ht => rw [recordOperands_frame ht]
  | _ => rfl

/-- A comparison is remembered under its result, and nothing else is. -/
theorem comparisons_of_lowered (h : Lowered f s i t) :
    (i.opcode ≠ .fcmp ∧ i.opcode ≠ .icmp ∧ t.comparisons = s.comparisons) ∨
    ∃ v d, (i.opcode = .fcmp ∨ i.opcode = .icmp) ∧ i.operands = [d.left, d.right] ∧
      i.predicate = some d.predicate ∧ i.result = some v ∧
      t.comparisons = s.comparisons.insert v d := by
  cases h with
  | @compare left right v p hop hargs _ hpred hv =>
    exact .inr ⟨v, ⟨p, left, right⟩, hop, hargs, hpred, hv, rfl⟩
  | extend hop _ _ ht | combine hop _ ht =>
    rw [recordOperands_frame ht, hop]
    exact .inl ⟨Opcode.noConfusion, Opcode.noConfusion, rfl⟩
  | binary hop =>
    refine .inl ⟨?_, ?_, rfl⟩ <;> intro he <;> rw [he] at hop <;> cases hop
  | alloca hop | load hop | element hop | pointer hop | message hop | store hop | negate hop
  | selectCode hop | select hop | math hop | discrete hop | atomic hop | branch hop | ret hop =>
    rw [hop]
    exact .inl ⟨Opcode.noConfusion, Opcode.noConfusion, rfl⟩

/-- `zext` and `or` record their operands, one after the other. -/
theorem operands_of_combining (hop : i.opcode = .zext ∨ i.opcode = .or) (h : Lowered f s i t) :
    i.operands.foldlM (recordOperand f) s = .ok t ∨
      i.operands.foldlM (recordOperand f) { s with extended := true } = .ok t := by
  cases h with
  | extend _ _ _ ht => exact .inr ht
  | combine _ _ ht => exact .inl ht
  | binary hop' => rcases hop with hop | hop <;> rw [hop] at hop' <;> cases hop'
  | compare hop' =>
    rcases hop with hop | hop <;> rcases hop' with hop' | hop' <;> rw [hop] at hop' <;> cases hop'
  | alloca hop' | load hop' | element hop' | pointer hop' | message hop' | store hop' | negate hop'
  | selectCode hop' | select hop' | math hop' | discrete hop' | atomic hop' | branch hop' | ret hop' =>
    rcases hop with hop | hop <;> rw [hop] at hop' <;> cases hop'

/-- Instructions other than `zext` and `or` record nothing. -/
theorem recorded_of_lowered (hflat : s.graph.Flat) (h : Lowered f s i t) (hzext : i.opcode ≠ .zext)
    (hor : i.opcode ≠ .or) : t.graph.recorded = s.graph.recorded := by
  cases h with
  | extend hop => exact absurd hop hzext
  | combine hop => exact absurd hop hor
  | binary hop => exact Graph.recorded_pushOperator_of_not hflat (Op.isComparison_of_binaryOp? hop) _
  | negate => exact Graph.recorded_pushOperator_of_not hflat rfl _
  | select _ _ _ hsel =>
    exact Graph.recorded_pushOperator_of_not hflat (Op.isComparison_of_selecting? hsel) _
  | math _ _ _ _ _ _ hcallee =>
    exact Graph.recorded_pushOperator_of_not hflat (Op.isComparison_of_ofCallee? hcallee) _
  | @discrete _ _ _ _ rest =>
    have hname := (Graph.grown_internDiscrete hflat rest).flat
    refine (Graph.recorded_pushOperator_of_not hname rfl _).trans ?_
    rw [Graph.internDiscrete_eq]
    rfl
  | @atomic _ _ _ _ _ _ _ _ rest =>
    have hname := (Graph.grown_internAtomic hflat rest).flat
    refine (Graph.recorded_pushOperator_of_not hname rfl _).trans ?_
    rw [Graph.internAtomic_eq]
    rfl
  | _ => rfl

end Lowering

/-! ## Tests -/

namespace Func

open Lowering

/-- Comparison `d` stands in front of instruction number `index` and has result `v`. -/
def Compares (f : Func) (index : Nat) (v : Handle) (d : Comparison) : Prop :=
  ∃ k < index, ∃ i, f.instructions[k]? = some i ∧ (i.opcode = .fcmp ∨ i.opcode = .icmp) ∧
    i.operands = [d.left, d.right] ∧ i.predicate = some d.predicate ∧ i.result = some v

/-- Instruction number `k` is an `fcmp` with result `v`. -/
def isTest (f : Func) (v : Handle) (k : Nat) : Bool :=
  (f.instructions[k]?).any fun i => i.opcode = .fcmp ∧ i.result = some v

/-- The `fcmp` in front of instruction number `index` that has result `v`. -/
def testBefore? (f : Func) (index : Nat) (v : Handle) : Option Nat :=
  (List.range index).find? (f.isTest v)

/-- The tests that an instruction combines into a return code, in the order of its
operands. -/
def testsAt (f : Func) (index : Nat) : List Nat :=
  match f.instructions[index]? with
  | some i =>
    if i.opcode = .zext ∨ i.opcode = .or then i.operands.filterMap (f.testBefore? index) else []
  | none => []

/-- The tests that the first `count` instructions combine. -/
def combinedTests (f : Func) (count : Nat) : List Nat := (List.range count).flatMap f.testsAt

/-- No `icmp` has the predicate of an `fcmp`. -/
def OwnPredicates (f : Func) : Prop :=
  ∀ i ∈ f.instructions, i.opcode = .icmp → ∃ p, i.predicate = some (.int p)

variable {f : Func} {c : Context} {index : Nat} {v : Handle}

theorem compares_succ {i : Instruction} {d : Comparison} (hi : f.instructions[index]? = some i) :
    f.Compares (index + 1) v d ↔ f.Compares index v d ∨
      (i.opcode = .fcmp ∨ i.opcode = .icmp) ∧ i.operands = [d.left, d.right] ∧
        i.predicate = some d.predicate ∧ i.result = some v := by
  constructor
  · rintro ⟨k, hk, j, hj, hd⟩
    rcases Nat.lt_succ_iff_lt_or_eq.mp hk with hk | rfl
    · exact .inl ⟨k, hk, j, hj, hd⟩
    · rw [hi] at hj
      cases hj
      exact .inr hd
  · rintro (⟨k, hk, hd⟩ | hd)
    · exact ⟨k, Nat.lt_succ_of_lt hk, hd⟩
    · exact ⟨index, Nat.lt_succ_self index, i, hi, hd⟩

theorem isTest_iff {k : Nat} : f.isTest v k = true ↔
    ∃ i, f.instructions[k]? = some i ∧ i.opcode = .fcmp ∧ i.result = some v := by
  simp only [isTest, Option.any_eq_true, decide_eq_true_eq]

theorem testBefore?_eq_some_iff (hs : f.Scoped) {k : Nat} :
    f.testBefore? index v = some k ↔
      k < index ∧ ∃ i, f.instructions[k]? = some i ∧ i.opcode = .fcmp ∧ i.result = some v := by
  constructor
  · intro h
    exact ⟨List.mem_range.mp (List.mem_of_find?_eq_some h), isTest_iff.mp (List.find?_some h)⟩
  · rintro ⟨hk, i, hi, hop, hv⟩
    cases hfind : f.testBefore? index v with
    | none =>
      have hnone := List.find?_eq_none.mp hfind k (List.mem_range.mpr hk)
      exact absurd (isTest_iff.mpr ⟨i, hi, hop, hv⟩) hnone
    | some j =>
      -- A value is the result of one instruction.
      obtain ⟨i', hi', _, hv'⟩ := isTest_iff.mp (List.find?_some hfind)
      rw [hs.result_inj hi' hi hv' hv]

/-- An instruction is remembered if it is a comparison, and others stay as they are. -/
theorem comparisons_step (hscoped : f.Scoped) {i : Instruction} {s t : Lowering}
    (hi : f.instructions[index]? = some i) (h : Lowered f s i t)
    (hs : ∀ v d, s.comparisons.get? v = some d ↔ f.Compares index v d) (v : Handle)
    (d : Comparison) : t.comparisons.get? v = some d ↔ f.Compares (index + 1) v d := by
  rw [compares_succ hi, ← hs]
  rcases comparisons_of_lowered h with ⟨hfcmp, hicmp, hsame⟩ | ⟨w, e, hop, hargs, hpred, hw, hnew⟩
  · rw [hsame]
    constructor
    · exact .inl
    · rintro (hd | ⟨hop | hop, _⟩)
      · exact hd
      · exact absurd hop hfcmp
      · exact absurd hop hicmp
  · rw [hnew]
    by_cases hvw : v = w
    · subst hvw
      rw [Table.get?_insert_self]
      constructor
      · intro he
        cases he
        exact .inr ⟨hop, hargs, hpred, hw⟩
      · rintro (hd | ⟨_, hargs', hpred', _⟩)
        · -- The result of this instruction is no earlier one's.
          obtain ⟨j, hj, i', hi', _, _, _, hv'⟩ := (hs v d).mp hd
          exact absurd (hscoped.result_inj hi' hi hv' hw) (Nat.ne_of_lt hj)
        · rw [hargs] at hargs'
          rw [hpred] at hpred'
          cases e
          cases d
          simp_all
    · rw [Table.get?_insert_of_ne _ _ hvw]
      constructor
      · exact .inl
      · rintro (hd | ⟨_, _, _, hv'⟩)
        · exact hd
        · exact absurd (Option.some.inj (hv'.symm.trans hw)) hvw

/-- The comparisons that are remembered in front of an instruction are those that stand
there. -/
theorem comparisons_before (hscoped : f.Scoped) {s : Lowering} (hle : index ≤ f.instructions.size)
    (h : f.before c index = .ok s) (v : Handle) (d : Comparison) :
    s.comparisons.get? v = some d ↔ f.Compares index v d := by
  refine before_keeps (P := fun k s => ∀ v d, s.comparisons.get? v = some d ↔ f.Compares k v d)
    ?_ ?_ hle h v d
  · intro s output hp v d
    obtain ⟨input, hready⟩ := ready_of_prepared hp
    rw [hready.comparisons]
    constructor
    · intro he
      cases he
    · rintro ⟨k, hk, _⟩
      cases hk
  · intro k i s t hi hs ht
    exact comparisons_step hscoped hi ht hs

/-- A value that is there keeps its node. -/
theorem values_between (hscoped : f.Scoped) {start stop : Nat} {s t : Lowering} (hle : start ≤ stop)
    (hsize : stop ≤ f.instructions.size) (hs : f.before c start = .ok s)
    (ht : f.before c stop = .ok t) (hv : f.DefinedBefore start v) :
    t.bindings.values.get? v = s.bindings.values.get? v := by
  refine keeps_between (P := fun r => r.bindings.values.get? v = s.bindings.values.get? v) hle hsize
    hs rfl ?_ ht
  intro k i r r' hk _ hi hr hstep
  rw [values_of_lowered hstep ((hv.mono hk).ne_result hscoped hi), hr]

/-- A comparison that is lowered has the form of one. -/
theorem exists_comparison {g : Graph} {i : Instruction} (h : f.lower c = .ok g)
    (hi : f.instructions[index]? = some i) (hop : i.opcode = .fcmp) :
    ∃ (v : Handle) (d : Comparison), i.operands = [d.left, d.right] ∧
      i.predicate = some d.predicate ∧ i.result = some v := by
  obtain ⟨s, t, _, _, hstep⟩ := exists_step h hi
  rcases comparisons_of_lowered hstep with ⟨hfcmp, _⟩ | ⟨v, d, _, hargs, hpred, hv, _⟩
  · exact absurd hop hfcmp
  · exact ⟨v, d, hargs, hpred, hv⟩

/-! ## Recorded tests -/

section
variable {α : Type*} [LinearOrder α] {number : NodeId → α} {value : Handle → α}

/-- Every value with a node has the number of its node. -/
def Interprets (f : Func) (c : Context) (number : NodeId → α) (value : Handle → α) : Prop :=
  ∀ v n, f.node? c f.instructions.size v = some n → number n = value v

/-- Operator `o` has the nodes of what instruction number `k`, an `fcmp`, compares, and
holds of their numbers exactly when the test fails. -/
def Negates (f : Func) (c : Context) (number : NodeId → α) (value : Handle → α) (o : Operator)
    (k : Nat) : Prop :=
  ∃ i p left right m n, f.instructions[k]? = some i ∧ i.opcode = .fcmp ∧
    i.predicate = some (.float p) ∧ i.operands = [left, right] ∧
    f.node? c f.instructions.size left = some m ∧ f.node? c f.instructions.size right = some n ∧
    o.args = [n, m] ∧ (o.op.Holds (number n) (number m) ↔ ¬ p.Holds (value left) (value right))

/-- What the state in front of an instruction knows of the comparisons, whatever the graph
is by then. -/
structure Remembers (f : Func) (c : Context) (index : Nat) (s : Lowering) : Prop where
  flat : s.graph.Flat
  comparisons : ∀ {v d}, s.comparisons.get? v = some d ↔ f.Compares index v d
  nodes : ∀ {v n}, f.DefinedBefore index v → s.bindings.values.get? v = some n →
    f.node? c f.instructions.size v = some n

theorem Compares.definedBefore (hscoped : f.Scoped) {d : Comparison} (h : f.Compares index v d) :
    f.DefinedBefore index d.left ∧ f.DefinedBefore index d.right := by
  obtain ⟨k, hk, i, hi, _, hargs, _⟩ := h
  have hmem : d.left ∈ i.operands ∧ d.right ∈ i.operands := by simp [hargs]
  exact ⟨(hscoped.definedBefore_operand hi hmem.1).mono (Nat.le_of_lt hk),
    (hscoped.definedBefore_operand hi hmem.2).mono (Nat.le_of_lt hk)⟩

/-- An operand is recorded exactly if it is the result of an `fcmp`. -/
theorem recorded_of_recordOperand {g : Graph} (hlower : f.lower c = .ok g) (hscoped : f.Scoped)
    (hkinds : f.OwnPredicates) (hvalues : f.Interprets c number value) {s t : Lowering}
    (hs : f.Remembers c index s) (h : recordOperand f s v = .ok t) :
    f.Remembers c index t ∧ ∃ new, t.graph.recorded = s.graph.recorded ++ new ∧
      List.Forall₂ (f.Negates c number value) new (f.testBefore? index v).toList := by
  rcases recordOperand_cases h with ⟨hnone, rfl⟩ | ⟨d, op, m, n, hd, hop, hnodes, rfl⟩
  · refine ⟨hs, [], (List.append_nil _).symm, ?_⟩
    cases htest : f.testBefore? index v with
    | none => exact .nil
    | some k =>
      obtain ⟨hk, i, hi, hfcmp, hv⟩ := (testBefore?_eq_some_iff hscoped).mp htest
      obtain ⟨_, d, hargs, hpred, _⟩ := exists_comparison hlower hi hfcmp
      have hd := hs.comparisons.mpr ⟨k, hk, i, hi, .inl hfcmp, hargs, hpred, hv⟩
      rw [hnone] at hd
      cases hd
  · refine ⟨⟨Graph.flat_pushOperator hs.flat _ _, hs.comparisons, hs.nodes⟩, [⟨op, [n, m]⟩], ?_, ?_⟩
    · rw [emit, Graph.recorded_pushOperator hs.flat, (Comparison.holds_recording_iff (α := α) hop).1]
      rfl
    obtain ⟨_, p, hp, hholds⟩ := Comparison.holds_recording_iff (α := α) hop
    have hcompares := hs.comparisons.mp hd
    obtain ⟨hleft, hright⟩ := hcompares.definedBefore hscoped
    obtain ⟨k, hk, i, hi, hcmp, hargs, hpred, hv⟩ := hcompares
    have hfcmp : i.opcode = .fcmp := by
      rcases hcmp with hfcmp | hicmp
      · exact hfcmp
      · obtain ⟨q, hq⟩ := hkinds i (Array.mem_of_getElem? hi) hicmp
        rw [hpred, hp] at hq
        cases hq
    rw [(testBefore?_eq_some_iff hscoped).mpr ⟨hk, i, hi, hfcmp, hv⟩]
    cases hnodes with
    | cons hn hrest =>
    cases hrest with
    | cons hm _ =>
    have hm := hs.nodes hleft hm
    have hn := hs.nodes hright hn
    refine .cons ⟨i, p, d.left, d.right, m, n, hi, hfcmp, hp ▸ hpred, hargs, hm, hn, rfl, ?_⟩ .nil
    rw [← hvalues _ _ hm, ← hvalues _ _ hn]
    exact hholds _ _

theorem recorded_of_recordOperands {g : Graph} (hlower : f.lower c = .ok g) (hscoped : f.Scoped)
    (hkinds : f.OwnPredicates) (hvalues : f.Interprets c number value) {s t : Lowering}
    {vs : List Handle} (hs : f.Remembers c index s) (h : vs.foldlM (recordOperand f) s = .ok t) :
    ∃ new, t.graph.recorded = s.graph.recorded ++ new ∧
      List.Forall₂ (f.Negates c number value) new (vs.filterMap (f.testBefore? index)) := by
  induction vs generalizing s with
  | nil =>
    cases h
    exact ⟨[], (List.append_nil _).symm, .nil⟩
  | cons v vs ih =>
    rw [List.foldlM_cons] at h
    obtain ⟨r, hr, h⟩ := bind_eq_ok.mp h
    obtain ⟨hr, first, hfirst, hv⟩ :=
      recorded_of_recordOperand hlower hscoped hkinds hvalues hs hr
    obtain ⟨rest, hrest, hvs⟩ := ih hr h
    refine ⟨first ++ rest, by rw [hrest, hfirst, List.append_assoc], ?_⟩
    rw [← List.singleton_append, List.filterMap_append]
    refine List.rel_append ?_ hvs
    cases htest : f.testBefore? index v <;> simpa [htest] using hv

theorem remembers_before {g : Graph} (hlower : f.lower c = .ok g) (hscoped : f.Scoped)
    {s : Lowering} (hle : index ≤ f.instructions.size) (hs : f.before c index = .ok s) :
    f.Remembers c index s := by
  obtain ⟨_, _, final, hp, hfinal, _⟩ := lower_eq_ok.mp hlower
  refine ⟨(inOrder_before hp hle hs).ordered.flat, comparisons_before hscoped hle hs _ _, ?_⟩
  intro v n hv hn
  rw [node?, hfinal]
  exact (values_between hscoped hle (Nat.le_refl _) hs hfinal hv).trans hn

/-- What an instruction records are the tests that it combines. -/
theorem recorded_step {g : Graph} (hlower : f.lower c = .ok g) (hscoped : f.Scoped)
    (hkinds : f.OwnPredicates) (hvalues : f.Interprets c number value) {s t : Lowering}
    {i : Instruction} (hi : f.instructions[index]? = some i) (hs : f.before c index = .ok s)
    (h : Lowered f s i t) :
    ∃ new, t.graph.recorded = s.graph.recorded ++ new ∧
      List.Forall₂ (f.Negates c number value) new (f.testsAt index) := by
  have hle : index ≤ f.instructions.size := Nat.le_of_lt (Array.getElem?_eq_some_iff.mp hi).1
  have hremembers := remembers_before hlower hscoped hle hs
  rw [testsAt, hi]
  by_cases hop : i.opcode = .zext ∨ i.opcode = .or
  · simp only [hop, if_true]
    rcases operands_of_combining hop h with ht | ht
    · exact recorded_of_recordOperands hlower hscoped hkinds hvalues hremembers ht
    · exact recorded_of_recordOperands (s := { s with extended := true }) hlower hscoped hkinds hvalues
        ⟨hremembers.flat, hremembers.comparisons, hremembers.nodes⟩ ht
  · simp only [hop, if_false]
    obtain ⟨hzext, hor⟩ := not_or.mp hop
    exact ⟨[], by rw [recorded_of_lowered hremembers.flat h hzext hor, List.append_nil], .nil⟩

theorem combinedTests_succ (f : Func) (count : Nat) :
    f.combinedTests (count + 1) = f.combinedTests count ++ f.testsAt count := by
  rw [combinedTests, List.range_succ, List.flatMap_append, List.flatMap_singleton]
  rfl

/-- In front of an instruction, what is recorded are the tests combined so far. -/
theorem recorded_before {g : Graph} (hlower : f.lower c = .ok g) (hscoped : f.Scoped)
    (hkinds : f.OwnPredicates) (hvalues : f.Interprets c number value) {s : Lowering}
    (hle : index ≤ f.instructions.size) (hs : f.before c index = .ok s) :
    List.Forall₂ (f.Negates c number value) s.graph.recorded (f.combinedTests index) := by
  induction index generalizing s with
  | zero =>
    obtain ⟨output, hp⟩ := before_zero_eq_ok.mp hs
    obtain ⟨input, hready⟩ := ready_of_prepared hp
    rw [Graph.recorded, hready.graph]
    exact .nil
  | succ index ih =>
    have hi : f.instructions[index]? = some f.instructions[index] :=
      Array.getElem?_eq_getElem (Nat.lt_of_succ_le hle)
    obtain ⟨r, hr, hstep⟩ := (before_succ_eq_ok hi).mp hs
    obtain ⟨new, hnew, htests⟩ := recorded_step hlower hscoped hkinds hvalues hi hr
      (lowered_of_instruction hstep)
    rw [hnew, combinedTests_succ]
    exact List.rel_append (ih (Nat.le_of_succ_le hle) hr) htests

end

end Func

theorem Program.ownPredicates_of_read {text : String} {p : Program} (h : read text = .ok p) :
    ∀ f ∈ p.functions, f.OwnPredicates := by
  intro f hf i hi hop
  obtain ⟨_, _, hwritten⟩ := writtenAt_of_read h hf hi
  exact hwritten.intPredicate hop

/-- The operators of a graph that record something are, in order, the results of `fcmp`
among the operands of `zext` and `or`, and each holds exactly when its test fails.  No
other instruction records anything, and what is recorded has no node. -/
theorem Program.lower_negates_tests {α : Type*} [LinearOrder α] {text : String} {p : Program}
    {f : Func} {c : Context} {g : Graph} (number : NodeId → α) (value : Handle → α)
    (hread : read text = .ok p) (hf : f ∈ p.functions) (hlower : f.lower c = .ok g)
    (hvalues : f.Interprets c number value) :
    List.Forall₂ (f.Negates c number value) g.recorded (f.combinedTests f.instructions.size) ∧
      (∀ index i s t, f.instructions[index]? = some i → f.before c index = .ok s →
        f.before c (index + 1) = .ok t →
          if i.opcode = .zext ∨ i.opcode = .or then t.last = s.last ∧ t.bindings = s.bindings
          else t.graph.recorded = s.graph.recorded) ∧
      ∀ o ∈ g.recorded, o.resultCount = 0 := by
  have hscoped := (arena_of_read hread f hf).toScoped
  obtain ⟨r, output, final, hp, hfinal, hg⟩ := Func.lower_eq_ok.mp hlower
  refine ⟨?_, ?_, ?_⟩
  · obtain ⟨_, _, _, _, rfl⟩ := (Lowering.inOrder_before hp (Nat.le_refl _) hfinal).finish_eq_ok hg
    exact Func.recorded_before hlower hscoped (ownPredicates_of_read hread f hf) hvalues
      (Nat.le_refl _) hfinal
  · intro index i s t hi hs ht
    have hle : index ≤ f.instructions.size := Nat.le_of_lt (Array.getElem?_eq_some_iff.mp hi).1
    obtain ⟨_, hs', hstep⟩ := (Func.before_succ_eq_ok hi).mp ht
    rw [hs] at hs'
    cases hs'
    have hstep := Lowering.lowered_of_instruction hstep
    split
    next hop =>
      rcases Lowering.operands_of_combining hop hstep with ht | ht <;>
        rw [Lowering.recordOperands_frame ht] <;> exact ⟨rfl, rfl⟩
    next hop =>
      obtain ⟨hzext, hor⟩ := not_or.mp hop
      exact Lowering.recorded_of_lowered (Lowering.inOrder_before hp hle hs).ordered.flat hstep hzext hor
  · intro o ho
    exact Op.resultCount_of_isComparison (List.mem_filter.mp ho).2 _

/-- A test that is combined twice, once with a constant. -/
def Program.combinedTwice : String :=
  "define i32 @f(i64 %0, ptr %in, i64 %2, ptr %out, i64 %4, ptr %msg) \x7b
    %a = load double, ptr %in
    %b = fneg double %a
    %t = fcmp ole double %a, %b
    %u = or i1 true, %t
    %z = zext i1 %t to i32
    store double %b, ptr %out
    ret i32 %z
  \x7d"

theorem Program.lower_negates_tests_combinedTwice :
    ∃ p f g, read combinedTwice = .ok p ∧ f ∈ p.functions ∧ f.lower ⟨"f", 0, 1, 1⟩ = .ok g ∧
      g.recorded = [⟨.compLt, [2, 1]⟩, ⟨.compLt, [2, 1]⟩] ∧
      List.Forall₂ (f.Negates ⟨"f", 0, 1, 1⟩ id fun v =>
        (f.node? ⟨"f", 0, 1, 1⟩ f.instructions.size v).getD 0) g.recorded [2, 2] := by
  have hread : (match read combinedTwice with
      | .ok p => p.functions.any fun f => match f.lower ⟨"f", 0, 1, 1⟩ with
        | .ok g => decide (g.recorded = [⟨.compLt, [2, 1]⟩, ⟨.compLt, [2, 1]⟩] ∧
            f.combinedTests f.instructions.size = [2, 2])
        | .error _ => false
      | .error _ => false) = true := by
    decide +kernel
  split at hread
  next p hp =>
    obtain ⟨f, hf, hlower⟩ := List.any_eq_true.mp hread
    split at hlower
    next g hg =>
      obtain ⟨hrecorded, htests⟩ := of_decide_eq_true hlower
      have hnegates := (lower_negates_tests id
        (fun v => (f.node? ⟨"f", 0, 1, 1⟩ f.instructions.size v).getD 0) hp hf hg
        (fun v n hn => (congrArg (·.getD 0) hn).symm)).1
      exact ⟨p, f, g, hp, hf, hg, hrecorded, htests ▸ hnegates⟩
    · cases hlower
  · cases hread

end SsaGraph

import SsaGraph.Proofs.Func.Arena
import SsaGraph.Proofs.Graph.NodeOrder
import SsaGraph.Proofs.Lowering.Preparation

/-!
Lowering gives graphs in node order.  Nodes reach operators through the tables of
values and pointers, through buffers of consecutive nodes and through slots, so the
invariant says of all four that they hold nodes handed out before (`Within`), and of
the counter that it is the number of nodes that the graph has.
-/

namespace SsaGraph

namespace Op

theorem yields_of_binaryOp? {opcode : Opcode} {op : Op}
    (h : Lowering.binaryOp? opcode = some op) : op.Yields 1 := by
  unfold Lowering.binaryOp? at h
  split at h <;> cases h <;> exact ⟨rfl, fun _ => rfl⟩

theorem yields_of_selecting? {c : Comparison} {op : Op} (h : c.selecting? = some op) :
    op.Yields 1 := by
  unfold Comparison.selecting? at h
  split at h <;> cases h <;> exact ⟨rfl, fun _ => rfl⟩

theorem yields_of_recording? {c : Comparison} {op : Op} (h : c.recording? = some op) :
    op.Yields 0 := by
  unfold Comparison.recording? at h
  split at h <;> cases h <;> exact ⟨rfl, fun _ => rfl⟩

theorem yields_of_ofCallee? {name : String} {op : Op} (h : ofCallee? name = some op) :
    op.Yields 1 := by
  have hcallee := callee?_of_ofCallee? h
  cases op <;> first | exact ⟨rfl, fun _ => rfl⟩ | cases hcallee

end Op

namespace Bindings

/-- All nodes that values, addresses and buffers stand for are among the first
`last` ones. -/
structure Within (b : Bindings) (last : Nat) : Prop where
  values : ∀ {v : Handle} {n : Nat}, b.values.get? v = some n → 1 ≤ n ∧ n ≤ last
  pointers : ∀ {p : Handle} {n : Nat}, b.pointers.get? p = some n → 1 ≤ n ∧ n ≤ last
  consecutive : ∀ {base : Handle} {first length : Nat},
    b.layouts.get? base = some (.contiguous first length) → 1 ≤ first ∧ first + length ≤ last + 1
  slots : ∀ {base : Handle} {length : Nat} {written : Array (Option NodeId)} {k n : Nat},
    b.layouts.get? base = some (.scattered length written) → Slots.get? written k = some n →
      1 ≤ n ∧ n ≤ last

namespace Within

variable {b : Bindings} {last : Nat} (h : b.Within last)
include h

theorem mono {later : Nat} (hle : last ≤ later) : b.Within later where
  values hv := ⟨(h.values hv).1, Nat.le_trans (h.values hv).2 hle⟩
  pointers hp := ⟨(h.pointers hp).1, Nat.le_trans (h.pointers hp).2 hle⟩
  consecutive hl :=
    ⟨(h.consecutive hl).1, Nat.le_trans (h.consecutive hl).2 (Nat.succ_le_succ hle)⟩
  slots hl hk := ⟨(h.slots hl hk).1, Nat.le_trans (h.slots hl hk).2 hle⟩

theorem bindValue {v : Handle} {n : Nat} (hn : 1 ≤ n ∧ n ≤ last) :
    (b.bindValue v n).Within last := by
  refine ⟨?_, h.pointers, h.consecutive, h.slots⟩
  intro w m hw
  rw [Bindings.bindValue, Table.get?_insert] at hw
  split at hw
  · exact Option.some.inj hw ▸ hn
  · exact h.values hw

theorem bindPointer {p : Handle} {n : Nat} (hn : 1 ≤ n ∧ n ≤ last) :
    (b.bindPointer p n).Within last := by
  refine ⟨h.values, ?_, h.consecutive, h.slots⟩
  intro q m hq
  rw [Bindings.bindPointer, Table.get?_insert] at hq
  split at hq
  · exact Option.some.inj hq ▸ hn
  · exact h.pointers hq

theorem withSlot {base : Handle} {length offset : Nat} {written : Array (Option NodeId)}
    {n : Nat} (hl : b.layouts.get? base = some (.scattered length written))
    (hn : 1 ≤ n ∧ n ≤ last) : (b.withSlot base length written offset n).Within last := by
  refine ⟨h.values, h.pointers, ?_, ?_⟩
  · intro other first size ho
    rw [Bindings.withSlot, Table.get?_insert] at ho
    split at ho
    · cases ho
    · exact h.consecutive ho
  · intro other size slots k m ho hk
    rw [Bindings.withSlot, Table.get?_insert] at ho
    split at ho
    · cases ho
      rw [Slots.get?_write] at hk
      split at hk
      · exact Option.some.inj hk ▸ hn
      · exact h.slots hl hk
    · exact h.slots ho hk

/-- The nodes of a filled buffer are among those handed out. -/
theorem filled {base : Handle} {length : Nat} {written : Array (Option NodeId)}
    {nodes : List Nat} (hl : b.layouts.get? base = some (.scattered length written))
    (hnodes : Slots.filled length written = .ok nodes) : ∀ n ∈ nodes, 1 ≤ n ∧ n ≤ last := by
  intro n hn
  obtain ⟨hlen, hget⟩ := Slots.filled_eq_ok_iff.mp hnodes
  obtain ⟨k, hk, rfl⟩ := List.mem_iff_getElem.mp hn
  exact h.slots hl ((hget k (hlen ▸ hk)).trans (List.getElem?_eq_getElem hk))

end Within

theorem Within.consecutive_next {b : Bindings} {last : Nat} (h : b.Within last) (base : Handle)
    (count : Nat) : (b.consecutive base (last + 1) count).Within (last + count) := by
  have hmono := h.mono (Nat.le_add_right last count)
  refine ⟨hmono.values, ?_, ?_, ?_⟩
  · intro p n hp
    simp only [Bindings.consecutive] at hp
    split at hp
    · rw [Table.get?_erase] at hp
      split at hp
      · cases hp
      · exact hmono.pointers hp
    · rw [Table.get?_insert] at hp
      split at hp
      · cases hp
        exact ⟨Nat.succ_pos last, by omega⟩
      · exact hmono.pointers hp
  · intro other first size ho
    rw [Bindings.consecutive, Table.get?_insert] at ho
    split at ho
    · cases ho
      exact ⟨Nat.succ_pos last, by omega⟩
    · exact hmono.consecutive ho
  · intro other size slots k m ho hk
    rw [Bindings.consecutive, Table.get?_insert] at ho
    split at ho
    · cases ho
    · exact hmono.slots ho hk

end Bindings

namespace Lowering

/-- The invariant of the second pass. -/
structure InOrder (c : Context) (output : Handle) (s : Lowering) : Prop where
  ordered : s.graph.Ordered
  total : s.graph.totalNodes = s.last
  limit : s.last ≤ maxNode
  within : s.bindings.Within s.last
  pending : s.graph.dependents = #[]
  output : ∃ written, s.bindings.layouts.get? output = some (.scattered c.dependents written)

theorem inOrder_of_ready {f : Func} {c : Context} {input output : Handle} {s : Lowering}
    (h : Ready f c input output s) : InOrder c output s := by
  have htotal : s.graph.totalNodes = s.last := by
    rw [h.last, ← h.inputs, h.graph]
    rfl
  refine ⟨?_, htotal, h.limit, ?_, by rw [h.graph]; rfl, ⟨_, h.output_layout⟩⟩
  · rw [h.graph]
    refine ⟨⟨rfl, .nil, nofun⟩, fun j o hj => ?_, nofun, .nil, .nil⟩
    exact absurd (List.mem_of_getElem? hj) List.not_mem_nil
  · refine ⟨?_, ?_, ?_, ?_⟩
    · intro v n hv
      obtain ⟨k, x, _, hk, rfl⟩ := h.values hv
      obtain ⟨hlt, _⟩ := Array.getElem?_eq_some_iff.mp hk
      rw [h.last]
      constructor <;> omega
    · intro p n hp
      obtain ⟨_, rfl, hpos⟩ := h.pointers hp
      rw [h.last]
      constructor <;> omega
    · intro base first length hl
      by_cases hbase : base = input
      · rw [hbase, h.input_layout] at hl
        cases hl
        rw [h.last]
        constructor <;> omega
      · obtain ⟨_, slots, he⟩ := h.layouts hl hbase
        cases he
    · intro base length written k n hl hk
      by_cases hbase : base = input
      · rw [hbase, h.input_layout] at hl
        cases hl
      · obtain ⟨_, slots, he⟩ := h.layouts hl hbase
        cases he
        cases hk

namespace InOrder

variable {c : Context} {output : Handle} {s : Lowering} (h : InOrder c output s)
include h

theorem hasNodes {vs : List Handle} {ns : List Nat} (hn : s.HasNodes vs ns) :
    ∀ n ∈ ns, 1 ≤ n ∧ n ≤ s.graph.totalNodes := by
  rw [h.total]
  unfold HasNodes at hn
  induction hn with
  | nil => nofun
  | cons hv _ ih =>
    rw [List.forall_mem_cons]
    exact ⟨h.within.values hv, ih⟩

theorem emit {op : Op} {args : List Nat} (hop : op.Yields 0)
    (hargs : ∀ n ∈ args, 1 ≤ n ∧ n ≤ s.graph.totalNodes) : InOrder c output (s.emit op args) where
  ordered := Graph.ordered_pushOperator h.ordered (Operator.fits_of_yields hop args)
    (by simpa [Operator.nodes, hop.1] using hargs)
  total := by
    rw [Lowering.emit, Graph.totalNodes_pushOperator h.ordered.flat, hop.2, h.total]
    rfl
  limit := h.limit
  within := h.within
  pending := (Graph.pushOperator_dependents _ _ _).trans h.pending
  output := h.output

theorem produce {v : Handle} {op : Op} {args : List Nat} (hmax : s.last + 1 ≤ maxNode)
    (hone : op.resultCount args = 1) (hfits : Operator.Fits s.graph ⟨op, args⟩)
    (hargs : ∀ n ∈ Operator.nodes ⟨op, args⟩, 1 ≤ n ∧ n ≤ s.graph.totalNodes) :
    InOrder c output (s.produce v op args) where
  ordered := Graph.ordered_pushOperator h.ordered hfits hargs
  total := by
    rw [Lowering.produce, Graph.totalNodes_pushOperator h.ordered.flat, hone, h.total]
  limit := hmax
  within := (h.within.mono (Nat.le_succ s.last)).bindValue ⟨Nat.succ_pos s.last, Nat.le_refl _⟩
  pending := (Graph.pushOperator_dependents _ _ _).trans h.pending
  output := h.output

theorem produce_of_yields {v : Handle} {op : Op} {args : List Nat} (hmax : s.last + 1 ≤ maxNode)
    (hop : op.Yields 1) (hargs : ∀ n ∈ args, 1 ≤ n ∧ n ≤ s.graph.totalNodes) :
    InOrder c output (s.produce v op args) :=
  h.produce hmax (hop.2 args) (Operator.fits_of_yields hop args)
    (by simpa [Operator.nodes, hop.1] using hargs)

theorem internDiscrete (name : String) :
    InOrder c output { s with graph := (s.graph.internDiscrete name).1 } where
  ordered := Graph.ordered_internDiscrete h.ordered name
  total := (Graph.totalNodes_internDiscrete s.graph name).trans h.total
  limit := h.limit
  within := h.within
  pending := by rw [Graph.internDiscrete_eq]; exact h.pending
  output := h.output

theorem recordOperands {f : Func} {vs : List Handle} {t : Lowering}
    (ht : vs.foldlM (recordOperand f) s = .ok t) : InOrder c output t := by
  refine foldlM_keeps (P := InOrder c output) ?_ h ht
  intro r v r' hr hstep
  rcases recordOperand_cases hstep with ⟨_, rfl⟩ | ⟨d, op, left, right, _, hop, hn, rfl⟩
  · exact hr
  · exact hr.emit (Op.yields_of_recording? hop) (hr.hasNodes hn)

/-- What one lowered instruction keeps. -/
theorem lowered {f : Func} {i : Instruction} {t : Lowering} (ht : Lowered f s i t) :
    InOrder c output t := by
  cases ht with
  | alloca | message | selectCode | branch | ret => exact h
  | compare => exact ⟨h.ordered, h.total, h.limit, h.within, h.pending, h.output⟩
  | element => exact ⟨h.ordered, h.total, h.limit, h.within, h.pending, h.output⟩
  | load _ _ _ hn _ =>
    exact ⟨h.ordered, h.total, h.limit, h.within.bindValue (h.within.pointers hn), h.pending,
      h.output⟩
  | @pointer _ _ offset first length _ _ _ _ hl hlt _ =>
    have hrange := h.within.consecutive hl
    exact ⟨h.ordered, h.total, h.limit, h.within.bindPointer (by omega), h.pending, h.output⟩
  | @store _ _ n e slots written _ _ _ _ _ hn _ hl _ _ =>
    refine ⟨h.ordered, h.total, h.limit, h.within.withSlot hl (h.within.values hn), h.pending, ?_⟩
    obtain ⟨old, hout⟩ := h.output
    show ∃ written', (s.bindings.layouts.insert e.base _).get? output = _
    by_cases ho : output = e.base
    · -- A store to the output leaves its length as it was.
      rw [ho] at hout
      rw [hl] at hout
      cases hout
      rw [ho, Table.get?_insert_self]
      exact ⟨_, rfl⟩
    · rw [Table.get?_insert_of_ne _ _ ho]
      exact ⟨old, hout⟩
  | binary hop _ _ hn _ hmax =>
    exact h.produce_of_yields hmax (Op.yields_of_binaryOp? hop) (h.hasNodes hn)
  | negate _ _ _ hn _ hmax =>
    exact h.produce_of_yields hmax ⟨rfl, fun _ => rfl⟩ (h.hasNodes hn)
  | extend _ _ _ ht =>
    have hs : InOrder c output { s with extended := true } :=
      ⟨h.ordered, h.total, h.limit, h.within, h.pending, h.output⟩
    exact hs.recordOperands ht
  | combine _ _ ht => exact h.recordOperands ht
  | select _ _ _ hsel _ hn _ hmax =>
    exact h.produce_of_yields hmax (Op.yields_of_selecting? hsel) (h.hasNodes hn)
  | math _ _ _ _ _ _ hcallee hn _ hmax =>
    exact h.produce_of_yields hmax (Op.yields_of_ofCallee? hcallee) (h.hasNodes hn)
  | @discrete _ _ _ _ rest n _ _ _ _ _ hn _ hmax =>
    have hs := h.internDiscrete rest
    refine hs.produce hmax rfl ⟨nofun, fun _ => ⟨_, rfl, ?_⟩, nofun⟩ (hs.hasNodes hn)
    rw [Graph.internDiscrete_eq]
    exact Graph.internName_lt _ _
  | @atomic _ _ _ results _ _ _ _ rest _ resultCount _ nodes _ _ _ _ _ _ hl hnodes hfree hmax =>
    obtain ⟨old, hout⟩ := h.output
    have hflat := (Graph.ordered_internAtomic h.ordered rest).flat
    have hlen := (Slots.filled_eq_ok_iff.mp hnodes).1
    have htotal := (Graph.totalNodes_internAtomic s.graph rest).trans h.total
    refine ⟨?_, ?_, hmax, h.within.consecutive_next results resultCount, ?_, ⟨old, ?_⟩⟩
    · refine Graph.ordered_pushOperator (Graph.ordered_internAtomic h.ordered rest)
        ⟨fun _ => ⟨_, rfl, ?_⟩, nofun, fun _ => ?_⟩ ?_
      · rw [Graph.internAtomic_eq]
        exact Graph.internName_lt _ _
      · exact congrArg some hlen.symm
      · rw [htotal]
        exact h.within.filled hl hnodes
    · exact (Graph.totalNodes_pushOperator hflat _ _).trans (congrArg (· + resultCount) htotal)
    · rw [Graph.pushOperator_dependents, Graph.internAtomic_eq]
      exact h.pending
    · -- The output is a buffer of slots, so it is not the result buffer.
      have hne : output ≠ results := by
        rintro rfl
        exact hfree _ _ hout
      exact (Table.get?_insert_of_ne _ _ hne).trans hout

/-- The nodes in the output of a finished run become the dependents. -/
theorem finish_eq_ok {g : Graph} {lastInstruction : Nat}
    (hg : Lowering.finish output lastInstruction s = .ok g) :
    ∃ written nodes, s.bindings.layouts.get? output = some (.scattered c.dependents written) ∧
      Slots.filled c.dependents written = .ok nodes ∧
        g = { s.graph with dependents := nodes.toArray } := by
  obtain ⟨written, hout⟩ := h.output
  rw [Lowering.finish, Bindings.scattered?_eq_some.mpr hout] at hg
  simp only at hg
  cases hnodes : Slots.filled c.dependents written with
  | error k => rw [hnodes] at hg; cases hg
  | ok nodes =>
    rw [hnodes] at hg
    cases hg
    refine ⟨written, nodes, hout, hnodes, ?_⟩
    rw [Graph.foldl_pushDependent_eq, h.pending, Array.empty_append]

theorem finish {g : Graph} {lastInstruction : Nat}
    (hg : Lowering.finish output lastInstruction s = .ok g) : g.WellFormed c.dependents := by
  obtain ⟨written, nodes, hout, hnodes, rfl⟩ := h.finish_eq_ok hg
  have hlen := (Slots.filled_eq_ok_iff.mp hnodes).1
  have hrange := h.within.filled hout hnodes
  rw [← hlen]
  refine Graph.wellFormed_of_ordered (g := { s.graph with dependents := nodes.toArray })
    ⟨⟨h.ordered.flat.size, h.ordered.flat.sorted, h.ordered.flat.bounded⟩, h.ordered.order,
      fun o ho => ?_, h.ordered.atomicNames, h.ordered.discreteNames⟩ ?_ ?_
  · have hfits := h.ordered.fits o ho
    exact ⟨hfits.atomic, hfits.discrete, hfits.counted⟩
  · show s.graph.totalNodes ≤ maxNode
    rw [h.total]
    exact h.limit
  · show ∀ n ∈ nodes, 1 ≤ n ∧ n ≤ s.graph.totalNodes
    rw [h.total]
    exact hrange

end InOrder

/-- The invariant holds in front of every instruction. -/
theorem inOrder_before {f : Func} {c : Context} {r : Lowering} {output : Handle}
    (hp : f.prepared c = .ok (r, output)) {index : Nat} {s : Lowering}
    (hle : index ≤ f.instructions.size) (h : f.before c index = .ok s) : InOrder c output s := by
  refine Func.before_keeps (P := fun _ s => InOrder c output s) ?_ ?_ hle h
  · intro s out hs
    rw [hp] at hs
    cases hs
    obtain ⟨input, hready⟩ := Func.ready_of_prepared hp
    exact inOrder_of_ready hready
  · intro _ i s t _ hs ht
    exact hs.lowered ht

end Lowering

open Lowering in
/-- A function that is lowered gives a well-formed graph, whatever the context. -/
theorem Func.lower_wellFormed {f : Func} {c : Context} {g : Graph} (h : f.lower c = .ok g) :
    g.WellFormed c.dependents := by
  obtain ⟨r, output, s, hp, hs, hg⟩ := Func.lower_eq_ok.mp h
  exact (inOrder_before hp (Nat.le_refl _) hs).finish hg

/-- The second result of a call, rounded and scaled by itself or by a literal. -/
def Func.scaledCall : Func :=
  (ofSteps? "f" [.load 1, .alloca, .alloca, .store 6 7, .callAtomic "atomic_foo" 1 7 2 8,
    .element 8 1, .load 15, .call "discrete_step" [16] .double, .float ⟨0x4000000000000000⟩,
    .compareFloat .olt 18 19, .select 20 16 19, .arithmetic .fmul 18 21, .store 22 3,
    .retOk]).getD default

theorem Func.lower_wellFormed_scaledCall :
    ∃ g, scaledCall.lower ⟨"f", 0, 1, 1⟩ = .ok g ∧ g.tags = #[.atom, .discrete, .cexpLt, .mul] ∧
      g.WellFormed 1 := by
  have h : scaledCall.lower ⟨"f", 0, 1, 1⟩ = .ok
      { name := "f", dynamics := 0, independents := 1, constants := #[⟨0x4000000000000000⟩],
        tags := #[.atom, .discrete, .cexpLt, .mul], starts := #[0, 4, 6, 10],
        args := #[0, 2, 1, 1, 0, 4, 5, 2, 4, 2, 5, 6], atomicNames := #["foo"],
        discreteNames := #["step"], dependents := #[7] } := by
    decide +kernel
  exact ⟨_, h, rfl, lower_wellFormed h⟩

end SsaGraph

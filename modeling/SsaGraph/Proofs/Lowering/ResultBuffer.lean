import SsaGraph.Proofs.Lowering.NodeOrder

/-!
What is loaded from the result buffer of atomic calls.

A call binds its result buffer to the nodes of its results, in place of those of an
earlier call.  The address of the buffer itself is bound again with it, but the address
of an element is bound once, by the instruction that computes it.  So a load through the
buffer sees the latest call, and a load through the address of an element sees the
latest call in front of the address: it sees the latest call of all exactly when none
comes between the address and the load.
-/

namespace SsaGraph
namespace Func

/-- Instruction number `index` is a call with result buffer `base`. -/
def Fills (f : Func) (base : Handle) (index : Nat) : Prop :=
  ∃ i, f.instructions[index]? = some i ∧ i.resultBuffer? = some base

/-- Instruction number `index` computes address `p`, of element `offset` of `base`. -/
def Addresses (f : Func) (p base : Handle) (offset index : Nat) : Prop :=
  ∃ i, f.instructions[index]? = some i ∧ i.opcode = .getelementptr ∧ i.result = some p ∧
    Lowering.addressParts f i = .ok (base, offset)

instance (f : Func) (base : Handle) (index : Nat) : Decidable (f.Fills base index) :=
  decidable_of_iff ((f.instructions[index]?).bind (·.resultBuffer?) = some base)
    Option.bind_eq_some_iff

instance (f : Func) (p base : Handle) (offset index : Nat) :
    Decidable (f.Addresses p base offset index) :=
  decidable_of_iff ((f.instructions[index]?).any fun i => i.opcode = .getelementptr ∧
      i.result = some p ∧ Lowering.addressParts f i = .ok (base, offset))
    (by simp [Addresses, Option.any_eq_true])

/-- Instruction number `index` says what is loaded through `p`. -/
def Binds (f : Func) (p : Handle) (index : Nat) : Prop :=
  f.Fills p index ∨ ∃ base offset, f.Addresses p base offset index

/-- The last place in front of `stop` at which `P` holds. -/
def LastBefore (P : Nat → Prop) (stop index : Nat) : Prop :=
  index < stop ∧ P index ∧ ∀ k, index < k → k < stop → ¬ P k

/-- The node of a value, in front of an instruction. -/
def node? (f : Func) (c : Context) (index : Nat) (v : Handle) : Option NodeId :=
  match f.before c index with
  | .ok s => s.bindings.values.get? v
  | .error _ => none

/-- In the finished graph `g`, the first result of the operator that an instruction
appends. -/
def firstResult? (f : Func) (c : Context) (g : Graph) (index : Nat) : Option NodeId :=
  match f.before c index, g.firstResults? with
  | .ok s, some firsts => (firsts[s.graph.operators.length]?).join
  | _, _ => none

end Func

namespace Lowering

variable {f : Func} {s t : Lowering} {i : Instruction}

theorem resultBuffer?_eq_some {base : Handle} (h : i.resultBuffer? = some base) :
    i.opcode = .call ∧ i.operands.length = 7 := by
  unfold Instruction.resultBuffer? at h
  split at h
  next hop hargs => exact ⟨hop, by rw [hargs]; rfl⟩
  · cases h

/-- A lowered call appends one operator and binds its result buffer to the results. -/
theorem call_of_lowered {base : Handle} (hbase : i.resultBuffer? = some base)
    (h : Lowered f s i t) :
    (∀ slots written, s.bindings.layouts.get? base ≠ some (.scattered slots written)) ∧
      ∃ name count index rest, t.graph =
          (s.graph.internAtomic name).1.pushOperator .atom (index :: count :: rest) ∧
        t.bindings = s.bindings.consecutive base (s.last + 1) count := by
  obtain ⟨hcall, hlen⟩ := resultBuffer?_eq_some hbase
  cases h with
  | atomic hop hargs _ _ _ _ _ _ hfree =>
    simp only [Instruction.resultBuffer?, hop, hargs, Option.some.injEq] at hbase
    subst hbase
    exact ⟨hfree, _, _, _, _, rfl, rfl⟩
  | math _ hargs hcount =>
    rw [hargs, List.length_append, List.length_singleton] at hlen
    omega
  | discrete _ hargs =>
    rw [hargs] at hlen
    cases hlen
  | alloca hop | load hop | element hop | pointer hop | message hop | store hop | binary hop
  | negate hop | extend hop | combine hop | selectCode hop | select hop | branch hop | ret hop =>
    rw [hcall] at hop
    cases hop
  | compare hop => rcases hop with hop | hop <;> rw [hcall] at hop <;> cases hop

theorem load_of_lowered {p v : Handle} (hop : i.opcode = .load) (hargs : i.operands = [p])
    (hv : i.result = some v) (h : Lowered f s i t) :
    ∃ n, s.bindings.pointers.get? p = some n ∧
      t = { s with bindings := s.bindings.bindValue v n } := by
  cases h with
  | load _ hargs' _ hn hv' =>
    rw [hargs] at hargs'
    rw [hv] at hv'
    cases hargs'
    cases hv'
    exact ⟨_, hn, rfl⟩
  | alloca hop' | element hop' | pointer hop' | message hop' | store hop' | binary hop'
  | negate hop' | extend hop' | combine hop' | selectCode hop' | select hop' | math hop'
  | discrete hop' | atomic hop' | branch hop' | ret hop' =>
    rw [hop] at hop'
    cases hop'
  | compare hop' => rcases hop' with hop' | hop' <;> rw [hop] at hop' <;> cases hop'

theorem address_of_lowered {p base : Handle} {offset : Nat} (hop : i.opcode = .getelementptr)
    (hp : i.result = some p) (hparts : addressParts f i = .ok (base, offset))
    (h : Lowered f s i t) :
    (∃ slots written, s.bindings.layouts.get? base = some (.scattered slots written)) ∨
    ∃ first length, s.bindings.layouts.get? base = some (.contiguous first length) ∧
      offset < length ∧ t.bindings = s.bindings.bindPointer p (first + offset) := by
  cases h with
  | element _ hparts' _ _ hl =>
    rw [hparts] at hparts'
    cases hparts'
    exact .inl ⟨_, _, hl⟩
  | pointer _ hparts' _ hp' hl hlt =>
    rw [hparts] at hparts'
    rw [hp] at hp'
    cases hparts'
    cases hp'
    exact .inr ⟨_, _, hl, hlt, rfl⟩
  | alloca hop' | load hop' | message hop' | store hop' | binary hop' | negate hop' | extend hop'
  | combine hop' | selectCode hop' | select hop' | math hop' | discrete hop' | atomic hop'
  | branch hop' | ret hop' =>
    rw [hop] at hop'
    cases hop'
  | compare hop' => rcases hop' with hop' | hop' <;> rw [hop] at hop' <;> cases hop'

/-- What a lowered instruction does to addresses and buffers: nothing, or it computes the
address of an element, stores to a slot, or fills its result buffer. -/
theorem bindings_of_lowered (h : Lowered f s i t) :
    (t.bindings.pointers = s.bindings.pointers ∧ t.bindings.layouts = s.bindings.layouts) ∨
    (∃ p base offset first length, i.opcode = .getelementptr ∧ i.result = some p ∧
      addressParts f i = .ok (base, offset) ∧
      s.bindings.layouts.get? base = some (.contiguous first length) ∧
      t.bindings = s.bindings.bindPointer p (first + offset)) ∨
    (∃ base slots written offset n,
      s.bindings.layouts.get? base = some (.scattered slots written) ∧
      t.bindings = s.bindings.withSlot base slots written offset n) ∨
    (∃ base count, i.resultBuffer? = some base ∧
      (∀ slots written, s.bindings.layouts.get? base ≠ some (.scattered slots written)) ∧
      t.bindings = s.bindings.consecutive base (s.last + 1) count) := by
  cases h with
  | pointer hop hparts _ hv hl => exact .inr (.inl ⟨_, _, _, _, _, hop, hv, hparts, hl, rfl⟩)
  | store _ _ _ _ _ _ _ hl => exact .inr (.inr (.inl ⟨_, _, _, _, _, hl, rfl⟩))
  | atomic hop hargs _ _ _ _ _ _ hfree =>
    refine .inr (.inr (.inr ⟨_, _, ?_, hfree, rfl⟩))
    simp only [Instruction.resultBuffer?, hop, hargs]
  | extend _ _ _ ht =>
    rw [recordOperands_frame ht]
    exact .inl ⟨rfl, rfl⟩
  | combine _ _ ht =>
    rw [recordOperands_frame ht]
    exact .inl ⟨rfl, rfl⟩
  | _ => exact .inl ⟨rfl, rfl⟩

theorem grown_of_recordOperands {vs : List Handle} (hflat : s.graph.Flat)
    (h : vs.foldlM (recordOperand f) s = .ok t) : s.graph.Grown t.graph := by
  refine foldlM_keeps (P := fun r => s.graph.Grown r.graph) ?_ (.refl hflat) h
  intro r v r' hr hstep
  rcases recordOperand_cases hstep with ⟨_, rfl⟩ | ⟨_, _, _, _, _, _, _, rfl⟩
  · exact hr
  · exact hr.trans (Graph.grown_pushOperator hr.flat _ _)

theorem grown_of_lowered (hflat : s.graph.Flat) (h : Lowered f s i t) :
    s.graph.Grown t.graph := by
  cases h with
  | binary | negate | select | math => exact Graph.grown_pushOperator hflat _ _
  | @discrete _ _ _ _ rest =>
    have hname := Graph.grown_internDiscrete hflat rest
    exact hname.trans (Graph.grown_pushOperator hname.flat _ _)
  | @atomic _ _ _ _ _ _ _ _ rest =>
    have hname := Graph.grown_internAtomic hflat rest
    exact hname.trans (Graph.grown_pushOperator hname.flat _ _)
  | extend _ _ _ ht => exact grown_of_recordOperands (s := { s with extended := true }) hflat ht
  | combine _ _ ht => exact grown_of_recordOperands hflat ht
  | _ => exact .refl hflat

theorem operators_of_call {base : Handle} {first count : Nat} (hflat : s.graph.Flat)
    (hbase : i.resultBuffer? = some base) (h : Lowered f s i t)
    (hcount : t.bindings = s.bindings.consecutive base first count) :
    ∃ o : Operator, o.resultCount = count ∧ t.graph.operators = s.graph.operators ++ [o] := by
  obtain ⟨_, name, n, index, rest, hgraph, hbindings⟩ := call_of_lowered hbase h
  have hlayout := congrArg (fun b => b.layouts.get? base) (hbindings.symm.trans hcount)
  simp only [Bindings.consecutive, Table.get?_insert_self] at hlayout
  cases hlayout
  refine ⟨⟨.atom, index :: count :: rest⟩, rfl, ?_⟩
  rw [hgraph, Graph.operators_pushOperator (Graph.grown_internAtomic hflat name).flat,
    Graph.internAtomic_eq]
  rfl

/-- What is loaded through an address changes only where the address is bound. -/
theorem pointers_of_lowered {p : Handle} {index : Nat} (hi : f.instructions[index]? = some i)
    (hp : ¬ f.Binds p index) (h : Lowered f s i t) :
    t.bindings.pointers.get? p = s.bindings.pointers.get? p := by
  rcases bindings_of_lowered h with ⟨hsame, _⟩ |
    ⟨q, base, offset, first, length, hop, hq, hparts, _, ht⟩ |
    ⟨_, _, _, _, _, _, ht⟩ | ⟨base, count, hbase, _, ht⟩
  · rw [hsame]
  · have hne : p ≠ q := by
      rintro rfl
      exact hp (.inr ⟨base, offset, i, hi, hop, hq, hparts⟩)
    rw [ht]
    exact Table.get?_insert_of_ne _ _ hne
  · rw [ht]
    rfl
  · have hne : p ≠ base := by
      rintro rfl
      exact hp (.inl ⟨i, hi, hbase⟩)
    rw [ht, Bindings.consecutive]
    simp only
    split
    · exact Table.get?_erase_of_ne _ hne
    · exact Table.get?_insert_of_ne _ _ hne

theorem contiguous_of_lowered {base : Handle} {first length index : Nat}
    (hi : f.instructions[index]? = some i) (hbase : ¬ f.Fills base index) (h : Lowered f s i t)
    (hl : s.bindings.layouts.get? base = some (.contiguous first length)) :
    t.bindings.layouts.get? base = some (.contiguous first length) := by
  rcases bindings_of_lowered h with ⟨_, hsame⟩ | ⟨_, _, _, _, _, _, _, _, _, ht⟩ |
    ⟨other, slots, written, _, _, hslots, ht⟩ | ⟨other, count, hother, _, ht⟩
  · rw [hsame]
    exact hl
  · rw [ht]
    exact hl
  · have hne : base ≠ other := by
      rintro rfl
      rw [hl] at hslots
      cases hslots
    rw [ht]
    exact (Table.get?_insert_of_ne _ _ hne).trans hl
  · have hne : base ≠ other := by
      rintro rfl
      exact hbase ⟨i, hi, hother⟩
    rw [ht]
    exact (Table.get?_insert_of_ne _ _ hne).trans hl

/-- A buffer of slots stays one, with as many slots. -/
theorem slotCount_of_lowered {base : Handle} {slots : Nat} (h : Lowered f s i t)
    (hl : ∃ written, s.bindings.layouts.get? base = some (.scattered slots written)) :
    ∃ written, t.bindings.layouts.get? base = some (.scattered slots written) := by
  obtain ⟨written, hl⟩ := hl
  rcases bindings_of_lowered h with ⟨_, hsame⟩ | ⟨_, _, _, _, _, _, _, _, _, ht⟩ |
    ⟨other, count, old, offset, n, hother, ht⟩ | ⟨other, count, _, hfree, ht⟩
  · rw [hsame]
    exact ⟨written, hl⟩
  · rw [ht]
    exact ⟨written, hl⟩
  · rw [ht]
    by_cases he : base = other
    · rw [he, hother] at hl
      cases hl
      rw [he]
      exact ⟨_, Table.get?_insert_self _ _ _⟩
    · exact ⟨written, (Table.get?_insert_of_ne _ _ he).trans hl⟩
  · have hne : base ≠ other := by
      rintro rfl
      exact hfree slots written hl
    rw [ht]
    exact ⟨written, (Table.get?_insert_of_ne _ _ hne).trans hl⟩

/-- A buffer of slots stays one. -/
theorem scattered_of_lowered {base : Handle} (h : Lowered f s i t)
    (hl : ∃ slots written, s.bindings.layouts.get? base = some (.scattered slots written)) :
    ∃ slots written, t.bindings.layouts.get? base = some (.scattered slots written) := by
  obtain ⟨slots, hl⟩ := hl
  exact ⟨slots, slotCount_of_lowered h hl⟩

end Lowering

open Lowering

namespace Func

variable {f : Func} {c : Context}

theorem grown_between {start stop : Nat} {s t : Lowering} (hle : start ≤ stop)
    (hsize : stop ≤ f.instructions.size) (hs : f.before c start = .ok s) (hflat : s.graph.Flat)
    (ht : f.before c stop = .ok t) : s.graph.Grown t.graph :=
  keeps_between (P := fun r => s.graph.Grown r.graph) hle hsize hs (.refl hflat)
    (fun _ _ _ _ _ _ _ hr hstep => hr.trans (grown_of_lowered hr.flat hstep)) ht

/-- Between the place where an address is bound last and a load through it, what is
loaded does not change. -/
theorem pointers_between {p : Handle} {bound stop : Nat} {s t : Lowering}
    (hlast : LastBefore (f.Binds p) stop bound) (hsize : stop ≤ f.instructions.size)
    (hs : f.before c (bound + 1) = .ok s) (ht : f.before c stop = .ok t) :
    t.bindings.pointers.get? p = s.bindings.pointers.get? p :=
  keeps_between (P := fun r => r.bindings.pointers.get? p = s.bindings.pointers.get? p) hlast.1
    hsize hs rfl
    (fun k _ _ _ hk hlt hi hr hstep => (pointers_of_lowered hi (hlast.2.2 k hk hlt) hstep).trans hr)
    ht

theorem contiguous_between {base : Handle} {start stop first length : Nat} {s t : Lowering}
    (hle : start ≤ stop) (hnone : ∀ k, start ≤ k → k < stop → ¬ f.Fills base k)
    (hsize : stop ≤ f.instructions.size) (hs : f.before c start = .ok s)
    (hl : s.bindings.layouts.get? base = some (.contiguous first length))
    (ht : f.before c stop = .ok t) :
    t.bindings.layouts.get? base = some (.contiguous first length) :=
  keeps_between (P := fun r => r.bindings.layouts.get? base = some (.contiguous first length)) hle
    hsize hs hl
    (fun k _ _ _ hk hlt hi hr hstep => contiguous_of_lowered hi (hnone k hk hlt) hstep hr) ht

theorem not_fills_of_addresses {p base other : Handle} {offset index : Nat}
    (h : f.Addresses p base offset index) : ¬ f.Fills other index := by
  rintro ⟨i, hi, hother⟩
  obtain ⟨j, hj, hop, _, _⟩ := h
  rw [hi] at hj
  cases hj
  rw [(resultBuffer?_eq_some hother).1] at hop
  cases hop

/-- The states around an instruction, in a function that is lowered. -/
theorem exists_step {g : Graph} {index : Nat} {i : Instruction} (h : f.lower c = .ok g)
    (hi : f.instructions[index]? = some i) :
    ∃ s t, f.before c index = .ok s ∧ f.before c (index + 1) = .ok t ∧ Lowered f s i t := by
  obtain ⟨_, _, final, _, hfinal, _⟩ := lower_eq_ok.mp h
  have hlt : index < f.instructions.size := (Array.getElem?_eq_some_iff.mp hi).1
  obtain ⟨t, ht⟩ := exists_before_of_le (Nat.succ_le_of_lt hlt) hfinal
  obtain ⟨s, hs, hstep⟩ := (before_succ_eq_ok hi).mp ht
  exact ⟨s, t, hs, ht, lowered_of_instruction hstep⟩

/-- The operator that an instruction appends is still in the finished graph, with its results
behind the nodes that were there. -/
theorem firstResult?_of_appended {g : Graph} {index : Nat} {i : Instruction} {s t : Lowering}
    {o : Operator} (h : f.lower c = .ok g) (hs : f.before c index = .ok s)
    (ht : f.before c (index + 1) = .ok t) (hi : f.instructions[index]? = some i)
    (hstep : Lowered f s i t) (ho : t.graph.operators = s.graph.operators ++ [o]) :
    f.firstResult? c g index = if 0 < o.resultCount then some (s.last + 1) else none := by
  obtain ⟨r, output, final, hp, hfinal, hg⟩ := lower_eq_ok.mp h
  have hlt : index < f.instructions.size := (Array.getElem?_eq_some_iff.mp hi).1
  have hin := inOrder_before hp (Nat.le_of_lt hlt) hs
  have hend := inOrder_before hp (Nat.le_refl _) hfinal
  have hnew := grown_of_lowered hin.ordered.flat hstep
  have hgrown : t.graph.Grown final.graph := grown_between hlt (Nat.le_refl _) ht hnew.flat hfinal
  obtain ⟨written, ns, _, _, rfl⟩ := hend.finish_eq_ok hg
  have hword : final.graph.totalNodes + 1 < 1 <<< 64 := by
    have hlimit : final.graph.totalNodes ≤ 1 <<< 32 - 1 := hend.total ▸ hend.limit
    omega
  obtain ⟨firsts, hfirsts, hfirst⟩ :=
    Graph.firstResults?_eq (g := { final.graph with dependents := ns.toArray }) hword
  -- The operators are those in front of the instruction, its own, and later ones.
  obtain ⟨later, hlater⟩ := hgrown.operators
  rw [ho, List.append_assoc] at hlater
  have hat : final.graph.operators[s.graph.operators.length]? = some o := by
    rw [← hlater, List.getElem?_append_right (Nat.le_refl _), Nat.sub_self]
    rfl
  have hfront : final.graph.operators.take s.graph.operators.length = s.graph.operators := by
    rw [← hlater, List.take_append_of_le_length (Nat.le_refl _), List.take_length]
  have hleaves : final.graph.leaves = s.graph.leaves := hgrown.leaves.trans hnew.leaves
  have hnext : final.graph.leaves + 1 + Graph.results s.graph.operators = s.last + 1 := by
    rw [hleaves, Nat.add_right_comm, ← Graph.totalNodes_eq, hin.total]
  rw [firstResult?, hs, hfirsts]
  show (firsts[s.graph.operators.length]?).join = _
  rw [hfirst, ← hnext]
  show ((final.graph.operators[s.graph.operators.length]?).map _).join = _
  rw [hat, Option.map_some, Option.join_some]
  show (if _ then some (_ + Graph.results (final.graph.operators.take _)) else none) = _
  rw [hfront]
  rfl

theorem firstResult?_eq_some_iff {g : Graph} {base : Handle} {index count : Nat} {first : NodeId}
    {i : Instruction} {s t : Lowering} (h : f.lower c = .ok g) (hs : f.before c index = .ok s)
    (ht : f.before c (index + 1) = .ok t) (hi : f.instructions[index]? = some i)
    (hbase : i.resultBuffer? = some base) (hstep : Lowered f s i t)
    (hcount : t.bindings = s.bindings.consecutive base (s.last + 1) count) :
    f.firstResult? c g index = some first ↔ first = s.last + 1 ∧ 0 < count := by
  obtain ⟨_, output, _, hp, _, _⟩ := lower_eq_ok.mp h
  have hlt : index < f.instructions.size := (Array.getElem?_eq_some_iff.mp hi).1
  have hflat := (inOrder_before hp (Nat.le_of_lt hlt) hs).ordered.flat
  obtain ⟨o, ho, hops⟩ := operators_of_call hflat hbase hstep hcount
  rw [firstResult?_of_appended h hs ht hi hstep hops, ho]
  by_cases hpos : 0 < count
  · rw [if_pos hpos, Option.some.injEq]
    exact ⟨fun he => ⟨he.symm, hpos⟩, fun he => he.1.symm⟩
  · rw [if_neg hpos]
    exact ⟨fun he => (nomatch he), fun he => absurd he.2 hpos⟩

/-- A call fills its buffer with the nodes behind those that were there. -/
theorem exists_call {g : Graph} {base : Handle} {index : Nat} (h : f.lower c = .ok g)
    (hfills : f.Fills base index) :
    ∃ s t count, f.before c index = .ok s ∧ f.before c (index + 1) = .ok t ∧
      (∀ slots written, s.bindings.layouts.get? base ≠ some (.scattered slots written)) ∧
      t.bindings = s.bindings.consecutive base (s.last + 1) count ∧
      ∀ first, f.firstResult? c g index = some first ↔ first = s.last + 1 ∧ 0 < count := by
  obtain ⟨i, hi, hbase⟩ := hfills
  obtain ⟨s, t, hs, ht, hstep⟩ := exists_step h hi
  obtain ⟨hfree, _, count, _, _, _, hbindings⟩ := call_of_lowered hbase hstep
  exact ⟨s, t, count, hs, ht, hfree, hbindings, fun first =>
    firstResult?_eq_some_iff h hs ht hi hbase hstep hbindings⟩

/-- An address goes into slots, or stands for a node of a filled buffer. -/
theorem exists_address {g : Graph} {p base : Handle} {offset index : Nat} (h : f.lower c = .ok g)
    (haddr : f.Addresses p base offset index) :
    ∃ s t, f.before c index = .ok s ∧ f.before c (index + 1) = .ok t ∧
      ((∃ slots written, s.bindings.layouts.get? base = some (.scattered slots written)) ∨
       ∃ first length, s.bindings.layouts.get? base = some (.contiguous first length) ∧
         offset < length ∧ t.bindings.pointers.get? p = some (first + offset)) := by
  obtain ⟨i, hi, hop, hp, hparts⟩ := haddr
  obtain ⟨s, t, hs, ht, hstep⟩ := exists_step h hi
  refine ⟨s, t, hs, ht, ?_⟩
  rcases address_of_lowered hop hp hparts hstep with hl | ⟨first, length, hl, hlt, ht⟩
  · exact .inl hl
  · refine .inr ⟨first, length, hl, hlt, ?_⟩
    rw [ht]
    exact Table.get?_insert_self _ _ _

/-- A load binds its result to what its address stands for. -/
theorem exists_load {g : Graph} {p v : Handle} {index : Nat} {i : Instruction}
    (h : f.lower c = .ok g) (hi : f.instructions[index]? = some i) (hop : i.opcode = .load)
    (hargs : i.operands = [p]) (hv : i.result = some v) :
    ∃ s n, f.before c index = .ok s ∧ s.bindings.pointers.get? p = some n ∧
      f.node? c (index + 1) v = some n := by
  obtain ⟨s, t, hs, ht, hstep⟩ := exists_step h hi
  obtain ⟨n, hn, rfl⟩ := load_of_lowered hop hargs hv hstep
  refine ⟨s, n, hs, hn, ?_⟩
  rw [node?, ht]
  exact Table.get?_insert_self _ _ _

theorem scattered_between {base : Handle} {start stop : Nat} {s t : Lowering} (hle : start ≤ stop)
    (hsize : stop ≤ f.instructions.size) (hs : f.before c start = .ok s)
    (hl : ∃ slots written, s.bindings.layouts.get? base = some (.scattered slots written))
    (ht : f.before c stop = .ok t) :
    ∃ slots written, t.bindings.layouts.get? base = some (.scattered slots written) :=
  keeps_between
    (P := fun r => ∃ slots written, r.bindings.layouts.get? base = some (.scattered slots written))
    hle hsize hs hl (fun _ _ _ _ _ _ _ hr hstep => scattered_of_lowered hstep hr) ht

/-- Loaded through the buffer itself: the first result of the latest call. -/
theorem load_through_buffer {g : Graph} {p : Handle} {index call : Nat} {s : Lowering} {n : NodeId}
    (h : f.lower c = .ok g) (hsize : index ≤ f.instructions.size) (hs : f.before c index = .ok s)
    (hn : s.bindings.pointers.get? p = some n) (hlast : LastBefore (f.Binds p) index call)
    (hfills : f.Fills p call) : f.firstResult? c g call = some n := by
  obtain ⟨r, t, count, _, ht, _, hbindings, hfirst⟩ := exists_call h hfills
  rw [pointers_between hlast hsize ht hs, hbindings, Bindings.consecutive] at hn
  -- A call without results leaves nothing to load, and there was something.
  by_cases hcount : count = 0
  · simp only [hcount, if_true, Table.get?_erase_self] at hn
    cases hn
  · simp only [hcount, if_false, Table.get?_insert_self] at hn
    exact (hfirst n).mpr ⟨(Option.some.inj hn).symm, Nat.pos_of_ne_zero hcount⟩

end Func
end SsaGraph

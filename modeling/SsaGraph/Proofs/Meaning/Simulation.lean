import SsaGraph.Proofs.Lowering.NodeOrder
import SsaGraph.Proofs.Meaning.Agreement

/-!
Lowering keeps the meaning of a function.

A run of the function and the evaluation of the graph go side by side: whenever an
instruction is lowered it can also be run, the operators it appends get the values that
the run computes, and the two agree again behind it (`Simulates.step`).  At the end the
nodes in the slots of the output have the numbers that the run stored there last.
-/

namespace SsaGraph
open Lowering

variable {α : Type}

/-! ## Results of operators -/

/-- Operators that are interpreted as functions of their nodes. -/
def Op.isPlain : Op → Bool
  | atom | atom4 | discrete | cexpEq | cexpLe | cexpLt | compEq | compLe | compLt | compNe
  | print => false
  | _ => true

theorem Op.isPlain_of_operator? {opcode : Opcode} {op : Op} (h : opcode.operator? = some op) :
    op.isPlain = true := by
  cases opcode <;> cases h <;> rfl

theorem Op.isPlain_of_callee? {name : String} {op : Op} (h : op.callee? = some name) :
    op.isPlain = true := by
  cases op <;> first | rfl | cases h

section
variable {I : Interpretation α} {atomics discretes : Array String} {nodes xs : List α}
  {args : List Nat}

theorem results?_of_isPlain {op : Op} (hop : op.isPlain = true)
    (hargs : args.mapM (nodeAt nodes) = some xs) :
    Operator.results? I atomics discretes nodes ⟨op, args⟩ = some [I.operator op xs] := by
  have hbind : ∀ k : List α → Option (List α), (args.mapM (nodeAt nodes) >>= k) = k xs := by
    intro k
    rw [hargs]
    rfl
  cases op <;> first | exact hbind _ | cases hop

theorem results?_of_recording? {d : Comparison} {op : Op} (hop : d.recording? = some op)
    (hargs : args.mapM (nodeAt nodes) = some xs) :
    Operator.results? I atomics discretes nodes ⟨op, args⟩ = some [] := by
  have hbind : ∀ k : List α → Option (List α), (args.mapM (nodeAt nodes) >>= k) = k xs := by
    intro k
    rw [hargs]
    rfl
  unfold Comparison.recording? at hop
  split at hop <;> cases hop <;> exact hbind _

/-- A conditional expression decides by the comparison that it was selected for. -/
theorem results?_of_selecting? {d : Comparison} {op : Op} (hop : d.selecting? = some op)
    {left right yes no : α} (hargs : args.mapM (nodeAt nodes) = some [left, right, yes, no]) :
    ∃ p, d.predicate = .float p ∧ Operator.results? I atomics discretes nodes ⟨op, args⟩ =
      some [if I.holds p left right then yes else no] := by
  have hbind : ∀ k : List α → Option (List α),
      (args.mapM (nodeAt nodes) >>= k) = k [left, right, yes, no] := by
    intro k
    rw [hargs]
    rfl
  unfold Comparison.selecting? at hop
  split at hop
  next hp => cases hop; exact ⟨.oeq, hp, hbind _⟩
  next hp => cases hop; exact ⟨.ole, hp, hbind _⟩
  next hp => cases hop; exact ⟨.olt, hp, hbind _⟩
  · cases hop

end

/-! ## The graph so far -/

/-- The graph of a lowering has as many values as nodes were handed out. -/
structure Computes (I : Interpretation α) (x : Nat → α) (s : Lowering) (nodes : List α) : Prop where
  flat : s.graph.Flat
  eval : s.graph.eval? I x = some nodes
  length : nodes.length = s.last

variable {I : Interpretation α} {x : Nat → α} {f : Func} {input output : Handle} {index : Nat}
  {s t : Lowering} {m : Machine α} {nodes : List α}

theorem Computes.nodeAt_next (h : Computes I x s nodes) (rs : List α) (k : Nat) :
    nodeAt (nodes ++ rs) (s.last + 1 + k) = rs[k]? := by
  rw [← h.length]
  exact nodeAt_length_add nodes rs k

/-- Two lists that correspond member by member give the same values. -/
theorem exists_mapM_eq {β γ : Type} {p : β → Option α} {q : γ → Option α} {bs : List β}
    {cs : List γ} (h : List.Forall₂ (fun b c => ∃ a, p b = some a ∧ q c = some a) bs cs) :
    ∃ xs, bs.mapM p = some xs ∧ cs.mapM q = some xs := by
  induction h with
  | nil => exact ⟨[], rfl, rfl⟩
  | cons hbc _ ih =>
    obtain ⟨a, hb, hc⟩ := hbc
    obtain ⟨xs, hbs, hcs⟩ := ih
    refine ⟨a :: xs, ?_, ?_⟩
    · rw [List.mapM_cons, hb, hbs]
      rfl
    · rw [List.mapM_cons, hc, hcs]
      rfl

theorem Agrees.args (h : Agrees I f input output index s m nodes) {vs : List Handle}
    {ns : List NodeId} (hn : s.HasNodes vs ns) :
    ∃ xs, vs.mapM m.number? = some xs ∧ ns.mapM (nodeAt nodes) = some xs := by
  refine exists_mapM_eq (List.Forall₂.imp ?_ hn)
  intro v n hv
  obtain ⟨_, a, ha, hnode⟩ := h.values hv
  exact ⟨a, Machine.number?_of_env ha, hnode⟩

/-- The numbers in an argument buffer are those of the nodes it is filled with. -/
theorem Agrees.read? (h : Agrees I f input output index s m nodes) {base : Handle} {n : Nat}
    {written : Array (Option NodeId)} {ns : List NodeId}
    (hl : s.bindings.layouts.get? base = some (.scattered n written))
    (hns : Slots.filled n written = .ok ns) :
    ∃ xs, m.read? ⟨base, 0⟩ n = some xs ∧ ns.mapM (nodeAt nodes) = some xs := by
  obtain ⟨hlen, hget⟩ := Slots.filled_eq_ok_iff.mp hns
  refine exists_mapM_eq (List.forall₂_iff_get.mpr ⟨by rw [List.length_range, hlen], ?_⟩)
  intro k hk hk'
  rw [List.length_range] at hk
  obtain ⟨a, ha, hn⟩ := (h.slots hl).2 k _ ((hget k hk).trans (List.getElem?_eq_getElem hk'))
  refine ⟨a, ?_, hn⟩
  show m.memory base (0 + (List.range n).get ⟨k, _⟩) = some a
  rw [List.get_eq_getElem, List.getElem_range, Nat.zero_add]
  exact ha

/-! ## One instruction -/

structure Simulates (I : Interpretation α) (x : Nat → α) (f : Func) (input output : Handle)
    (index : Nat) (s : Lowering) (m : Machine α) (nodes : List α) : Prop where
  agrees : Agrees I f input output index s m nodes
  computes : Computes I x s nodes

/-- An operator with one result, whose value is the new datum of the instruction. -/
theorem Simulates.produce (h : Agrees I f input output index s m nodes)
    (hc : Computes I x s nodes) {v : Handle} {op : Op} {args : List Nat} {a : α}
    (hdef : f.DefinedBefore index v) (henv : m.env v = some (.number a))
    (hrs : Operator.results? I s.graph.atomicNames s.graph.discreteNames nodes ⟨op, args⟩ =
      some [a]) :
    Simulates I x f input output index (s.produce v op args) m (nodes ++ [a]) := by
  refine ⟨?_, Graph.flat_pushOperator hc.flat op args, Graph.eval?_pushOperator hc.flat hc.eval hrs,
    ?_⟩
  · have hnext : nodeAt (nodes ++ [a]) (s.last + 1) = some a := hc.nodeAt_next [a] 0
    exact ((h.append [a]).bindValue hdef henv hnext).congr_tables rfl rfl rfl
  · rw [List.length_append, hc.length]
    rfl

theorem Computes.internDiscrete (hc : Computes I x s nodes) (name : String) :
    Computes I x { s with graph := (s.graph.internDiscrete name).1 } nodes := by
  refine ⟨?_, Graph.eval?_internDiscrete name hc.eval, hc.length⟩
  show (s.graph.internDiscrete name).1.Flat
  rw [Graph.internDiscrete_eq]
  exact ⟨hc.flat.size, hc.flat.sorted, hc.flat.bounded⟩

theorem Computes.internAtomic (hc : Computes I x s nodes) (name : String) :
    Computes I x { s with graph := (s.graph.internAtomic name).1 } nodes := by
  refine ⟨?_, Graph.eval?_internAtomic name hc.eval, hc.length⟩
  show (s.graph.internAtomic name).1.Flat
  rw [Graph.internAtomic_eq]
  exact ⟨hc.flat.size, hc.flat.sorted, hc.flat.bounded⟩

/-- Recorded comparisons have no results, so the values are the same. -/
theorem Simulates.recordOperands (h : Simulates I x f input output index s m nodes)
    {vs : List Handle} (ht : vs.foldlM (recordOperand f) s = .ok t) :
    Simulates I x f input output index t m nodes := by
  refine foldlM_keeps (P := fun r => Simulates I x f input output index r m nodes) ?_ h ht
  intro r v r' hr hstep
  rcases recordOperand_cases hstep with ⟨_, rfl⟩ | ⟨d, op, left, right, _, hop, hn, rfl⟩
  · exact hr
  · obtain ⟨xs, _, hxs⟩ := hr.agrees.args hn
    have heval := Graph.eval?_pushOperator hr.computes.flat hr.computes.eval
      (results?_of_recording? hop hxs)
    rw [List.append_nil] at heval
    exact ⟨hr.agrees.congr_tables rfl rfl rfl, Graph.flat_pushOperator hr.computes.flat _ _, heval,
      hr.computes.length⟩

/-- What the steps of a function need to know about it. -/
structure Func.Staged (f : Func) (input output : Handle) : Prop where
  scope : f.Scoped
  own : f.OwnBuffers
  input : f.args[Convention.input]? = some input
  output : f.args[Convention.output]? = some output

theorem addressParts_eq_ok {i : Instruction} {base : Handle} {offset : Nat}
    (h : addressParts f i = .ok (base, offset)) :
    f.elementOf? i.operands = some (base, offset) ∧ base ∈ i.operands := by
  have hcount : ∀ {b v}, (return (b, ← count f v) : Except Fault (Handle × Nat)) =
      .ok (base, offset) → b = base ∧ (f.int? v).map (fun n => (b, n.toNat)) = some (base, offset) := by
    intro b v hc
    obtain ⟨n, hn, hc⟩ := bind_eq_ok.mp hc
    cases hc
    obtain ⟨w, hw, rfl⟩ := count_eq_ok.mp hn
    exact ⟨rfl, by rw [hw]; rfl⟩
  unfold addressParts at h
  unfold Func.elementOf?
  split at h
  next b v hargs =>
    obtain ⟨rfl, hw⟩ := hcount h
    rw [hargs]
    exact ⟨hw, List.mem_cons_self⟩
  next b z v hargs =>
    split at h
    next hz =>
      obtain ⟨rfl, hw⟩ := hcount h
      rw [hargs]
      exact ⟨(if_pos hz).trans hw, List.mem_cons_self⟩
    · exact absurd h malformed_ne_ok
  · exact absurd h malformed_ne_ok

namespace Simulates

variable {i : Instruction} (h : Simulates I x f input output index s m nodes)
  (hf : f.Staged input output) (hi : f.instructions[index]? = some i)
include h hf hi

/-- The base of an address is a buffer, and a pointer to its start. -/
theorem env_base (base : Handle) (hbase : f.Home input output base) (hmem : base ∈ i.operands) :
    m.env base = some (.pointer ⟨base, 0⟩) :=
  h.agrees.homes hbase (hf.scope.definedBefore_operand hi hmem)

theorem define (hop : i.opcode ≠ .alloca) (d : Option (Datum α)) :
    Agrees I f input output (index + 1) s (m.define i.result d) nodes :=
  h.agrees.define hf.scope hi hf.input hf.output hop d

/-- An instruction that is interpreted as an operator. -/
theorem step_operator {v : Handle} {op : Op} {args : List Handle} {ns : List NodeId}
    (hop : i.opcode ≠ .alloca) (hplain : op.isPlain = true) (hn : s.HasNodes args ns)
    (hv : i.result = some v) :
    ∃ a, (args.mapM m.number?).bind (fun xs =>
        some (m.define i.result (some (.number (I.operator op xs))))) =
          some (m.define i.result (some (.number a))) ∧
      Simulates I x f input output (index + 1) (s.produce v op ns)
        (m.define i.result (some (.number a))) (nodes ++ [a]) := by
  obtain ⟨xs, hxs, hns⟩ := h.agrees.args hn
  refine ⟨I.operator op xs, by rw [hxs]; rfl, ?_⟩
  exact produce (h.define hf hi hop _) h.computes (hf.scope.definedBefore_result hi hv)
    (Machine.env_define hv _) (results?_of_isPlain hplain hns)

theorem step_alloca (hop : i.opcode = .alloca) :
    ∃ m', m.step? I f i = some m' ∧ Simulates I x f input output (index + 1) s m' nodes := by
  refine ⟨m.define i.result (i.result.map fun v => .pointer ⟨v, 0⟩),
    by simp only [Machine.step?, hop], ?_, h.computes⟩
  refine h.agrees.next hf.scope hi hf.input hf.output (fun v hv => if_neg hv) rfl ?_
  intro _ v hv
  rw [Machine.env_define hv, hv]
  rfl

theorem step_load {p v : Handle} {n : NodeId} (hop : i.opcode = .load) (hargs : i.operands = [p])
    (hn : s.bindings.pointers.get? p = some n) (hv : i.result = some v) :
    ∃ m', m.step? I f i = some m' ∧ Simulates I x f input output (index + 1)
      { s with bindings := s.bindings.bindValue v n } m' nodes := by
  obtain ⟨_, e, a, he, _, ha, hnode⟩ := h.agrees.pointers hn
  refine ⟨m.define i.result (some (.number a)), ?_, ?_⟩
  · simp only [Machine.step?, hop, hargs, Machine.pointer?_of_env he, ha, Option.bind_eq_bind,
      Option.bind_some]
  · refine ⟨?_, h.computes.flat, h.computes.eval, h.computes.length⟩
    exact (h.define hf hi (by rw [hop]; decide) _).bindValue (hf.scope.definedBefore_result hi hv)
      (Machine.env_define hv _) hnode

/-- The address of an element, from the start of its buffer. -/
theorem step_address {base : Handle} {offset : Nat} (hop : i.opcode = .getelementptr)
    (hparts : addressParts f i = .ok (base, offset)) (hbase : f.Home input output base) :
    m.step? I f i = some (m.define i.result (some (.pointer ⟨base, offset⟩))) := by
  obtain ⟨helement, hmem⟩ := addressParts_eq_ok hparts
  simp only [Machine.step?, hop, helement, Machine.pointer?_of_env (h.env_base hf hi base hbase hmem),
    Option.bind_eq_bind, Option.bind_some, Nat.zero_add]

theorem step_element {base v : Handle} {offset slots : Nat} {written : Array (Option NodeId)}
    (hop : i.opcode = .getelementptr) (hparts : addressParts f i = .ok (base, offset))
    (hv : i.result = some v)
    (hl : s.bindings.layouts.get? base = some (.scattered slots written)) :
    ∃ m', m.step? I f i = some m' ∧ Simulates I x f input output (index + 1)
      (s.recordElement v ⟨base, offset⟩) m' nodes := by
  have hbase : f.Home input output base := .inr (h.agrees.slots hl).1
  refine ⟨_, h.step_address hf hi hop hparts hbase, ?_, h.computes.flat, h.computes.eval,
    h.computes.length⟩
  exact (h.define hf hi (by rw [hop]; decide) _).recordElement
    (hf.scope.definedBefore_result hi hv) (Machine.env_define hv _)

theorem step_pointer {base v : Handle} {offset first length : Nat}
    (hop : i.opcode = .getelementptr) (hparts : addressParts f i = .ok (base, offset))
    (hv : i.result = some v) (hl : s.bindings.layouts.get? base = some (.contiguous first length))
    (hlt : offset < length) :
    ∃ m', m.step? I f i = some m' ∧ Simulates I x f input output (index + 1)
      { s with bindings := s.bindings.bindPointer v (first + offset) } m' nodes := by
  obtain ⟨hhome, hvalues⟩ := h.agrees.consecutive hl
  obtain ⟨a, ha, hnode⟩ := hvalues offset hlt
  have hbase : f.Home input output base := by
    refine hhome.imp_right fun hb => .inr ?_
    exact hf.own.results base (f.resultBuffers_subset index base hb)
  refine ⟨_, h.step_address hf hi hop hparts hbase, ?_, h.computes.flat, h.computes.eval,
    h.computes.length⟩
  exact (h.define hf hi (by rw [hop]; decide) _).bindPointer (hf.scope.definedBefore_result hi hv)
    (Machine.env_define hv _) hl ha hnode

theorem step_message {stored p : Handle} (hop : i.opcode = .store)
    (hargs : i.operands = [stored, p]) (hm : f.args[Convention.message]? = some p) :
    ∃ m', m.step? I f i = some m' ∧ Simulates I x f input output (index + 1) s m' nodes := by
  refine ⟨m, by simp only [Machine.step?, hop, hargs, hm, if_true], ?_, h.computes⟩
  exact h.agrees.next hf.scope hi hf.input hf.output (fun _ _ => rfl) rfl
    fun ha => absurd (hop.symm.trans ha) (by decide)

theorem step_store {stored p : Handle} {n : NodeId} {e : Element} {slots : Nat}
    {written : Array (Option NodeId)} (hop : i.opcode = .store)
    (hargs : i.operands = [stored, p]) (hm : f.args[Convention.message]? ≠ some p)
    (hn : s.bindings.values.get? stored = some n) (he : s.elements.get? p = some e)
    (hl : s.bindings.layouts.get? e.base = some (.scattered slots written)) :
    ∃ m', m.step? I f i = some m' ∧ Simulates I x f input output (index + 1)
      { s with bindings := s.bindings.withSlot e.base slots written e.offset n } m' nodes := by
  obtain ⟨_, a, ha, hnode⟩ := h.agrees.values hn
  have hp : m.env p = some (.pointer e) := by
    rcases h.agrees.elements he with ⟨hhome, rfl⟩ | ⟨_, henv⟩
    · exact h.env_base hf hi p hhome (by rw [hargs]; simp)
    · exact henv
  refine ⟨m.write e a, ?_, ?_, h.computes.flat, h.computes.eval, h.computes.length⟩
  · simp only [Machine.step?, hop, hargs, hm, if_false, Machine.number?_of_env ha,
      Machine.pointer?_of_env hp, Option.bind_eq_bind, Option.bind_some]
  · have hnext : Agrees I f input output (index + 1) s m nodes :=
      h.agrees.next hf.scope hi hf.input hf.output (fun _ _ => rfl) rfl
        fun ha => absurd (hop.symm.trans ha) (by decide)
    exact hnext.store hl hnode

theorem step_compare {left right v : Handle} {p : Predicate}
    (hop : i.opcode = .fcmp ∨ i.opcode = .icmp) (hargs : i.operands = [left, right])
    (hpred : i.predicate = some p) (hv : i.result = some v) :
    ∃ m', m.step? I f i = some m' ∧ Simulates I x f input output (index + 1)
      { s with comparisons := s.comparisons.insert v ⟨p, left, right⟩ } m' nodes := by
  have hleft := hf.scope.definedBefore_operand hi (v := left) (by rw [hargs]; simp)
  have hright := hf.scope.definedBefore_operand hi (v := right) (by rw [hargs]; simp)
  refine ⟨m.define i.result (m.comparison? I i left right), ?_, ?_, h.computes.flat,
    h.computes.eval, h.computes.length⟩
  · rcases hop with hop | hop <;> simp only [Machine.step?, hop, hargs]
  · have hne : i.opcode ≠ .alloca := by rcases hop with hop | hop <;> rw [hop] <;> decide
    refine (h.define hf hi hne _).compare (hf.scope.definedBefore_result hi hv)
      (hleft.mono (Nat.le_succ index)) (hright.mono (Nat.le_succ index)) ?_
    intro q a b hq ha hb
    -- The operands were there before, so they are not what the comparison defines.
    have ha : m.env left = some (.number a) := by
      rw [← ha]
      exact (if_neg (hleft.ne_result hf.scope hi)).symm
    have hb : m.env right = some (.number b) := by
      rw [← hb]
      exact (if_neg (hright.ne_result hf.scope hi)).symm
    have hq : p = .float q := hq
    rw [Machine.env_define hv, Machine.comparison?, hpred, hq, Machine.number?_of_env ha,
      Machine.number?_of_env hb]

/-- Instructions on integers define nothing that is followed. -/
theorem step_ignored (hop : i.opcode = .zext ∨ i.opcode = .or ∨ i.opcode = .br ∨ i.opcode = .ret) :
    ∃ m', m.step? I f i = some m' ∧ Simulates I x f input output (index + 1) s m' nodes := by
  refine ⟨m.define i.result none, ?_, h.define hf hi ?_ none, h.computes⟩
  · rcases hop with hop | hop | hop | hop <;> simp only [Machine.step?, hop]
  · rcases hop with hop | hop | hop | hop <;> rw [hop] <;> decide

theorem step_selectCode {condition ifTrue ifFalse : Handle} {type : Ty} (hop : i.opcode = .select)
    (hargs : i.operands = [condition, ifTrue, ifFalse]) (ht : f.type? ifTrue = some type)
    (hd : type ≠ .double) :
    ∃ m', m.step? I f i = some m' ∧ Simulates I x f input output (index + 1) s m' nodes := by
  have hne : f.type? ifTrue ≠ some .double := fun e => hd (Option.some.inj (ht.symm.trans e))
  refine ⟨m.define i.result none, ?_, h.define hf hi (by rw [hop]; decide) none, h.computes⟩
  simp only [Machine.step?, hop, hargs, hne, if_false]

theorem step_select {condition ifTrue ifFalse v : Handle} {d : Comparison} {op : Op}
    {ns : List NodeId} (hop : i.opcode = .select)
    (hargs : i.operands = [condition, ifTrue, ifFalse])
    (hc : s.comparisons.get? condition = some d) (hsel : d.selecting? = some op)
    (hd : f.type? ifTrue = some .double)
    (hn : s.HasNodes [d.left, d.right, ifTrue, ifFalse] ns) (hv : i.result = some v) :
    ∃ m' nodes', m.step? I f i = some m' ∧
      Simulates I x f input output (index + 1) (s.produce v op ns) m' nodes' := by
  obtain ⟨xs, hxs, hns⟩ := h.agrees.args hn
  -- Each of the four values has a node, and so it is a number.
  cases hn with | cons hl hn =>
  cases hn with | cons hr hn =>
  cases hn with | cons hyes hn =>
  cases hn with | cons hno hn =>
  obtain ⟨_, left, hleft, _⟩ := h.agrees.values hl
  obtain ⟨_, right, hright, _⟩ := h.agrees.values hr
  obtain ⟨_, yes, hyes, _⟩ := h.agrees.values hyes
  obtain ⟨_, no, hno, _⟩ := h.agrees.values hno
  have he : xs = [left, right, yes, no] := by
    simp only [List.mapM_cons, List.mapM_nil, Machine.number?_of_env hleft,
      Machine.number?_of_env hright, Machine.number?_of_env hyes, Machine.number?_of_env hno,
      Option.bind_eq_bind, Option.bind_some, Option.pure_def, Option.some.injEq] at hxs
    exact hxs.symm
  rw [he] at hns
  obtain ⟨p, hp, hrs⟩ := @results?_of_selecting? _ I s.graph.atomicNames s.graph.discreteNames
    nodes _ d op hsel left right yes no hns
  obtain ⟨_, _, _, htruth⟩ := h.agrees.comparisons hc
  have hb := Machine.truth?_of_env (htruth p left right hp hleft hright)
  refine ⟨m.define i.result (some (.number (if I.holds p left right then yes else no))), _, ?_,
    produce (h.define hf hi (by rw [hop]; decide) _) h.computes
      (hf.scope.definedBefore_result hi hv) (Machine.env_define hv _) hrs⟩
  simp only [Machine.step?, hop, hargs, hd, if_true, hb, Machine.number?_of_env hyes,
    Machine.number?_of_env hno, Option.bind_eq_bind, Option.bind_some]

theorem step_math {callee v : Handle} {name : String} {op : Op} {args : List Handle}
    {ns : List NodeId} (hop : i.opcode = .call) (hargs : i.operands = args ++ [callee])
    (hlen : args.length = 1 ∨ args.length = 2) (hname : f.symbol? callee = some name)
    (hcallee : op.callee? = some name) (hn : s.HasNodes args ns) (hv : i.result = some v) :
    ∃ m' nodes', m.step? I f i = some m' ∧
      Simulates I x f input output (index + 1) (s.produce v op ns) m' nodes' := by
  obtain ⟨a, hstep, hsim⟩ := h.step_operator hf hi (by rw [hop]; decide)
    (Op.isPlain_of_callee? hcallee) hn hv
  refine ⟨_, _, ?_, hsim⟩
  rw [Machine.step?_callMath hop hargs hlen hname, ← hstep]
  simp only [Machine.callMath?, discreteName?_of_callee? hcallee, Op.ofFunction?_of_callee? hcallee,
    Option.bind_eq_bind, Option.bind_some]

theorem step_discrete {callee arg v : Handle} {name rest : String} {n : NodeId}
    (hop : i.opcode = .call) (hargs : i.operands = [arg, callee])
    (hname : f.symbol? callee = some name) (hrest : reservedRest? discreteStart name = some rest)
    (hn : s.HasNodes [arg] [n]) (hv : i.result = some v) :
    ∃ m' nodes', m.step? I f i = some m' ∧
      Simulates I x f input output (index + 1)
        ({ s with graph := (s.graph.internDiscrete rest).1 }.produce v .discrete
          [(s.graph.internDiscrete rest).2, n]) m' nodes' := by
  cases hn with | cons hval _ =>
  obtain ⟨_, a, ha, hnode⟩ := h.agrees.values hval
  have hdefine : Agrees I f input output (index + 1)
      { s with graph := (s.graph.internDiscrete rest).1 }
      (m.define i.result (some (.number (I.discrete rest a)))) nodes :=
    (h.define hf hi (by rw [hop]; decide) _).congr_tables rfl rfl rfl
  refine ⟨_, _, ?_, produce hdefine (h.computes.internDiscrete rest)
    (hf.scope.definedBefore_result hi hv) (Machine.env_define hv _) ?_⟩
  · have hsplit : i.operands = [arg] ++ [callee] := hargs
    rw [Machine.step?_callMath hop hsplit (.inl rfl) hname]
    simp only [Machine.callMath?, discreteName?_of_reservedRest? hrest, List.mapM_cons, List.mapM_nil,
      Machine.number?_of_env ha, Option.bind_eq_bind, Option.bind_some, Option.pure_def]
  · have hindex : (s.graph.internDiscrete rest).1.discreteNames[(s.graph.internDiscrete rest).2]? =
        some rest := by
      rw [Graph.internDiscrete_eq]
      exact Graph.internName_getElem? _ _
    simp [Operator.results?, Operator.nodes, Op.headSize, hnode, hindex]

/-- An atomic call reads what was stored in its argument buffer.  Its result buffer is
filled for the first time, so nothing that was bound before pointed into it. -/
theorem step_atomic {counted arguments countedResults results length message callee : Handle}
    {name rest : String} {argumentCount resultCount : Nat} {written : Array (Option NodeId)}
    {ns : List NodeId} (hop : i.opcode = .call)
    (hargs : i.operands = [counted, arguments, countedResults, results, length, message, callee])
    (hname : f.symbol? callee = some name) (hrest : reservedRest? atomicStart name = some rest)
    (hcount : count f counted = .ok argumentCount)
    (hresults : count f countedResults = .ok resultCount)
    (hl : s.bindings.layouts.get? arguments = some (.scattered argumentCount written))
    (hns : Slots.filled argumentCount written = .ok ns)
    (hfree : ∀ slots written, s.bindings.layouts.get? results ≠ some (.scattered slots written)) :
    ∃ m' nodes', m.step? I f i = some m' ∧ Simulates I x f input output (index + 1)
      { s with
        graph := (s.graph.internAtomic rest).1.pushOperator .atom
          ((s.graph.internAtomic rest).2 :: resultCount :: argumentCount :: ns)
        bindings := s.bindings.consecutive results (s.last + 1) resultCount
        last := s.last + resultCount } m' nodes' := by
  obtain ⟨xs, hread, hxs⟩ := h.agrees.read? hl hns
  obtain ⟨wa, hwa, hwa'⟩ := count_eq_ok.mp hcount
  obtain ⟨wr, hwr, hwr'⟩ := count_eq_ok.mp hresults
  have hbuffer : i.resultBuffer? = some results := by
    simp only [Instruction.resultBuffer?, hop, hargs]
  have hmem : i ∈ f.instructions.toList :=
    Array.mem_toList_iff.mpr (Array.mem_of_getElem? hi)
  have halloc : results ∈ f.allocated :=
    hf.own.results results (List.mem_filterMap.mpr ⟨i, hmem, hbuffer⟩)
  have hto := h.env_base hf hi results (.inr (.inr halloc)) (by rw [hargs]; simp)
  have hfrom := h.env_base hf hi arguments (.inr (h.agrees.slots hl).1) (by rw [hargs]; simp)
  have hnone : s.bindings.layouts.get? results = none := by
    cases hc : s.bindings.layouts.get? results with
    | none => rfl
    | some l =>
      cases l with
      | scattered slots written => exact absurd hc (hfree slots written)
      | contiguous first size =>
        rcases (h.agrees.consecutive hc).1 with rfl | hb
        · exact absurd halloc (hf.scope.arg_not_mem_allocated hf.input)
        · exact absurd hb (hf.own.not_mem_resultBuffers hi hbuffer)
  let values := I.atomic rest resultCount xs
  refine ⟨(m.fill ⟨results, 0⟩ resultCount values).define i.result none,
    nodes ++ (List.range resultCount).map values, ?_, ?_, ?_, ?_, ?_⟩
  · rw [← hwa'] at hread
    simp only [Machine.step?, hop, hargs, List.getLast?_cons_cons, List.getLast?_singleton,
      List.dropLast_cons_cons, List.dropLast_singleton, Option.bind_some, hname,
      Option.bind_eq_bind, Machine.callAtomic?, atomicName?_of_reservedRest? hrest, hwa, hwr, Machine.pointer?_of_env hfrom,
      Machine.pointer?_of_env hto, hread, hwr']
    rfl
  · have hdef : f.DefinedBefore index results :=
      hf.scope.definedBefore_operand hi (by rw [hargs]; simp)
    have hin : results ∈ f.resultBuffers (index + 1) := by
      rw [Func.resultBuffers_succ hi, hbuffer]
      exact List.mem_append_right _ List.mem_cons_self
    have henv : (m.define i.result none).env results = some (.pointer ⟨results, 0⟩) :=
      (if_neg (hdef.ne_result hf.scope hi)).trans hto
    have hnext := (h.define hf hi (by rw [hop]; decide) none).append
      ((List.range resultCount).map values)
    refine (hnext.fill hnone hin (hdef.mono (Nat.le_succ index)) henv ?_).congr_tables rfl rfl rfl
    intro k hk
    rw [h.computes.nodeAt_next, List.getElem?_map, List.getElem?_range hk]
    rfl
  · exact Graph.flat_pushOperator (h.computes.internAtomic rest).flat _ _
  · refine Graph.eval?_pushOperator (h.computes.internAtomic rest).flat
      (h.computes.internAtomic rest).eval ?_
    have hindex : (s.graph.internAtomic rest).1.atomicNames[(s.graph.internAtomic rest).2]? =
        some rest := by
      rw [Graph.internAtomic_eq]
      exact Graph.internName_getElem? _ _
    simp [Operator.results?, Operator.nodes, Op.headSize, hxs, hindex, values]
  · rw [List.length_append, List.length_map, List.length_range, h.computes.length]

/-- A lowered instruction can be run, and the two sides agree behind it. -/
theorem step (ht : Lowered f s i t) :
    ∃ m' nodes', m.step? I f i = some m' ∧
      Simulates I x f input output (index + 1) t m' nodes' := by
  have same : ∀ {r : Lowering},
      (∃ m', m.step? I f i = some m' ∧ Simulates I x f input output (index + 1) r m' nodes) →
        ∃ m' nodes', m.step? I f i = some m' ∧
          Simulates I x f input output (index + 1) r m' nodes' :=
    fun ⟨m', hstep, hsim⟩ => ⟨m', nodes, hstep, hsim⟩
  cases ht with
  | alloca hop => exact same (h.step_alloca hf hi hop)
  | load hop hargs _ hn hv => exact same (h.step_load hf hi hop hargs hn hv)
  | element hop hparts _ hv hl => exact same (h.step_element hf hi hop hparts hv hl)
  | pointer hop hparts _ hv hl hlt => exact same (h.step_pointer hf hi hop hparts hv hl hlt)
  | message hop hargs hm => exact same (h.step_message hf hi hop hargs hm)
  | store hop hargs hm _ _ hn he hl => exact same (h.step_store hf hi hop hargs hm hn he hl)
  | @binary op _ _ _ _ _ hop hargs _ hn hv _ =>
    have hoperator : i.opcode.operator? = some op := Opcode.operator?_of_binaryOp? hop
    have hne : i.opcode ≠ .alloca := by
      intro ha
      rw [ha] at hop
      cases hop
    obtain ⟨a, hstep, hsim⟩ := h.step_operator hf hi hne (Op.isPlain_of_operator? hoperator) hn hv
    exact ⟨_, _, by rw [Machine.step?_of_operator? hoperator, hargs, hstep], hsim⟩
  | negate hop hargs _ hn hv _ =>
    have hoperator : i.opcode.operator? = some .neg := by rw [hop]; rfl
    obtain ⟨a, hstep, hsim⟩ := h.step_operator hf hi (by rw [hop]; decide)
      (Op.isPlain_of_operator? hoperator) hn hv
    exact ⟨_, _, by rw [Machine.step?_of_operator? hoperator, hargs, hstep], hsim⟩
  | compare hop hargs _ hpred hv => exact same (h.step_compare hf hi hop hargs hpred hv)
  | extend hop _ _ ht =>
    obtain ⟨m', hstep, hsim⟩ := h.step_ignored hf hi (.inl hop)
    have hseen : Simulates I x f input output (index + 1) { s with extended := true } m' nodes :=
      ⟨hsim.agrees.congr_tables rfl rfl rfl, hsim.computes.flat, hsim.computes.eval,
        hsim.computes.length⟩
    exact ⟨m', nodes, hstep, hseen.recordOperands ht⟩
  | combine hop _ ht =>
    obtain ⟨m', hstep, hsim⟩ := h.step_ignored hf hi (.inr (.inl hop))
    exact ⟨m', nodes, hstep, hsim.recordOperands ht⟩
  | selectCode hop hargs _ ht hd => exact same (h.step_selectCode hf hi hop hargs ht hd)
  | select hop hargs hc hsel hd hn hv _ =>
    exact h.step_select hf hi hop hargs hc hsel hd.1 hn hv
  | math hop hargs hlen hname _ _ hcallee hn hv _ =>
    exact h.step_math hf hi hop hargs hlen hname (Op.callee?_of_ofCallee? hcallee) hn hv
  | discrete hop hargs hname _ hrest hn hv _ =>
    exact h.step_discrete hf hi hop hargs hname hrest hn hv
  | atomic hop hargs hname hrest hcount hresults hl hnodes hfree _ =>
    exact h.step_atomic hf hi hop hargs hname hrest hcount hresults hl hnodes hfree
  | branch hop => exact same (h.step_ignored hf hi (.inr (.inr (.inl hop))))
  | ret hop => exact same (h.step_ignored hf hi (.inr (.inr (.inr hop))))

end Simulates

/-! ## The whole run -/

section
variable (I x)

theorem env_initial_arg (hs : f.Scoped) {k : Nat} {v : Handle} (hv : f.args[k]? = some v)
    (htype : f.type? v = some .ptr) (inputs : Nat) :
    (f.initial I inputs x).env v = some (.pointer ⟨v, 0⟩) := by
  simp only [Func.initial, (hs.args hv).2, htype, if_true]

/-- In front of the first instruction, the nodes are the inputs and the literals. -/
theorem simulates_of_ready {c : Context} (hf : f.Staged input output)
    (h : Ready f c input output s) :
    Simulates I x f input output 0 s (f.initial I c.inputs x) (s.graph.leafValues I x) := by
  have hsum : s.graph.dynamics + s.graph.independents = c.inputs := by
    rw [h.graph]
    exact h.inputs
  have hin := env_initial_arg I x hf.scope hf.input h.types.1 c.inputs
  have hmemory : ∀ k < c.inputs, (f.initial I c.inputs x).memory input k = some (x k) :=
    fun k hk => if_pos ⟨hf.input, hk⟩
  have hnode : ∀ k < c.inputs, nodeAt (s.graph.leafValues I x) (1 + k) = some (x k) :=
    fun k hk => Graph.nodeAt_input (hsum ▸ hk)
  have hbuffer : ∀ {b}, b = output ∨ ArgumentBuffer f b → b = output ∨ b ∈ f.allocated := by
    intro b hb
    refine hb.imp_right fun ⟨i, hi, hbuf⟩ => ?_
    exact hf.own.arguments b (List.mem_filterMap.mpr ⟨i, hi, hbuf⟩)
  refine ⟨⟨?_, ?_, ?_, ?_, ?_, ?_, ?_⟩, ?_, ?_, ?_⟩
  · intro b hb hdef
    rcases hb with rfl | rfl | hb
    · exact hin
    · exact env_initial_arg I x hf.scope hf.output h.types.2 c.inputs
    · -- No instruction has run, so no allocation is there yet.
      obtain ⟨a, hmem, _, hres⟩ := Func.mem_allocated.mp hb
      obtain ⟨j, hj⟩ := List.mem_iff_getElem?.mp hmem
      rw [Array.getElem?_toList] at hj
      exact absurd (hdef j (hf.scope.results.mpr ⟨a, hj, hres⟩)) (Nat.not_lt_zero j)
  · intro v n hv
    obtain ⟨k, b, hb, hk, rfl⟩ := h.values hv
    have hkind := Func.kind?_of_float? hb
    refine ⟨fun j hj => ?_, I.constant b, ?_, ?_⟩
    · rw [hkind] at hj
      cases hj
    · simp only [Func.initial, hkind]
    · rw [← hsum]
      exact Graph.nodeAt_constant hk
  · intro p n hp
    obtain ⟨rfl, rfl, hpos⟩ := h.pointers hp
    exact ⟨hf.scope.definedBefore_arg hf.input 0, ⟨p, 0⟩, x 0, hin, ⟨1, c.inputs, h.input_layout⟩,
      hmemory 0 hpos, hnode 0 hpos⟩
  · intro base first length hl
    by_cases hbase : base = input
    · rw [hbase, h.input_layout] at hl
      cases hl
      rw [hbase]
      exact ⟨.inl rfl, fun k hk => ⟨x k, hmemory k hk, hnode k hk⟩⟩
    · obtain ⟨_, slots, he⟩ := h.layouts hl hbase
      cases he
  · intro base length written hl
    by_cases hbase : base = input
    · rw [hbase, h.input_layout] at hl
      cases hl
    · obtain ⟨hb, slots, he⟩ := h.layouts hl hbase
      cases he
      exact ⟨hbuffer hb, fun k n hk => by cases hk⟩
  · intro p e he
    obtain ⟨hb, rfl⟩ := h.elements he
    exact .inl ⟨.inr (hbuffer hb), rfl⟩
  · intro v d hd
    rw [h.comparisons] at hd
    cases hd
  · rw [h.graph]
    exact ⟨rfl, .nil, nofun⟩
  · have hnone : s.graph.operators = [] := by
      rw [h.graph]
      rfl
    rw [Graph.eval?, hnone]
    rfl
  · rw [Graph.length_leafValues, hsum, h.last]

end

/-- Every lowered part of a function can be run. -/
theorem simulates_before {c : Context} {r : Lowering} (hscope : f.Scoped) (hown : f.OwnBuffers)
    (hp : f.prepared c = .ok (r, output)) (hle : index ≤ f.instructions.size)
    (h : f.before c index = .ok s) :
    ∃ input m nodes, (f.instructions.toList.take index).foldlM (Machine.step? I f)
      (f.initial I c.inputs x) = some m ∧ Simulates I x f input output index s m nodes := by
  obtain ⟨input, hready⟩ := Func.ready_of_prepared hp
  have hf : f.Staged input output := by
    obtain ⟨_, _, _, _, hargs⟩ := hready.args
    exact ⟨hscope, hown, by rw [hargs]; rfl, by rw [hargs]; rfl⟩
  refine ⟨input, Func.before_keeps (P := fun k s => ∃ m nodes,
    (f.instructions.toList.take k).foldlM (Machine.step? I f) (f.initial I c.inputs x) = some m ∧
      Simulates I x f input output k s m nodes) ?_ ?_ hle h⟩
  · intro s' out hs
    rw [hp] at hs
    cases hs
    exact ⟨_, _, rfl, simulates_of_ready I x hf hready⟩
  · rintro k i s t hi ⟨m, nodes, hrun, hsim⟩ ht
    obtain ⟨m', nodes', hstep, hsim'⟩ := hsim.step hf hi ht
    refine ⟨m', nodes', ?_, hsim'⟩
    rw [← Array.getElem?_toList] at hi
    rw [List.take_add_one, hi, List.foldlM_append, hrun]
    simp [hstep]

/-- Evaluating the graph of a function gives, at each dependent, the number that running
the function stored last in that slot of the output. -/
theorem Func.lower_preserves_meaning (I : Interpretation α) (x : Nat → α) {c : Context} {g : Graph}
    (hscope : f.Scoped) (hown : f.OwnBuffers) (h : f.lower c = .ok g) :
    ∃ output m nodes, f.args[Convention.output]? = some output ∧
      f.execute? I (c.dynamics + c.independents) x = some m ∧ g.eval? I x = some nodes ∧
        ∀ k < c.dependents, ∃ n a, g.dependents[k]? = some n ∧ nodeAt nodes n = some a ∧
          m.memory output k = some a := by
  obtain ⟨r, output, s, hp, hs, hg⟩ := Func.lower_eq_ok.mp h
  obtain ⟨input, hready⟩ := Func.ready_of_prepared hp
  obtain ⟨_, _, _, _, hargs⟩ := hready.args
  obtain ⟨_, m, nodes, hrun, hsim⟩ :=
    simulates_before (I := I) (x := x) hscope hown hp (Nat.le_refl _) hs
  obtain ⟨written, ns, hl, hns, rfl⟩ := (inOrder_before hp (Nat.le_refl _) hs).finish_eq_ok hg
  obtain ⟨hlen, hget⟩ := Slots.filled_eq_ok_iff.mp hns
  refine ⟨output, m, nodes, by rw [hargs]; rfl, ?_, hsim.computes.eval, ?_⟩
  · rw [← Array.length_toList, List.take_length] at hrun
    rw [hready.inputs]
    exact hrun
  · intro k hk
    have hk' : k < ns.length := hlen ▸ hk
    have hslot := (hget k hk).trans (List.getElem?_eq_getElem hk')
    obtain ⟨a, ha, hn⟩ := (hsim.agrees.slots hl).2 k _ hslot
    exact ⟨_, a, by rw [List.getElem?_toArray]; exact List.getElem?_eq_getElem hk', hn, ha⟩

/-- Call two atomic functions through one argument buffer, then a discrete function and a function
of numbers, and take the smaller of two numbers. -/
def namedCallSteps : List Builder.Step :=
  [.load 1, .alloca, .alloca, .alloca, .store 6 7, .callAtomic "atomic_foo" 1 7 2 8, .element 8 1,
    .load 16, .store 17 7, .callAtomic "atomic_bar" 1 7 1 9, .load 9,
    .call "discrete_step" [23] .double, .call "cppad_link_fabs" [25] .double, .float (.ofInt64 3),
    .arithmetic .fmul 27 28, .arithmetic .fsub 17 29, .compareFloat .olt 30 23, .select 31 30 23,
    .store 32 3, .retOk]

def Func.namedCalls : Func := (ofSteps? "f" namedCallSteps).getD default

/-- A number that depends on all characters of a name and on their order. -/
def nameCode (name : String) : Nat := name.toList.foldl (fun n c => (31 * n + c.toNat) % 1009) 0

/-- A number that depends on all numbers of a list and on their order. -/
def listCode (xs : List Nat) : Nat := xs.foldl (fun n x => (37 * n + x) % 1013) 1

/-- Operations that tell operators, names, arguments and results apart. -/
def Interpretation.coded : Interpretation Nat where
  constant b := b.bits.toNat % 1019
  operator op xs := listCode (op.code :: xs)
  discrete name a := listCode [nameCode name, a]
  atomic name n xs k := listCode (nameCode name :: n :: k :: xs)
  holds p a b := if p = .olt then a < b else b < a

theorem Func.lower_preserves_meaning_namedCalls :
    Interpretation.coded.atomic "foo" 1 [5] 0 ≠ Interpretation.coded.atomic "bar" 1 [5] 0 ∧
      namedCalls.Scoped ∧ namedCalls.OwnBuffers ∧ ∃ g, namedCalls.lower ⟨"f", 0, 1, 1⟩ = .ok g ∧
      g.tags = #[.atom, .atom, .discrete, .abs, .mul, .sub, .cexpLt] ∧
      g.atomicNames = #["foo", "bar"] ∧ g.discreteNames = #["step"] ∧
      ∃ output m nodes, namedCalls.args[Convention.output]? = some output ∧
        namedCalls.execute? .coded (0 + 1) (fun _ => 5) = some m ∧
          g.eval? .coded (fun _ => 5) = some nodes ∧
            ∀ k < 1, ∃ n a, g.dependents[k]? = some n ∧ nodeAt nodes n = some a ∧
              m.memory output k = some a := by
  have hsteps : Func.ofSteps? "f" namedCallSteps = some namedCalls := by decide +kernel
  have hscope : namedCalls.Scoped := (Func.arena_of_ofSteps? (by decide +kernel) hsteps).toScoped
  have hown : namedCalls.OwnBuffers := by constructor <;> decide +kernel
  have h : namedCalls.lower ⟨"f", 0, 1, 1⟩ = .ok
      { name := "f", dynamics := 0, independents := 1, constants := #[.ofInt64 3],
        tags := #[.atom, .atom, .discrete, .abs, .mul, .sub, .cexpLt],
        starts := #[0, 4, 8, 10, 11, 13, 15],
        args := #[0, 2, 1, 1, 1, 1, 1, 4, 0, 5, 6, 7, 2, 4, 8, 9, 5, 9, 5],
        atomicNames := #["foo", "bar"], discreteNames := #["step"], dependents := #[10] } := by
    decide +kernel
  exact ⟨by decide, hscope, hown, _, h, rfl, rfl, rfl,
    Func.lower_preserves_meaning .coded (fun _ => 5) hscope hown h⟩

end SsaGraph

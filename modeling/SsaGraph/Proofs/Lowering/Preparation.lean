import SsaGraph.Proofs.Lowering.Run

/-!
The state in front of the second pass.  The first pass gives nodes to literals and
registers argument buffers, nothing else (`Discovered`); `Ready` adds what is bound
between the passes.
-/

namespace SsaGraph

namespace Instruction

/-- The argument buffer of a call in the form of an atomic one. -/
def argumentBuffer? (i : Instruction) : Option Handle :=
  match i.opcode, i.operands with
  | .call, [_, base, _, _, _, _, _] => some base
  | _, _ => none

/-- The result buffer of a call in the form of an atomic one. -/
def resultBuffer? (i : Instruction) : Option Handle :=
  match i.opcode, i.operands with
  | .call, [_, _, _, base, _, _, _] => some base
  | _, _ => none

end Instruction

/-- The argument buffer that a call registers: it is a pointer, and the number of arguments is
a literal. -/
def Func.registered? (f : Func) (i : Instruction) : Option Handle :=
  match i.opcode, i.operands with
  | .call, [counted, base, _, _, _, _, _] =>
    if f.type? base = some .ptr ∧ (f.int? counted).isSome then some base else none
  | _, _ => none

theorem Func.registered?_eq_some_iff {f : Func} {i : Instruction} {base : Handle} :
    f.registered? i = some base ↔ ∃ counted a b d e g, i.opcode = .call ∧
      i.operands = [counted, base, a, b, d, e, g] ∧ f.type? base = some .ptr ∧
        (f.int? counted).isSome := by
  unfold registered?
  split
  next hop hargs =>
    rw [Option.ite_none_right_eq_some, Option.some.injEq]
    constructor
    · rintro ⟨⟨htype, hcount⟩, rfl⟩
      exact ⟨_, _, _, _, _, _, hop, hargs, htype, hcount⟩
    · rintro ⟨_, _, _, _, _, _, _, hargs', htype, hcount⟩
      rw [hargs] at hargs'
      cases hargs'
      exact ⟨⟨htype, hcount⟩, rfl⟩
  next hother =>
    constructor
    · intro h
      cases h
    · rintro ⟨_, _, _, _, _, _, hop, hargs, _⟩
      exact absurd hargs (hother _ _ _ _ _ _ _ hop)

/-- The argument buffer that a call registers, with the number of its slots. -/
def Func.argumentSlots? (f : Func) (i : Instruction) : Option (Handle × Nat) :=
  match i.opcode, i.operands with
  | .call, [counted, base, _, _, _, _, _] =>
    if f.type? base = some .ptr then (f.int? counted).map fun n => (base, n.toNat) else none
  | _, _ => none

theorem Func.argumentSlots?_eq_some_iff {f : Func} {i : Instruction} {base : Handle} {n : Nat} :
    f.argumentSlots? i = some (base, n) ↔ ∃ counted a b d e g w, i.opcode = .call ∧
      i.operands = [counted, base, a, b, d, e, g] ∧ f.type? base = some .ptr ∧
        f.int? counted = some w ∧ w.toNat = n := by
  unfold argumentSlots?
  split
  next counted buffer a b d e g hop hargs =>
    rw [Option.ite_none_right_eq_some, Option.map_eq_some_iff]
    constructor
    · rintro ⟨htype, w, hw, heq⟩
      cases heq
      exact ⟨counted, a, b, d, e, g, w, hop, hargs, htype, hw, rfl⟩
    · rintro ⟨_, _, _, _, _, _, w, _, hargs', htype, hw, rfl⟩
      rw [hargs] at hargs'
      cases hargs'
      exact ⟨htype, w, hw, rfl⟩
  next hother =>
    constructor
    · intro h
      cases h
    · rintro ⟨_, _, _, _, _, _, _, hop, hargs, _⟩
      exact absurd hargs (hother _ _ _ _ _ _ _ hop)

theorem Func.argumentBuffer?_of_registered? {f : Func} {i : Instruction} {base : Handle}
    (h : f.registered? i = some base) : i.argumentBuffer? = some base := by
  obtain ⟨_, _, _, _, _, _, hop, hargs, _⟩ := registered?_eq_some_iff.mp h
  simp only [Instruction.argumentBuffer?, hop, hargs]

namespace Lowering

/-- A value that some call uses as its argument buffer. -/
def ArgumentBuffer (f : Func) (base : Handle) : Prop :=
  ∃ i ∈ f.instructions.toList, i.argumentBuffer? = some base

/-- A value has the node of a literal among the constants. -/
def LiteralNode (f : Func) (c : Context) (g : Graph) (v : Handle) (n : NodeId) : Prop :=
  ∃ k x, f.float? v = some x ∧ g.constants[k]? = some x ∧ n = 1 + c.inputs + k

structure Discovered (f : Func) (c : Context) (s : Lowering) : Prop where
  graph : s.graph = { (start c).graph with constants := s.graph.constants }
  values : ∀ {v n}, s.bindings.values.get? v = some n → LiteralNode f c s.graph v n
  pointers : ∀ p, s.bindings.pointers.get? p = none
  layouts : ∀ {base l}, s.bindings.layouts.get? base = some l →
    ArgumentBuffer f base ∧ ∃ slots, l = .scattered slots #[]
  comparisons : ∀ v, s.comparisons.get? v = none
  elements : ∀ {p e}, s.elements.get? p = some e → ArgumentBuffer f p ∧ e = ⟨p, 0⟩

theorem discovered_start (f : Func) (c : Context) : Discovered f c (start c) where
  graph := rfl
  values h := nomatch h
  pointers _ := rfl
  layouts h := nomatch h
  comparisons _ := rfl
  elements h := nomatch h

theorem LiteralNode.pushConstant {f : Func} {c : Context} {g : Graph} {v : Handle} {n : NodeId}
    (h : LiteralNode f c g v n) (x : Binary64) : LiteralNode f c (g.pushConstant x) v n := by
  obtain ⟨k, y, hv, hk, hn⟩ := h
  refine ⟨k, y, hv, ?_, hn⟩
  obtain ⟨hlt, _⟩ := Array.getElem?_eq_some_iff.mp hk
  rw [Graph.pushConstant, Array.getElem?_push_lt hlt, ← Array.getElem?_eq_getElem hlt, hk]

theorem discovered_pool {f : Func} {c : Context} {s : Lowering} (h : Discovered f c s)
    (v : Handle) : Discovered f c (pool f c.inputs s v) := by
  unfold pool
  split
  · exact h
  next x hx =>
    split
    · exact h
    · refine ⟨?_, ?_, h.pointers, h.layouts, h.comparisons, h.elements⟩
      · show s.graph.pushConstant x = _
        rw [Graph.pushConstant, h.graph]
      · intro w n hw
        simp only [Bindings.bindValue, Table.get?_insert] at hw
        split at hw
        next hwv =>
          cases hw
          subst hwv
          exact ⟨s.graph.constants.size, x, hx, Array.getElem?_push_size, rfl⟩
        · exact (h.values hw).pushConstant x

theorem discovered_foldl_pool {f : Func} {c : Context} {s : Lowering} (h : Discovered f c s)
    (vs : List Handle) : Discovered f c (vs.foldl (pool f c.inputs) s) := by
  induction vs generalizing s with
  | nil => exact h
  | cons v rest ih => exact ih (discovered_pool h v)

/-- A call in the form of an atomic one registers its argument buffer, if at all. -/
theorem registerArguments_cases {f : Func} {s t : Lowering} {i : Instruction}
    (h : registerArguments f s i = .ok t) :
    (f.registered? i = none ∧ t = s) ∨ ∃ base slots b, f.registered? i = some base ∧
      s.bindings.registerScattered base slots = .ok b ∧
      t = { s with bindings := b }.recordElement base ⟨base, 0⟩ := by
  unfold registerArguments at h
  split at h
  next counted base _ _ _ _ _ hop hargs =>
    obtain ⟨type, htype, h⟩ := bind_eq_ok.mp h
    rw [typeOf_eq_ok] at htype
    split at h
    next hptr =>
      cases h
      refine .inl ⟨Option.eq_none_iff_forall_ne_some.mpr fun other hother => ?_, rfl⟩
      obtain ⟨_, _, _, _, _, _, _, hargs', htype', _⟩ := Func.registered?_eq_some_iff.mp hother
      rw [hargs] at hargs'
      cases hargs'
      rw [htype] at htype'
      cases htype'
      cases hptr
    next hptr =>
      rw [Bool.not_eq_true, Bool.not_eq_false', isPtr_iff] at hptr
      split at h
      next hcount =>
        cases h
        refine .inl ⟨Option.eq_none_iff_forall_ne_some.mpr fun other hother => ?_, rfl⟩
        obtain ⟨_, _, _, _, _, _, _, hargs', _, hcount'⟩ := Func.registered?_eq_some_iff.mp hother
        rw [hargs] at hargs'
        cases hargs'
        rw [hcount] at hcount'
        cases hcount'
      next n hcount =>
        obtain ⟨b, hb, h⟩ := bind_eq_ok.mp h
        cases h
        refine .inr ⟨base, n.toNat, b, Func.registered?_eq_some_iff.mpr ?_, orFault_eq_ok.mp hb, rfl⟩
        exact ⟨counted, _, _, _, _, _, hop, hargs, hptr ▸ htype, by rw [hcount]; rfl⟩
  next hother =>
    cases h
    refine .inl ⟨Option.eq_none_iff_forall_ne_some.mpr fun base hbase => ?_, rfl⟩
    obtain ⟨_, _, _, _, _, _, hop, hargs, _⟩ := Func.registered?_eq_some_iff.mp hbase
    exact hother _ _ _ _ _ _ _ hop hargs

theorem discovered_registerArguments {f : Func} {c : Context} {s t : Lowering}
    {i : Instruction} (hi : i ∈ f.instructions.toList) (h : Discovered f c s)
    (ht : registerArguments f s i = .ok t) : Discovered f c t := by
  rcases registerArguments_cases ht with ⟨_, rfl⟩ | ⟨base, slots, b, hbuffer, hb, rfl⟩
  · exact h
  have hbase : ArgumentBuffer f base := ⟨i, hi, Func.argumentBuffer?_of_registered? hbuffer⟩
  have helements : ∀ {p e}, (s.elements.insert base ⟨base, 0⟩).get? p = some e →
      ArgumentBuffer f p ∧ e = ⟨p, 0⟩ := by
    intro p e hp
    rw [Table.get?_insert] at hp
    split at hp
    next hpb =>
      cases hp
      subst hpb
      exact ⟨hbase, rfl⟩
    · exact h.elements hp
  rcases Bindings.registerScattered_eq_ok.mp hb with ⟨_, rfl⟩ | ⟨_, rfl⟩
  · refine ⟨h.graph, h.values, h.pointers, ?_, h.comparisons, helements⟩
    intro b l hl
    simp only [recordElement, Table.get?_insert] at hl
    split at hl
    next hbb =>
      cases hl
      subst hbb
      exact ⟨hbase, slots, rfl⟩
    · exact h.layouts hl
  · exact ⟨h.graph, h.values, h.pointers, h.layouts, h.comparisons, helements⟩

theorem discovered_pass {f : Func} {c : Context} {s : Lowering}
    (h : pass (discover f c.inputs) 0 (start c) f.instructions.toList = .ok s) :
    Discovered f c s := by
  refine pass_keeps (P := Discovered f c) ?_ (discovered_start f c) h
  intro i hi s t hs ht
  exact discovered_registerArguments hi (discovered_foldl_pool hs i.operands) ht

/-! ## Between the passes -/

/-- The state in front of the second pass of a function with the given input and
output. -/
structure Ready (f : Func) (c : Context) (input output : Handle) (s : Lowering) : Prop where
  args : ∃ a b d message, f.args = [a, input, b, output, d, message]
  types : f.type? input = some .ptr ∧ f.type? output = some .ptr
  inputs : c.dynamics + c.independents = c.inputs
  graph : s.graph = { (start c).graph with constants := s.graph.constants }
  last : s.last = c.inputs + s.graph.constants.size
  limit : s.last ≤ maxNode
  values : ∀ {v n}, s.bindings.values.get? v = some n → LiteralNode f c s.graph v n
  pointers : ∀ {p n}, s.bindings.pointers.get? p = some n → p = input ∧ n = 1 ∧ 0 < c.inputs
  input_layout : s.bindings.layouts.get? input = some (.contiguous 1 c.inputs)
  output_layout : s.bindings.layouts.get? output = some (.scattered c.dependents #[])
  layouts : ∀ {base l}, s.bindings.layouts.get? base = some l → base ≠ input →
    (base = output ∨ ArgumentBuffer f base) ∧ ∃ slots, l = .scattered slots #[]
  comparisons : ∀ v, s.comparisons.get? v = none
  elements : ∀ {p e}, s.elements.get? p = some e →
    (p = output ∨ ArgumentBuffer f p) ∧ e = ⟨p, 0⟩

theorem bufferArguments_eq_ok {f : Func} {input output : Handle}
    (h : bufferArguments f = .ok (input, output)) :
    (∃ a b d message, f.args = [a, input, b, output, d, message]) ∧
      f.type? input = some .ptr ∧ f.type? output = some .ptr := by
  unfold bufferArguments at h
  split at h
  next a x b y d m hargs =>
    obtain ⟨type, hx, h⟩ := bind_eq_ok.mp h
    split at h
    · obtain ⟨_, h, _⟩ := bind_eq_ok.mp h
      exact absurd h malformed_ne_ok
    next hptr =>
      obtain ⟨type', hy, h⟩ := bind_eq_ok.mp h
      split at h
      · obtain ⟨_, h, _⟩ := bind_eq_ok.mp h
        exact absurd h malformed_ne_ok
      next hptr' =>
        cases h
        rw [Bool.not_eq_true, Bool.not_eq_false', isPtr_iff] at hptr hptr'
        rw [typeOf_eq_ok, hptr] at hx
        rw [typeOf_eq_ok, hptr'] at hy
        exact ⟨⟨a, b, d, m, hargs⟩, hx, hy⟩
  · exact absurd h malformed_ne_ok

theorem inputs_eq {c : Context} (h : c.inputs < maxNode) :
    c.dynamics + c.independents = c.inputs := by
  have h : min (c.dynamics + c.independents) (1 <<< 64 - 1) < 1 <<< 32 - 1 := h
  unfold Context.inputs
  omega

/-- What happens between the passes. -/
theorem prepare_eq_ok {c : Context} {input output : Handle} {s t : Lowering}
    (h : prepare c input output s = .ok t) :
    (∀ slots written, s.bindings.layouts.get? input ≠ some (.scattered slots written)) ∧
      c.inputs + s.graph.constants.size ≤ maxNode ∧
      ∃ b, (s.bindings.consecutive input 1 c.inputs).registerScattered output c.dependents = .ok b ∧
        t = { { s with bindings := b }.recordElement output ⟨output, 0⟩ with
          last := c.inputs + s.graph.constants.size } := by
  unfold prepare bindBuffers at h
  obtain ⟨r, hr, h⟩ := bind_eq_ok.mp h
  obtain ⟨b, hb, hr⟩ := bind_eq_ok.mp hr
  obtain ⟨b', hb', hr⟩ := bind_eq_ok.mp hr
  cases hr
  obtain ⟨⟨t', first⟩, hreserve, h⟩ := bind_eq_ok.mp h
  cases h
  obtain ⟨hlimit, rfl, _⟩ := reserve_eq_ok.mp hreserve
  obtain ⟨hfree, _, rfl⟩ := Bindings.bindContiguous_eq_ok.mp (orFault_eq_ok.mp hb)
  exact ⟨hfree, hlimit, b', orFault_eq_ok.mp hb', rfl⟩

theorem ready_of_prepare {f : Func} {c : Context} {input output : Handle} {s t : Lowering}
    (hargs : ∃ a b d message, f.args = [a, input, b, output, d, message])
    (htypes : f.type? input = some .ptr ∧ f.type? output = some .ptr)
    (hinputs : c.inputs < maxNode) (h : Discovered f c s)
    (ht : prepare c input output s = .ok t) : Ready f c input output t := by
  obtain ⟨_, hlimit, b, hb, rfl⟩ := prepare_eq_ok ht
  have hpointers : ∀ {p n},
      (s.bindings.consecutive input 1 c.inputs).pointers.get? p = some n →
        p = input ∧ n = 1 ∧ 0 < c.inputs := by
    intro p n hp
    simp only [Bindings.consecutive] at hp
    split at hp
    · rw [Table.get?_erase] at hp
      split at hp
      · cases hp
      · rw [h.pointers] at hp; cases hp
    next hz =>
      rw [Table.get?_insert] at hp
      split at hp
      next hpi =>
        cases hp
        exact ⟨hpi, rfl, Nat.pos_of_ne_zero hz⟩
      · rw [h.pointers] at hp; cases hp
  have helements : ∀ {p e}, (s.elements.insert output ⟨output, 0⟩).get? p = some e →
      (p = output ∨ ArgumentBuffer f p) ∧ e = ⟨p, 0⟩ := by
    intro p e hp
    rw [Table.get?_insert] at hp
    split at hp
    next hpo =>
      cases hp
      exact ⟨.inl hpo, by rw [hpo]⟩
    · exact ⟨.inr (h.elements hp).1, (h.elements hp).2⟩
  have hlayouts : ∀ {base l},
      (s.bindings.consecutive input 1 c.inputs).layouts.get? base = some l → base ≠ input →
        (base = output ∨ ArgumentBuffer f base) ∧ ∃ slots, l = .scattered slots #[] := by
    intro base l hl hne
    simp only [Bindings.consecutive, Table.get?_insert, if_neg hne] at hl
    exact ⟨.inr (h.layouts hl).1, (h.layouts hl).2⟩
  have hin : (s.bindings.consecutive input 1 c.inputs).layouts.get? input =
      some (.contiguous 1 c.inputs) := Table.get?_insert_self _ _ _
  -- The output may have been registered before, as the argument buffer of a call.
  rcases Bindings.registerScattered_eq_ok.mp hb with ⟨hnone, rfl⟩ | ⟨⟨written, hsome⟩, rfl⟩
  · have hne : input ≠ output := by
      rintro rfl
      rw [hin] at hnone
      cases hnone
    refine ⟨hargs, htypes, inputs_eq hinputs, h.graph, rfl, hlimit, h.values, hpointers, ?_, ?_, ?_,
      h.comparisons, helements⟩
    · simp only [recordElement, Table.get?_insert, if_neg hne]
      exact hin
    · simp only [recordElement, Table.get?_insert_self]
    · intro base l hl hne'
      simp only [recordElement, Table.get?_insert] at hl
      split at hl
      next hbo =>
        cases hl
        exact ⟨.inl hbo, c.dependents, rfl⟩
      · exact hlayouts hl hne'
  · have hne : output ≠ input := by
      rintro rfl
      rw [hin] at hsome
      cases hsome
    obtain ⟨_, slots, he⟩ := hlayouts hsome hne
    cases he
    exact ⟨hargs, htypes, inputs_eq hinputs, h.graph, rfl, hlimit, h.values, hpointers, hin, hsome,
      hlayouts, h.comparisons, helements⟩

end Lowering

open Lowering in
theorem Func.prepared_eq_ok {f : Func} {c : Context} {s : Lowering} {output : Handle}
    (h : f.prepared c = .ok (s, output)) :
    ∃ input r, bufferArguments f = .ok (input, output) ∧ c.inputs < maxNode ∧
      pass (discover f c.inputs) 0 (start c) f.instructions.toList = .ok r ∧
        prepare c input output r = .ok s := by
  unfold Func.prepared at h
  obtain ⟨⟨input, out⟩, hargs, h⟩ := bind_eq_ok.mp h
  by_cases hmax : maxNode ≤ c.inputs
  · simp only [hmax, if_true] at h
    obtain ⟨_, h, _⟩ := bind_eq_ok.mp h
    exact absurd (outside_eq_ok.mp h) malformed_ne_ok
  · simp only [hmax, if_false] at h
    obtain ⟨r, hr, h⟩ := bind_eq_ok.mp h
    obtain ⟨t, ht, h⟩ := bind_eq_ok.mp h
    cases h
    exact ⟨input, r, outside_eq_ok.mp hargs, Nat.not_le.mp hmax, hr, outside_eq_ok.mp ht⟩

open Lowering in
theorem Func.ready_of_prepared {f : Func} {c : Context} {s : Lowering} {output : Handle}
    (h : f.prepared c = .ok (s, output)) : ∃ input, Ready f c input output s := by
  obtain ⟨input, r, hargs, hmax, hr, hs⟩ := prepared_eq_ok h
  obtain ⟨hshape, htypes⟩ := bufferArguments_eq_ok hargs
  exact ⟨input, ready_of_prepare hshape htypes hmax (discovered_pass hr) hs⟩

end SsaGraph

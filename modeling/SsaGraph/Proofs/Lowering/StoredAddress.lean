import SsaGraph.Proofs.Lowering.ElementAddress

/-!
What a load sees of a store through the same address.

A load takes its node from one table and a store looks its slot up in another one, so a
store never changes what is loaded: a load behind it sees what the address stood for in
front of it (`StandsFor`).  Buffers are kept apart, one with slots is not bound to
consecutive nodes.  The address of an element is not kept apart in this way, and there are
two ways for it to be in both tables: an element of consecutive nodes is the argument
buffer of a call, or an element of a buffer of slots is the result buffer of one.
-/

namespace SsaGraph

/-! ## Addresses to be stored through -/

namespace Lowering

/-- The buffer has slots. -/
def HasSlots (s : Lowering) (base : Handle) : Prop :=
  ∃ slots written, s.bindings.layouts.get? base = some (.scattered slots written)

/-- Every address that can be stored through is that of a buffer with slots. -/
def Slotted (s : Lowering) : Prop := ∀ p e, s.elements.get? p = some e → s.HasSlots p

section
variable {f : Func} {s t : Lowering} {i : Instruction}

theorem foldl_pool_frame (inputs : Nat) (vs : List Handle) (s : Lowering) :
    (vs.foldl (pool f inputs) s).elements = s.elements ∧
      (vs.foldl (pool f inputs) s).bindings.layouts = s.bindings.layouts := by
  induction vs generalizing s with
  | nil => exact ⟨rfl, rfl⟩
  | cons v rest ih =>
    have hpool : (pool f inputs s v).elements = s.elements ∧
        (pool f inputs s v).bindings.layouts = s.bindings.layouts := by
      unfold pool
      split
      · exact ⟨rfl, rfl⟩
      · split <;> exact ⟨rfl, rfl⟩
    rw [List.foldl_cons, (ih _).1, (ih _).2]
    exact hpool

theorem hasSlots_registerScattered {b : Bindings} {base : Handle} {slots : Nat}
    (hb : s.bindings.registerScattered base slots = .ok b) (other : Handle) :
    HasSlots { s with bindings := b } other ↔ other = base ∨ s.HasSlots other := by
  rcases Bindings.registerScattered_eq_ok.mp hb with ⟨hnone, rfl⟩ | ⟨⟨written, hold⟩, rfl⟩
  · by_cases he : other = base
    · subst he
      exact ⟨fun _ => .inl rfl, fun _ => ⟨slots, #[], Table.get?_insert_self _ _ _⟩⟩
    · simp only [HasSlots, Table.get?_insert, he, if_false, false_or]
  · constructor
    · exact .inr
    · rintro (rfl | h)
      · exact ⟨slots, written, hold⟩
      · exact h

/-- Recording the address of a buffer that has slots. -/
theorem Slotted.recordBase (h : s.Slotted) {b : Bindings} {base : Handle} {slots : Nat}
    (hb : s.bindings.registerScattered base slots = .ok b) :
    ({ s with bindings := b }.recordElement base ⟨base, 0⟩).Slotted := by
  intro p e hp
  simp only [recordElement, Table.get?_insert] at hp
  by_cases hpb : p = base
  · exact (hasSlots_registerScattered hb p).mpr (.inl hpb)
  · rw [if_neg hpb] at hp
    exact (hasSlots_registerScattered hb p).mpr (.inr (h p e hp))

theorem slotted_discover {inputs : Nat} (h : s.Slotted) (ht : discover f inputs s i = .ok t) :
    t.Slotted := by
  obtain ⟨helements, hlayouts⟩ := foldl_pool_frame (f := f) inputs i.operands s
  have hpooled : (i.operands.foldl (pool f inputs) s).Slotted := by
    intro p e hp
    rw [helements] at hp
    rw [HasSlots, hlayouts]
    exact h p e hp
  rcases registerArguments_cases ht with ⟨_, rfl⟩ | ⟨base, slots, b, _, hb, rfl⟩
  · exact hpooled
  · exact hpooled.recordBase hb

theorem slotted_prepare {c : Context} {input output : Handle} (h : s.Slotted)
    (ht : prepare c input output s = .ok t) : t.Slotted := by
  obtain ⟨hfree, _, b, hb, rfl⟩ := prepare_eq_ok ht
  have hbound : Slotted { s with bindings := s.bindings.consecutive input 1 c.inputs } := by
    intro p e hp
    obtain ⟨slots, written, hl⟩ := h p e hp
    have hne : p ≠ input := by
      rintro rfl
      exact hfree slots written hl
    exact ⟨slots, written, (Table.get?_insert_of_ne _ _ hne).trans hl⟩
  exact hbound.recordBase hb

/-- The address of an element of a buffer with slots is recorded, and no other one is. -/
theorem elements_of_lowered (h : Lowered f s i t) :
    (t.elements = s.elements ∧ ∀ {base offset}, i.opcode = .getelementptr →
      addressParts f i = .ok (base, offset) → ¬ s.HasSlots base) ∨
    ∃ p base offset, i.opcode = .getelementptr ∧ i.result = some p ∧
      addressParts f i = .ok (base, offset) ∧ s.HasSlots base ∧
      t.elements = s.elements.insert p ⟨base, offset⟩ := by
  cases h with
  | element hop hparts _ hv hl => exact .inr ⟨_, _, _, hop, hv, hparts, ⟨_, _, hl⟩, rfl⟩
  | pointer _ hparts _ _ hl =>
    refine .inl ⟨rfl, fun _ hparts' => ?_⟩
    rw [hparts] at hparts'
    cases hparts'
    rintro ⟨slots, written, hslots⟩
    rw [hl] at hslots
    cases hslots
  | extend hop _ _ ht | combine hop _ ht =>
    rw [recordOperands_frame ht, hop]
    exact .inl ⟨rfl, Opcode.noConfusion⟩
  | binary hop =>
    refine .inl ⟨rfl, fun he => ?_⟩
    rw [he] at hop
    cases hop
  | compare hop => rcases hop with hop | hop <;> rw [hop] <;> exact .inl ⟨rfl, Opcode.noConfusion⟩
  | alloca hop | load hop | message hop | store hop | negate hop | selectCode hop | select hop
  | math hop | discrete hop | atomic hop | branch hop | ret hop =>
    rw [hop]
    exact .inl ⟨rfl, Opcode.noConfusion⟩

theorem store_of_lowered {x p : Handle} (hop : i.opcode = .store) (hargs : i.operands = [x, p])
    (hm : f.args[Convention.message]? ≠ some p) (h : Lowered f s i t) :
    ∃ n e slots written, s.bindings.values.get? x = some n ∧ s.elements.get? p = some e ∧
      s.bindings.layouts.get? e.base = some (.scattered slots written) ∧
      t = { s with bindings := s.bindings.withSlot e.base slots written e.offset n } := by
  cases h with
  | store _ hargs' _ _ _ hn he hl =>
    rw [hargs] at hargs'
    cases hargs'
    exact ⟨_, _, _, _, hn, he, hl, rfl⟩
  | message _ hargs' hm' =>
    rw [hargs] at hargs'
    cases hargs'
    exact absurd hm' hm
  | alloca hop' | load hop' | element hop' | pointer hop' | binary hop' | negate hop' | extend hop'
  | combine hop' | selectCode hop' | select hop' | math hop' | discrete hop' | atomic hop'
  | branch hop' | ret hop' =>
    rw [hop] at hop'
    cases hop'
  | compare hop' => rcases hop' with hop' | hop' <;> rw [hop] at hop' <;> cases hop'

/-- Only a call that fills it makes a buffer of an address that is none. -/
theorem unbound_of_lowered {base : Handle} {index : Nat} (hi : f.instructions[index]? = some i)
    (hbase : ¬ f.Fills base index) (h : Lowered f s i t)
    (hl : s.bindings.layouts.get? base = none) : t.bindings.layouts.get? base = none := by
  rcases bindings_of_lowered h with ⟨_, hsame⟩ | ⟨_, _, _, _, _, _, _, _, _, ht⟩ |
    ⟨other, slots, written, _, _, hslots, ht⟩ | ⟨other, count, hother, _, ht⟩
  · rw [hsame]
    exact hl
  · rw [ht]
    exact hl
  · have hne : base ≠ other := by
      rintro rfl
      rw [hl] at hslots
      cases hslots
    rw [ht]
    exact (Table.get?_insert_of_ne _ _ hne).trans hl
  · have hne : base ≠ other := by
      rintro rfl
      exact hbase ⟨i, hi, hother⟩
    rw [ht]
    exact (Table.get?_insert_of_ne _ _ hne).trans hl

end

end Lowering

open Lowering

namespace Func

/-- Instruction number `index` loads `v` through `p`. -/
def Loads (f : Func) (p : Handle) (index : Nat) (v : Handle) : Prop :=
  ∃ i, f.instructions[index]? = some i ∧ i.opcode = .load ∧ i.operands = [p] ∧ i.result = some v

/-- Instruction number `index` stores `x` through `p`, which is not the message. -/
def Stores (f : Func) (p : Handle) (index : Nat) (x : Handle) : Prop :=
  f.args[Convention.message]? ≠ some p ∧
    ∃ i, f.instructions[index]? = some i ∧ i.opcode = .store ∧ i.operands = [x, p]

instance (f : Func) (p : Handle) (index : Nat) (v : Handle) : Decidable (f.Loads p index v) :=
  decidable_of_iff ((f.instructions[index]?).any fun i => i.opcode = .load ∧ i.operands = [p] ∧
      i.result = some v)
    (by simp [Loads, Option.any_eq_true])

instance (f : Func) (p : Handle) (index : Nat) (x : Handle) : Decidable (f.Stores p index x) :=
  decidable_of_iff (f.args[Convention.message]? ≠ some p ∧
      (f.instructions[index]?).any fun i => i.opcode = .store ∧ i.operands = [x, p])
    (by simp [Stores, Option.any_eq_true])

/-- In the finished graph `g`, the node that address `p` stands for in front of instruction
number `stop`, as the instructions before it say. -/
inductive StandsFor (f : Func) (c : Context) (g : Graph) (stop : Nat) (p : Handle) : NodeId → Prop
  /-- A result buffer stands for the first result of the latest call. -/
  | filled {call : Nat} {n : NodeId} (hlast : LastBefore (f.Fills p) stop call)
      (hn : f.firstResult? c g call = some n) : StandsFor f c g stop p n
  /-- An element of the input. -/
  | input {base : Handle} {offset address : Nat} (hfree : ∀ k < stop, ¬ f.Fills p k)
      (haddr : f.Addresses p base offset address) (hlt : address < stop)
      (hbase : f.args[Convention.input]? = some base) (hfirst : ∀ k < address, ¬ f.Fills base k) :
      StandsFor f c g stop p (1 + offset)
  /-- An element of a result buffer, as the latest call in front of the address left it. -/
  | element {base : Handle} {offset address call : Nat} {first : NodeId}
      (hfree : ∀ k < stop, ¬ f.Fills p k) (haddr : f.Addresses p base offset address)
      (hlt : address < stop) (hlast : LastBefore (f.Fills base) address call)
      (hn : f.firstResult? c g call = some first) : StandsFor f c g stop p (first + offset)

variable {f : Func} {c : Context} {g : Graph} {p : Handle} {index : Nat} {s : Lowering}

theorem slotted_of_prepared {output : Handle} (h : f.prepared c = .ok (s, output)) : s.Slotted := by
  obtain ⟨input, r, _, _, hr, hs⟩ := prepared_eq_ok h
  have hdiscovered : r.Slotted := by
    refine pass_keeps (P := fun r => r.Slotted) ?_ (by nofun) hr
    intro i _ s t hs ht
    exact slotted_discover hs ht
  exact slotted_prepare hdiscovered hs

/-- Where the address of element `e` comes from, in front of instruction number `index`: it is
that of a buffer which has slots from the start, or was computed from one. -/
def Reaches (f : Func) (c : Context) (index : Nat) (p : Handle) (e : Element) : Prop :=
  (∃ r output, f.prepared c = .ok (r, output) ∧ r.HasSlots p ∧
    (p = output ∨ ArgumentBuffer f p)) ∨
  ∃ k < index, ∃ r, f.before c k = .ok r ∧ f.Addresses p e.base e.offset k ∧ r.HasSlots e.base

theorem Reaches.mono {later : Nat} {e : Element} (h : f.Reaches c index p e) (hle : index ≤ later) :
    f.Reaches c later p e :=
  h.imp id fun ⟨k, hk, haddr⟩ => ⟨k, Nat.lt_of_lt_of_le hk hle, haddr⟩

theorem reaches_before (hle : index ≤ f.instructions.size) (hs : f.before c index = .ok s)
    {e : Element} (he : s.elements.get? p = some e) : f.Reaches c index p e := by
  induction index generalizing s with
  | zero =>
    obtain ⟨output, hp⟩ := before_zero_eq_ok.mp hs
    obtain ⟨input, hready⟩ := ready_of_prepared hp
    exact .inl ⟨s, output, hp, slotted_of_prepared hp p e he, (hready.elements he).1⟩
  | succ index ih =>
    have hi : f.instructions[index]? = some f.instructions[index] :=
      Array.getElem?_eq_getElem (Nat.lt_of_succ_le hle)
    obtain ⟨r, hr, hstep⟩ := (before_succ_eq_ok hi).mp hs
    have hearlier := ih (Nat.le_of_succ_le hle) hr
    rcases elements_of_lowered (lowered_of_instruction hstep) with ⟨hsame, _⟩ |
      ⟨q, base, offset, hop, hq, hparts, hslots, hnew⟩
    · exact (hearlier (hsame ▸ he)).mono (Nat.le_succ index)
    · rw [hnew, Table.get?_insert] at he
      split at he
      next hpq =>
        cases he
        subst hpq
        exact .inr ⟨index, Nat.lt_succ_self index, r, hr, ⟨_, hi, hop, hq, hparts⟩, hslots⟩
      · exact (hearlier he).mono (Nat.le_succ index)

/-! ## Addresses to be loaded through -/

theorem exists_lastBefore (P : Nat → Prop) (stop : Nat) :
    (∃ k, LastBefore P stop k) ∨ ∀ k < stop, ¬ P k := by
  induction stop with
  | zero => exact .inr fun k hk => absurd hk (Nat.not_lt_zero k)
  | succ stop ih =>
    by_cases hstop : P stop
    · exact .inl ⟨stop, Nat.lt_succ_self stop, hstop, fun k hk hk' => by omega⟩
    · rcases ih with ⟨k, hlt, hk, hnone⟩ | hnone
      · refine .inl ⟨k, Nat.lt_succ_of_lt hlt, hk, fun j hj hj' => ?_⟩
        rcases Nat.lt_succ_iff_lt_or_eq.mp hj' with hj' | rfl
        · exact hnone j hj hj'
        · exact hstop
      · refine .inr fun j hj => ?_
        rcases Nat.lt_succ_iff_lt_or_eq.mp hj with hj | rfl
        · exact hnone j hj
        · exact hstop

section
variable (hscoped : f.Scoped)
include hscoped

/-- An address is computed before anything uses it. -/
theorem Addresses.lt_of_operand {base : Handle} {offset address : Nat} {i : Instruction}
    (haddr : f.Addresses p base offset address) (hi : f.instructions[index]? = some i)
    (hp : p ∈ i.operands) : address < index := by
  obtain ⟨j, hj, _, hresult, _⟩ := haddr
  exact hscoped.definedBefore_operand hi hp address (hscoped.results.mpr ⟨j, hj, hresult⟩)

theorem Addresses.lt_of_fills {base : Handle} {offset address : Nat}
    (haddr : f.Addresses p base offset address) (hfills : f.Fills p index) : address < index := by
  obtain ⟨i, hi, hbuffer⟩ := hfills
  refine haddr.lt_of_operand hscoped hi ?_
  unfold Instruction.resultBuffer? at hbuffer
  split at hbuffer
  next hargs =>
    cases hbuffer
    simp [hargs]
  · cases hbuffer

theorem Addresses.unique {base base' : Handle} {offset offset' address address' : Nat}
    (h : f.Addresses p base offset address) (h' : f.Addresses p base' offset' address') :
    address = address' ∧ base = base' ∧ offset = offset' := by
  obtain ⟨i, hi, _, hresult, hparts⟩ := h
  obtain ⟨i', hi', _, hresult', hparts'⟩ := h'
  obtain rfl := hscoped.result_inj hi hi' hresult hresult'
  rw [hi] at hi'
  cases hi'
  rw [hparts] at hparts'
  cases hparts'
  exact ⟨rfl, rfl, rfl⟩

/-- Argument number `k` is no address of an element. -/
theorem Addresses.ne_arg {base : Handle} {offset address k : Nat} {v : Handle}
    (haddr : f.Addresses p base offset address) (hv : f.args[k]? = some v) : p ≠ v := by
  rintro rfl
  obtain ⟨i, hi, _, hresult, _⟩ := haddr
  have hkind := hscoped.results.mpr ⟨i, hi, hresult⟩
  rw [(hscoped.args hv).2] at hkind
  cases hkind

/-- The latest call that fills a buffer is the last thing that binds it. -/
theorem LastBefore.binds_of_fills {stop call : Nat} (h : LastBefore (f.Fills p) stop call) :
    LastBefore (f.Binds p) stop call := by
  refine ⟨h.1, .inl h.2.1, ?_⟩
  rintro k hk hk' (hfills | ⟨base, offset, haddr⟩)
  · exact h.2.2 k hk hk' hfills
  · exact absurd (haddr.lt_of_fills hscoped h.2.1) (Nat.lt_asymm hk)

/-- An address that no call fills is bound where it is computed. -/
theorem Addresses.lastBefore {base : Handle} {offset address stop : Nat}
    (haddr : f.Addresses p base offset address) (hlt : address < stop)
    (hfree : ∀ k < stop, ¬ f.Fills p k) : LastBefore (f.Binds p) stop address := by
  refine ⟨hlt, .inr ⟨base, offset, haddr⟩, ?_⟩
  rintro k hk hk' (hfills | ⟨base', offset', haddr'⟩)
  · exact hfree k hk' hfills
  · exact absurd (haddr.unique hscoped haddr').1 (Nat.ne_of_lt hk)

omit hscoped in
/-- Behind a call that fills it, a buffer holds the results of the latest one. -/
theorem contiguous_of_fills {base : Handle} {call : Nat} (h : f.lower c = .ok g)
    (hsize : index ≤ f.instructions.size) (hs : f.before c index = .ok s)
    (hlast : LastBefore (f.Fills base) index call) :
    ∃ first length, s.bindings.layouts.get? base = some (.contiguous first length) ∧
      ∀ n, f.firstResult? c g call = some n ↔ n = first ∧ 0 < length := by
  obtain ⟨r, t, count, _, ht, _, hbindings, hfirst⟩ := exists_call h hlast.2.1
  refine ⟨r.last + 1, count, ?_, hfirst⟩
  refine contiguous_between hlast.1 (fun k hk hk' => hlast.2.2 k hk hk') hsize ht ?_ hs
  rw [hbindings]
  exact Table.get?_insert_self _ _ _

/-- What an address stands for is what is loaded through it. -/
theorem pointers_of_standsFor (h : f.lower c = .ok g) (hsize : index ≤ f.instructions.size)
    (hs : f.before c index = .ok s) {n : NodeId} (hn : f.StandsFor c g index p n) :
    s.bindings.pointers.get? p = some n := by
  cases hn with
  | filled hlast hn =>
    obtain ⟨r, t, count, _, ht, _, hbindings, hfirst⟩ := exists_call h hlast.2.1
    obtain ⟨rfl, hpos⟩ := (hfirst n).mp hn
    rw [pointers_between (LastBefore.binds_of_fills hscoped hlast) hsize ht hs, hbindings,
      Bindings.consecutive]
    simp only [Nat.ne_of_gt hpos, if_false]
    exact Table.get?_insert_self _ _ _
  | input hfree haddr hlt hbase hfirst =>
    obtain ⟨_, t, ht, hp⟩ := exists_inputAddress h hbase haddr hfirst
    rw [pointers_between (haddr.lastBefore hscoped hlt hfree) hsize ht hs, hp]
  | element hfree haddr hlt hlast hn =>
    obtain ⟨a, b, ha, hb, hlayout⟩ := exists_address h haddr
    obtain ⟨first, length, hl, hfirst⟩ :=
      contiguous_of_fills h (Nat.le_trans (Nat.le_of_lt hlt) hsize) ha hlast
    obtain ⟨rfl, _⟩ := (hfirst _).mp hn
    rw [pointers_between (haddr.lastBefore hscoped hlt hfree) hsize hb hs]
    rcases hlayout with ⟨slots, written, hslots⟩ | ⟨first, length, hfl, _, hp⟩
    · rw [hl] at hslots
      cases hslots
    · rw [hl] at hfl
      cases hfl
      exact hp

omit hscoped in
/-- In front of all calls that fill it, a buffer of consecutive nodes is the input. -/
theorem input_of_contiguous {base : Handle} {first length : Nat} (hsize : index ≤ f.instructions.size)
    (hs : f.before c index = .ok s) (hfree : ∀ k < index, ¬ f.Fills base k)
    (hl : s.bindings.layouts.get? base = some (.contiguous first length)) :
    f.args[Convention.input]? = some base ∧ first = 1 := by
  obtain ⟨r, hr⟩ := exists_before_of_le (Nat.zero_le index) hs
  obtain ⟨output, hp⟩ := before_zero_eq_ok.mp hr
  obtain ⟨input, hready⟩ := ready_of_prepared hp
  have hnone : ∀ k, 0 ≤ k → k < index → ¬ f.Fills base k := fun k _ hk => hfree k hk
  by_cases hbase : base = input
  · subst hbase
    have hkept := contiguous_between (Nat.zero_le index) hnone hsize hr hready.input_layout hs
    rw [hl] at hkept
    cases hkept
    obtain ⟨_, _, _, _, hargs⟩ := hready.args
    exact ⟨by rw [hargs]; rfl, rfl⟩
  · cases hlayout : r.bindings.layouts.get? base with
    | none =>
      have hkept := keeps_between (P := fun r => r.bindings.layouts.get? base = none)
        (Nat.zero_le index) hsize hr hlayout
        (fun k _ _ _ hk hk' hi hr hstep => unbound_of_lowered hi (hnone k hk hk') hstep hr) hs
      rw [hl] at hkept
      cases hkept
    | some l =>
      obtain ⟨_, slots, rfl⟩ := hready.layouts hlayout hbase
      obtain ⟨_, _, hkept⟩ := scattered_between (Nat.zero_le index) hsize hr ⟨_, _, hlayout⟩ hs
      rw [hl] at hkept
      cases hkept

/-- Before it is computed, nothing is loaded through an address. -/
theorem Addresses.pointers_eq_none {base : Handle} {offset address : Nat}
    (haddr : f.Addresses p base offset address) (hsize : address ≤ f.instructions.size)
    (hs : f.before c address = .ok s) : s.bindings.pointers.get? p = none := by
  obtain ⟨r, hr⟩ := exists_before_of_le (Nat.zero_le address) hs
  obtain ⟨output, hp⟩ := before_zero_eq_ok.mp hr
  obtain ⟨input, hready⟩ := ready_of_prepared hp
  have hstart : r.bindings.pointers.get? p = none := by
    cases hget : r.bindings.pointers.get? p with
    | none => rfl
    | some n =>
      obtain ⟨_, _, _, _, hargs⟩ := hready.args
      have hinput : f.args[Convention.input]? = some input := by rw [hargs]; rfl
      exact absurd (hready.pointers hget).1 (haddr.ne_arg hscoped hinput)
  refine keeps_between (P := fun r => r.bindings.pointers.get? p = none) (Nat.zero_le address)
    hsize hr hstart (fun k i r t _ hk hi hr hstep => ?_) hs
  rw [pointers_of_lowered hi _ hstep, hr]
  rintro (hfills | ⟨base', offset', haddr'⟩)
  · exact absurd (haddr.lt_of_fills hscoped hfills) (Nat.lt_asymm hk)
  · exact absurd (haddr.unique hscoped haddr').1.symm (Nat.ne_of_lt hk)

/-- The address of an element of slots cannot be loaded through. -/
theorem Addresses.pointers_of_slots {base : Handle} {offset address : Nat} {t : Lowering}
    (haddr : f.Addresses p base offset address) (hs : f.before c address = .ok s)
    (ht : f.before c (address + 1) = .ok t) (hslots : s.HasSlots base) :
    t.bindings.pointers.get? p = none := by
  obtain ⟨i, hi, hop, hresult, hparts⟩ := id haddr
  obtain ⟨r, hr, hstep⟩ := (before_succ_eq_ok hi).mp ht
  rw [hs] at hr
  cases hr
  have hsize : address ≤ f.instructions.size := Nat.le_of_lt (Array.getElem?_eq_some_iff.mp hi).1
  have hnone := haddr.pointers_eq_none hscoped hsize hs
  obtain ⟨slots, written, hslots⟩ := hslots
  rcases bindings_of_lowered (lowered_of_instruction hstep) with ⟨hsame, _⟩ |
    ⟨_, _, _, _, _, _, _, hparts', hl, _⟩ | ⟨_, _, _, _, _, _, ht⟩ | ⟨_, _, hfills, _⟩
  · rw [hsame, hnone]
  · rw [hparts] at hparts'
    cases hparts'
    rw [hl] at hslots
    cases hslots
  · rw [ht]
    exact hnone
  · exact absurd ⟨i, hi, hfills⟩ (not_fills_of_addresses haddr)

/-- What is loaded through an address other than the input is what it stands for. -/
theorem standsFor_of_pointers (h : f.lower c = .ok g) (hsize : index ≤ f.instructions.size)
    (hs : f.before c index = .ok s) (hp : f.args[Convention.input]? ≠ some p) {n : NodeId}
    (hn : s.bindings.pointers.get? p = some n) : f.StandsFor c g index p n := by
  rcases exists_lastBefore (f.Binds p) index with ⟨bound, hlast⟩ | hnone
  · rcases hlast.2.1 with hfills | ⟨base, offset, haddr⟩
    · refine .filled ⟨hlast.1, hfills, fun k hk hk' hf => hlast.2.2 k hk hk' (.inl hf)⟩ ?_
      exact load_through_buffer h hsize hs hn hlast hfills
    · have hfree : ∀ k < index, ¬ f.Fills p k := by
        intro k hk hfills
        exact hlast.2.2 k (haddr.lt_of_fills hscoped hfills) hk (.inl hfills)
      have hbound : bound ≤ f.instructions.size := Nat.le_trans (Nat.le_of_lt hlast.1) hsize
      obtain ⟨a, b, ha, hb, hlayout⟩ := exists_address h haddr
      rw [pointers_between hlast hsize hb hs] at hn
      rcases hlayout with hslots | ⟨first, length, hl, hoffset, hpointer⟩
      · rw [haddr.pointers_of_slots hscoped ha hb hslots] at hn
        cases hn
      rw [hpointer] at hn
      cases hn
      rcases exists_lastBefore (f.Fills base) bound with ⟨call, hcall⟩ | hnone
      · obtain ⟨_, _, hl', hfirst⟩ := contiguous_of_fills h hbound ha hcall
        rw [hl] at hl'
        cases hl'
        exact .element hfree haddr hlast.1 hcall ((hfirst _).mpr ⟨rfl, Nat.zero_lt_of_lt hoffset⟩)
      · obtain ⟨hinput, rfl⟩ := input_of_contiguous hbound ha hnone hl
        exact .input hfree haddr hlast.1 hinput hnone
  · -- Nothing has bound it, and at the start there is only the input.
    obtain ⟨r, hr⟩ := exists_before_of_le (Nat.zero_le index) hs
    obtain ⟨output, hprep⟩ := before_zero_eq_ok.mp hr
    obtain ⟨input, hready⟩ := ready_of_prepared hprep
    have hkept := keeps_between
      (P := fun t => t.bindings.pointers.get? p = r.bindings.pointers.get? p) (Nat.zero_le index)
      hsize hr rfl (fun k _ _ _ _ hk hi ht hstep =>
        (pointers_of_lowered hi (hnone k hk) hstep).trans ht) hs
    rw [hkept] at hn
    obtain ⟨_, _, _, _, hargs⟩ := hready.args
    rw [(hready.pointers hn).1, hargs] at hp
    exact absurd rfl hp

/-! ## Addresses in both tables -/

/-- The input is not stored through. -/
theorem Reaches.ne_input {e : Element} (h : f.Reaches c index p e) :
    f.args[Convention.input]? ≠ some p := by
  intro hp
  rcases h with ⟨r, output, hprep, ⟨slots, written, hslots⟩, _⟩ | ⟨_, _, _, _, haddr, _⟩
  · obtain ⟨input, hready⟩ := ready_of_prepared hprep
    obtain ⟨_, _, _, _, hargs⟩ := hready.args
    rw [hargs] at hp
    obtain rfl : input = p := Option.some.inj hp
    rw [hready.input_layout] at hslots
    cases hslots
  · exact haddr.ne_arg hscoped hp rfl

/-- An address that is stored through and stands for a node is that of an element, and a
buffer of a call as well. -/
theorem Reaches.element {e : Element} (hreach : f.Reaches c index p e) (h : f.lower c = .ok g)
    (hsize : index ≤ f.instructions.size) (hs : f.before c index = .ok s) {n : NodeId}
    (hn : f.StandsFor c g index p n) :
    (∃ base offset, ∃ address < index, f.Addresses p base offset address) ∧
      (ArgumentBuffer f p ∨ ∃ call < index, f.Fills p call) := by
  rcases hreach with ⟨r, output, hprep, hslots, hbuffer⟩ | ⟨k, hk, r, hr, haddr, hslots⟩
  · have hstart := before_zero_eq_ok.mpr ⟨output, hprep⟩
    have haddr : ∃ base offset, ∃ address < index, f.Addresses p base offset address := by
      cases hn with
      | filled hlast =>
        -- A buffer with slots is not filled.
        obtain ⟨t, _, _, ht, _, hfree, _⟩ := exists_call h hlast.2.1
        obtain ⟨slots, written, hl⟩ := scattered_between (Nat.zero_le _)
          (Nat.le_trans (Nat.le_of_lt hlast.1) hsize) hstart hslots ht
        exact absurd hl (hfree slots written)
      | input _ haddr hlt | element _ haddr hlt => exact ⟨_, _, _, hlt, haddr⟩
    refine ⟨haddr, .inl (hbuffer.resolve_left fun hout => ?_)⟩
    obtain ⟨_, _, _, _, haddr⟩ := haddr
    obtain ⟨input, hready⟩ := ready_of_prepared hprep
    obtain ⟨_, _, _, _, hargs⟩ := hready.args
    exact absurd hout (haddr.ne_arg hscoped (k := Convention.output) (by rw [hargs]; rfl))
  · refine ⟨⟨_, _, k, hk, haddr⟩, .inr ?_⟩
    by_contra hunfilled
    have hfree : ∀ j < index, ¬ f.Fills p j := fun j hj hfills => hunfilled ⟨j, hj, hfills⟩
    obtain ⟨t, ht⟩ := exists_before_of_le (Nat.succ_le_of_lt hk) hs
    have hloaded := pointers_of_standsFor hscoped h hsize hs hn
    rw [pointers_between (haddr.lastBefore hscoped hk hfree) hsize ht hs,
      haddr.pointers_of_slots hscoped hr ht hslots] at hloaded
    cases hloaded

/-- What an address stands for does not change as long as no call fills it. -/
theorem StandsFor.earlier {start stop : Nat} {n : NodeId} {i : Instruction}
    (h : f.StandsFor c g stop p n) (hi : f.instructions[start]? = some i) (hp : p ∈ i.operands)
    (hle : start ≤ stop) (hfree : ∀ k, start ≤ k → k < stop → ¬ f.Fills p k) :
    f.StandsFor c g start p n := by
  cases h with
  | filled hlast hn =>
    refine .filled ⟨?_, hlast.2.1, fun k hk hk' => hlast.2.2 k hk (Nat.lt_of_lt_of_le hk' hle)⟩ hn
    by_contra hnot
    exact hfree _ (Nat.not_lt.mp hnot) hlast.1 hlast.2.1
  | input hnone haddr _ hbase hfirst =>
    exact .input (fun k hk => hnone k (Nat.lt_of_lt_of_le hk hle)) haddr
      (haddr.lt_of_operand hscoped hi hp) hbase hfirst
  | element hnone haddr _ hlast hn =>
    exact .element (fun k hk => hnone k (Nat.lt_of_lt_of_le hk hle)) haddr
      (haddr.lt_of_operand hscoped hi hp) hlast hn

end

/-- A store is no call. -/
theorem Stores.not_fills {x base : Handle} (h : f.Stores p index x) : ¬ f.Fills base index := by
  rintro ⟨i, hi, hbase⟩
  obtain ⟨_, j, hj, hop, _⟩ := h
  rw [hi] at hj
  cases hj
  rw [(resultBuffer?_eq_some hbase).1] at hop
  cases hop

end Func

/-- A store through an address, the latest one included, is not seen by a load through it: the
load gives what the address stood for in front of the store.  So it gives the node of the
stored value exactly when the address stood for that node before.  Other addresses are not
both stored and loaded through than those of elements that are also a buffer of a call. -/
theorem Program.load_shows_store_iff {text : String} {program : Program} {f : Func} {c : Context}
    {g : Graph} {p v x : Handle} {store load : Nat} (hread : read text = .ok program)
    (hf : f ∈ program.functions) (hlower : f.lower c = .ok g) (hstore : f.Stores p store x)
    (hload : f.Loads p load v) (hlt : store < load)
    (hfree : ∀ k, store < k → k < load → ¬ f.Fills p k) :
    ∃ m n, f.node? c store x = some m ∧ f.node? c (load + 1) v = some n ∧
      f.StandsFor c g store p n ∧ (n = m ↔ f.StandsFor c g store p m) ∧
      (∃ base offset, ∃ address < store, f.Addresses p base offset address) ∧
      (ArgumentBuffer f p ∨ ∃ call < store, f.Fills p call) := by
  have hscoped := (arena_of_read hread f hf).toScoped
  obtain ⟨hmessage, i, hi, hop, hargs⟩ := id hstore
  obtain ⟨l, hl, hlop, hlargs, hv⟩ := hload
  have hsize : store ≤ f.instructions.size := Nat.le_of_lt (Array.getElem?_eq_some_iff.mp hi).1
  have hlsize : load ≤ f.instructions.size := Nat.le_of_lt (Array.getElem?_eq_some_iff.mp hl).1
  obtain ⟨s, t, hs, _, hstep⟩ := Func.exists_step hlower hi
  obtain ⟨m, e, _, _, hm, he, _, _⟩ := store_of_lowered hop hargs hmessage hstep
  obtain ⟨r, n, hr, hn, hnode⟩ := Func.exists_load hlower hl hlop hlargs hv
  have hreach := Func.reaches_before hsize hs he
  have hstands : f.StandsFor c g store p n := by
    refine (Func.standsFor_of_pointers hscoped hlower hlsize hr (hreach.ne_input hscoped) hn).earlier
      hscoped hi (by simp [hargs]) (Nat.le_of_lt hlt) fun k hk hk' => ?_
    rcases Nat.lt_or_eq_of_le hk with hk | rfl
    · exact hfree k hk hk'
    · exact hstore.not_fills
  refine ⟨m, n, by rw [Func.node?, hs]; exact hm, hnode, hstands, ?_,
    hreach.element hscoped hlower hsize hs hstands⟩
  constructor
  · rintro rfl
    exact hstands
  · intro hm'
    have hloaded := Func.pointers_of_standsFor hscoped hlower hsize hs hstands
    rw [Func.pointers_of_standsFor hscoped hlower hsize hs hm'] at hloaded
    exact (Option.some.inj hloaded).symm

/-- An element of the results of a call that is stored back, and passed to another call. -/
def Program.storedBack : String :=
  "define i32 @f(i64 %0, ptr %in, i64 %2, ptr %out, i64 %4, ptr %msg) \x7b
    %a = alloca double
    %r = alloca [2 x double]
    store double 2.0, ptr %a
    %c = call i32 @atomic_foo(i64 1, ptr %a, i64 2, ptr %r, i64 0, ptr %msg)
    %p = getelementptr double, ptr %r, i64 1
    %x = load double, ptr %p
    store double %x, ptr %p
    %y = load double, ptr %p
    %d = call i32 @atomic_foo(i64 1, ptr %p, i64 2, ptr %r, i64 0, ptr %msg)
    store double %y, ptr %out
    ret i32 0
  \x7d"

set_option maxRecDepth 4000 in
theorem Program.load_shows_store_storedBack :
    ∃ program f g, read storedBack = .ok program ∧ f ∈ program.functions ∧
      f.lower ⟨"f", 0, 1, 1⟩ = .ok g ∧ f.Stores 15 6 16 ∧ f.Loads 15 7 17 ∧
      f.node? ⟨"f", 0, 1, 1⟩ 6 16 = some 4 ∧ f.node? ⟨"f", 0, 1, 1⟩ 8 17 = some 4 ∧
      f.StandsFor ⟨"f", 0, 1, 1⟩ g 6 15 4 := by
  have hread : (match read storedBack with
      | .ok program => program.functions.any fun f => match f.lower ⟨"f", 0, 1, 1⟩ with
        | .ok _ => decide (f.Stores 15 6 16 ∧ f.Loads 15 7 17 ∧
            f.node? ⟨"f", 0, 1, 1⟩ 6 16 = some 4 ∧ f.node? ⟨"f", 0, 1, 1⟩ 8 17 = some 4)
        | .error _ => false
      | .error _ => false) = true := by
    rw [show read storedBack = _ from read_ofList _]
    decide +kernel
  split at hread
  next program hp =>
    obtain ⟨f, hf, hlower⟩ := List.any_eq_true.mp hread
    split at hlower
    next g hg =>
      obtain ⟨hstore, hload, hstored, hloaded⟩ := of_decide_eq_true hlower
      obtain ⟨_, n, _, hn, hstands, _⟩ :=
        load_shows_store_iff hp hf hg hstore hload (by decide) fun k hk hk' => by omega
      obtain rfl : n = 4 := Option.some.inj (hn.symm.trans hloaded)
      exact ⟨program, f, g, hp, hf, hg, hstore, hload, hstored, hloaded, hstands⟩
    · cases hlower
  · cases hread

/-- An element of the input that is stored to, loaded, and then passed to a call. -/
def Program.storedInput : String :=
  "define i32 @f(i64 %0, ptr %in, i64 %2, ptr %out, i64 %4, ptr %msg) \x7b
    %r = alloca double
    %p = getelementptr double, ptr %in, i64 0
    store double 2.0, ptr %p
    %y = load double, ptr %p
    %c = call i32 @atomic_foo(i64 1, ptr %p, i64 1, ptr %r, i64 0, ptr %msg)
    store double %y, ptr %out
    ret i32 0
  \x7d"

set_option maxRecDepth 4000 in
/-- The stored literal is node 2; the load behind the store sees the input, node 1. -/
theorem Program.load_misses_store :
    ∃ program f g, read storedInput = .ok program ∧ f ∈ program.functions ∧
      f.lower ⟨"f", 0, 1, 1⟩ = .ok g ∧ g.dependents = #[1] ∧ f.Stores 8 2 9 ∧ f.Loads 8 3 10 ∧
      f.node? ⟨"f", 0, 1, 1⟩ 2 9 = some 2 ∧ f.node? ⟨"f", 0, 1, 1⟩ 4 10 = some 1 := by
  have hread : (match read storedInput with
      | .ok program => program.functions.any fun f => match f.lower ⟨"f", 0, 1, 1⟩ with
        | .ok g => decide (g.dependents = #[1] ∧ f.Stores 8 2 9 ∧ f.Loads 8 3 10 ∧
            f.node? ⟨"f", 0, 1, 1⟩ 2 9 = some 2 ∧ f.node? ⟨"f", 0, 1, 1⟩ 4 10 = some 1)
        | .error _ => false
      | .error _ => false) = true := by
    rw [show read storedInput = _ from read_ofList _]
    decide +kernel
  split at hread
  next program hp =>
    obtain ⟨f, hf, hlower⟩ := List.any_eq_true.mp hread
    split at hlower
    next g hg => exact ⟨program, f, g, hp, hf, hg, of_decide_eq_true hlower⟩
    · cases hlower
  · cases hread

end SsaGraph

import SsaGraph.Proofs.Lowering.Preparation
import SsaGraph.Proofs.Meaning.Execution

/-!
When a lowering and a run agree.

`Agrees` relates the tables of a lowering, a machine and the values of the nodes, in
front of the same instruction.  A value has the number of its node, an address that can
be loaded points to the number of its node, and the buffers hold the numbers of the
nodes they stand for.

The tables are indexed by values, so they stay right only because a value has one
definition: a handle in a table is not the result of an instruction that has not run
yet.  The exception are argument buffers, which are entered before anything runs; these
are results of `alloca`, and what their address will be is known.  Each lemma below is
one way in which the two sides change.
-/

namespace SsaGraph
namespace Func

/-! ## Scopes -/

/-- Not the result of instruction number `index` or of a later one. -/
def DefinedBefore (f : Func) (index : Nat) (v : Handle) : Prop :=
  ∀ j, f.kind? v = some (.result j) → j < index

/-- The results of `alloca`. -/
def allocated (f : Func) : List Handle :=
  f.instructions.toList.filterMap fun i => if i.opcode = .alloca then i.result else none

/-- The result buffers of the calls among the first instructions. -/
def resultBuffers (f : Func) (index : Nat) : List Handle :=
  (f.instructions.toList.take index).filterMap (·.resultBuffer?)

/-- Every buffer of an atomic call is its own allocation, and no two calls fill the
same one. -/
structure OwnBuffers (f : Func) : Prop where
  arguments : ∀ b ∈ f.instructions.toList.filterMap (·.argumentBuffer?), b ∈ f.allocated
  results : ∀ b ∈ f.instructions.toList.filterMap (·.resultBuffer?), b ∈ f.allocated
  once : (f.instructions.toList.filterMap (·.resultBuffer?)).Nodup

variable {f : Func} {index : Nat} {i : Instruction} {v : Handle}

theorem DefinedBefore.mono (h : f.DefinedBefore index v) {later : Nat} (hle : index ≤ later) :
    f.DefinedBefore later v :=
  fun j hj => Nat.lt_of_lt_of_le (h j hj) hle

theorem Scoped.definedBefore_operand (hs : f.Scoped) (hi : f.instructions[index]? = some i)
    (hv : v ∈ i.operands) : f.DefinedBefore index v := by
  obtain ⟨k, hk, hlt⟩ := hs.operands hi hv
  intro j hj
  rw [hk] at hj
  exact hlt j (Option.some.inj hj)

theorem Scoped.definedBefore_result (hs : f.Scoped) (hi : f.instructions[index]? = some i)
    (hv : i.result = some v) : f.DefinedBefore (index + 1) v := by
  have hk := hs.results.mpr ⟨i, hi, hv⟩
  intro j hj
  rw [hk] at hj
  cases hj
  exact Nat.lt_succ_self index

/-- What was defined before an instruction is not its result. -/
theorem DefinedBefore.ne_result (h : f.DefinedBefore index v) (hs : f.Scoped)
    (hi : f.instructions[index]? = some i) : i.result ≠ some v := by
  intro hv
  exact Nat.lt_irrefl index (h index (hs.results.mpr ⟨i, hi, hv⟩))

theorem DefinedBefore.of_succ (h : f.DefinedBefore (index + 1) v) (hs : f.Scoped)
    (hi : f.instructions[index]? = some i) (hv : i.result ≠ some v) : f.DefinedBefore index v := by
  intro j hj
  refine Nat.lt_of_le_of_ne (Nat.le_of_lt_succ (h j hj)) ?_
  rintro rfl
  obtain ⟨inst, hget, hres⟩ := hs.results.mp hj
  rw [hi] at hget
  cases hget
  exact hv hres

theorem mem_allocated {v : Handle} :
    v ∈ f.allocated ↔ ∃ i ∈ f.instructions.toList, i.opcode = .alloca ∧ i.result = some v := by
  unfold allocated
  rw [List.mem_filterMap]
  refine exists_congr fun i => and_congr_right fun _ => ?_
  split
  next hop => exact ⟨fun h => ⟨hop, h⟩, fun h => h.2⟩
  next hop => exact ⟨fun h => (nomatch h), fun h => absurd h.1 hop⟩

/-- The instruction with the result of an `alloca` is that `alloca`. -/
theorem Scoped.opcode_of_allocated (hs : f.Scoped) (hi : f.instructions[index]? = some i)
    (hv : i.result = some v) (ha : v ∈ f.allocated) : i.opcode = .alloca := by
  obtain ⟨a, hmem, hop, hres⟩ := mem_allocated.mp ha
  obtain ⟨j, hj⟩ := List.mem_iff_getElem?.mp hmem
  rw [Array.getElem?_toList] at hj
  have he := hs.result_inj hi hj hv hres
  subst he
  rw [hi] at hj
  cases hj
  exact hop

/-- An argument of the function is no result, so it is no allocation either. -/
theorem Scoped.arg_not_mem_allocated (hs : f.Scoped) {k : Nat} (hk : f.args[k]? = some v) :
    v ∉ f.allocated := by
  intro ha
  obtain ⟨a, hmem, _, hres⟩ := mem_allocated.mp ha
  obtain ⟨j, hj⟩ := List.mem_iff_getElem?.mp hmem
  rw [Array.getElem?_toList] at hj
  have hkind := hs.results.mpr ⟨a, hj, hres⟩
  rw [(hs.args hk).2] at hkind
  cases hkind

theorem Scoped.definedBefore_arg (hs : f.Scoped) {k : Nat} (hk : f.args[k]? = some v)
    (index : Nat) : f.DefinedBefore index v := by
  intro j hj
  rw [(hs.args hk).2] at hj
  cases hj

/-! ## Result buffers -/

theorem resultBuffers_succ (hi : f.instructions[index]? = some i) :
    f.resultBuffers (index + 1) = f.resultBuffers index ++ i.resultBuffer?.toList := by
  rw [← Array.getElem?_toList] at hi
  unfold resultBuffers
  rw [List.take_add_one, hi, List.filterMap_append]
  cases h : i.resultBuffer? <;> simp [h]

theorem resultBuffers_subset (f : Func) (index : Nat) :
    ∀ b ∈ f.resultBuffers index, b ∈ f.instructions.toList.filterMap (·.resultBuffer?) := by
  intro b hb
  obtain ⟨j, hj, hr⟩ := List.mem_filterMap.mp hb
  exact List.mem_filterMap.mpr ⟨j, List.mem_of_mem_take hj, hr⟩

/-- No earlier call fills the result buffer of a call. -/
theorem OwnBuffers.not_mem_resultBuffers (h : f.OwnBuffers) (hi : f.instructions[index]? = some i)
    {b : Handle} (hb : i.resultBuffer? = some b) : b ∉ f.resultBuffers index := by
  rw [← Array.getElem?_toList] at hi
  have hsplit : f.instructions.toList =
      f.instructions.toList.take index ++ f.instructions.toList.drop index :=
    (List.take_append_drop _ _).symm
  have hnodup := h.once
  rw [hsplit, List.filterMap_append, List.nodup_append] at hnodup
  intro hmem
  refine hnodup.2.2 b hmem b ?_ rfl
  refine List.mem_filterMap.mpr ⟨i, ?_, hb⟩
  rw [List.mem_iff_getElem?]
  exact ⟨0, by rw [List.getElem?_drop, Nat.add_zero, hi]⟩

end Func

open Lowering

variable {α : Type}

/-- The buffers that an address is known of without running anything. -/
def Func.Home (f : Func) (input output b : Handle) : Prop :=
  b = input ∨ b = output ∨ b ∈ f.allocated

/-- Address `p` points to the number of node `n`, in a buffer of consecutive nodes. -/
def PointsTo (f : Func) (index : Nat) (b : Bindings) (m : Machine α) (nodes : List α) (p : Handle)
    (n : NodeId) : Prop :=
  f.DefinedBefore index p ∧ ∃ e a, m.env p = some (.pointer e) ∧
    (∃ first length, b.layouts.get? e.base = some (.contiguous first length)) ∧
      m.memory e.base e.offset = some a ∧ nodeAt nodes n = some a

/-- The tables of lowering `s` say about the values of `nodes` what machine `m` says,
in front of instruction number `index`. -/
structure Agrees (I : Interpretation α) (f : Func) (input output : Handle) (index : Nat)
    (s : Lowering) (m : Machine α) (nodes : List α) : Prop where
  homes : ∀ {b}, f.Home input output b → f.DefinedBefore index b →
    m.env b = some (.pointer ⟨b, 0⟩)
  values : ∀ {v n}, s.bindings.values.get? v = some n →
    f.DefinedBefore index v ∧ ∃ a, m.env v = some (.number a) ∧ nodeAt nodes n = some a
  pointers : ∀ {p n}, s.bindings.pointers.get? p = some n →
    PointsTo f index s.bindings m nodes p n
  consecutive : ∀ {base first length},
    s.bindings.layouts.get? base = some (.contiguous first length) →
      (base = input ∨ base ∈ f.resultBuffers index) ∧
        ∀ k < length, ∃ a, m.memory base k = some a ∧ nodeAt nodes (first + k) = some a
  slots : ∀ {base length written},
    s.bindings.layouts.get? base = some (.scattered length written) →
      (base = output ∨ base ∈ f.allocated) ∧
        ∀ k n, Slots.get? written k = some n →
          ∃ a, m.memory base k = some a ∧ nodeAt nodes n = some a
  elements : ∀ {p e}, s.elements.get? p = some e →
    (f.Home input output p ∧ e = ⟨p, 0⟩) ∨
      (f.DefinedBefore index p ∧ m.env p = some (.pointer e))
  comparisons : ∀ {v d}, s.comparisons.get? v = some d →
    f.DefinedBefore index v ∧ f.DefinedBefore index d.left ∧ f.DefinedBefore index d.right ∧
      ∀ p a b, d.predicate = .float p → m.env d.left = some (.number a) →
        m.env d.right = some (.number b) → m.env v = some (.truth (I.holds p a b))

namespace Agrees

variable {I : Interpretation α} {f : Func} {input output : Handle} {index : Nat} {s : Lowering}
  {m : Machine α} {nodes : List α}

/-- An instruction that changes no buffer keeps the agreement.  Only its result may get
a datum, which is a pointer to itself if it is an allocation. -/
theorem next (h : Agrees I f input output index s m nodes) (hs : f.Scoped)
    {i : Instruction} (hi : f.instructions[index]? = some i)
    (hin : f.args[Convention.input]? = some input)
    (hout : f.args[Convention.output]? = some output)
    {m' : Machine α} (henv : ∀ v, i.result ≠ some v → m'.env v = m.env v)
    (hmemory : m'.memory = m.memory)
    (halloca : i.opcode = .alloca → ∀ v, i.result = some v → m'.env v = some (.pointer ⟨v, 0⟩)) :
    Agrees I f input output (index + 1) s m' nodes := by
  have hkeep : ∀ {v}, f.DefinedBefore index v → m'.env v = m.env v :=
    fun hv => henv _ (hv.ne_result hs hi)
  have hlater : ∀ {v}, f.DefinedBefore index v → f.DefinedBefore (index + 1) v :=
    fun hv => hv.mono (Nat.le_succ index)
  refine ⟨?_, ?_, ?_, ?_, ?_, ?_, ?_⟩
  · intro b hb hdef
    by_cases hres : i.result = some b
    · rcases hb with rfl | rfl | hb
      · exact absurd hres ((hs.definedBefore_arg hin index).ne_result hs hi)
      · exact absurd hres ((hs.definedBefore_arg hout index).ne_result hs hi)
      · exact halloca (hs.opcode_of_allocated hi hres hb) b hres
    · rw [henv b hres]
      exact h.homes hb (hdef.of_succ hs hi hres)
  · intro v n hv
    obtain ⟨hdef, a, ha, hn⟩ := h.values hv
    exact ⟨hlater hdef, a, (hkeep hdef).trans ha, hn⟩
  · intro p n hp
    obtain ⟨hdef, e, a, he, hl, ha, hn⟩ := h.pointers hp
    exact ⟨hlater hdef, e, a, (hkeep hdef).trans he, hl, hmemory ▸ ha, hn⟩
  · intro base first length hl
    obtain ⟨hbase, hk⟩ := h.consecutive hl
    refine ⟨hbase.imp_right fun hb => ?_, hmemory ▸ hk⟩
    rw [Func.resultBuffers_succ hi]
    exact List.mem_append_left _ hb
  · intro base length written hl
    rw [hmemory]
    exact h.slots hl
  · intro p e he
    refine (h.elements he).imp_right fun ⟨hdef, hp⟩ => ⟨hlater hdef, (hkeep hdef).trans hp⟩
  · intro v d hd
    obtain ⟨hv, hl, hr, htruth⟩ := h.comparisons hd
    refine ⟨hlater hv, hlater hl, hlater hr, fun p a b hp ha hb => ?_⟩
    rw [hkeep hl] at ha
    rw [hkeep hr] at hb
    exact (hkeep hv).trans (htruth p a b hp ha hb)

section
variable (h : Agrees I f input output index s m nodes)
include h

theorem define (hs : f.Scoped) {i : Instruction} (hi : f.instructions[index]? = some i)
    (hin : f.args[Convention.input]? = some input)
    (hout : f.args[Convention.output]? = some output) (hop : i.opcode ≠ .alloca)
    (d : Option (Datum α)) : Agrees I f input output (index + 1) s (m.define i.result d) nodes :=
  h.next hs hi hin hout (fun _ hv => if_neg hv) rfl fun ha => absurd ha hop

/-- More nodes do not disturb the agreement about the ones there are. -/
theorem append (more : List α) : Agrees I f input output index s m (nodes ++ more) where
  homes := h.homes
  values hv := by
    obtain ⟨hdef, a, ha, hn⟩ := h.values hv
    exact ⟨hdef, a, ha, nodeAt_append hn more⟩
  pointers hp := by
    obtain ⟨hdef, e, a, he, hl, ha, hn⟩ := h.pointers hp
    exact ⟨hdef, e, a, he, hl, ha, nodeAt_append hn more⟩
  consecutive hl := by
    refine ⟨(h.consecutive hl).1, fun k hk => ?_⟩
    obtain ⟨a, ha, hn⟩ := (h.consecutive hl).2 k hk
    exact ⟨a, ha, nodeAt_append hn more⟩
  slots hl := by
    refine ⟨(h.slots hl).1, fun k n hk => ?_⟩
    obtain ⟨a, ha, hn⟩ := (h.slots hl).2 k n hk
    exact ⟨a, ha, nodeAt_append hn more⟩
  elements := h.elements
  comparisons := h.comparisons

/-- The agreement is about the tables only. -/
theorem congr_tables {t : Lowering} (hb : t.bindings = s.bindings) (he : t.elements = s.elements)
    (hc : t.comparisons = s.comparisons) : Agrees I f input output index t m nodes where
  homes := h.homes
  values := hb ▸ h.values
  pointers := hb ▸ h.pointers
  consecutive := hb ▸ h.consecutive
  slots := hb ▸ h.slots
  elements := he ▸ h.elements
  comparisons := hc ▸ h.comparisons

theorem bindValue {v : Handle} {n : NodeId} {a : α} (hdef : f.DefinedBefore index v)
    (henv : m.env v = some (.number a)) (hn : nodeAt nodes n = some a) :
    Agrees I f input output index { s with bindings := s.bindings.bindValue v n } m nodes := by
  refine ⟨h.homes, ?_, h.pointers, h.consecutive, h.slots, h.elements, h.comparisons⟩
  intro w k hw
  simp only [Bindings.bindValue, Table.get?_insert] at hw
  split at hw
  next hwv =>
    cases hw
    rw [hwv]
    exact ⟨hdef, a, henv, hn⟩
  · exact h.values hw

theorem bindPointer {p : Handle} {n : NodeId} {e : Element} {a : α} {first length : Nat}
    (hdef : f.DefinedBefore index p) (henv : m.env p = some (.pointer e))
    (hl : s.bindings.layouts.get? e.base = some (.contiguous first length))
    (ha : m.memory e.base e.offset = some a) (hn : nodeAt nodes n = some a) :
    Agrees I f input output index { s with bindings := s.bindings.bindPointer p n } m nodes := by
  refine ⟨h.homes, h.values, ?_, h.consecutive, h.slots, h.elements, h.comparisons⟩
  intro q k hq
  simp only [Bindings.bindPointer, Table.get?_insert] at hq
  split at hq
  next hqp =>
    cases hq
    rw [hqp]
    exact ⟨hdef, e, a, henv, ⟨first, length, hl⟩, ha, hn⟩
  · exact h.pointers hq

theorem recordElement {p : Handle} {e : Element} (hdef : f.DefinedBefore index p)
    (henv : m.env p = some (.pointer e)) :
    Agrees I f input output index (s.recordElement p e) m nodes := by
  refine ⟨h.homes, h.values, h.pointers, h.consecutive, h.slots, ?_, h.comparisons⟩
  intro q d hq
  simp only [Lowering.recordElement, Table.get?_insert] at hq
  split at hq
  next hqp =>
    cases hq
    rw [hqp]
    exact .inr ⟨hdef, henv⟩
  · exact h.elements hq

theorem compare {v : Handle} {d : Comparison} (hv : f.DefinedBefore index v)
    (hleft : f.DefinedBefore index d.left) (hright : f.DefinedBefore index d.right)
    (htruth : ∀ p a b, d.predicate = .float p → m.env d.left = some (.number a) →
      m.env d.right = some (.number b) → m.env v = some (.truth (I.holds p a b))) :
    Agrees I f input output index { s with comparisons := s.comparisons.insert v d } m nodes := by
  refine ⟨h.homes, h.values, h.pointers, h.consecutive, h.slots, h.elements, ?_⟩
  intro w d' hw
  simp only [Table.get?_insert] at hw
  split at hw
  next hwv =>
    cases hw
    rw [hwv]
    exact ⟨hv, hleft, hright, htruth⟩
  · exact h.comparisons hw

/-- A store to a slot writes the number of the node. -/
theorem store {e : Element} {length : Nat} {written : Array (Option NodeId)} {n : NodeId} {a : α}
    (hl : s.bindings.layouts.get? e.base = some (.scattered length written))
    (hn : nodeAt nodes n = some a) :
    Agrees I f input output index
      { s with bindings := s.bindings.withSlot e.base length written e.offset n } (m.write e a)
      nodes := by
  -- Buffers of consecutive nodes are other ones, so their memory is as it was.
  have hne : ∀ {base first size},
      s.bindings.layouts.get? base = some (.contiguous first size) → base ≠ e.base := by
    rintro base first size hb rfl
    rw [hl] at hb
    cases hb
  have hmemory : ∀ {base k}, base ≠ e.base → (m.write e a).memory base k = m.memory base k :=
    fun hb => if_neg fun hk => hb hk.1
  have hlayout : ∀ {base}, base ≠ e.base →
      (s.bindings.withSlot e.base length written e.offset n).layouts.get? base =
        s.bindings.layouts.get? base := fun hb => Table.get?_insert_of_ne _ _ hb
  refine ⟨h.homes, h.values, ?_, ?_, ?_, h.elements, h.comparisons⟩
  · intro p k hp
    obtain ⟨hdef, d, b, hd, ⟨first, size, hc⟩, hb, hk⟩ := h.pointers hp
    exact ⟨hdef, d, b, hd, ⟨first, size, (hlayout (hne hc)).trans hc⟩,
      (hmemory (hne hc)).trans hb, hk⟩
  · intro base first size hb
    simp only [Bindings.withSlot, Table.get?_insert] at hb
    split at hb
    · cases hb
    next hbase =>
      obtain ⟨hhome, hk⟩ := h.consecutive hb
      refine ⟨hhome, fun k hlt => ?_⟩
      rw [hmemory hbase]
      exact hk k hlt
  · intro base size slots hb
    simp only [Bindings.withSlot, Table.get?_insert] at hb
    split at hb
    next hbase =>
      cases hb
      rw [hbase]
      refine ⟨(h.slots hl).1, fun k j hj => ?_⟩
      rw [Slots.get?_write] at hj
      split at hj
      next hk =>
        cases hj
        exact ⟨a, if_pos ⟨rfl, hk⟩, hn⟩
      next hk =>
        obtain ⟨b, hb, hj⟩ := (h.slots hl).2 k j hj
        exact ⟨b, (if_neg fun he => hk he.2).trans hb, hj⟩
    next hbase =>
      refine ⟨(h.slots hb).1, fun k j hj => ?_⟩
      rw [hmemory hbase]
      exact (h.slots hb).2 k j hj

/-- A call fills a buffer that had no layout with numbers of its own. -/
theorem fill {base : Handle} {first n : Nat} {values : Nat → α}
    (hfree : s.bindings.layouts.get? base = none) (hbase : base ∈ f.resultBuffers index)
    (hdef : f.DefinedBefore index base) (henv : m.env base = some (.pointer ⟨base, 0⟩))
    (hn : ∀ k < n, nodeAt nodes (first + k) = some (values k)) :
    Agrees I f input output index { s with bindings := s.bindings.consecutive base first n }
      (m.fill ⟨base, 0⟩ n values) nodes := by
  have hmemory : ∀ {b k}, b ≠ base → (m.fill ⟨base, 0⟩ n values).memory b k = m.memory b k :=
    fun hb => if_neg fun hk => hb hk.1
  have hfilled : ∀ k < n, (m.fill ⟨base, 0⟩ n values).memory base k = some (values k) := by
    intro k hk
    refine (if_pos ⟨rfl, Nat.zero_le k, ?_⟩).trans rfl
    rwa [Nat.zero_add]
  have hne : ∀ {b l}, s.bindings.layouts.get? b = some l → b ≠ base := by
    rintro b l hb rfl
    rw [hfree] at hb
    cases hb
  have hlayout : ∀ {b}, b ≠ base →
      (s.bindings.consecutive base first n).layouts.get? b = s.bindings.layouts.get? b :=
    fun hb => Table.get?_insert_of_ne _ _ hb
  refine ⟨h.homes, h.values, ?_, ?_, ?_, h.elements, h.comparisons⟩
  · have hold : ∀ {p k}, s.bindings.pointers.get? p = some k →
        PointsTo f index (s.bindings.consecutive base first n) (m.fill ⟨base, 0⟩ n values) nodes
          p k := by
      intro p k hp
      obtain ⟨hd, e, a, he, ⟨first', size, hc⟩, ha, hk⟩ := h.pointers hp
      exact ⟨hd, e, a, he, ⟨first', size, (hlayout (hne hc)).trans hc⟩,
        (hmemory (hne hc)).trans ha, hk⟩
    intro p k hp
    simp only [Bindings.consecutive] at hp
    split at hp
    · rw [Table.get?_erase] at hp
      split at hp
      · cases hp
      · exact hold hp
    next hpos =>
      rw [Table.get?_insert] at hp
      split at hp
      next hpb =>
        cases hp
        rw [hpb]
        have hpos := Nat.pos_of_ne_zero hpos
        exact ⟨hdef, ⟨base, 0⟩, values 0, henv, ⟨first, n, Table.get?_insert_self _ _ _⟩,
          hfilled 0 hpos, hn 0 hpos⟩
      · exact hold hp
  · intro b first' size hb
    simp only [Bindings.consecutive, Table.get?_insert] at hb
    split at hb
    next hbb =>
      cases hb
      rw [hbb]
      exact ⟨.inr hbase, fun k hk => ⟨values k, hfilled k hk, hn k hk⟩⟩
    next hbb =>
      refine ⟨(h.consecutive hb).1, fun k hk => ?_⟩
      rw [hmemory hbb]
      exact (h.consecutive hb).2 k hk
  · intro b size slots hb
    simp only [Bindings.consecutive, Table.get?_insert] at hb
    split at hb
    · cases hb
    next hbb =>
      refine ⟨(h.slots hb).1, fun k j hj => ?_⟩
      rw [hmemory hbb]
      exact (h.slots hb).2 k j hj

end

end Agrees
end SsaGraph

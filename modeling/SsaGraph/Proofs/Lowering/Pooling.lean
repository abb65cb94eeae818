import SsaGraph.Proofs.Lowering.Sources
import SsaGraph.Proofs.Program.Arena

/-!
The constants of a graph.

The first pass makes a constant of each literal that is an operand of an instruction, where it
first comes to it (`Func.literals`).  It knows a literal by its handle, so two literals with one
value are two constants.  Their nodes follow the inputs, and are given before the number of
constants is known.  The second pass starts behind them (`Apart`), and as no instruction has a
literal for its result, a literal has the same node all along and no other value has it.
-/

namespace SsaGraph

namespace Func

/-- The literals among some values, in the order in which they first occur. -/
def literalsOf (f : Func) (vs : List Handle) : List Handle :=
  (vs.filter fun v => (f.float? v).isSome).eraseDups

/-- The literals that are operands, in the order in which they first occur. -/
def literals (f : Func) : List Handle :=
  f.literalsOf (f.instructions.toList.flatMap (·.operands))

theorem eraseDups_concat (vs : List Handle) (v : Handle) :
    (vs ++ [v]).eraseDups = if v ∈ vs then vs.eraseDups else vs.eraseDups ++ [v] := by
  rw [List.eraseDups_append, List.cons_removeAll, List.nil_removeAll]
  by_cases h : v ∈ vs <;> simp [List.eraseDups_cons, h]

variable {f : Func} {vs : List Handle} {v : Handle}

theorem literalsOf_concat_of_none (h : f.float? v = none) :
    f.literalsOf (vs ++ [v]) = f.literalsOf vs := by
  rw [literalsOf, List.filter_append, List.filter_cons_of_neg (by simp [h]), List.filter_nil,
    List.append_nil]
  rfl

/-- A literal is added where it first occurs. -/
theorem literalsOf_concat {x : Binary64} (h : f.float? v = some x) :
    f.literalsOf (vs ++ [v]) =
      if v ∈ f.literalsOf vs then f.literalsOf vs else f.literalsOf vs ++ [v] := by
  rw [literalsOf, List.filter_append, List.filter_cons_of_pos (by simp [h]), List.filter_nil,
    eraseDups_concat]
  simp only [literalsOf, List.mem_eraseDups]

end Func

namespace Lowering

variable {f : Func} {c : Context} {s t : Lowering} {i : Instruction}

/-! ## The first pass -/

/-- The constants are the values of the given literals, which are the values with nodes. -/
structure Pooled (f : Func) (inputs : Nat) (literals : List Handle) (s : Lowering) : Prop where
  constants : List.Forall₂ (fun v x => f.float? v = some x) literals s.graph.constants.toList
  values : ∀ {v n}, s.bindings.values.get? v = some n ↔
    ∃ k : Nat, literals[k]? = some v ∧ n = 1 + inputs + k

theorem Pooled.contains_iff {inputs : Nat} {literals : List Handle}
    (h : Pooled f inputs literals s) (v : Handle) :
    s.bindings.values.contains v = true ↔ v ∈ literals := by
  rw [Table.contains, Option.isSome_iff_exists, List.mem_iff_getElem?]
  constructor
  · rintro ⟨n, hn⟩
    obtain ⟨k, hk, _⟩ := h.values.mp hn
    exact ⟨k, hk⟩
  · rintro ⟨k, hk⟩
    exact ⟨_, h.values.mpr ⟨k, hk, rfl⟩⟩

theorem pooled_pool {inputs : Nat} {vs : List Handle} (h : Pooled f inputs (f.literalsOf vs) s)
    (v : Handle) : Pooled f inputs (f.literalsOf (vs ++ [v])) (pool f inputs s v) := by
  unfold pool
  split
  next hx => rwa [Func.literalsOf_concat_of_none hx]
  next x hx =>
    by_cases hv : v ∈ f.literalsOf vs
    · rw [if_pos ((h.contains_iff v).mpr hv), Func.literalsOf_concat hx, if_pos hv]
      exact h
    · rw [if_neg fun hc => hv ((h.contains_iff v).mp hc), Func.literalsOf_concat hx, if_neg hv]
      have hsize : (f.literalsOf vs).length = s.graph.constants.size := h.constants.length_eq
      constructor
      · simp only [Graph.pushConstant, Array.toList_push]
        exact List.rel_append h.constants (.cons hx .nil)
      · intro w n
        simp only [Bindings.bindValue, Table.get?_insert, ← hsize]
        by_cases hw : w = v
        · subst hw
          rw [if_pos rfl, Option.some.injEq]
          constructor
          · rintro rfl
            exact ⟨_, List.getElem?_concat_length, rfl⟩
          · rintro ⟨k, hk, rfl⟩
            -- An earlier place would have it among the literals before.
            by_cases hlt : k < (f.literalsOf vs).length
            · rw [List.getElem?_append_left hlt] at hk
              exact absurd (List.mem_of_getElem? hk) hv
            · have hle := (List.getElem?_eq_some_iff.mp hk).1
              rw [List.length_append, List.length_singleton] at hle
              have hk : (f.literalsOf vs).length = k := by omega
              rw [hk]
        · rw [if_neg hw, h.values]
          apply exists_congr
          intro k
          apply and_congr_left'
          rw [List.getElem?_append]
          split
          · rfl
          next hge =>
            rw [List.getElem?_eq_none (Nat.le_of_not_lt hge), List.getElem?_singleton]
            split
            · simp only [Option.some.injEq, reduceCtorEq, false_iff]
              exact Ne.symm hw
            · rfl

theorem pooled_foldl_pool {inputs : Nat} {vs : List Handle}
    (h : Pooled f inputs (f.literalsOf vs) s) (ws : List Handle) :
    Pooled f inputs (f.literalsOf (vs ++ ws)) (ws.foldl (pool f inputs) s) := by
  induction ws generalizing vs s with
  | nil => rwa [List.append_nil]
  | cons w rest ih =>
    rw [List.append_cons, List.foldl_cons]
    exact ih (pooled_pool h w)

theorem values_of_registerScattered {b b' : Bindings} {base : Handle} {slots : Nat}
    (h : b.registerScattered base slots = .ok b') : b'.values = b.values := by
  rcases Bindings.registerScattered_eq_ok.mp h with ⟨_, rfl⟩ | ⟨_, rfl⟩ <;> rfl

/-- Registering the argument buffer leaves constants and values as they are. -/
theorem pooled_discover {inputs : Nat} {vs : List Handle}
    (h : Pooled f inputs (f.literalsOf vs) s) (ht : discover f inputs s i = .ok t) :
    Pooled f inputs (f.literalsOf (vs ++ i.operands)) t := by
  have hpooled := pooled_foldl_pool h i.operands
  rcases registerArguments_cases ht with ⟨_, rfl⟩ | ⟨base, slots, b, _, hb, rfl⟩
  · exact hpooled
  · refine ⟨hpooled.constants, ?_⟩
    intro v n
    rw [← hpooled.values, ← values_of_registerScattered hb]
    rfl

theorem pooled_of_prepared {output : Handle} (h : f.prepared c = .ok (s, output)) :
    Pooled f c.inputs f.literals s := by
  obtain ⟨input, r, _, _, hr, hs⟩ := Func.prepared_eq_ok h
  have hpooled : Pooled f c.inputs f.literals r := by
    refine pass_follows
      (P := fun done r => Pooled f c.inputs (f.literalsOf (done.flatMap (·.operands))) r) ?_ ?_ hr
    · intro done i s t hs ht
      rw [List.flatMap_append, List.flatMap_singleton]
      exact pooled_discover hs ht
    · refine ⟨.nil, ?_⟩
      intro v n
      exact ⟨fun hv => (nomatch hv), fun ⟨k, hk, _⟩ => (nomatch hk)⟩
  obtain ⟨_, _, b, hb, rfl⟩ := prepare_eq_ok hs
  refine ⟨hpooled.constants, ?_⟩
  intro v n
  show b.values.get? v = some n ↔ _
  rw [values_of_registerScattered hb, ← hpooled.values]
  rfl

/-! ## The second pass -/

theorem constants_of_lowered (h : Lowered f s i t) : t.graph.constants = s.graph.constants := by
  have hrecord : ∀ {r : Lowering} {vs : List Handle}, vs.foldlM (recordOperand f) r = .ok t →
      t.graph.constants = r.graph.constants := by
    intro r vs ht
    refine foldlM_keeps (P := fun q => q.graph.constants = r.graph.constants) ?_ rfl ht
    intro q v q' hq hstep
    rcases recordOperand_cases hstep with ⟨_, rfl⟩ | ⟨_, _, _, _, _, _, _, rfl⟩
    · exact hq
    · exact (Graph.pushOperator_constants _ _ _).trans hq
  cases h with
  | extend _ _ _ ht => exact hrecord (r := { s with extended := true }) ht
  | combine _ _ ht => exact hrecord ht
  | binary | negate | select | math => exact Graph.pushOperator_constants _ _ _
  | discrete =>
    refine (Graph.pushOperator_constants _ _ _).trans ?_
    rw [Graph.internDiscrete_eq]
  | atomic =>
    refine (Graph.pushOperator_constants _ _ _).trans ?_
    rw [Graph.internAtomic_eq]
  | _ => rfl

/-- The nodes of the constants. -/
def ConstantNode (f : Func) (c : Context) (n : Nat) : Prop :=
  c.inputs < n ∧ n ≤ c.inputs + f.literals.length

theorem not_constantNode {last : Nat} (h : c.inputs + f.literals.length ≤ last) (k : Nat) :
    ¬ ConstantNode f c (last + 1 + k) := by
  intro hn
  have hn := hn.2
  omega

/-- Only literals have the nodes of constants, and none of them can be loaded. -/
structure Apart (f : Func) (c : Context) (s : Lowering) : Prop where
  last : c.inputs + f.literals.length ≤ s.last
  values : ∀ {v n}, s.bindings.values.get? v = some n → ConstantNode f c n →
    f.literals[n - (1 + c.inputs)]? = some v
  pointers : ∀ {p n}, s.bindings.pointers.get? p = some n → ¬ ConstantNode f c n
  consecutive : ∀ {base first length k}, s.bindings.layouts.get? base =
    some (.contiguous first length) → k < length → ¬ ConstantNode f c (first + k)

theorem apart_of_prepared {output : Handle} (h : f.prepared c = .ok (s, output)) :
    Apart f c s := by
  have hpooled := pooled_of_prepared h
  obtain ⟨input, hready⟩ := Func.ready_of_prepared h
  have hsize : f.literals.length = s.graph.constants.size := hpooled.constants.length_eq
  refine ⟨by rw [hready.last, hsize], ?_, ?_, ?_⟩
  · intro v n hv _
    obtain ⟨k, hk, rfl⟩ := hpooled.values.mp hv
    rwa [Nat.add_sub_cancel_left]
  · intro p n hp hn
    obtain ⟨_, rfl, hpos⟩ := hready.pointers hp
    have hn := hn.1
    omega
  · intro base first length k hl hk hn
    by_cases hbase : base = input
    · rw [hbase, hready.input_layout] at hl
      cases hl
      have hn := hn.1
      omega
    · obtain ⟨_, slots, he⟩ := hready.layouts hl hbase
      cases he

namespace Apart

variable (h : Apart f c s)
include h

theorem bindValue {v : Handle} {n last : Nat} (hn : ¬ ConstantNode f c n) (hlast : s.last ≤ last)
    (g : Graph) :
    Apart f c { s with graph := g, bindings := s.bindings.bindValue v n, last := last } where
  last := Nat.le_trans h.last hlast
  values {w m} hw hm := by
    simp only [Bindings.bindValue, Table.get?_insert] at hw
    split at hw
    · cases hw
      exact absurd hm hn
    · exact h.values hw hm
  pointers := h.pointers
  consecutive := h.consecutive

theorem produce (v : Handle) (op : Op) (args : List Nat) : Apart f c (s.produce v op args) :=
  h.bindValue (not_constantNode h.last 0) (Nat.le_succ s.last) _

theorem lowered (ht : Lowered f s i t) : Apart f c t := by
  cases ht with
  | alloca | message | selectCode | branch | ret => exact h
  | compare | element => exact ⟨h.last, h.values, h.pointers, h.consecutive⟩
  | load _ _ _ hn => exact h.bindValue (h.pointers hn) (Nat.le_refl _) _
  | pointer _ _ _ _ hl hlt =>
    refine ⟨h.last, h.values, ?_, h.consecutive⟩
    intro p n hp
    simp only [Bindings.bindPointer, Table.get?_insert] at hp
    split at hp
    · cases hp
      exact h.consecutive hl hlt
    · exact h.pointers hp
  | store _ _ _ _ _ _ _ hl =>
    refine ⟨h.last, h.values, h.pointers, ?_⟩
    intro base first length k hbase
    simp only [Bindings.withSlot, Table.get?_insert] at hbase
    split at hbase
    · cases hbase
    · exact h.consecutive hbase
  | binary | negate | select | math => exact h.produce _ _ _
  | @discrete _ _ _ _ rest =>
    have hs : Apart f c { s with graph := (s.graph.internDiscrete rest).1 } :=
      ⟨h.last, h.values, h.pointers, h.consecutive⟩
    exact hs.produce _ _ _
  | extend _ _ _ ht | combine _ _ ht =>
    rw [recordOperands_frame ht]
    exact ⟨h.last, h.values, h.pointers, h.consecutive⟩
  | @atomic _ _ _ results _ _ _ _ _ _ count =>
    refine ⟨Nat.le_trans h.last (Nat.le_add_right _ _), h.values, ?_, ?_⟩
    · intro p n hp
      simp only [Bindings.consecutive] at hp
      split at hp
      · rw [Table.get?_erase] at hp
        split at hp
        · cases hp
        · exact h.pointers hp
      · rw [Table.get?_insert] at hp
        split at hp
        · cases hp
          exact not_constantNode h.last 0
        · exact h.pointers hp
    · intro base first length k hbase
      simp only [Bindings.consecutive, Table.get?_insert] at hbase
      split at hbase
      · cases hbase
        intro _
        exact not_constantNode h.last k
      · exact h.consecutive hbase

end Apart

end Lowering

/-- The first of the first results is the next node. -/
theorem Graph.eq_of_head?_firstResultsFrom? {next n : NodeId} {os : List Operator}
    {firsts : List (Option NodeId)} (h : firstResultsFrom? next os = some firsts)
    (hn : (firsts.filterMap id).head? = some n) : n = next := by
  induction os generalizing next firsts with
  | nil =>
    cases h
    cases hn
  | cons o rest ih =>
    rw [firstResultsFrom?] at h
    obtain ⟨after, hafter, h⟩ := Option.bind_eq_some_iff.mp h
    obtain ⟨later, hlater, h⟩ := Option.bind_eq_some_iff.mp h
    cases h
    by_cases hpos : 0 < o.resultCount
    · rw [if_pos hpos] at hn
      exact (Option.some.inj hn).symm
    · rw [if_neg hpos] at hn
      have hn : (later.filterMap id).head? = some n := hn
      have hsame : after = next := by
        rw [← (addCount?_eq_some_iff.mp hafter).2, Nat.eq_zero_of_not_pos hpos, Nat.add_zero]
      exact ih (hsame ▸ hlater) hn

namespace Func

open Lowering

variable {f : Func} {c : Context} {g : Graph} {i : Instruction} {index : Nat}

/-! ## Finished graphs -/

/-- The node in a slot of a buffer, in front of an instruction. -/
def slot? (f : Func) (c : Context) (index : Nat) (base : Handle) (offset : Nat) : Option NodeId :=
  match f.before c index with
  | .ok s => s.slot? base offset
  | .error _ => none

theorem forall₂_constants (hlower : f.lower c = .ok g) :
    List.Forall₂ (fun v x => f.float? v = some x) f.literals g.constants.toList := by
  obtain ⟨r, output, final, hp, hfinal, hg⟩ := lower_eq_ok.mp hlower
  obtain ⟨_, _, _, _, rfl⟩ := (inOrder_before hp (Nat.le_refl _) hfinal).finish_eq_ok hg
  have hconstants : final.graph.constants = r.graph.constants := by
    refine before_keeps (P := fun _ s => s.graph.constants = r.graph.constants) ?_ ?_
      (Nat.le_refl _) hfinal
    · intro s out hs
      rw [hp] at hs
      cases hs
      rfl
    · intro _ i s t _ hs ht
      exact (constants_of_lowered ht).trans hs
  show List.Forall₂ _ f.literals final.graph.constants.toList
  rw [hconstants]
  exact (pooled_of_prepared hp).constants

theorem leaves_eq (hlower : f.lower c = .ok g) :
    g.leaves = c.dynamics + c.independents + g.constants.size := by
  have hsize := (forall₂_constants hlower).length_eq
  obtain ⟨r, output, final, hp, hfinal, hg⟩ := lower_eq_ok.mp hlower
  obtain ⟨_, _, _, _, rfl⟩ := (inOrder_before hp (Nat.le_refl _) hfinal).finish_eq_ok hg
  have hstart := before_zero_eq_ok.mpr ⟨output, hp⟩
  have hflat := (inOrder_before hp (Nat.zero_le _) hstart).ordered.flat
  have hleaves := (grown_between (Nat.zero_le _) (Nat.le_refl _) hstart hflat hfinal).leaves
  obtain ⟨_, hready⟩ := ready_of_prepared hp
  show final.graph.leaves = c.dynamics + c.independents + final.graph.constants.toList.length
  rw [hleaves, hready.graph, ← hsize, (pooled_of_prepared hp).constants.length_eq]
  rfl

theorem node?_literal (hown : f.Owned) (hlower : f.lower c = .ok g) {k : Nat} {v : Handle}
    (hle : index ≤ f.instructions.size) (hk : f.literals[k]? = some v) :
    f.node? c index v = some (1 + c.inputs + k) := by
  apply node?_mono hown hlower (Nat.zero_le index) hle
  obtain ⟨r, output, _, hp, _, _⟩ := lower_eq_ok.mp hlower
  rw [node?, before_zero_eq_ok.mpr ⟨output, hp⟩]
  exact (pooled_of_prepared hp).values.mpr ⟨k, hk, rfl⟩

theorem literal_of_node? {k : Nat} {v w : Handle} (hle : index ≤ f.instructions.size)
    (hk : f.literals[k]? = some v) (hw : f.node? c index w = some (1 + c.inputs + k)) : w = v := by
  unfold node? at hw
  split at hw
  next s hs =>
    have hapart : Apart f c s := by
      refine before_keeps (P := fun _ s => Apart f c s) ?_ ?_ hle hs
      · intro s output hp
        exact apart_of_prepared hp
      · intro _ i s t _ hs ht
        exact hs.lowered ht
    have hlt := (List.getElem?_eq_some_iff.mp hk).1
    have hnode : ConstantNode f c (1 + c.inputs + k) := by
      constructor <;> omega
    have hliteral := hapart.values hw hnode
    rw [Nat.add_sub_cancel_left, hk] at hliteral
    exact (Option.some.inj hliteral).symm
  · cases hw

/-- A slot holds the node of the value last stored in it. -/
theorem slot?_eq_node? (hown : f.Owned) (hlower : f.lower c = .ok g)
    (hle : index ≤ f.instructions.size) (base : Handle) (offset : Nat) :
    f.slot? c index base offset = (f.stored? index base offset).bind (f.node? c index) := by
  obtain ⟨_, _, final, _, hfinal, _⟩ := lower_eq_ok.mp hlower
  obtain ⟨s, hs⟩ := exists_before_of_le hle hfinal
  have htraced := traced_before hown hle hs
  rw [slot?, hs]
  show s.slot? base offset = _
  cases hx : f.stored? index base offset with
  | none => exact htraced.empty hx
  | some x =>
    obtain ⟨n, hn, hv⟩ := htraced.stored hx
    rw [hn, Option.bind_some, node?, hs]
    exact hv.symm

/-- A result that is not loaded has the node that the graph gives to its operator. -/
theorem firstResult?_of_node? (hown : f.Owned) (hlower : f.lower c = .ok g) {v : Handle}
    {n : NodeId} (hi : f.instructions[index]? = some i) (hload : i.opcode ≠ .load)
    (hv : i.result = some v) (hn : f.node? c (index + 1) v = some n) :
    f.firstResult? c g index = some n := by
  obtain ⟨s, t, hs, ht, hstep⟩ := exists_step hlower hi
  have hle : index ≤ f.instructions.size := Nat.le_of_lt (Array.getElem?_eq_some_iff.mp hi).1
  obtain ⟨_, output, _, hp, _, _⟩ := lower_eq_ok.mp hlower
  have hflat := (inOrder_before hp hle hs).ordered.flat
  rw [node?, ht] at hn
  have hn : t.bindings.values.get? v = some n := hn
  -- The value has no node in front of its instruction, so it is one that binds its result.
  have hnew : s.bindings.values.get? v = none := by
    apply Option.eq_none_iff_forall_ne_some.mpr
    intro m hm
    exact Nat.lt_irrefl index ((traced_before hown hle hs).values hm (hown.results hi hv))
  have hone : ∀ {w : Handle} {o : Operator}, i.result = some w →
      t.graph.operators = s.graph.operators ++ [o] → o.resultCount = 1 →
      t.bindings.values = s.bindings.values.insert w (s.last + 1) →
      f.firstResult? c g index = some n := by
    intro w o hw ho hcount hvalues
    rw [hv] at hw
    cases hw
    rw [firstResult?_of_appended hlower hs ht hi hstep ho, hcount, if_pos Nat.one_pos, ← hn,
      hvalues, Table.get?_insert_self]
  cases hstep with
  | load hop => exact absurd hop hload
  | binary hop _ _ _ hw =>
    exact hone hw (Graph.operators_pushOperator hflat _ _) ((Op.yields_of_binaryOp? hop).2 _) rfl
  | negate _ _ _ _ hw => exact hone hw (Graph.operators_pushOperator hflat _ _) rfl rfl
  | select _ _ _ hsel _ _ hw =>
    exact hone hw (Graph.operators_pushOperator hflat _ _) ((Op.yields_of_selecting? hsel).2 _) rfl
  | math _ _ _ _ _ _ hcallee _ hw =>
    exact hone hw (Graph.operators_pushOperator hflat _ _) ((Op.yields_of_ofCallee? hcallee).2 _) rfl
  | @discrete _ _ _ _ rest m _ _ _ _ _ _ hw =>
    refine hone (o := ⟨.discrete, [(s.graph.internDiscrete rest).2, m]⟩) hw ?_ rfl rfl
    refine (Graph.operators_pushOperator (Graph.grown_internDiscrete hflat rest).flat _ _).trans ?_
    rw [Graph.operators_internDiscrete]
  | extend _ _ _ hrecord | combine _ _ hrecord =>
    rw [recordOperands_frame hrecord] at hn
    cases hnew.symm.trans hn
  | _ => cases hnew.symm.trans hn

/-- How a function comes about: it is read from a text, or has a signature only, and then steps
are taken on it. -/
inductive Made : Func → Prop where
  | read {text : String} {p : Program} {f : Func} (hread : Program.read text = .ok p)
      (hf : f ∈ p.functions) : Made f
  | withArgs (name : String) (args : List (Ty × String)) : Made (.withArgs name args)
  | renamed {f : Func} (h : Made f) (name : String) : Made { f with name := name }
  | extended {f : Func} {steps : List Builder.Step} {b : Builder} (h : Made f)
      (hrun : ((Builder.start f).run steps).2 = some b) : Made b.func

theorem Made.owned (h : f.Made) : f.Owned := by
  induction h with
  | read hread hf => exact (Program.arena_of_read hread _ hf).toScoped.owned
  | withArgs name args => exact (Builder.sound_start name args).func.owned
  | renamed _ name ih => exact ⟨ih.args, ih.results⟩
  | extended _ hrun ih => exact Builder.owned_of_run ih hrun

/-- Graph `g` has its constants by the handles of literals. -/
structure PoolsLiterals (f : Func) (c : Context) (g : Graph) : Prop where
  /-- The constants are the values of the literals, one for each, in order. -/
  constants : List.Forall₂ (fun v x => f.float? v = some x) f.literals g.constants.toList
  /-- A literal has the node of its position, all along. -/
  literals : ∀ {index k : Nat} {v : Handle}, index ≤ f.instructions.size →
    f.literals[k]? = some v → f.node? c index v = some (1 + c.dynamics + c.independents + k)
  /-- No other value has this node, be it a literal or not. -/
  alone : ∀ {index k : Nat} {v w : Handle}, index ≤ f.instructions.size →
    f.literals[k]? = some v → f.node? c index w = some (1 + c.dynamics + c.independents + k) → w = v
  /-- The arguments of operators are the nodes of the values that instructions supply. -/
  operators : List.Forall₂ (fun o vs => f.FinalNodes c vs o.nodes) g.operators
    (f.supplied f.instructions.size)
  /-- A slot holds the node of the value last stored in it. -/
  slots : ∀ {index : Nat} (base : Handle) (offset : Nat), index ≤ f.instructions.size →
    f.slot? c index base offset = (f.stored? index base offset).bind (f.node? c index)
  /-- The dependents are the nodes of the values last stored in the output. -/
  dependents : g.dependents.size = c.dependents ∧ f.FinalNodes c (f.returned c) g.dependents.toList
  /-- The first result of an operator comes behind the constants. -/
  firstResult : ∃ firsts, g.firstResults? = some firsts ∧ ∀ n, (firsts.filterMap id).head? = some n →
    n = 1 + c.dynamics + c.independents + g.constants.size
  /-- The value of an instruction with an operator has the first result of that operator. -/
  results : ∀ {index : Nat} {i : Instruction} {v : Handle} {n : NodeId},
    f.instructions[index]? = some i → i.opcode ≠ .load → i.result = some v →
    f.node? c (index + 1) v = some n → f.firstResult? c g index = some n

/-- A lowered function has one constant for each literal among its operands, in the order in
which they first occur.  All that comes from a literal is the node of its position behind the
inputs, literals of equal value included, and the results of operators follow behind them. -/
theorem lower_poolsLiterals (hmade : f.Made) (hlower : f.lower c = .ok g) :
    f.PoolsLiterals c g := by
  have hown := hmade.owned
  obtain ⟨r, output, final, hp, hfinal, hg⟩ := lower_eq_ok.mp hlower
  obtain ⟨input, hready⟩ := ready_of_prepared hp
  have hinputs : ∀ k, 1 + c.dynamics + c.independents + k = 1 + c.inputs + k := by
    intro k
    rw [← hready.inputs, Nat.add_assoc 1]
  have hwell := lower_wellFormed hlower
  refine ⟨forall₂_constants hlower, ?_, ?_, ?_, ?_, ⟨hwell.dependents_size, ?_⟩, ?_, ?_⟩
  · intro index k v hle hk
    rw [hinputs]
    exact node?_literal hown hlower hle hk
  · intro index k v w hle hk hw
    rw [hinputs] at hw
    exact literal_of_node? hle hk hw
  · obtain ⟨_, _, _, _, rfl⟩ := (inOrder_before hp (Nat.le_refl _) hfinal).finish_eq_ok hg
    exact supplied_before hown hlower (Nat.le_refl _) hfinal
  · intro index base offset hle
    exact slot?_eq_node? hown hlower hle base offset
  · exact finalNodes_returned hown hlower
  · obtain ⟨firsts, hfirsts, _⟩ := hwell.firsts
    refine ⟨firsts, hfirsts, ?_⟩
    intro n hn
    rw [Graph.firstResults?, hwell.leafCount, Option.bind_eq_bind, Option.bind_some] at hfirsts
    obtain ⟨next, hnext, hfirsts⟩ := Option.bind_eq_some_iff.mp hfirsts
    rw [Graph.eq_of_head?_firstResultsFrom? hfirsts hn, ← (addCount?_eq_some_iff.mp hnext).2,
      leaves_eq hlower, Nat.add_comm _ 1, ← Nat.add_assoc, ← Nat.add_assoc]
  · intro index i v n hi hload hv hn
    exact firstResult?_of_node? hown hlower hi hload hv hn

/-- Two literals with one value, of which the second is used first, and again for a call and
for the output.  One literal is only compared, and one is no operand. -/
def equalLiterals : List Builder.Step :=
  [.load 1, .float ⟨0x4000000000000000⟩, .float ⟨0x3ff0000000000000⟩, .float ⟨0x4000000000000000⟩,
    .float ⟨0x4008000000000000⟩, .arithmetic .fmul 6 9, .arithmetic .fadd 11 7, .alloca, .alloca,
    .store 9 13, .callAtomic "atomic_foo" 1 13 1 14, .load 14, .compareFloat .olt 10 20,
    .select 21 7 20, .store 22 3, .element 3 1, .store 9 24, .extend 21 32, .retOk]

theorem lower_poolsLiterals_equalLiterals :
    ∃ (f : Func) (g : Graph), f.Made ∧ f.lower ⟨"f", 1, 1, 2⟩ = .ok g ∧ f.literals = [9, 7, 10] ∧
      f.supplied f.instructions.size = [[6, 9], [11, 7], [9], [10, 20, 7, 20], [20, 10]] ∧
      f.returned ⟨"f", 1, 1, 2⟩ = [22, 9] ∧ g.dependents = #[9, 3] ∧
      f.PoolsLiterals ⟨"f", 1, 1, 2⟩ g := by
  have hbuilt : ((builtFrom? "f" (Convention.types.zip Convention.names) equalLiterals).map
      fun f => (f.literals, f.supplied f.instructions.size, f.returned ⟨"f", 1, 1, 2⟩,
        f.lower ⟨"f", 1, 1, 2⟩)) =
      some ([9, 7, 10], [[6, 9], [11, 7], [9], [10, 20, 7, 20], [20, 10]], [22, 9], .ok
        { name := "f", dynamics := 1, independents := 1,
          constants := #[⟨0x4000000000000000⟩, ⟨0x4000000000000000⟩, ⟨0x4008000000000000⟩],
          tags := #[.mul, .add, .atom, .cexpLt, .compLe], starts := #[0, 2, 4, 8, 12],
          args := #[1, 3, 6, 4, 0, 1, 1, 3, 5, 8, 4, 8, 8, 5], atomicNames := #["foo"],
          discreteNames := #[], dependents := #[9, 3] }) := by
    decide +kernel
  obtain ⟨f, hf, h⟩ := Option.map_eq_some_iff.mp hbuilt
  simp only [Prod.mk.injEq] at h
  obtain ⟨hliterals, hsupplied, hreturned, hlower⟩ := h
  have hmade : f.Made := by
    obtain ⟨b, hb, rfl⟩ := Option.map_eq_some_iff.mp hf
    exact .extended (.withArgs _ _) hb
  exact ⟨f, _, hmade, hlower, hliterals, hsupplied, hreturned, rfl,
    lower_poolsLiterals hmade hlower⟩

end Func
end SsaGraph

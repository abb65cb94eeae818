import SsaGraph.Proofs.Lowering.ElementAddress
import SsaGraph.Proofs.Lowering.Recording

/-!
Operands that do not matter.  An instruction `Overlooks` an operand if its lowering does not
ask what the operand is: it is lowered in the same way in every function that has the same
values for the other ones (`instruction_congr`).
-/

namespace SsaGraph
namespace Lowering

/-- Lowering instruction `i` in state `s` does not ask what its operand `v` is. -/
inductive Overlooks (f : Func) (s : Lowering) (i : Instruction) : Handle → Prop where
  | unread {v : Handle} (hop : i.opcode = .alloca ∨ i.opcode = .zext ∨ i.opcode = .or ∨
      ∃ name, i.opcode = .other name) : Overlooks f s i v
  | message {stored p : Handle} (hop : i.opcode = .store) (hargs : i.operands = [stored, p])
      (hm : f.args[Convention.message]? = some p) : Overlooks f s i stored
  | uncompared {condition ifTrue ifFalse v : Handle} (hop : i.opcode = .select)
      (hargs : i.operands = [condition, ifTrue, ifFalse])
      (hc : s.comparisons.get? condition = none) (hv : v ≠ condition) : Overlooks f s i v
  | code {condition ifTrue ifFalse : Handle} {c : Comparison} {type : Ty}
      (hop : i.opcode = .select) (hargs : i.operands = [condition, ifTrue, ifFalse])
      (hc : s.comparisons.get? condition = some c) (ht : f.type? ifTrue = some type)
      (hd : type ≠ .double) : Overlooks f s i ifFalse
  | unresolved {args : List Handle} {callee v : Handle} {name : String} (hop : i.opcode = .call)
      (hargs : i.operands = args ++ [callee]) (hlen : args.length = Convention.arity)
      (hname : f.symbol? callee = some name) (hrest : reservedRest? atomicStart name = none) :
      Overlooks f s i v

/-- Opcodes of instructions that may overlook an operand. -/
def mayOverlook : Opcode → Bool
  | .alloca | .zext | .or | .other _ | .store | .select | .call => true
  | _ => false

theorem Overlooks.mayOverlook {f : Func} {s : Lowering} {i : Instruction} {v : Handle}
    (h : Overlooks f s i v) : mayOverlook i.opcode = true := by
  cases h with
  | unread hop => rcases hop with hop | hop | hop | ⟨name, hop⟩ <;> rw [hop] <;> rfl
  | message hop | uncompared hop | code hop | unresolved hop =>
    rw [hop]
    rfl

/-- Comparisons that are remembered are values, and so is what they compare. -/
def ComparesKnown (f : Func) (s : Lowering) : Prop :=
  ∀ v d, s.comparisons.get? v = some d →
    f.type? v ≠ none ∧ f.type? d.left ≠ none ∧ f.type? d.right ≠ none

section
variable {f : Func} {s t : Lowering} {i : Instruction} {v : Handle}

theorem known_of_expectType {wanted : Ty → Bool} {what : String}
    (h : expectType f v wanted what = .ok ()) : f.type? v ≠ none := by
  obtain ⟨type, htype, _⟩ := expectType_eq_ok.mp h
  rw [htype]
  exact Option.some_ne_none type

theorem known_of_compare (h : compare f s i = .ok t) : ∀ v ∈ i.operands, f.type? v ≠ none := by
  unfold compare at h
  split at h
  next left right hargs =>
    have hknown : ∀ v, (if i.opcode = .fcmp then expectDouble f else expectInt f) v = .ok () →
        f.type? v ≠ none := by
      intro v hv
      split at hv
      · exact known_of_expectType hv
      · exact known_of_expectType hv
    obtain ⟨_, hl, h⟩ := bind_eq_ok.mp h
    obtain ⟨_, hr, _⟩ := bind_eq_ok.mp h
    rw [hargs, List.forall_mem_cons, List.forall_mem_singleton]
    exact ⟨hknown left hl, hknown right hr⟩
  · exact absurd h wrongCount_ne_ok

theorem compare_of_instruction (hop : i.opcode = .fcmp ∨ i.opcode = .icmp) :
    instruction f s i = compare f s i := by
  rcases hop with hop | hop <;> rw [instruction, hop]

theorem comparesKnown_step (hresult : ∀ v, i.result = some v → f.type? v ≠ none)
    (hs : ComparesKnown f s) (h : instruction f s i = .ok t) : ComparesKnown f t := by
  rcases comparisons_of_lowered (lowered_of_instruction h) with
    ⟨_, _, hsame⟩ | ⟨v, d, hop, hargs, _, hv, hinsert⟩
  · unfold ComparesKnown
    rw [hsame]
    exact hs
  · rw [compare_of_instruction hop] at h
    have hknown := known_of_compare h
    rw [hargs, List.forall_mem_cons, List.forall_mem_singleton] at hknown
    intro w e he
    rw [hinsert, Table.get?_insert] at he
    split at he
    next hwv =>
      cases he
      rw [hwv]
      exact ⟨hresult v hv, hknown⟩
    · exact hs w e he

theorem symbol?_eq_none (h : f.type? v = none) : f.symbol? v = none := by
  unfold Func.symbol?
  rw [Option.map_eq_none_iff.mp h]

/-! ## The same lowering -/

/-- Two functions have the same value, or both have none. -/
def SameValue (f f' : Func) (v : Handle) : Prop := f'.value? v = f.value? v

section
variable {f' : Func}

theorem SameValue.type? (h : SameValue f f' v) : f'.type? v = f.type? v := by
  rw [Func.type?, Func.type?, h]

theorem SameValue.int? (h : SameValue f f' v) : f'.int? v = f.int? v := by
  rw [Func.int?, Func.int?, h]

theorem SameValue.symbol? (h : SameValue f f' v) : f'.symbol? v = f.symbol? v := by
  rw [Func.symbol?, Func.symbol?, h]

theorem SameValue.display (h : SameValue f f' v) : f'.display v = f.display v := by
  rw [Func.display, Func.display, h]

theorem SameValue.typeOf (h : SameValue f f' v) : typeOf f' v = typeOf f v := by
  rw [Lowering.typeOf, Lowering.typeOf, h.type?]

theorem SameValue.expectType (h : SameValue f f' v) {wanted : Ty → Bool} {what : String} :
    expectType f' v wanted what = expectType f v wanted what := by
  rw [Lowering.expectType, Lowering.expectType, h.type?, h.display]

theorem SameValue.expectDouble (h : SameValue f f' v) : expectDouble f' v = expectDouble f v :=
  h.expectType

theorem SameValue.expectPointer (h : SameValue f f' v) : expectPointer f' v = expectPointer f v :=
  h.expectType

theorem SameValue.count (h : SameValue f f' v) : count f' v = count f v := by
  rw [Lowering.count, Lowering.count, h.int?, h.display]

theorem SameValue.node (h : SameValue f f' v) : node f' s v = node f s v := by
  rw [Lowering.node, Lowering.node, h.display]

theorem SameValue.expectKind (h : SameValue f f' v) {wanted : Ty} :
    expectKind f' v wanted = expectKind f v wanted := by
  rw [Lowering.expectKind, Lowering.expectKind, h.typeOf, h.display]

theorem load_congr (h : ∀ v ∈ i.operands, SameValue f f' v) : load f' s i = load f s i := by
  unfold load
  split
  next p hargs =>
    have hp := h p (by simp [hargs])
    rw [hp.expectPointer, hp.display]
  · rfl

theorem addressParts_congr (h : ∀ v ∈ i.operands, SameValue f f' v) :
    addressParts f' i = addressParts f i := by
  unfold addressParts
  split
  next base index hargs => rw [(h index (by simp [hargs])).count]
  next base first index hargs =>
    rw [(h first (by simp [hargs])).int?, (h index (by simp [hargs])).count]
  · rfl

theorem address_congr (h : ∀ v ∈ i.operands, SameValue f f' v) :
    address f' s i = address f s i := by
  unfold address
  rw [addressParts_congr h]
  cases hparts : addressParts f i with
  | error e => rfl
  | ok parts =>
    obtain ⟨_, _, _, _, hargs⟩ := addressParts_eq_ok hparts
    have hbase : SameValue f f' parts.1 := by
      refine h _ ?_
      rcases hargs with hargs | ⟨_, _, hargs⟩ <;> simp [hargs]
    simp only [bind, Except.bind, hbase.expectPointer, hbase.display]

theorem binary_congr (h : ∀ v ∈ i.operands, SameValue f f' v) {op : Op} :
    binary f' s i op = binary f s i op := by
  unfold binary
  split
  next left right hargs =>
    have hl := h left (by simp [hargs])
    have hr := h right (by simp [hargs])
    simp only [hl.expectDouble, hr.expectDouble, hl.node, hr.node]
  · rfl

theorem negate_congr (h : ∀ v ∈ i.operands, SameValue f f' v) : negate f' s i = negate f s i := by
  unfold negate
  split
  next operand hargs =>
    have hv := h operand (by simp [hargs])
    simp only [hv.expectDouble, hv.node]
  · rfl

theorem compare_congr (h : ∀ v ∈ i.operands, SameValue f f' v) :
    compare f' s i = compare f s i := by
  have hexpect : ∀ v ∈ i.operands,
      (if i.opcode = .fcmp then expectDouble f' else expectInt f') v =
        (if i.opcode = .fcmp then expectDouble f else expectInt f) v := by
    intro v hv
    split
    · exact (h v hv).expectType
    · exact (h v hv).expectType
  unfold compare
  split
  next left right hargs =>
    simp only [hexpect left (by simp [hargs]), hexpect right (by simp [hargs])]
  · rfl

theorem branch_congr (h : ∀ v ∈ i.operands, SameValue f f' v) : branch f' s i = branch f s i := by
  unfold branch
  split
  next target hargs => rw [(h target (by simp [hargs])).typeOf]
  next condition ifTrue ifFalse hargs =>
    rw [(h condition (by simp [hargs])).typeOf, (h ifTrue (by simp [hargs])).typeOf,
      (h ifFalse (by simp [hargs])).typeOf]
  · rfl

theorem ret_congr (h : ∀ v ∈ i.operands, SameValue f f' v) : ret f' s i = ret f s i := by
  unfold ret
  split
  next code hargs => rw [(h code (by simp [hargs])).typeOf]
  · rfl

theorem recordOperand_congr (hcompares : ∀ v d, s.comparisons.get? v = some d →
    SameValue f f' d.left ∧ SameValue f f' d.right) : recordOperand f' s v = recordOperand f s v := by
  unfold recordOperand
  split
  · rfl
  next d hd =>
    obtain ⟨hl, hr⟩ := hcompares v d hd
    simp only [hl.node, hr.node]

theorem recordOperands_congr {vs : List Handle} (hcompares : ∀ v d, s.comparisons.get? v = some d →
    SameValue f f' d.left ∧ SameValue f f' d.right) :
    vs.foldlM (recordOperand f') s = vs.foldlM (recordOperand f) s := by
  induction vs generalizing s with
  | nil => rfl
  | cons v rest ih =>
    rw [List.foldlM_cons, List.foldlM_cons, recordOperand_congr hcompares]
    cases hr : recordOperand f s v with
    | error e => rfl
    | ok r =>
      refine ih ?_
      rcases recordOperand_cases hr with ⟨_, rfl⟩ | ⟨_, _, _, _, _, _, _, rfl⟩
      · exact hcompares
      · exact hcompares

theorem combine_congr (hcompares : ∀ v d, s.comparisons.get? v = some d →
    SameValue f f' d.left ∧ SameValue f f' d.right) : combine f' s i = combine f s i := by
  unfold combine
  rw [recordOperands_congr hcompares]

theorem forM_congr {α : Type} {p q : α → Except Fault Unit} {as : List α}
    (h : ∀ a ∈ as, p a = q a) : as.forM p = as.forM q := by
  induction as with
  | nil => rfl
  | cons a rest ih =>
    rw [List.forall_mem_cons] at h
    show (p a >>= fun _ => rest.forM p) = (q a >>= fun _ => rest.forM q)
    rw [h.1, ih h.2]

theorem mapM_node_congr {vs : List Handle} (h : ∀ v ∈ vs, SameValue f f' v) :
    vs.mapM (node f' s) = vs.mapM (node f s) := by
  induction vs with
  | nil => rfl
  | cons v rest ih =>
    rw [List.forall_mem_cons] at h
    rw [List.mapM_cons, List.mapM_cons, h.1.node, ih h.2]

theorem callMath_congr {name : String} {args : List Handle} (h : ∀ v ∈ args, SameValue f f' v) :
    callMath f' s i name args = callMath f s i name args := by
  unfold callMath
  rw [forM_congr fun v hv => (h v hv).expectDouble, mapM_node_congr h]
  congr 1
  funext _
  split
  · split
    next arg => rw [(h arg List.mem_cons_self).node]
    · rfl
  · rfl

theorem callAtomic_congr {name : String} {args : List Handle}
    {counted arguments countedResults results : Handle}
    (h : ∀ v ∈ args, SameValue f f' v) (hcounted : SameValue f f' counted)
    (harguments : SameValue f f' arguments) (hresults : SameValue f f' countedResults) :
    callAtomic f' s name args counted arguments countedResults results =
      callAtomic f s name args counted arguments countedResults results := by
  unfold callAtomic
  split
  · rfl
  · rw [forM_congr fun a ha => (h a.1 (List.of_mem_zip ha).1).expectKind, hcounted.count,
      hresults.count, harguments.display]

theorem store_congr (hargs' : f'.args = f.args) (hsame : ∀ v, f.type? v ≠ none → SameValue f f' v)
    (hop : i.opcode = .store) (hall : ∀ v ∈ i.operands, f.type? v = none → Overlooks f s i v) :
    store f' s i = store f s i := by
  unfold store
  split
  next stored p hargs =>
    rw [hargs']
    split
    · rfl
    next hm =>
      have hknown : ∀ v ∈ i.operands, f.type? v ≠ none := by
        intro v hv hnone
        cases hall v hv hnone with
        | message _ h hm' =>
          rw [hargs] at h
          cases h
          exact hm hm'
        | unread h => simp [hop] at h
        | uncompared h | code h | unresolved h => simp [hop] at h
      have hstored := hsame stored (hknown stored (by simp [hargs]))
      have hp := hsame p (hknown p (by simp [hargs]))
      simp only [hstored.expectDouble, hp.expectPointer, hstored.node, hp.display]
  · rfl

theorem select_congr (hsame : ∀ v, f.type? v ≠ none → SameValue f f' v) (hs : ComparesKnown f s)
    (hop : i.opcode = .select) (hall : ∀ v ∈ i.operands, f.type? v = none → Overlooks f s i v) :
    select f' s i = select f s i := by
  unfold select
  split
  next condition ifTrue ifFalse hargs =>
    split
    next hc =>
      have hcondition : f.type? condition ≠ none := by
        intro hnone
        cases hall condition (by simp [hargs]) hnone with
        | uncompared _ h _ hv =>
          rw [hargs] at h
          cases h
          exact hv rfl
        | code _ h hc' =>
          rw [hargs] at h
          cases h
          rw [hc] at hc'
          cases hc'
        | unread h => simp [hop] at h
        | message h | unresolved h => simp [hop] at h
      rw [(hsame condition hcondition).display]
    next c hc =>
      have hoverlooked : ∀ v ∈ i.operands, f.type? v = none → v = ifFalse ∧
          ∃ type, f.type? ifTrue = some type ∧ type ≠ .double := by
        intro v hv hnone
        cases hall v hv hnone with
        | uncompared _ h hc' _ =>
          rw [hargs] at h
          cases h
          rw [hc] at hc'
          cases hc'
        | code _ h _ ht hd =>
          rw [hargs] at h
          cases h
          exact ⟨rfl, _, ht, hd⟩
        | unread h => simp [hop] at h
        | message h | unresolved h => simp [hop] at h
      have htrue : f.type? ifTrue ≠ none := by
        intro hnone
        obtain ⟨_, type, ht, _⟩ := hoverlooked ifTrue (by simp [hargs]) hnone
        rw [hnone] at ht
        cases ht
      rw [(hsame ifTrue htrue).typeOf]
      cases htype : typeOf f ifTrue with
      | error e => rfl
      | ok type =>
        simp only [bind, Except.bind]
        split
        · rfl
        next hd =>
          have hfalse : f.type? ifFalse ≠ none := by
            intro hnone
            obtain ⟨_, other, ht, hne⟩ := hoverlooked ifFalse (by simp [hargs]) hnone
            rw [typeOf_eq_ok.mp htype] at ht
            cases ht
            rw [Bool.not_eq_true, Bool.not_eq_false', isDouble_iff] at hd
            exact hne hd
          obtain ⟨_, hl, hr⟩ := hs condition c hc
          have hleft := hsame c.left hl
          have hright := hsame c.right hr
          simp only [(hsame ifFalse hfalse).expectDouble, hleft.expectDouble, hright.expectDouble,
            hleft.node, hright.node, (hsame ifTrue htrue).node, (hsame ifFalse hfalse).node]
  · rfl

theorem call_congr (hsame : ∀ v, f.type? v ≠ none → SameValue f f' v)
    (hop : i.opcode = .call) (hall : ∀ v ∈ i.operands, f.type? v = none → Overlooks f s i v) :
    call f' s i = call f s i := by
  unfold call
  split
  · rfl
  next callee hcallee =>
    have hargs := operands_of_callee hop hcallee
    -- Arguments are overlooked only in a call of six that has no atomic name.
    have hoverlooked : ∀ v ∈ i.operands, f.type? v = none →
        ∃ name, f.symbol? callee = some name ∧ i.callArguments.length = Convention.arity ∧
          reservedRest? atomicStart name = none := by
      intro v hv hnone
      cases hall v hv hnone with
      | unresolved _ h hlen hname hrest =>
        rw [hargs] at h
        obtain ⟨rfl, hlast⟩ := List.append_inj' h rfl
        cases hlast
        exact ⟨_, hname, hlen, hrest⟩
      | unread h => simp [hop] at h
      | message h | uncompared h | code h => simp [hop] at h
    have hknown : f.type? callee ≠ none := by
      intro hnone
      obtain ⟨name, hname, _⟩ := hoverlooked callee (by simp [hargs]) hnone
      rw [symbol?_eq_none hnone] at hname
      cases hname
    rw [(hsame callee hknown).symbol?, (hsame callee hknown).display]
    split
    · rfl
    next name hname =>
      have hsix : ∀ v ∈ i.callArguments, f.type? v = none →
          i.callArguments.length = Convention.arity ∧ reservedRest? atomicStart name = none := by
        intro v hv hnone
        have hmem : v ∈ i.operands := by
          rw [hargs]
          exact List.mem_append_left _ hv
        obtain ⟨_, hname', hlen, hrest⟩ := hoverlooked v hmem hnone
        rw [hname] at hname'
        cases hname'
        exact ⟨hlen, hrest⟩
      split
      next ha =>
        rw [ha] at hsix
        exact callMath_congr fun v hv => hsame v fun hnone => by cases (hsix v hv hnone).1
      next ha =>
        rw [ha] at hsix
        exact callMath_congr fun v hv => hsame v fun hnone => by cases (hsix v hv hnone).1
      next ha =>
        rw [ha] at hsix
        cases hrest : reservedRest? atomicStart name with
        | none => simp only [callAtomic, hrest]
        | some rest =>
          have hall : ∀ v ∈ [_, _, _, _, _, _], SameValue f f' v := fun v hv =>
            hsame v fun hnone => by
              have hnot := (hsix v hv hnone).2
              rw [hrest] at hnot
              cases hnot
          exact callAtomic_congr hall (hall _ (by simp)) (hall _ (by simp)) (hall _ (by simp))
      · rfl

/-- An instruction is lowered in the same way whatever the operands are that it overlooks. -/
theorem instruction_congr (hargs : f'.args = f.args)
    (hsame : ∀ v, f.type? v ≠ none → SameValue f f' v) (hs : ComparesKnown f s)
    (hall : ∀ v ∈ i.operands, f.type? v = none → Overlooks f s i v) :
    instruction f' s i = instruction f s i := by
  have hcompares : ∀ v d, s.comparisons.get? v = some d →
      SameValue f f' d.left ∧ SameValue f f' d.right := fun v d hd =>
    ⟨hsame d.left (hs v d hd).2.1, hsame d.right (hs v d hd).2.2⟩
  have hoperands : ∀ {o : Opcode}, i.opcode = o → mayOverlook o = false →
      ∀ v ∈ i.operands, SameValue f f' v := by
    intro o hop ho v hv
    refine hsame v fun hnone => ?_
    have hmay := (hall v hv hnone).mayOverlook
    rw [hop, ho] at hmay
    cases hmay
  cases hop : i.opcode with
  | alloca => rw [instruction, instruction, hop]
  | other name => rw [instruction, instruction, hop]
  | zext =>
    rw [instruction, instruction, hop]
    show extend f' s i = extend f s i
    unfold extend
    rw [combine_congr (s := { s with extended := true }) hcompares]
  | or =>
    rw [instruction, instruction, hop]
    exact combine_congr hcompares
  | store =>
    rw [instruction, instruction, hop]
    exact store_congr hargs hsame hop hall
  | select =>
    rw [instruction, instruction, hop]
    exact select_congr hsame hs hop hall
  | call =>
    rw [instruction, instruction, hop]
    exact call_congr hsame hop hall
  | load =>
    rw [instruction, instruction, hop]
    exact load_congr (hoperands hop rfl)
  | getelementptr =>
    rw [instruction, instruction, hop]
    exact address_congr (hoperands hop rfl)
  | fadd | fsub | fmul | fdiv =>
    rw [instruction, instruction, hop]
    exact binary_congr (hoperands hop rfl)
  | fneg =>
    rw [instruction, instruction, hop]
    exact negate_congr (hoperands hop rfl)
  | fcmp | icmp =>
    rw [instruction, instruction, hop]
    exact compare_congr (hoperands hop rfl)
  | br =>
    rw [instruction, instruction, hop]
    exact branch_congr (hoperands hop rfl)
  | ret =>
    rw [instruction, instruction, hop]
    exact ret_congr (hoperands hop rfl)

end
end
end Lowering
end SsaGraph

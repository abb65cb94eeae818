import SsaGraph.Proofs.Func.Owned
import SsaGraph.Proofs.Lowering.Outcome
import SsaGraph.Proofs.Lowering.Overlooked
import SsaGraph.Proofs.Program.Operands

/-!
Operands that are not in the arena.  A function that is built by steps may have them.  What an
instruction overlooks makes no difference; any other operand has to be in the arena, or the
lowering stops there (`rejects_instruction`), in a refusal or because the type of the operand
is taken for granted.
-/

namespace SsaGraph
namespace Lowering

section
variable {f : Func} {s : Lowering} {i : Instruction} {v : Handle}

/-! ## Operands that are not there -/

/-- The step stops at a value that is not as it should be, or not there. -/
def Rejects {α : Type} (x : Except Fault α) : Prop :=
  (∃ r, x = .error (.malformed r)) ∨ ∃ w, x = .error (.foreign w)

/-- The step stops in no other way. -/
def Checks {α : Type} (x : Except Fault α) : Prop := (∃ a, x = .ok a) ∨ Rejects x

section
variable {α β : Type}

theorem rejects_malformed {r : Reason} : Rejects (malformed r : Except Fault α) := .inl ⟨r, rfl⟩

theorem Rejects.bind {x : Except Fault α} (h : Rejects x) (k : α → Except Fault β) :
    Rejects (x >>= k) := by
  rcases h with ⟨r, rfl⟩ | ⟨w, rfl⟩
  · exact .inl ⟨r, rfl⟩
  · exact .inr ⟨w, rfl⟩

/-- What comes after a check is rejected there, or by the check. -/
theorem Checks.bind {x : Except Fault α} (hx : Checks x) {k : α → Except Fault β}
    (hk : ∀ a, x = .ok a → Rejects (k a)) : Rejects (x >>= k) := by
  rcases hx with ⟨a, rfl⟩ | h
  · exact hk a rfl
  · exact h.bind k

theorem Checks.andThen {x : Except Fault α} (hx : Checks x) {k : α → Except Fault β}
    (hk : ∀ a, Checks (k a)) : Checks (x >>= k) := by
  rcases hx with ⟨a, rfl⟩ | h
  · exact hk a
  · exact .inr (h.bind k)

theorem checks_typeOf : Checks (typeOf f v) := by
  unfold typeOf
  split
  · exact .inl ⟨_, rfl⟩
  · exact .inr (.inr ⟨v, rfl⟩)

theorem checks_expectType {wanted : Ty → Bool} {what : String} :
    Checks (expectType f v wanted what) := by
  unfold expectType
  split
  · exact .inr rejects_malformed
  · split
    · exact .inl ⟨_, rfl⟩
    · exact .inr rejects_malformed

theorem checks_expectKind {wanted : Ty} : Checks (expectKind f v wanted) := by
  refine checks_typeOf.andThen fun type => ?_
  split
  · exact .inl ⟨_, rfl⟩
  · exact .inl ⟨_, rfl⟩
  · exact .inr rejects_malformed

theorem checks_count : Checks (count f v) := by
  unfold count
  split
  · exact .inl ⟨_, rfl⟩
  · exact .inr rejects_malformed

theorem rejects_typeOf (h : f.type? v = none) : Rejects (typeOf f v) :=
  .inr ⟨v, typeOf_eq_error h⟩

theorem rejects_expectType (h : f.type? v = none) {wanted : Ty → Bool} {what : String} :
    Rejects (expectType f v wanted what) := by
  rw [expectType, h]
  exact rejects_malformed

theorem rejects_forM {p : α → Except Fault Unit} {as : List α} {a : α} (ha : a ∈ as)
    (hp : ∀ b, Checks (p b)) (hreject : Rejects (p a)) : Rejects (as.forM p) := by
  induction as with
  | nil => cases ha
  | cons b rest ih =>
    rcases List.mem_cons.mp ha with rfl | ha
    · exact hreject.bind _
    · exact (hp b).bind fun _ _ => ih ha

end

theorem int?_eq_none (h : f.type? v = none) : f.int? v = none := by
  unfold Func.int?
  rw [Option.map_eq_none_iff.mp h]

theorem rejects_load (hv : v ∈ i.operands) (hnone : f.type? v = none) : Rejects (load f s i) := by
  unfold load
  split
  next p hargs =>
    rw [hargs, List.mem_singleton] at hv
    exact (rejects_expectType (hv ▸ hnone)).bind _
  · exact rejects_malformed

theorem checks_addressParts : Checks (addressParts f i) := by
  unfold addressParts
  split
  · exact checks_count.andThen fun _ => .inl ⟨_, rfl⟩
  · split
    · exact checks_count.andThen fun _ => .inl ⟨_, rfl⟩
    · exact .inr rejects_malformed
  · exact .inr rejects_malformed

theorem rejects_address (hv : v ∈ i.operands) (hnone : f.type? v = none) :
    Rejects (address f s i) := by
  unfold address
  refine checks_addressParts.bind fun parts hparts => ?_
  obtain ⟨w, n, hn, _, hargs⟩ := addressParts_eq_ok hparts
  -- The indices are literals, so the base is what is not there.
  have hbase : v = parts.1 := by
    have hne : ∀ x m, f.int? x = some m → v ≠ x := by
      rintro x m hx rfl
      rw [int?_eq_none hnone] at hx
      cases hx
    rcases hargs with hargs | ⟨z, hz, hargs⟩
    · rw [hargs] at hv
      simpa [hne w n hn] using hv
    · rw [hargs] at hv
      simpa [hne w n hn, hne z 0 hz] using hv
  exact (rejects_expectType (hbase ▸ hnone)).bind _

theorem rejects_store (hargs' : ∀ w ∈ f.args, f.type? w ≠ none) (hop : i.opcode = .store)
    (hv : v ∈ i.operands) (hnone : f.type? v = none) (hlook : ¬ Overlooks f s i v) :
    Rejects (store f s i) := by
  unfold store
  split
  next stored p hargs =>
    rw [hargs, List.mem_cons, List.mem_singleton] at hv
    have hm : f.args[Convention.message]? ≠ some p := by
      intro hm
      rcases hv with rfl | rfl
      · exact hlook (.message hop hargs hm)
      · exact hargs' v (List.mem_of_getElem? hm) hnone
    rw [if_neg hm]
    rcases hv with rfl | rfl
    · exact (rejects_expectType hnone).bind _
    · exact checks_expectType.bind fun _ _ => (rejects_expectType hnone).bind _
  · exact rejects_malformed

theorem rejects_binary {op : Op} (hv : v ∈ i.operands) (hnone : f.type? v = none) :
    Rejects (binary f s i op) := by
  unfold binary
  split
  next left right hargs =>
    rw [hargs, List.mem_cons, List.mem_singleton] at hv
    rcases hv with rfl | rfl
    · exact (rejects_expectType hnone).bind _
    · exact checks_expectType.bind fun _ _ => (rejects_expectType hnone).bind _
  · exact rejects_malformed

theorem rejects_negate (hv : v ∈ i.operands) (hnone : f.type? v = none) :
    Rejects (negate f s i) := by
  unfold negate
  split
  next operand hargs =>
    rw [hargs, List.mem_singleton] at hv
    exact (rejects_expectType (hv ▸ hnone)).bind _
  · exact rejects_malformed

theorem rejects_compare (hv : v ∈ i.operands) (hnone : f.type? v = none) :
    Rejects (compare f s i) := by
  have hchecks : ∀ w, Checks ((if i.opcode = .fcmp then expectDouble f else expectInt f) w) := by
    intro w
    split <;> exact checks_expectType
  have hrejects : Rejects ((if i.opcode = .fcmp then expectDouble f else expectInt f) v) := by
    split <;> exact rejects_expectType hnone
  unfold compare
  split
  next left right hargs =>
    rw [hargs, List.mem_cons, List.mem_singleton] at hv
    rcases hv with rfl | rfl
    · exact hrejects.bind _
    · exact (hchecks left).bind fun _ _ => hrejects.bind _
  · exact rejects_malformed

theorem rejects_select (hs : ComparesKnown f s) (hop : i.opcode = .select) (hv : v ∈ i.operands)
    (hnone : f.type? v = none) (hlook : ¬ Overlooks f s i v) : Rejects (select f s i) := by
  unfold select
  split
  next condition ifTrue ifFalse hargs =>
    split
    · exact rejects_malformed
    next c hc =>
      refine checks_typeOf.bind fun type htype => ?_
      rw [typeOf_eq_ok] at htype
      have hfalse : v = ifFalse := by
        rw [hargs] at hv
        have hcondition : v ≠ condition := fun h => (hs condition c hc).1 (h ▸ hnone)
        have htrue : v ≠ ifTrue := by
          rintro rfl
          rw [hnone] at htype
          cases htype
        simpa [hcondition, htrue] using hv
      subst hfalse
      have hdouble : type = .double :=
        Decidable.byContradiction fun hd => hlook (.code hop hargs hc htype hd)
      rw [if_neg (by rw [hdouble]; decide)]
      exact (rejects_expectType hnone).bind _
  · exact rejects_malformed

theorem rejects_callAtomic {name rest : String} {args : List Handle}
    {counted arguments countedResults results : Handle} (hlen : args.length = Convention.arity)
    (hrest : reservedRest? atomicStart name = some rest) (hv : v ∈ args) (hnone : f.type? v = none) :
    Rejects (callAtomic f s name args counted arguments countedResults results) := by
  unfold callAtomic
  rw [hrest]
  obtain ⟨k, hk⟩ := List.mem_iff_getElem?.mp hv
  have hlt : k < Convention.types.length := by
    obtain ⟨h, _⟩ := List.getElem?_eq_some_iff.mp hk
    rwa [hlen] at h
  have hzip : (v, Convention.types[k]) ∈ args.zip Convention.types := by
    refine List.mem_of_getElem? (i := k) ?_
    rw [List.getElem?_zip_eq_some]
    exact ⟨hk, List.getElem?_eq_getElem hlt⟩
  refine (rejects_forM hzip (fun _ => checks_expectKind) ?_).bind _
  exact (rejects_typeOf hnone).bind _

theorem rejects_call (hop : i.opcode = .call) (hv : v ∈ i.operands) (hnone : f.type? v = none)
    (hlook : ¬ Overlooks f s i v) : Rejects (call f s i) := by
  unfold call
  split
  · exact rejects_malformed
  next callee hcallee =>
    split
    · exact rejects_malformed
    next name hname =>
      have hargs := operands_of_callee hop hcallee
      have hmem : v ∈ i.callArguments := by
        rw [hargs, List.mem_append, List.mem_singleton] at hv
        refine hv.resolve_right fun h => ?_
        rw [← h, symbol?_eq_none hnone] at hname
        cases hname
      have hmath : ∀ args, v ∈ args → Rejects (callMath f s i name args) := fun args ha =>
        (rejects_forM (p := expectDouble f) ha (fun _ => checks_expectType)
          (rejects_expectType hnone)).bind _
      split
      next a ha => exact hmath _ (ha ▸ hmem)
      next a b ha => exact hmath _ (ha ▸ hmem)
      next ha =>
        rw [ha] at hargs hmem
        cases hrest : reservedRest? atomicStart name with
        | none => exact absurd (.unresolved hop hargs rfl hname hrest) hlook
        | some rest => exact rejects_callAtomic rfl hrest hmem hnone
      · exact rejects_malformed

theorem rejects_branch (hv : v ∈ i.operands) (hnone : f.type? v = none) :
    Rejects (branch f s i) := by
  unfold branch
  split
  next target hargs =>
    rw [hargs, List.mem_singleton] at hv
    exact (rejects_typeOf (hv ▸ hnone)).bind _
  next condition ifTrue ifFalse hargs =>
    rw [hargs] at hv
    refine checks_typeOf.bind fun type hc => ?_
    split
    · exact rejects_malformed
    refine checks_typeOf.bind fun type' ht => ?_
    split
    · exact rejects_malformed
    rw [typeOf_eq_ok] at hc ht
    have hfalse : v = ifFalse := by
      have hcondition : v ≠ condition := by
        rintro rfl
        rw [hnone] at hc
        cases hc
      have htrue : v ≠ ifTrue := by
        rintro rfl
        rw [hnone] at ht
        cases ht
      simpa [hcondition, htrue] using hv
    exact (rejects_typeOf (hfalse ▸ hnone)).bind _
  · exact rejects_malformed

theorem rejects_ret (hv : v ∈ i.operands) (hnone : f.type? v = none) : Rejects (ret f s i) := by
  unfold ret
  split
  next code hargs =>
    rw [hargs, List.mem_singleton] at hv
    exact (rejects_typeOf (hv ▸ hnone)).bind _
  · exact rejects_malformed

/-- An operand that is not in the arena stops the lowering of an instruction that does not
overlook it. -/
theorem rejects_instruction (hargs : ∀ w ∈ f.args, f.type? w ≠ none) (hs : ComparesKnown f s)
    (hv : v ∈ i.operands) (hnone : f.type? v = none) (hlook : ¬ Overlooks f s i v) :
    Rejects (instruction f s i) := by
  cases hop : i.opcode with
  | alloca => exact absurd (.unread (.inl hop)) hlook
  | zext => exact absurd (.unread (.inr (.inl hop))) hlook
  | or => exact absurd (.unread (.inr (.inr (.inl hop)))) hlook
  | other name => exact absurd (.unread (.inr (.inr (.inr ⟨name, hop⟩)))) hlook
  | load => rw [instruction, hop]; exact rejects_load hv hnone
  | getelementptr => rw [instruction, hop]; exact rejects_address hv hnone
  | store => rw [instruction, hop]; exact rejects_store hargs hop hv hnone hlook
  | fadd | fsub | fmul | fdiv => rw [instruction, hop]; exact rejects_binary hv hnone
  | fneg => rw [instruction, hop]; exact rejects_negate hv hnone
  | fcmp | icmp => rw [instruction, hop]; exact rejects_compare hv hnone
  | select => rw [instruction, hop]; exact rejects_select hs hop hv hnone hlook
  | call => rw [instruction, hop]; exact rejects_call hop hv hnone hlook
  | br => rw [instruction, hop]; exact rejects_branch hv hnone
  | ret => rw [instruction, hop]; exact rejects_ret hv hnone

end
end Lowering

open Lowering

namespace Func

variable {f : Func} {c : Context}

theorem type?_ne_none {v : Handle} {k : ValueKind} (h : f.kind? v = some k) : f.type? v ≠ none := by
  rw [type?, value?, Array.getElem?_eq_getElem (lt_of_kind? h)]
  exact Option.some_ne_none _

theorem Owned.arg_known (h : f.Owned) : ∀ v ∈ f.args, f.type? v ≠ none := by
  intro v hv
  obtain ⟨i, hi⟩ := List.mem_iff_getElem?.mp hv
  exact type?_ne_none (h.args hi)

theorem Owned.args_lt (h : f.Owned) : ∀ v ∈ f.args, v < f.values.size := by
  intro v hv
  obtain ⟨i, hi⟩ := List.mem_iff_getElem?.mp hv
  exact lt_of_kind? (h.args hi)

theorem Owned.comparesKnown (h : f.Owned) {index : Nat} {s : Lowering}
    (hs : f.before c index = .ok s) (hle : index ≤ f.instructions.size) : ComparesKnown f s := by
  induction index generalizing s with
  | zero =>
    obtain ⟨output, hp⟩ := before_zero_eq_ok.mp hs
    obtain ⟨input, hready⟩ := ready_of_prepared hp
    intro v d hd
    rw [hready.comparisons] at hd
    cases hd
  | succ index ih =>
    have hi : f.instructions[index]? = some f.instructions[index] :=
      Array.getElem?_eq_getElem (Nat.lt_of_succ_le hle)
    obtain ⟨r, hr, hstep⟩ := (before_succ_eq_ok hi).mp hs
    exact comparesKnown_step (fun v hv => type?_ne_none (h.results hi hv))
      (ih hr (Nat.le_of_succ_le hle)) hstep

/-- An operand that is not in the arena and is not overlooked ends the lowering, in a refusal
of its instruction or with a type that is not there. -/
theorem Owned.lower_of_unknown (h : f.Owned) {index : Nat} {i : Instruction} {s : Lowering}
    {v : Handle} (hs : f.before c index = .ok s) (hi : f.instructions[index]? = some i)
    (hv : v ∈ i.operands) (hnone : f.type? v = none) (hlook : ¬ Overlooks f s i v) :
    (∃ reason, f.lower c = .error (.refused (.malformed index reason))) ∨
      ∃ w, Trusts f s i w ∧ f.type? w = none ∧ f.lower c = .error (.foreign w) := by
  have hknown := h.comparesKnown hs (Nat.le_of_lt (Array.getElem?_eq_some_iff.mp hi).1)
  rcases rejects_instruction h.arg_known hknown hv hnone hlook with ⟨reason, he⟩ | ⟨w, he⟩
  · exact .inl ⟨reason, lower_eq_error_of_step hs hi he⟩
  · rcases settlesUnless_instruction _ he with ⟨_, hw⟩ | hstopped
    · cases hw
    · cases hstopped with
      | foreign htrusts hnone => exact .inr ⟨w, htrusts, hnone, lower_eq_error_of_step hs hi he⟩

theorem Extends.sameValue {f' : Func} (h : f.Extends f') {v : Handle} (hv : f.type? v ≠ none) :
    SameValue f f' v := by
  obtain ⟨type, htype⟩ := Option.ne_none_iff_exists'.mp hv
  obtain ⟨x, hx, _⟩ := Option.map_eq_some_iff.mp htype
  rw [SameValue, hx]
  exact h hx

/-- A function that is built with any operands is lowered or refused, unless the run takes the
type of an operand for granted that is not in the arena, or stores past all memory; it stops at
a handle exactly when it does so.  An instruction that is come to with an operand outside of
the arena is refused as malformed or stops in this way, if it does not overlook the operand.
What it overlooks makes no difference. -/
theorem lower_built_settles_iff {name : String} {args : List (Ty × String)}
    {steps : List Builder.Step} {f : Func} (h : builtFrom? name args steps = some f)
    (c : Context) :
    (((∃ g, f.lower c = .ok g) ∨ ∃ r, f.lower c = .error (.refused r)) ↔
      (¬ ∃ v, f.TrustsForeign c v) ∧ ¬ ∃ index k, f.StoresPast c index k) ∧
    (∀ v, f.lower c = .error (.foreign v) ↔ f.TrustsForeign c v) ∧
    ∀ index i s, f.before c index = .ok s → f.instructions[index]? = some i →
      (∀ v ∈ i.operands, f.type? v = none → ¬ Overlooks f s i v →
        (∃ reason, f.lower c = .error (.refused (.malformed index reason))) ∨
          ∃ w, Trusts f s i w ∧ f.type? w = none ∧ f.lower c = .error (.foreign w)) ∧
      ((∀ v ∈ i.operands, f.type? v = none → Overlooks f s i v) →
        ∀ f' : Func, f'.args = f.args → f.Extends f' →
          instruction f' s i = instruction f s i) := by
  have howned := owned_of_builtFrom? h
  have hforeign : ∀ v, f.lower c = .error (.foreign v) ↔ f.TrustsForeign c v := by
    refine fun v => ⟨fun hl => ?_, lower_of_trustsForeign⟩
    rcases lower_stops howned.args_lt hl with ⟨r, hr⟩ | ⟨w, hw, htrusts⟩ | ⟨_, _, hk, _⟩
    · cases hr
    · cases hw
      exact htrusts
    · cases hk
  refine ⟨⟨?_, ?_⟩, hforeign, fun index i s hs hi => ⟨fun v hv hnone hlook => ?_, ?_⟩⟩
  · intro hsettled
    have hnot : ∀ stop, (∀ r, stop ≠ .refused r) → f.lower c ≠ .error stop := by
      intro stop hstop hl
      rcases hsettled with ⟨g, hg⟩ | ⟨r, hr⟩
      · rw [hl] at hg
        cases hg
      · rw [hl] at hr
        exact hstop r (Except.error.inj hr)
    constructor
    · rintro ⟨v, hv⟩
      exact hnot (.foreign v) nofun (lower_of_trustsForeign hv)
    · rintro ⟨index, k, hpast⟩
      exact hnot (.unaddressable k) nofun (lower_of_storesPast hpast)
  · rintro ⟨htrusts, hpast⟩
    cases hl : f.lower c with
    | ok g => exact .inl ⟨g, rfl⟩
    | error stop =>
      rcases lower_stops howned.args_lt hl with ⟨r, rfl⟩ | ⟨v, _, hv⟩ | ⟨index, k, _, hk⟩
      · exact .inr ⟨r, rfl⟩
      · exact absurd ⟨v, hv⟩ htrusts
      · exact absurd ⟨index, k, hk⟩ hpast
  · exact howned.lower_of_unknown hs hi hv hnone hlook
  · intro hall f' hargs hextends
    have hknown := howned.comparesKnown hs (Nat.le_of_lt (Array.getElem?_eq_some_iff.mp hi).1)
    exact instruction_congr hargs (fun v hv => hextends.sameValue hv) hknown hall

/-- An extension of a value that is not there, which is overlooked, and a load through one. -/
def unknownLoad : List Builder.Step := [.extend 99 32, .load 42, .ret 98]

theorem lower_built_settles_unknownLoad :
    ∃ f, builtFrom? "f" (Convention.types.zip Convention.names) unknownLoad = some f ∧
      f.lower ⟨"f", 0, 1, 0⟩ = .error (.refused (.malformed 1 (.unknownValue 42))) ∧
      (¬ ∃ v, f.TrustsForeign ⟨"f", 0, 1, 0⟩ v) ∧
      ¬ ∃ index k, f.StoresPast ⟨"f", 0, 1, 0⟩ index k := by
  have hlower : ((builtFrom? "f" (Convention.types.zip Convention.names) unknownLoad).map
      fun f => f.lower ⟨"f", 0, 1, 0⟩) =
        some (.error (.refused (.malformed 1 (.unknownValue 42)))) := by
    decide +kernel
  obtain ⟨f, hf, hl⟩ := Option.map_eq_some_iff.mp hlower
  exact ⟨f, hf, hl, (lower_built_settles_iff hf ⟨"f", 0, 1, 0⟩).1.mp (.inr ⟨_, hl⟩)⟩

/-- A return of a value that is not there is neither lowered nor refused. -/
theorem lower_unknownReturn_foreign :
    ∃ f, builtFrom? "f" (Convention.types.zip Convention.names) [.ret 99] = some f ∧
      f.lower ⟨"f", 0, 1, 0⟩ = .error (.foreign 99) := by
  have hlower : ((builtFrom? "f" (Convention.types.zip Convention.names) [.ret 99]).map
      fun f => f.lower ⟨"f", 0, 1, 0⟩) = some (.error (.foreign 99)) := by
    decide +kernel
  exact Option.map_eq_some_iff.mp hlower

end Func
end SsaGraph

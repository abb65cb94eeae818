import SsaGraph.Proofs.Lowering.Preparation
import SsaGraph.Proofs.Program.Arena

/-!
How a lowering ends.  Each step fails only in ways that can be listed (`FailsOnly`), and most of
them succeed or are refused as malformed (`Settles`).  What else can stop an instruction is
listed by `Stopped`, with its exact condition: an opcode or a callee that is not known, an
operand whose type is taken for granted (`Trusts`) and that is not in the arena, and a store to
a slot that the buffer has but no memory holds (`StoresPast`).  With all operands in the arena,
as in every function that is read, only the last of these is not a refusal.

Some causes of a refusal only guard against passes that disagree (`Reason.defensive`).  Where an
instruction could be refused for one of them is listed by `Guarded`.
-/

namespace SsaGraph

/-- Consecutive nodes past the largest word. -/
def BufferFault.defensive : BufferFault → Bool
  | .pastWords _ _ => true
  | _ => false

/-- Whether a cause only guards against passes that disagree. -/
def Reason.defensive : Reason → Bool
  | .atomicUnregistered _ | .atomicSlots _ _ | .offsetPastWords _ | .outputUnregistered => true
  | .buffer cause | .inputBuffer cause | .outputBuffer cause | .resultBuffer cause => cause.defensive
  | _ => false

namespace Lowering

/-- The step succeeds, or it fails in one of the ways `P`. -/
def FailsOnly {α : Type} (P : Fault → Prop) (x : Except Fault α) : Prop := ∀ e, x = .error e → P e

/-- The step succeeds, or it is refused as malformed. -/
def Settles {α : Type} (x : Except Fault α) : Prop := ∀ e, x = .error e → ∃ r, e = .malformed r

/-- The step succeeds or is refused as malformed, unless it stops in one of the ways `P`. -/
def SettlesUnless {α : Type} (P : Fault → Prop) (x : Except Fault α) : Prop :=
  ∀ e, x = .error e → (∃ r, e = .malformed r) ∨ P e

/-! ## Sequences of steps -/

section
variable {α β : Type} {P : Fault → Prop}

theorem failsOnly_ok {a : α} : FailsOnly P (.ok a) := fun _ h => nomatch h

theorem failsOnly_error {e : Fault} (h : P e) : FailsOnly P (.error e : Except Fault α) := by
  rintro d ⟨⟩
  exact h

theorem bind_eq_error {ε : Type} {x : Except ε α} {k : α → Except ε β} {e : ε}
    (h : x >>= k = .error e) : x = .error e ∨ ∃ a, x = .ok a ∧ k a = .error e := by
  cases x with
  | error cause =>
    cases h
    exact .inl rfl
  | ok a => exact .inr ⟨a, rfl, h⟩

theorem FailsOnly.bind {x : Except Fault α} {k : α → Except Fault β} (hx : FailsOnly P x)
    (hk : ∀ a, x = .ok a → FailsOnly P (k a)) : FailsOnly P (x >>= k) := by
  intro e h
  rcases bind_eq_error h with hx' | ⟨a, ha, h⟩
  · exact hx e hx'
  · exact hk a ha e h

/-- A step behind a check. -/
theorem failsOnly_guard {c : Prop} [Decidable c] {r : Reason} {k : Unit → Except Fault α}
    (hc : c → P (.malformed r)) (hk : ¬c → FailsOnly P (k ())) :
    FailsOnly P (if c then malformed r >>= k else k ()) := by
  by_cases h : c
  · rw [if_pos h]
    exact failsOnly_error (α := α) (hc h)
  · rw [if_neg h]
    exact hk h

theorem failsOnly_forM {p : α → Except Fault Unit} {as : List α}
    (h : ∀ front a back, as = front ++ a :: back → (∀ b ∈ front, p b = .ok ()) →
      FailsOnly P (p a)) : FailsOnly P (as.forM p) := by
  induction as with
  | nil => exact failsOnly_ok
  | cons a rest ih =>
    refine (h [] a rest rfl nofun).bind fun _ ha => ih fun front b back hsplit hfront => ?_
    exact h (a :: front) b back (by rw [hsplit, List.cons_append])
      (List.forall_mem_cons.mpr ⟨ha, hfront⟩)

theorem failsOnly_mapM {k : α → Except Fault β} (h : ∀ a, FailsOnly P (k a)) (as : List α) :
    FailsOnly P (as.mapM k) := by
  induction as with
  | nil => exact failsOnly_ok
  | cons a rest ih =>
    rw [List.mapM_cons]
    exact (h a).bind fun _ _ => ih.bind fun _ _ => failsOnly_ok

theorem failsOnly_foldlM {step : β → α → Except Fault β} (h : ∀ b a, FailsOnly P (step b a))
    (as : List α) (b : β) : FailsOnly P (as.foldlM step b) := by
  induction as generalizing b with
  | nil => exact failsOnly_ok
  | cons a rest ih =>
    rw [List.foldlM_cons]
    exact (h b a).bind fun b _ => ih b

end

section
variable {f : Func} {s : Lowering} {i : Instruction} {v : Handle}

/-! ## What stops an instruction -/

/-- The value has a type of the kind that is wanted in a call of an atomic function. -/
def OfKind (f : Func) (v : Handle) (wanted : Ty) : Prop :=
  ∃ type, f.type? v = some type ∧
    (type.isInt = true ∧ wanted.isInt = true ∨ type.isPtr = true ∧ wanted.isPtr = true)

theorem expectKind_eq_ok {wanted : Ty} : expectKind f v wanted = .ok () ↔ OfKind f v wanted := by
  unfold expectKind OfKind typeOf
  cases f.type? v with
  | none => exact ⟨nofun, nofun⟩
  | some type => cases type <;> cases wanted <;> simp [bind, Except.bind, Ty.isInt, Ty.isPtr] <;> rfl

/-- Lowering instruction `i` looks at the type of `v` without asking whether there is one. -/
inductive Trusts (f : Func) (s : Lowering) (i : Instruction) : Handle → Prop where
  | select {condition ifTrue ifFalse : Handle} {c : Comparison} (hop : i.opcode = .select)
      (hargs : i.operands = [condition, ifTrue, ifFalse])
      (hc : s.comparisons.get? condition = some c) : Trusts f s i ifTrue
  /-- An argument of an atomic function, if those in front of it are of the right kind. -/
  | atomic {args : List Handle} {front back : List (Handle × Ty)} {callee v : Handle}
      {name rest : String} {wanted : Ty} (hop : i.opcode = .call)
      (hargs : i.operands = args ++ [callee]) (hlen : args.length = Convention.arity)
      (hname : f.symbol? callee = some name) (hrest : reservedRest? atomicStart name = some rest)
      (hsplit : args.zip Convention.types = front ++ (v, wanted) :: back)
      (hfront : ∀ a ∈ front, OfKind f a.1 a.2) : Trusts f s i v
  | target {target : Handle} (hop : i.opcode = .br) (hargs : i.operands = [target]) :
      Trusts f s i target
  | condition {condition ifTrue ifFalse : Handle} (hop : i.opcode = .br)
      (hargs : i.operands = [condition, ifTrue, ifFalse]) : Trusts f s i condition
  | ifTrue {condition ifTrue ifFalse : Handle} {type : Ty} (hop : i.opcode = .br)
      (hargs : i.operands = [condition, ifTrue, ifFalse])
      (hc : f.type? condition = some type) (hint : type.isInt = true) : Trusts f s i ifTrue
  | ifFalse {condition ifTrue ifFalse : Handle} {type : Ty} (hop : i.opcode = .br)
      (hargs : i.operands = [condition, ifTrue, ifFalse])
      (hc : f.type? condition = some type) (hint : type.isInt = true)
      (ht : f.type? ifTrue = some .label) : Trusts f s i ifFalse
  | code {code : Handle} (hop : i.opcode = .ret) (hargs : i.operands = [code]) : Trusts f s i code

/-- The call goes to a name that stands for nothing, with the arguments it has. -/
def Unresolved (f : Func) (i : Instruction) (name : String) : Prop :=
  i.opcode = .call ∧ ∃ args callee, i.operands = args ++ [callee] ∧ f.symbol? callee = some name ∧
    ((args.length = 1 ∨ args.length = 2) ∧ reservedRest? discreteStart name = none ∧
        Op.ofCallee? name = none ∨
      args.length = Convention.arity ∧ reservedRest? atomicStart name = none)

/-- Instruction `i` stores to slot `k` of a buffer that has this slot, and no memory holds
that many. -/
def StoresPast (f : Func) (s : Lowering) (i : Instruction) (k : Nat) : Prop :=
  i.opcode = .store ∧ Slots.limit ≤ k + 1 ∧
    ∃ stored p n base slots written, i.operands = [stored, p] ∧
      f.args[Convention.message]? ≠ some p ∧ f.type? stored = some .double ∧
      f.type? p = some .ptr ∧ s.bindings.values.get? stored = some n ∧
      s.elements.get? p = some ⟨base, k⟩ ∧
      s.bindings.layouts.get? base = some (.scattered slots written) ∧ k < slots

/-- The ways in which instruction `i` is not lowered, other than that it is malformed. -/
inductive Stopped (f : Func) (s : Lowering) (i : Instruction) : Fault → Prop where
  | unsupported {name : String} (hop : i.opcode = .other name) : Stopped f s i (.unsupported name)
  | unresolved {name : String} (h : Unresolved f i name) : Stopped f s i (.unresolved name)
  | foreign {v : Handle} (h : Trusts f s i v) (hnone : f.type? v = none) : Stopped f s i (.foreign v)
  | unaddressable {k : Nat} (h : StoresPast f s i k) : Stopped f s i (.unaddressable k)

theorem Trusts.mem (h : Trusts f s i v) : v ∈ i.operands := by
  cases h with
  | @atomic args _ _ _ _ _ _ wanted _ hargs _ _ _ hsplit _ =>
    have hmem : (v, wanted) ∈ args.zip Convention.types := by
      rw [hsplit]
      exact List.mem_append_right _ List.mem_cons_self
    rw [hargs]
    exact List.mem_append_left _ (List.of_mem_zip hmem).1
  | select _ hargs _ | target _ hargs | condition _ hargs | ifTrue _ hargs _ _
  | ifFalse _ hargs _ _ _ | code _ hargs => simp [hargs]

/-- The defensive causes for which instruction `i` can be refused: an element that the buffer has
is past the largest word, and the argument buffer of a call has not the slots that the call
asks for. -/
inductive Guarded (f : Func) (s : Lowering) (i : Instruction) : Reason → Prop where
  | offset {base : Handle} {offset first length : Nat}
      (hl : s.bindings.layouts.get? base = some (.contiguous first length)) (hlt : offset < length)
      (hwords : 1 <<< 64 ≤ first + offset) : Guarded f s i (.offsetPastWords offset)
  | arguments {base : Handle} {n : Nat} {r : Reason} (hslots : f.argumentSlots? i = some (base, n))
      (hnot : ∀ written, s.bindings.layouts.get? base ≠ some (.scattered n written)) :
      Guarded f s i r

theorem isLabel_iff {type : Ty} : type.isLabel = true ↔ type = .label := by
  cases type <;> simp [Ty.isLabel]

theorem succ_lt_words {n : Nat} (h : n ≤ maxNode) : n + 1 < 1 <<< 64 := by
  have h : n ≤ 1 <<< 32 - 1 := h
  omega

/-! ## Stores -/

theorem store_unaddressable_iff {b : Bindings} {base : Handle} {offset k : Nat} {node : NodeId} :
    b.store base offset node = .error (.unaddressable k) ↔ k = offset ∧ Slots.limit ≤ k + 1 ∧
      ∃ slots written, b.layouts.get? base = some (.scattered slots written) ∧ k < slots := by
  unfold Bindings.store
  split
  next slots written hl =>
    by_cases hs : slots ≤ offset
    · rw [if_pos hs]
      refine ⟨by nofun, ?_⟩
      rintro ⟨rfl, _, _, _, hl', hlt⟩
      rw [hl] at hl'
      cases hl'
      omega
    · by_cases hlimit : Slots.limit ≤ offset + 1
      · rw [if_neg hs, if_pos hlimit, Except.error.injEq, BufferFault.unaddressable.injEq]
        constructor
        · rintro rfl
          exact ⟨rfl, hlimit, slots, written, hl, Nat.not_le.mp hs⟩
        · exact fun h => h.1.symm
      · rw [if_neg hs, if_neg hlimit]
        refine ⟨by nofun, ?_⟩
        rintro ⟨rfl, hle, _⟩
        exact absurd hle hlimit
  next hl =>
    refine ⟨by nofun, ?_⟩
    rintro ⟨_, _, slots, written, hl', _⟩
    exact absurd hl' (hl slots written)

/-! ## Looking at values -/

section
variable {P : Fault → Prop} (hP : ∀ r, r.defensive = false → P (.malformed r))

theorem failsOnly_typeOf (h : f.type? v = none → P (.foreign v)) : FailsOnly P (typeOf f v) := by
  unfold typeOf
  split
  · exact failsOnly_ok
  next hnone => exact failsOnly_error (h hnone)

include hP

theorem failsOnly_wrongCount {α : Type} {n : Nat} :
    FailsOnly P (wrongCount i n : Except Fault α) := failsOnly_error (hP _ rfl)

theorem failsOnly_expectType {wanted : Ty → Bool} {what : String} :
    FailsOnly P (expectType f v wanted what) := by
  unfold expectType
  split
  · exact failsOnly_error (hP _ rfl)
  · split
    · exact failsOnly_ok
    · exact failsOnly_error (hP _ rfl)

theorem failsOnly_expectDouble : FailsOnly P (expectDouble f v) := failsOnly_expectType hP

theorem failsOnly_expectPointer : FailsOnly P (expectPointer f v) := failsOnly_expectType hP

theorem failsOnly_expectKind {wanted : Ty} (h : f.type? v = none → P (.foreign v)) :
    FailsOnly P (expectKind f v wanted) := by
  refine (failsOnly_typeOf h).bind fun type _ => ?_
  split
  · exact failsOnly_ok
  · exact failsOnly_ok
  · exact failsOnly_error (hP _ rfl)

theorem failsOnly_count : FailsOnly P (count f v) := by
  unfold count
  split
  · exact failsOnly_ok
  · exact failsOnly_error (hP _ rfl)

theorem failsOnly_resultOf : FailsOnly P (resultOf i) := by
  unfold resultOf
  split
  · exact failsOnly_ok
  · exact failsOnly_error (hP _ rfl)

theorem failsOnly_node : FailsOnly P (node f s v) := by
  unfold node
  split
  · exact failsOnly_ok
  · exact failsOnly_error (hP _ rfl)

theorem failsOnly_reserve {n : Nat} : FailsOnly P (s.reserve n) := by
  unfold reserve
  split
  · exact failsOnly_ok
  · exact failsOnly_error (hP _ rfl)

theorem failsOnly_emitResult {op : Op} {args : List Nat} : FailsOnly P (s.emitResult i op args) :=
  (failsOnly_resultOf hP).bind fun _ _ => (failsOnly_reserve hP).bind fun _ _ => failsOnly_ok

/-! ## Buffers -/

theorem failsOnly_orFault {α : Type} {reason : BufferFault → Reason} {x : Except BufferFault α}
    (hreason : ∀ cause, (reason cause).defensive = cause.defensive)
    (hcause : ∀ cause, x = .error cause → cause.defensive = false)
    (hoffset : ∀ offset, x = .error (.unaddressable offset) → P (.unaddressable offset)) :
    FailsOnly P (orFault reason x) := by
  unfold orFault
  split
  · exact failsOnly_ok
  next offset => exact failsOnly_error (hoffset offset rfl)
  next cause _ => exact failsOnly_error (hP _ ((hreason cause).trans (hcause cause rfl)))

theorem failsOnly_bindContiguous {b : Bindings} {reason : BufferFault → Reason} {base : Handle}
    {first : NodeId} {length : Nat} (hreason : ∀ cause, (reason cause).defensive = cause.defensive)
    (hlt : first + length < 1 <<< 64) :
    FailsOnly P (orFault reason (b.bindContiguous base first length)) := by
  have hcause : ∀ cause, b.bindContiguous base first length = .error cause →
      cause = .holdsScattered := by
    intro cause h
    unfold Bindings.bindContiguous at h
    split at h
    · cases h
      rfl
    · rw [if_neg (Nat.not_le.mpr hlt)] at h
      cases h
  refine failsOnly_orFault hP hreason (fun cause h => ?_) fun offset h => ?_
  · rw [hcause cause h]
    rfl
  · cases hcause _ h

theorem failsOnly_registerScattered {b : Bindings} {reason : BufferFault → Reason} {base : Handle}
    {length : Nat} (hreason : ∀ cause, (reason cause).defensive = cause.defensive) :
    FailsOnly P (orFault reason (b.registerScattered base length)) := by
  have hcause : ∀ cause, b.registerScattered base length = .error cause →
      (∃ slots, cause = .reusedWith slots length) ∨ cause = .holdsConsecutive := by
    intro cause h
    unfold Bindings.registerScattered at h
    split at h
    · cases h
    · split at h
      · cases h
      · cases h
        exact .inl ⟨_, rfl⟩
    · cases h
      exact .inr rfl
  refine failsOnly_orFault hP hreason (fun cause h => ?_) fun offset h => ?_
  · rcases hcause cause h with ⟨_, rfl⟩ | rfl <;> rfl
  · rcases hcause _ h with ⟨_, he⟩ | he <;> cases he

theorem failsOnly_storeSlot {b : Bindings} {base : Handle} {offset : Nat} {n : NodeId}
    (hoffset : ∀ k, b.store base offset n = .error (.unaddressable k) → P (.unaddressable k)) :
    FailsOnly P (orFault .buffer (b.store base offset n)) := by
  refine failsOnly_orFault hP (fun _ => rfl) (fun cause h => ?_) hoffset
  unfold Bindings.store at h
  split at h
  · split at h
    · cases h
      rfl
    · split at h
      · cases h
        rfl
      · cases h
  · cases h
    rfl

omit hP in
/-- Nodes that are handed out are words. -/
theorem words_of_reserve {p : Lowering × NodeId} {n : Nat} (h : s.reserve n = .ok p) :
    p.2 + n < 1 <<< 64 := by
  obtain ⟨hmax, _, hfirst⟩ := reserve_eq_ok.mp h
  rw [hfirst, Nat.add_right_comm]
  exact succ_lt_words hmax

/-! ## Instructions -/

theorem failsOnly_load : FailsOnly P (load f s i) := by
  unfold load
  split
  · refine (failsOnly_expectPointer hP).bind fun _ _ => ?_
    split
    · exact failsOnly_error (hP _ rfl)
    · exact (failsOnly_resultOf hP).bind fun _ _ => failsOnly_ok
  · exact failsOnly_wrongCount hP

theorem failsOnly_addressParts : FailsOnly P (addressParts f i) := by
  unfold addressParts
  split
  · exact (failsOnly_count hP).bind fun _ _ => failsOnly_ok
  · split
    · exact (failsOnly_count hP).bind fun _ _ => failsOnly_ok
    · exact failsOnly_error (hP _ rfl)
  · exact failsOnly_error (hP _ rfl)

theorem failsOnly_address (hguard : ∀ r, Guarded f s i r → P (.malformed r)) :
    FailsOnly P (address f s i) := by
  refine (failsOnly_addressParts hP).bind fun parts _ => ?_
  refine (failsOnly_expectPointer hP).bind fun _ _ => (failsOnly_resultOf hP).bind fun v _ => ?_
  split
  · exact failsOnly_error (hP _ rfl)
  · exact failsOnly_ok
  next hl =>
    split
    · exact failsOnly_error (hP _ rfl)
    next hlt =>
      split
      next hwords => exact failsOnly_error (hguard _ (.offset hl (Nat.not_le.mp hlt) hwords))
      · exact failsOnly_ok

theorem failsOnly_binary {op : Op} : FailsOnly P (binary f s i op) := by
  unfold binary
  split
  · refine (failsOnly_expectDouble hP).bind fun _ _ => ?_
    refine (failsOnly_expectDouble hP).bind fun _ _ => ?_
    exact (failsOnly_node hP).bind fun _ _ => (failsOnly_node hP).bind fun _ _ =>
      failsOnly_emitResult hP
  · exact failsOnly_wrongCount hP

theorem failsOnly_negate : FailsOnly P (negate f s i) := by
  unfold negate
  split
  · exact (failsOnly_expectDouble hP).bind fun _ _ => (failsOnly_node hP).bind fun _ _ =>
      failsOnly_emitResult hP
  · exact failsOnly_wrongCount hP

theorem failsOnly_compare : FailsOnly P (compare f s i) := by
  unfold compare
  split
  · have hoperand : ∀ v,
        FailsOnly P ((if i.opcode = .fcmp then expectDouble f else expectInt f) v) := by
      intro v
      split
      · exact failsOnly_expectDouble hP
      · exact failsOnly_expectType hP
    refine (hoperand _).bind fun _ _ => (hoperand _).bind fun _ _ => ?_
    split
    · exact failsOnly_error (hP _ rfl)
    · exact (failsOnly_resultOf hP).bind fun _ _ => failsOnly_ok
  · exact failsOnly_wrongCount hP

theorem failsOnly_recordOperand : FailsOnly P (recordOperand f s v) := by
  unfold recordOperand
  split
  · exact failsOnly_ok
  · split
    · exact failsOnly_error (hP _ rfl)
    · exact (failsOnly_node hP).bind fun _ _ => (failsOnly_node hP).bind fun _ _ => failsOnly_ok

theorem failsOnly_combine : FailsOnly P (combine f s i) := by
  unfold combine
  split
  · exact failsOnly_error (hP _ rfl)
  · exact failsOnly_foldlM (fun _ _ => failsOnly_recordOperand hP) _ _

theorem failsOnly_extend : FailsOnly P (extend f s i) := by
  unfold extend
  split
  · exact failsOnly_error (hP _ rfl)
  · exact failsOnly_combine hP

end

section
variable {P : Fault → Prop} (hP : ∀ r, r.defensive = false → P (.malformed r))
  (hstop : ∀ e, Stopped f s i e → P e)
include hP hstop

theorem failsOnly_store (hop : i.opcode = .store) : FailsOnly P (store f s i) := by
  unfold store
  split
  next stored p hargs =>
    split
    · exact failsOnly_ok
    next hm =>
      refine (failsOnly_expectDouble hP).bind fun _ hd => ?_
      refine (failsOnly_expectPointer hP).bind fun _ hp => (failsOnly_node hP).bind fun n hn => ?_
      split
      · exact failsOnly_error (hP _ rfl)
      next element he =>
        refine (failsOnly_storeSlot hP fun k hk => ?_).bind fun _ _ => failsOnly_ok
        obtain ⟨rfl, hlimit, slots, written, hl, hlt⟩ := store_unaddressable_iff.mp hk
        exact hstop _ (.unaddressable ⟨hop, hlimit, stored, p, n, element.base, slots, written, hargs,
          hm, expectDouble_eq_ok.mp hd, expectPointer_eq_ok.mp hp, node_eq_ok.mp hn, he, hl, hlt⟩)
  · exact failsOnly_wrongCount hP

theorem failsOnly_select (hop : i.opcode = .select) : FailsOnly P (select f s i) := by
  unfold select
  split
  next condition ifTrue ifFalse hargs =>
    split
    · exact failsOnly_error (hP _ rfl)
    next c hc =>
      refine (failsOnly_typeOf fun hnone => ?_).bind fun type _ => ?_
      · exact hstop _ (.foreign (.select hop hargs hc) hnone)
      split
      · exact failsOnly_ok
      · refine (failsOnly_expectDouble hP).bind fun _ _ => ?_
        refine (failsOnly_expectDouble hP).bind fun _ _ => ?_
        refine (failsOnly_expectDouble hP).bind fun _ _ => ?_
        split
        · exact failsOnly_error (hP _ rfl)
        · exact (failsOnly_node hP).bind fun _ _ => (failsOnly_node hP).bind fun _ _ =>
            (failsOnly_node hP).bind fun _ _ => (failsOnly_node hP).bind fun _ _ =>
              failsOnly_emitResult hP
  · exact failsOnly_wrongCount hP

theorem failsOnly_callMath {name : String} {args : List Handle} {callee : Handle}
    (hop : i.opcode = .call) (hargs : i.operands = args ++ [callee])
    (hlen : args.length = 1 ∨ args.length = 2) (hname : f.symbol? callee = some name) :
    FailsOnly P (callMath f s i name args) := by
  refine (failsOnly_forM fun _ _ _ _ _ => failsOnly_expectDouble hP).bind fun _ _ => ?_
  split
  · split
    · exact (failsOnly_node hP).bind fun _ _ => failsOnly_emitResult hP
    · exact failsOnly_error (hP _ rfl)
  next hdiscrete =>
    split
    next hcallee =>
      refine failsOnly_error (hstop _ (.unresolved ⟨hop, args, callee, hargs, hname, ?_⟩))
      exact .inl ⟨hlen, hdiscrete, hcallee⟩
    · exact (failsOnly_mapM (fun _ => failsOnly_node hP) _).bind fun _ _ => failsOnly_emitResult hP

/-- A call of an atomic function needs its argument buffer as the first pass registers it. -/
theorem failsOnly_callAtomic (hguard : ∀ r, Guarded f s i r → P (.malformed r)) {name : String}
    {counted arguments countedResults results length message callee : Handle}
    (hop : i.opcode = .call)
    (hargs : i.operands = [counted, arguments, countedResults, results, length, message, callee])
    (hname : f.symbol? callee = some name) :
    FailsOnly P (callAtomic f s name [counted, arguments, countedResults, results, length, message]
      counted arguments countedResults results) := by
  have hargs' : i.operands =
      [counted, arguments, countedResults, results, length, message] ++ [callee] := hargs
  unfold callAtomic
  split
  next hrest =>
    exact failsOnly_error
      (hstop _ (.unresolved ⟨hop, _, callee, hargs', hname, .inr ⟨rfl, hrest⟩⟩))
  next rest hrest =>
    refine (failsOnly_forM fun front a back hsplit hfront => ?_).bind fun _ hkinds => ?_
    · refine failsOnly_expectKind hP fun hnone => hstop _ (.foreign ?_ hnone)
      exact .atomic hop hargs' rfl hname hrest hsplit fun b hb => expectKind_eq_ok.mp (hfront b hb)
    refine (failsOnly_count hP).bind fun n hn => (failsOnly_count hP).bind fun _ _ => ?_
    have hptr : f.type? arguments = some .ptr := by
      have hkind := forM_eq_ok.mp hkinds (arguments, .ptr) (by simp [Convention.types])
      obtain ⟨type, htype, hint | hptr⟩ := expectKind_eq_ok.mp hkind
      · cases hint.2
      · exact isPtr_iff.mp hptr.1 ▸ htype
    obtain ⟨w, hw, rfl⟩ := count_eq_ok.mp hn
    have hslots : f.argumentSlots? i = some (arguments, w.toNat) :=
      Func.argumentSlots?_eq_some_iff.mpr ⟨_, _, _, _, _, _, w, hop, hargs, hptr, hw, rfl⟩
    split
    next hnone =>
      refine failsOnly_error (hguard _ (.arguments hslots fun written hl => ?_))
      rw [Bindings.scattered?_eq_some.mpr hl] at hnone
      cases hnone
    next slots written hsome =>
      refine failsOnly_guard (fun hne => hguard _ (.arguments hslots fun other hl => ?_)) fun _ => ?_
      · rw [Bindings.scattered?_eq_some.mpr hl] at hsome
        cases hsome
        exact hne rfl
      split
      · exact failsOnly_error (hP _ rfl)
      · refine (failsOnly_reserve hP).bind fun p hp => ?_
        exact (failsOnly_bindContiguous hP (fun _ => rfl) (words_of_reserve hp)).bind fun _ _ =>
          failsOnly_ok

theorem failsOnly_call (hguard : ∀ r, Guarded f s i r → P (.malformed r)) (hop : i.opcode = .call) :
    FailsOnly P (call f s i) := by
  unfold call
  split
  · exact failsOnly_error (hP _ rfl)
  next callee hcallee =>
    split
    · exact failsOnly_error (hP _ rfl)
    next name hname =>
      have hargs := operands_of_callee hop hcallee
      split
      next ha => exact failsOnly_callMath hP hstop hop (ha ▸ hargs) (.inl rfl) hname
      next ha => exact failsOnly_callMath hP hstop hop (ha ▸ hargs) (.inr rfl) hname
      next ha =>
        rw [ha] at hargs
        exact failsOnly_callAtomic hP hstop hguard hop hargs hname
      · exact failsOnly_error (hP _ rfl)

theorem failsOnly_branch (hop : i.opcode = .br) : FailsOnly P (branch f s i) := by
  unfold branch
  split
  next target hargs =>
    refine (failsOnly_typeOf fun hnone => ?_).bind fun type _ => ?_
    · exact hstop _ (.foreign (.target hop hargs) hnone)
    split
    · exact failsOnly_ok
    · exact failsOnly_error (hP _ rfl)
  next condition ifTrue ifFalse hargs =>
    refine (failsOnly_typeOf fun hnone => ?_).bind fun type hc => ?_
    · exact hstop _ (.foreign (.condition hop hargs) hnone)
    rw [typeOf_eq_ok] at hc
    refine failsOnly_guard (fun _ => hP _ rfl) fun hint => ?_
    rw [Bool.not_eq_true, Bool.not_eq_false'] at hint
    refine (failsOnly_typeOf fun hnone => ?_).bind fun type ht => ?_
    · exact hstop _ (.foreign (.ifTrue hop hargs hc hint) hnone)
    rw [typeOf_eq_ok] at ht
    refine failsOnly_guard (fun _ => hP _ rfl) fun hlabel => ?_
    rw [Bool.not_eq_true, Bool.not_eq_false', isLabel_iff] at hlabel
    subst hlabel
    refine (failsOnly_typeOf fun hnone => ?_).bind fun type _ => ?_
    · exact hstop _ (.foreign (.ifFalse hop hargs hc hint ht) hnone)
    split
    · exact failsOnly_ok
    · exact failsOnly_error (hP _ rfl)
  · exact failsOnly_error (hP _ rfl)

theorem failsOnly_ret (hop : i.opcode = .ret) : FailsOnly P (ret f s i) := by
  unfold ret
  split
  next code hargs =>
    refine (failsOnly_typeOf fun hnone => ?_).bind fun type _ => ?_
    · exact hstop _ (.foreign (.code hop hargs) hnone)
    split
    · exact failsOnly_ok
    · exact failsOnly_error (hP _ rfl)
  · exact failsOnly_error (hP _ rfl)

/-- All ways in which an instruction is not lowered. -/
theorem failsOnly_instruction (hguard : ∀ r, Guarded f s i r → P (.malformed r)) :
    FailsOnly P (instruction f s i) := by
  unfold instruction
  split
  · exact failsOnly_ok
  · exact failsOnly_load hP
  · exact failsOnly_address hP hguard
  next hop => exact failsOnly_store hP hstop hop
  · exact failsOnly_binary hP
  · exact failsOnly_binary hP
  · exact failsOnly_binary hP
  · exact failsOnly_binary hP
  · exact failsOnly_negate hP
  · exact failsOnly_compare hP
  · exact failsOnly_compare hP
  · exact failsOnly_extend hP
  · exact failsOnly_combine hP
  next hop => exact failsOnly_select hP hstop hop
  next hop => exact failsOnly_call hP hstop hguard hop
  next hop => exact failsOnly_branch hP hstop hop
  next hop => exact failsOnly_ret hP hstop hop
  next hop => exact failsOnly_error (hstop _ (.unsupported hop))

end

theorem settlesUnless_instruction : SettlesUnless (Stopped f s i) (instruction f s i) :=
  failsOnly_instruction (P := fun e => (∃ r, e = .malformed r) ∨ Stopped f s i e)
    (fun r _ => .inl ⟨r, rfl⟩) (fun _ h => .inr h) fun r _ => .inl ⟨r, rfl⟩

/-! ## The stops are met -/

theorem instruction_of_storesPast {k : Nat} (h : StoresPast f s i k) :
    instruction f s i = .error (.unaddressable k) := by
  obtain ⟨hop, hlimit, stored, p, n, base, slots, written, hargs, hm, hd, hp, hn, he, hl, hlt⟩ := h
  have hstore : s.bindings.store base k n = .error (.unaddressable k) :=
    store_unaddressable_iff.mpr ⟨rfl, hlimit, slots, written, hl, hlt⟩
  rw [instruction, hop]
  show store f s i = _
  simp only [store, hargs, if_neg hm, expectDouble_eq_ok.mpr hd, expectPointer_eq_ok.mpr hp,
    node_eq_ok.mpr hn, he]
  show (orFault .buffer (s.bindings.store base k n) >>= _) = _
  rw [hstore]
  rfl

theorem typeOf_eq_error (h : f.type? v = none) : typeOf f v = .error (.foreign v) := by
  rw [typeOf, h]

theorem forM_eq_error {α : Type} {p : α → Except Fault Unit} {front back : List α} {a : α}
    {e : Fault} (hfront : ∀ b ∈ front, p b = .ok ()) (ha : p a = .error e) :
    (front ++ a :: back).forM p = .error e := by
  induction front with
  | nil =>
    show (p a >>= fun _ => back.forM p) = _
    rw [ha]
    rfl
  | cons b rest ih =>
    rw [List.forall_mem_cons] at hfront
    show (p b >>= fun _ => (rest ++ a :: back).forM p) = _
    rw [hfront.1]
    exact ih hfront.2

theorem callAtomic_of_trusts {args : List Handle} {front back : List (Handle × Ty)}
    {name rest : String} {wanted : Ty} {counted arguments countedResults results : Handle}
    (hrest : reservedRest? atomicStart name = some rest)
    (hsplit : args.zip Convention.types = front ++ (v, wanted) :: back)
    (hfront : ∀ a ∈ front, OfKind f a.1 a.2) (hnone : f.type? v = none) :
    callAtomic f s name args counted arguments countedResults results = .error (.foreign v) := by
  unfold callAtomic
  rw [hrest]
  show (List.forM (args.zip Convention.types) (fun a => expectKind f a.1 a.2) >>= _) = _
  rw [hsplit, forM_eq_error (e := .foreign v) fun b hb => expectKind_eq_ok.mpr (hfront b hb)]
  · rfl
  · rw [expectKind, typeOf_eq_error hnone]
    rfl

theorem instruction_of_trusts (h : Trusts f s i v) (hnone : f.type? v = none) :
    instruction f s i = .error (.foreign v) := by
  have htype := typeOf_eq_error hnone
  cases h with
  | select hop hargs hc =>
    rw [instruction, hop]
    show select f s i = _
    simp only [select, hargs, hc, htype]
    rfl
  | @atomic args _ _ callee _ _ _ _ hop hargs hlen hname hrest hsplit hfront =>
    obtain ⟨hcallee, hcall⟩ := callee_of_operands hop hargs
    rw [instruction, hop]
    show call f s i = _
    obtain ⟨a, b, c, d, e, g, rfl⟩ : ∃ a b c d e g, args = [a, b, c, d, e, g] := by
      match args, hlen with
      | [a, b, c, d, e, g], _ => exact ⟨a, b, c, d, e, g, rfl⟩
    simp only [call, hcallee, hname, hcall]
    exact callAtomic_of_trusts hrest hsplit hfront hnone
  | target hop hargs =>
    rw [instruction, hop]
    show branch f s i = _
    simp only [branch, hargs, htype]
    rfl
  | condition hop hargs =>
    rw [instruction, hop]
    show branch f s i = _
    simp only [branch, hargs, htype]
    rfl
  | ifTrue hop hargs hc hint =>
    rw [instruction, hop]
    show branch f s i = _
    simp only [branch, hargs, typeOf_eq_ok.mpr hc, htype]
    show (if (!Ty.isInt _) = true then _ else _) = _
    rw [hint]
    rfl
  | ifFalse hop hargs hc hint ht =>
    rw [instruction, hop]
    show branch f s i = _
    simp only [branch, hargs, typeOf_eq_ok.mpr hc, typeOf_eq_ok.mpr ht, htype]
    show (if (!Ty.isInt _) = true then _ else _) = _
    rw [hint]
    rfl
  | code hop hargs =>
    rw [instruction, hop]
    show ret f s i = _
    simp only [ret, hargs, htype]
    rfl

/-! ## In front of the second pass -/

theorem failsOnly_discover {P : Fault → Prop} (hP : ∀ r, r.defensive = false → P (.malformed r))
    (hforeign : ∀ v, i.argumentBuffer? = some v → f.type? v = none → P (.foreign v)) {inputs : Nat} :
    FailsOnly P (discover f inputs s i) := by
  unfold discover registerArguments
  split
  next counted base _ _ _ _ _ hop hargs =>
    have hbuffer : i.argumentBuffer? = some base := by
      simp only [Instruction.argumentBuffer?, hop, hargs]
    refine (failsOnly_typeOf (hforeign base hbuffer)).bind fun type _ => ?_
    split
    · exact failsOnly_ok
    · split
      · exact failsOnly_ok
      · exact (failsOnly_registerScattered hP fun _ => rfl).bind fun _ _ => failsOnly_ok
  · exact failsOnly_ok

theorem settlesUnless_discover {inputs : Nat} :
    SettlesUnless (fun e => ∃ v, e = .foreign v ∧ i.argumentBuffer? = some v ∧ f.type? v = none)
      (discover f inputs s i) :=
  failsOnly_discover (P := fun e => (∃ r, e = .malformed r) ∨
      ∃ v, e = .foreign v ∧ i.argumentBuffer? = some v ∧ f.type? v = none)
    (fun r _ => .inl ⟨r, rfl⟩) fun v hbuffer hnone => .inr ⟨v, rfl, hbuffer, hnone⟩

theorem mem_operands_of_argumentBuffer (h : i.argumentBuffer? = some v) : v ∈ i.operands := by
  unfold Instruction.argumentBuffer? at h
  split at h
  next hargs =>
    cases h
    simp [hargs]
  · cases h

theorem discover_of_argumentBuffer {inputs : Nat} (hbuffer : i.argumentBuffer? = some v)
    (hnone : f.type? v = none) : discover f inputs s i = .error (.foreign v) := by
  unfold Instruction.argumentBuffer? at hbuffer
  split at hbuffer
  next counted base _ _ _ _ _ hop hargs =>
    cases hbuffer
    simp only [discover, registerArguments, hop, hargs, typeOf_eq_error hnone]
    rfl
  · cases hbuffer

theorem failsOnly_bufferArguments {P : Fault → Prop}
    (hP : ∀ r, r.defensive = false → P (.malformed r))
    (hforeign : ∀ v ∈ f.args, f.type? v = none → P (.foreign v)) :
    FailsOnly P (bufferArguments f) := by
  unfold bufferArguments
  split
  next input _ output _ _ hargs =>
    rw [hargs] at hforeign
    refine (failsOnly_typeOf (hforeign input (by simp))).bind fun type _ => ?_
    refine failsOnly_guard (fun _ => hP _ rfl) fun _ => ?_
    refine (failsOnly_typeOf (hforeign output (by simp))).bind fun type _ => ?_
    exact failsOnly_guard (fun _ => hP _ rfl) fun _ => failsOnly_ok
  · exact failsOnly_error (hP _ rfl)

theorem settles_bufferArguments (h : ∀ v ∈ f.args, v < f.values.size) :
    Settles (bufferArguments f) := by
  refine failsOnly_bufferArguments (P := fun e => ∃ r, e = .malformed r) (fun r _ => ⟨r, rfl⟩) ?_
  intro v hv hnone
  rw [Func.type?, Func.value?, Array.getElem?_eq_getElem (h v hv)] at hnone
  cases hnone

theorem failsOnly_prepare {P : Fault → Prop} (hP : ∀ r, r.defensive = false → P (.malformed r))
    {c : Context} {input output : Handle} (hmax : c.inputs < maxNode) :
    FailsOnly P (prepare c input output s) := by
  have hwords : 1 + c.inputs < 1 <<< 64 := by
    rw [Nat.add_comm]
    exact succ_lt_words (Nat.le_of_lt hmax)
  refine FailsOnly.bind ?_ fun _ _ => (failsOnly_reserve hP).bind fun _ _ => failsOnly_ok
  refine (failsOnly_bindContiguous hP (fun _ => rfl) hwords).bind fun _ _ => ?_
  exact (failsOnly_registerScattered hP fun _ => rfl).bind fun _ _ => failsOnly_ok

theorem settles_prepare {c : Context} {input output : Handle} (hmax : c.inputs < maxNode) :
    Settles (prepare c input output s) :=
  failsOnly_prepare (P := fun e => ∃ r, e = .malformed r) (fun r _ => ⟨r, rfl⟩) hmax

theorem outside_eq_error {α : Type} {x : Except Fault α} {stop : Stop} (hx : Settles x)
    (h : outside x = .error stop) : ∃ r, stop = .refused r := by
  cases x with
  | ok a => cases h
  | error e =>
    cases h
    obtain ⟨r, rfl⟩ := hx e rfl
    exact ⟨.malformed 0 r, rfl⟩

end

end Lowering

open Lowering

namespace Func

variable {f : Func} {c : Context}

/-- Instruction number `index` stores to slot `k`, and no memory holds that many. -/
def StoresPast (f : Func) (c : Context) (index k : Nat) : Prop :=
  ∃ s i, f.before c index = .ok s ∧ f.instructions[index]? = some i ∧ Lowering.StoresPast f s i k

/-- The first pass comes to a call in the form of an atomic one, and its argument buffer
`v` is not in the arena. -/
def RegistersForeign (f : Func) (c : Context) (v : Handle) : Prop :=
  (∃ buffers, bufferArguments f = .ok buffers) ∧ c.inputs < maxNode ∧
    ∃ index i s, f.instructions[index]? = some i ∧
      pass (discover f c.inputs) 0 (start c) (f.instructions.toList.take index) = .ok s ∧
      i.argumentBuffer? = some v ∧ f.type? v = none

/-- The run comes to an instruction that takes the type of `v` for granted, and `v` is not in
the arena. -/
def TrustsForeign (f : Func) (c : Context) (v : Handle) : Prop :=
  f.RegistersForeign c v ∨
    ∃ index i s, f.before c index = .ok s ∧ f.instructions[index]? = some i ∧
      Trusts f s i v ∧ f.type? v = none

theorem discover_eq_error {s : Lowering} {stop : Stop}
    (hp : pass (discover f c.inputs) 0 s f.instructions.toList = .error stop) :
    (∃ r, stop = .refused r) ∨ ∃ v, stop = .foreign v ∧
      ∃ index i t, f.instructions[index]? = some i ∧
        pass (discover f c.inputs) 0 s (f.instructions.toList.take index) = .ok t ∧
        i.argumentBuffer? = some v ∧ f.type? v = none := by
  obtain ⟨k, i, t, e, hi, ht, he, rfl⟩ := pass_eq_error hp
  rw [Array.getElem?_toList] at hi
  rcases settlesUnless_discover e he with ⟨r, rfl⟩ | ⟨v, rfl, hbuffer, hnone⟩
  · exact .inl ⟨_, rfl⟩
  · exact .inr ⟨v, rfl, k, i, t, hi, ht, hbuffer, hnone⟩

theorem prepared_eq_error (hargs : ∀ v ∈ f.args, v < f.values.size) {stop : Stop}
    (hp : f.prepared c = .error stop) :
    (∃ r, stop = .refused r) ∨ ∃ v, stop = .foreign v ∧ f.RegistersForeign c v := by
  unfold prepared at hp
  rcases bind_eq_error hp with hp | ⟨buffers, hbuffers, hp⟩
  · exact .inl (outside_eq_error (settles_bufferArguments hargs) hp)
  by_cases hmax : maxNode ≤ c.inputs
  · simp only [hmax, if_true] at hp
    exact .inl (outside_eq_error (fun _ h => ⟨_, (Except.error.inj h).symm⟩) hp)
  · simp only [hmax, if_false] at hp
    rcases bind_eq_error hp with hp | ⟨s, _, hp⟩
    · rcases discover_eq_error hp with hr | ⟨v, rfl, hcall⟩
      · exact .inl hr
      · exact .inr ⟨v, rfl, ⟨buffers, outside_eq_ok.mp hbuffers⟩, Nat.not_le.mp hmax, hcall⟩
    rcases bind_eq_error hp with hp | ⟨t, _, hp⟩
    · exact .inl (outside_eq_error (settles_prepare (Nat.not_le.mp hmax)) hp)
    · cases hp

theorem prepared_of_registersForeign {v : Handle} (h : f.RegistersForeign c v) :
    f.prepared c = .error (.foreign v) := by
  obtain ⟨⟨buffers, hbuffers⟩, hmax, index, i, s, hi, hs, hbuffer, hnone⟩ := h
  rw [← Array.getElem?_toList] at hi
  have hpass := pass_eq_error_of_step hi hs (discover_of_argumentBuffer hbuffer hnone)
  unfold prepared
  rw [outside_eq_ok.mpr hbuffers]
  simp only [bind, Except.bind, Nat.not_le.mpr hmax, if_false, hpass]
  rfl

theorem finish_eq_error {output : Handle} {last : Nat} {s : Lowering} {stop : Stop}
    (h : finish output last s = .error stop) : ∃ r, stop = .refused r := by
  unfold finish at h
  split at h
  · cases h
    exact ⟨_, rfl⟩
  · split at h
    · cases h
      exact ⟨_, rfl⟩
    · cases h

/-- A lowering that does not succeed is refused, or it needs a type that is not there, or it
stores past all memory. -/
theorem lower_stops (hargs : ∀ v ∈ f.args, v < f.values.size) {stop : Stop}
    (hl : f.lower c = .error stop) :
    (∃ r, stop = .refused r) ∨ (∃ v, stop = .foreign v ∧ f.TrustsForeign c v) ∨
      ∃ index k, stop = .unaddressable k ∧ f.StoresPast c index k := by
  rcases Func.lower_eq_error hl with hp | ⟨index, i, s, e, hs, hi, he, rfl⟩ | ⟨s, output, hfinish⟩
  · rcases prepared_eq_error hargs hp with hr | ⟨v, rfl, hv⟩
    · exact .inl hr
    · exact .inr (.inl ⟨v, rfl, .inl hv⟩)
  · rcases settlesUnless_instruction e he with ⟨r, rfl⟩ | hstopped
    · exact .inl ⟨_, rfl⟩
    cases hstopped with
    | unsupported _ | unresolved _ => exact .inl ⟨_, rfl⟩
    | foreign htrusts hnone => exact .inr (.inl ⟨_, rfl, .inr ⟨index, i, s, hs, hi, htrusts, hnone⟩⟩)
    | unaddressable hpast => exact .inr (.inr ⟨index, _, rfl, s, i, hs, hi, hpast⟩)
  · exact .inl (finish_eq_error hfinish)

theorem lower_of_trustsForeign {v : Handle} (h : f.TrustsForeign c v) :
    f.lower c = .error (.foreign v) := by
  rcases h with h | ⟨index, i, s, hs, hi, htrusts, hnone⟩
  · rw [lower_eq, prepared_of_registersForeign h]
    rfl
  · exact lower_eq_error_of_step hs hi (instruction_of_trusts htrusts hnone)

theorem lower_of_storesPast {index k : Nat} (h : f.StoresPast c index k) :
    f.lower c = .error (.unaddressable k) := by
  obtain ⟨s, i, hs, hi, hpast⟩ := h
  exact lower_eq_error_of_step hs hi (instruction_of_storesPast hpast)

theorem Scoped.args_lt (h : f.Scoped) : ∀ v ∈ f.args, v < f.values.size := by
  intro v hv
  obtain ⟨i, hi⟩ := List.mem_iff_getElem?.mp hv
  exact lt_of_kind? (h.args hi).2

theorem Scoped.type_ne_none (h : f.Scoped) {index : Nat} {i : Instruction}
    (hi : f.instructions[index]? = some i) {v : Handle} (hv : v ∈ i.operands) :
    f.type? v ≠ none := by
  obtain ⟨k, hk, _⟩ := h.operands hi hv
  rw [type?, value?, Array.getElem?_eq_getElem (lt_of_kind? hk)]
  exact Option.some_ne_none _

/-- With all operands in the arena, a lowering that does not succeed is refused, or it stores
past all memory. -/
theorem Scoped.lower_eq_error (h : f.Scoped) {stop : Stop} (hl : f.lower c = .error stop) :
    (∃ r, stop = .refused r) ∨ ∃ index k, stop = .unaddressable k ∧ f.StoresPast c index k := by
  rcases lower_stops h.args_lt hl with hr | ⟨v, _, hv⟩ | hpast
  · exact .inl hr
  · rcases hv with ⟨_, _, _, i, _, hi, _, hbuffer, hnone⟩ | ⟨_, i, _, _, hi, htrusts, hnone⟩
    · exact absurd hnone (h.type_ne_none hi (mem_operands_of_argumentBuffer hbuffer))
    · exact absurd hnone (h.type_ne_none hi htrusts.mem)
  · exact .inr hpast

end Func

/-- Every function that is read has an arena in order, and lowering it never looks for a
value that is not there: it gives a graph or a refusal exactly when no store goes past
all memory. -/
theorem Program.lower_settles_iff {text : String} {p : Program} {f : Func}
    (h : Program.read text = .ok p) (hf : f ∈ p.functions) :
    f.Arena ∧ ∀ c : Context, (∀ v, f.lower c ≠ .error (.foreign v)) ∧
      (((∃ g, f.lower c = .ok g) ∨ ∃ r, f.lower c = .error (.refused r)) ↔
        ¬ ∃ index k, f.StoresPast c index k) := by
  have harena := Program.arena_of_read h f hf
  refine ⟨harena, fun c => ⟨fun v hv => ?_, ?_, fun hpast => ?_⟩⟩
  · rcases harena.toScoped.lower_eq_error hv with ⟨r, hr⟩ | ⟨_, _, hr, _⟩
    · cases hr
    · cases hr
  · rintro hl ⟨index, k, hpast⟩
    have hstop := Func.lower_of_storesPast hpast
    rcases hl with ⟨g, hg⟩ | ⟨r, hr⟩
    · rw [hstop] at hg
      cases hg
    · rw [hstop] at hr
      cases hr
  · cases hl : f.lower c with
    | ok g => exact .inl ⟨g, rfl⟩
    | error stop =>
      rcases harena.toScoped.lower_eq_error hl with ⟨r, rfl⟩ | ⟨index, k, _, hk⟩
      · exact .inr ⟨r, rfl⟩
      · exact absurd ⟨index, k, hk⟩ hpast

/-- A jump forward, and behind it a function of the first input. -/
def Program.jumpThenCall : String :=
  "define i32 @f(i64 %0, ptr %in, i64 %2, ptr %out, i64 %4, ptr %msg) \x7b
    %x = load double, ptr %in
    br label %end
  end:
    %y = call double @sin(double %x)
    store double %y, ptr %out
    ret i32 0
  \x7d"

theorem Program.lower_settles_jumpThenCall :
    ∃ p f, read jumpThenCall = .ok p ∧ f ∈ p.functions ∧ f.Arena ∧
      (∃ g, f.lower ⟨"f", 0, 1, 1⟩ = .ok g ∧ g.tags = #[.sin] ∧ g.dependents = #[2]) ∧
      ¬ ∃ index k, f.StoresPast ⟨"f", 0, 1, 1⟩ index k := by
  have hread : (match read jumpThenCall with
      | .ok p => p.functions.any fun f => match f.lower ⟨"f", 0, 1, 1⟩ with
        | .ok g => decide (g.tags = #[.sin] ∧ g.dependents = #[2])
        | .error _ => false
      | .error _ => false) = true := by
    decide +kernel
  split at hread
  next p hp =>
    obtain ⟨f, hf, hlower⟩ := List.any_eq_true.mp hread
    split at hlower
    next g hg =>
      obtain ⟨harena, houtcome⟩ := lower_settles_iff hp hf
      exact ⟨p, f, hp, hf, harena, ⟨g, hg, of_decide_eq_true hlower⟩,
        (houtcome ⟨"f", 0, 1, 1⟩).2.mp (.inl ⟨g, hg⟩)⟩
    · cases hlower
  · cases hread

/-- A store to the first slot that no memory holds. -/
def Program.farStore : String :=
  "define i32 @f(i64 %0, ptr %in, i64 %2, ptr %out, i64 %4, ptr %msg) \x7b
    %p = getelementptr double, ptr %out, i64 576460752303423487
    store double 1.0, ptr %p
    ret i32 0
  \x7d"

/-- With the longest output the slot is there, and the lowering neither succeeds nor is
refused. -/
theorem Program.lower_farStore_unaddressable :
    ∃ p f, read farStore = .ok p ∧ f ∈ p.functions ∧
      f.lower ⟨"f", 0, 1, 1 <<< 64 - 1⟩ = .error (.unaddressable (1 <<< 59 - 1)) := by
  have hread : (match read farStore with
      | .ok p => p.functions.any fun f => match f.lower ⟨"f", 0, 1, 1 <<< 64 - 1⟩ with
        | .error (.unaddressable k) => decide (k = 1 <<< 59 - 1)
        | _ => false
      | .error _ => false) = true := by
    decide +kernel
  split at hread
  next p hp =>
    obtain ⟨f, hf, hlower⟩ := List.any_eq_true.mp hread
    split at hlower
    next k hk =>
      obtain rfl := of_decide_eq_true hlower
      exact ⟨p, f, hp, hf, hk⟩
    · cases hlower
  · cases hread

end SsaGraph

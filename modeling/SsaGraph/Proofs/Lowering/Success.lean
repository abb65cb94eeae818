import Mathlib.Data.List.Forall2
import SsaGraph.Lowering
import SsaGraph.Proofs.Lowering.Buffer

/-!
What a successful step of a lowering did.  `Lowered f s i t` lists the ways in
which instruction `i` takes state `s` to state `t`, with everything the step looked
at, and `lowered_of_instruction` says that there are no others.  Statements about
lowerings go through this relation and do not open the functions again.
-/

namespace SsaGraph

namespace Lowering

/-- Outcomes can be compared. -/
instance decEqOutcome {ε α : Type} [DecidableEq ε] [DecidableEq α] : DecidableEq (Except ε α)
  | .ok a, .ok b => decidable_of_iff (a = b) (by rw [Except.ok.injEq])
  | .error e, .error d => decidable_of_iff (e = d) (by rw [Except.error.injEq])
  | .ok _, .error _ => isFalse nofun
  | .error _, .ok _ => isFalse nofun

/-- Whether there is a result, and it is as asked. -/
def okAnd {ε α : Type} (p : α → Bool) : Except ε α → Bool
  | .ok a => p a
  | .error _ => false

theorem okAnd_eq_true {ε α : Type} {p : α → Bool} {x : Except ε α} :
    okAnd p x = true ↔ ∃ a, x = .ok a ∧ p a = true := by
  cases x with
  | error e => exact ⟨fun h => (nomatch h), fun ⟨_, h, _⟩ => (nomatch h)⟩
  | ok a => exact ⟨fun h => ⟨a, rfl, h⟩, fun ⟨_, h, hp⟩ => Except.ok.inj h ▸ hp⟩

theorem map_eq_error {ε α β : Type} {k : α → β} {x : Except ε α} {e : ε} :
    x.map k = .error e ↔ x = .error e := by
  cases x with
  | error d =>
    constructor
    · intro h
      cases h
      rfl
    · intro h
      cases h
      rfl
  | ok a => exact ⟨fun h => (nomatch h), fun h => (nomatch h)⟩

/-! ## Sequences of steps -/

theorem bind_eq_ok {ε α β : Type} {x : Except ε α} {k : α → Except ε β} {b : β} :
    x >>= k = .ok b ↔ ∃ a, x = .ok a ∧ k a = .ok b := by
  cases x with
  | error e => exact ⟨fun h => (nomatch h), fun ⟨_, h, _⟩ => (nomatch h)⟩
  | ok a => exact ⟨fun h => ⟨a, rfl, h⟩, fun ⟨_, h, hk⟩ => Except.ok.inj h ▸ hk⟩

theorem forM_eq_ok {ε α : Type} {p : α → Except ε Unit} {as : List α} :
    as.forM p = .ok () ↔ ∀ a ∈ as, p a = .ok () := by
  induction as with
  | nil => exact ⟨fun _ _ h => (nomatch h), fun _ => rfl⟩
  | cons a rest ih =>
    show (p a >>= fun _ => rest.forM p) = .ok () ↔ _
    rw [bind_eq_ok, List.forall_mem_cons, ← ih]
    exact ⟨fun ⟨_, h⟩ => h, fun h => ⟨(), h⟩⟩

theorem mapM_eq_ok {ε α β : Type} {k : α → Except ε β} {as : List α} {bs : List β} :
    as.mapM k = .ok bs ↔ List.Forall₂ (fun a b => k a = .ok b) as bs := by
  induction as generalizing bs with
  | nil => exact ⟨fun h => Except.ok.inj h ▸ .nil, fun h => by cases h; rfl⟩
  | cons a rest ih =>
    rw [List.mapM_cons, bind_eq_ok]
    constructor
    · rintro ⟨b, hb, h⟩
      obtain ⟨later, hlater, h⟩ := bind_eq_ok.mp h
      cases h
      exact .cons hb (ih.mp hlater)
    · intro h
      cases h with
      | cons hb hlater => exact ⟨_, hb, bind_eq_ok.mpr ⟨_, ih.mpr hlater, rfl⟩⟩

/-- What every step of a fold keeps, the fold keeps. -/
theorem foldlM_keeps {ε σ α : Type} {step : σ → α → Except ε σ} {P : σ → Prop} {as : List α}
    {s t : σ} (hstep : ∀ s a t, P s → step s a = .ok t → P t) (hs : P s)
    (h : as.foldlM step s = .ok t) : P t := by
  induction as generalizing s with
  | nil => exact Except.ok.inj h ▸ hs
  | cons a rest ih =>
    rw [List.foldlM_cons] at h
    obtain ⟨r, hr, h⟩ := bind_eq_ok.mp h
    exact ih (hstep s a r hs hr) h

/-! ## What each look at a value says -/

@[simp] theorem malformed_ne_ok {α : Type} {r : Reason} {a : α} :
    (malformed r : Except Fault α) ≠ .ok a := nofun

@[simp] theorem wrongCount_ne_ok {α : Type} {i : Instruction} {n : Nat} {a : α} :
    (wrongCount i n : Except Fault α) ≠ .ok a := nofun

theorem orFault_eq_ok {α : Type} {reason : BufferFault → Reason} {x : Except BufferFault α}
    {a : α} : orFault reason x = .ok a ↔ x = .ok a := by
  unfold orFault
  split <;> simp

theorem typeOf_eq_ok {f : Func} {v : Handle} {type : Ty} :
    typeOf f v = .ok type ↔ f.type? v = some type := by
  unfold typeOf
  cases f.type? v <;> simp

theorem expectType_eq_ok {f : Func} {v : Handle} {wanted : Ty → Bool} {what : String} :
    expectType f v wanted what = .ok () ↔ ∃ type, f.type? v = some type ∧ wanted type = true := by
  unfold expectType
  cases f.type? v with
  | none => simp
  | some type => cases wanted type <;> simp

theorem isDouble_iff {type : Ty} : type.isDouble = true ↔ type = .double := by
  cases type <;> simp [Ty.isDouble]

theorem isPtr_iff {type : Ty} : type.isPtr = true ↔ type = .ptr := by
  cases type <;> simp [Ty.isPtr]

theorem expectDouble_eq_ok {f : Func} {v : Handle} :
    expectDouble f v = .ok () ↔ f.type? v = some .double := by
  rw [expectDouble, expectType_eq_ok]
  exact ⟨fun ⟨_, h, hd⟩ => isDouble_iff.mp hd ▸ h, fun h => ⟨.double, h, rfl⟩⟩

theorem expectPointer_eq_ok {f : Func} {v : Handle} :
    expectPointer f v = .ok () ↔ f.type? v = some .ptr := by
  rw [expectPointer, expectType_eq_ok]
  exact ⟨fun ⟨_, h, hp⟩ => isPtr_iff.mp hp ▸ h, fun h => ⟨.ptr, h, rfl⟩⟩

theorem count_eq_ok {f : Func} {v : Handle} {n : Nat} :
    count f v = .ok n ↔ ∃ w, f.int? v = some w ∧ w.toNat = n := by
  unfold count
  cases f.int? v <;> simp

theorem resultOf_eq_ok {i : Instruction} {v : Handle} :
    resultOf i = .ok v ↔ i.result = some v := by
  unfold resultOf
  cases i.result <;> simp

theorem node_eq_ok {f : Func} {s : Lowering} {v : Handle} {n : NodeId} :
    node f s v = .ok n ↔ s.bindings.values.get? v = some n := by
  unfold node
  cases s.bindings.values.get? v <;> simp

theorem reserve_eq_ok {s t : Lowering} {n first : Nat} :
    s.reserve n = .ok (t, first) ↔
      s.last + n ≤ maxNode ∧ t = { s with last := s.last + n } ∧ first = s.last + 1 := by
  unfold reserve
  by_cases h : s.last + n ≤ maxNode
  · simp only [h, if_true, Except.ok.injEq, Prod.mk.injEq, true_and]
    exact ⟨fun ⟨h₁, h₂⟩ => ⟨h₁.symm, h₂.symm⟩, fun ⟨h₁, h₂⟩ => ⟨h₁.symm, h₂.symm⟩⟩
  · simp [h]

/-- The values have the nodes, in order. -/
def HasNodes (s : Lowering) (vs : List Handle) (ns : List NodeId) : Prop :=
  List.Forall₂ (fun v n => s.bindings.values.get? v = some n) vs ns

/-- Append an operator whose one result is the next node, and bind a value to
it. -/
def produce (s : Lowering) (v : Handle) (op : Op) (args : List Nat) : Lowering :=
  { s with
    graph := s.graph.pushOperator op args
    bindings := s.bindings.bindValue v (s.last + 1)
    last := s.last + 1 }

theorem emitResult_eq_ok {s t : Lowering} {i : Instruction} {op : Op} {args : List Nat} :
    s.emitResult i op args = .ok t ↔
      ∃ v, i.result = some v ∧ s.last + 1 ≤ maxNode ∧ t = s.produce v op args := by
  unfold emitResult
  rw [bind_eq_ok]
  constructor
  · rintro ⟨v, hv, h⟩
    obtain ⟨⟨t', n⟩, hr, h⟩ := bind_eq_ok.mp h
    obtain ⟨hmax, rfl, rfl⟩ := reserve_eq_ok.mp hr
    cases h
    exact ⟨v, resultOf_eq_ok.mp hv, hmax, rfl⟩
  · rintro ⟨v, hv, hmax, rfl⟩
    exact ⟨v, resultOf_eq_ok.mpr hv, bind_eq_ok.mpr ⟨_, reserve_eq_ok.mpr ⟨hmax, rfl, rfl⟩, rfl⟩⟩

/-! ## What an instruction can do -/

/-- The operator of an arithmetic instruction with two operands. -/
def binaryOp? : Opcode → Option Op
  | .fadd => some .add
  | .fsub => some .sub
  | .fmul => some .mul
  | .fdiv => some .div
  | _ => none

/-- Instruction `i` can be lowered in state `s`, and `t` is the state behind it. -/
inductive Lowered (f : Func) (s : Lowering) (i : Instruction) : Lowering → Prop where
  | alloca (hop : i.opcode = .alloca) : Lowered f s i s
  | load {p v : Handle} {n : NodeId} (hop : i.opcode = .load) (hargs : i.operands = [p])
      (hp : f.type? p = some .ptr) (hn : s.bindings.pointers.get? p = some n)
      (hv : i.result = some v) :
      Lowered f s i { s with bindings := s.bindings.bindValue v n }
  | element {base v : Handle} {offset slots : Nat} {written : Array (Option NodeId)}
      (hop : i.opcode = .getelementptr) (hparts : addressParts f i = .ok (base, offset))
      (hp : f.type? base = some .ptr) (hv : i.result = some v)
      (hl : s.bindings.layouts.get? base = some (.scattered slots written)) :
      Lowered f s i (s.recordElement v ⟨base, offset⟩)
  | pointer {base v : Handle} {offset first length : Nat}
      (hop : i.opcode = .getelementptr) (hparts : addressParts f i = .ok (base, offset))
      (hp : f.type? base = some .ptr) (hv : i.result = some v)
      (hl : s.bindings.layouts.get? base = some (.contiguous first length))
      (hlt : offset < length) (hword : first + offset < 1 <<< 64) :
      Lowered f s i { s with bindings := s.bindings.bindPointer v (first + offset) }
  | message {stored p : Handle} (hop : i.opcode = .store) (hargs : i.operands = [stored, p])
      (hm : f.args[Convention.message]? = some p) : Lowered f s i s
  | store {stored p : Handle} {n : NodeId} {e : Element} {slots : Nat}
      {written : Array (Option NodeId)} (hop : i.opcode = .store)
      (hargs : i.operands = [stored, p]) (hm : f.args[Convention.message]? ≠ some p)
      (hd : f.type? stored = some .double) (hp : f.type? p = some .ptr)
      (hn : s.bindings.values.get? stored = some n) (he : s.elements.get? p = some e)
      (hl : s.bindings.layouts.get? e.base = some (.scattered slots written))
      (hlt : e.offset < slots) (hlimit : e.offset + 1 < Slots.limit) :
      Lowered f s i { s with bindings := s.bindings.withSlot e.base slots written e.offset n }
  | binary {op : Op} {left right v : Handle} {m n : NodeId} (hop : binaryOp? i.opcode = some op)
      (hargs : i.operands = [left, right])
      (hd : f.type? left = some .double ∧ f.type? right = some .double)
      (hn : s.HasNodes [left, right] [m, n]) (hv : i.result = some v)
      (hmax : s.last + 1 ≤ maxNode) : Lowered f s i (s.produce v op [m, n])
  | negate {operand v : Handle} {n : NodeId} (hop : i.opcode = .fneg)
      (hargs : i.operands = [operand]) (hd : f.type? operand = some .double)
      (hn : s.HasNodes [operand] [n]) (hv : i.result = some v) (hmax : s.last + 1 ≤ maxNode) :
      Lowered f s i (s.produce v .neg [n])
  | compare {left right v : Handle} {p : Predicate} (hop : i.opcode = .fcmp ∨ i.opcode = .icmp)
      (hargs : i.operands = [left, right])
      (hd : i.opcode = .fcmp → f.type? left = some .double ∧ f.type? right = some .double)
      (hpred : i.predicate = some p) (hv : i.result = some v) :
      Lowered f s i { s with comparisons := s.comparisons.insert v ⟨p, left, right⟩ }
  | extend {t : Lowering} (hop : i.opcode = .zext) (hseen : s.extended = false)
      (hlen : i.operands.length ≤ 2)
      (ht : i.operands.foldlM (recordOperand f) { s with extended := true } = .ok t) :
      Lowered f s i t
  | combine {t : Lowering} (hop : i.opcode = .or) (hlen : i.operands.length ≤ 2)
      (ht : i.operands.foldlM (recordOperand f) s = .ok t) : Lowered f s i t
  | selectCode {condition ifTrue ifFalse : Handle} {c : Comparison} {type : Ty}
      (hop : i.opcode = .select) (hargs : i.operands = [condition, ifTrue, ifFalse])
      (hc : s.comparisons.get? condition = some c) (ht : f.type? ifTrue = some type)
      (hd : type ≠ .double) : Lowered f s i s
  | select {condition ifTrue ifFalse v : Handle} {c : Comparison} {op : Op}
      {left right yes no : NodeId} (hop : i.opcode = .select)
      (hargs : i.operands = [condition, ifTrue, ifFalse])
      (hc : s.comparisons.get? condition = some c) (hsel : c.selecting? = some op)
      (hd : f.type? ifTrue = some .double ∧ f.type? ifFalse = some .double ∧
        f.type? c.left = some .double ∧ f.type? c.right = some .double)
      (hn : s.HasNodes [c.left, c.right, ifTrue, ifFalse] [left, right, yes, no])
      (hv : i.result = some v) (hmax : s.last + 1 ≤ maxNode) :
      Lowered f s i (s.produce v op [left, right, yes, no])
  | math {callee v : Handle} {name : String} {op : Op} {args : List Handle} {ns : List NodeId}
      (hop : i.opcode = .call) (hargs : i.operands = args ++ [callee])
      (hlen : args.length = 1 ∨ args.length = 2) (hname : f.symbol? callee = some name)
      (hd : ∀ a ∈ args, f.type? a = some .double)
      (hmath : reservedRest? discreteStart name = none) (hcallee : Op.ofCallee? name = some op)
      (hn : s.HasNodes args ns) (hv : i.result = some v) (hmax : s.last + 1 ≤ maxNode) :
      Lowered f s i (s.produce v op ns)
  | discrete {callee arg v : Handle} {name rest : String} {n : NodeId} (hop : i.opcode = .call)
      (hargs : i.operands = [arg, callee]) (hname : f.symbol? callee = some name)
      (hd : f.type? arg = some .double) (hrest : reservedRest? discreteStart name = some rest)
      (hn : s.HasNodes [arg] [n]) (hv : i.result = some v) (hmax : s.last + 1 ≤ maxNode) :
      Lowered f s i ({ s with graph := (s.graph.internDiscrete rest).1 }.produce v .discrete
        [(s.graph.internDiscrete rest).2, n])
  | atomic {counted arguments countedResults results length message callee : Handle}
      {name rest : String} {argumentCount resultCount : Nat} {written : Array (Option NodeId)}
      {nodes : List NodeId} (hop : i.opcode = .call)
      (hargs : i.operands =
        [counted, arguments, countedResults, results, length, message, callee])
      (hname : f.symbol? callee = some name) (hrest : reservedRest? atomicStart name = some rest)
      (hcount : count f counted = .ok argumentCount)
      (hresults : count f countedResults = .ok resultCount)
      (hl : s.bindings.layouts.get? arguments = some (.scattered argumentCount written))
      (hnodes : Slots.filled argumentCount written = .ok nodes)
      (hfree : ∀ slots written, s.bindings.layouts.get? results ≠ some (.scattered slots written))
      (hmax : s.last + resultCount ≤ maxNode) :
      Lowered f s i
        { s with
          graph := (s.graph.internAtomic rest).1.pushOperator .atom
            ((s.graph.internAtomic rest).2 :: resultCount :: argumentCount :: nodes)
          bindings := s.bindings.consecutive results (s.last + 1) resultCount
          last := s.last + resultCount }
  | branch (hop : i.opcode = .br) : Lowered f s i s
  | ret (hop : i.opcode = .ret) : Lowered f s i s

section
variable {f : Func} {s t : Lowering} {i : Instruction}

theorem lowered_of_load (hop : i.opcode = .load) (h : load f s i = .ok t) : Lowered f s i t := by
  unfold load at h
  split at h
  next p hargs =>
    obtain ⟨_, hp, h⟩ := bind_eq_ok.mp h
    split at h
    · exact absurd h malformed_ne_ok
    next n hn =>
      obtain ⟨v, hv, h⟩ := bind_eq_ok.mp h
      cases h
      exact .load hop hargs (expectPointer_eq_ok.mp hp) hn (resultOf_eq_ok.mp hv)
  · exact absurd h wrongCount_ne_ok

theorem lowered_of_address (hop : i.opcode = .getelementptr) (h : address f s i = .ok t) :
    Lowered f s i t := by
  unfold address at h
  obtain ⟨⟨base, offset⟩, hparts, h⟩ := bind_eq_ok.mp h
  obtain ⟨_, hp, h⟩ := bind_eq_ok.mp h
  obtain ⟨v, hv, h⟩ := bind_eq_ok.mp h
  rw [expectPointer_eq_ok] at hp
  rw [resultOf_eq_ok] at hv
  split at h
  · exact absurd h malformed_ne_ok
  next slots written hl =>
    cases h
    exact .element hop hparts hp hv hl
  next first length hl =>
    split at h
    · exact absurd h malformed_ne_ok
    next hlt =>
      split at h
      · exact absurd h malformed_ne_ok
      next hword =>
        cases h
        exact .pointer hop hparts hp hv hl (Nat.not_le.mp hlt) (Nat.not_le.mp hword)

theorem lowered_of_store (hop : i.opcode = .store) (h : store f s i = .ok t) :
    Lowered f s i t := by
  unfold store at h
  split at h
  next stored p hargs =>
    split at h
    next hm =>
      cases h
      exact .message hop hargs hm
    next hm =>
      obtain ⟨_, hd, h⟩ := bind_eq_ok.mp h
      obtain ⟨_, hp, h⟩ := bind_eq_ok.mp h
      obtain ⟨n, hn, h⟩ := bind_eq_ok.mp h
      split at h
      · exact absurd h malformed_ne_ok
      next e he =>
        obtain ⟨b, hb, h⟩ := bind_eq_ok.mp h
        cases h
        obtain ⟨slots, written, hl, hlt, hlimit, rfl⟩ :=
          Bindings.store_eq_ok.mp (orFault_eq_ok.mp hb)
        exact .store hop hargs hm (expectDouble_eq_ok.mp hd) (expectPointer_eq_ok.mp hp)
          (node_eq_ok.mp hn) he hl hlt hlimit
  · exact absurd h wrongCount_ne_ok

theorem lowered_of_binary {op : Op} (hop : binaryOp? i.opcode = some op)
    (h : binary f s i op = .ok t) : Lowered f s i t := by
  unfold binary at h
  split at h
  next left right hargs =>
    obtain ⟨_, hl, h⟩ := bind_eq_ok.mp h
    obtain ⟨_, hr, h⟩ := bind_eq_ok.mp h
    obtain ⟨m, hm, h⟩ := bind_eq_ok.mp h
    obtain ⟨n, hn, h⟩ := bind_eq_ok.mp h
    obtain ⟨v, hv, hmax, rfl⟩ := emitResult_eq_ok.mp h
    exact .binary hop hargs ⟨expectDouble_eq_ok.mp hl, expectDouble_eq_ok.mp hr⟩
      (.cons (node_eq_ok.mp hm) (.cons (node_eq_ok.mp hn) .nil)) hv hmax
  · exact absurd h wrongCount_ne_ok

theorem lowered_of_negate (hop : i.opcode = .fneg) (h : negate f s i = .ok t) :
    Lowered f s i t := by
  unfold negate at h
  split at h
  next operand hargs =>
    obtain ⟨_, hd, h⟩ := bind_eq_ok.mp h
    obtain ⟨n, hn, h⟩ := bind_eq_ok.mp h
    obtain ⟨v, hv, hmax, rfl⟩ := emitResult_eq_ok.mp h
    exact .negate hop hargs (expectDouble_eq_ok.mp hd) (.cons (node_eq_ok.mp hn) .nil) hv hmax
  · exact absurd h wrongCount_ne_ok

theorem lowered_of_compare (hop : i.opcode = .fcmp ∨ i.opcode = .icmp)
    (h : compare f s i = .ok t) : Lowered f s i t := by
  unfold compare at h
  split at h
  next left right hargs =>
    obtain ⟨_, hl, h⟩ := bind_eq_ok.mp h
    obtain ⟨_, hr, h⟩ := bind_eq_ok.mp h
    have hd : i.opcode = .fcmp → f.type? left = some .double ∧ f.type? right = some .double := by
      intro hf
      rw [if_pos hf] at hl hr
      exact ⟨expectDouble_eq_ok.mp hl, expectDouble_eq_ok.mp hr⟩
    split at h
    · exact absurd h malformed_ne_ok
    next p hpred =>
      obtain ⟨v, hv, h⟩ := bind_eq_ok.mp h
      cases h
      exact .compare hop hargs hd hpred (resultOf_eq_ok.mp hv)
  · exact absurd h wrongCount_ne_ok

theorem combine_eq_ok :
    combine f s i = .ok t ↔
      i.operands.length ≤ 2 ∧ i.operands.foldlM (recordOperand f) s = .ok t := by
  unfold combine
  by_cases h : 2 < i.operands.length
  · rw [if_pos h]
    exact ⟨fun e => absurd e malformed_ne_ok, fun e => absurd h (Nat.not_lt.mpr e.1)⟩
  · rw [if_neg h]
    exact ⟨fun e => ⟨Nat.not_lt.mp h, e⟩, fun e => e.2⟩

theorem recordOperand_cases {v : Handle} (h : recordOperand f s v = .ok t) :
    (s.comparisons.get? v = none ∧ t = s) ∨
    ∃ c op left right, s.comparisons.get? v = some c ∧ c.recording? = some op ∧
      s.HasNodes [c.right, c.left] [right, left] ∧ t = s.emit op [right, left] := by
  unfold recordOperand at h
  split at h
  next hc =>
    cases h
    exact .inl ⟨hc, rfl⟩
  next c hc =>
    split at h
    · exact absurd h malformed_ne_ok
    next op hop =>
      obtain ⟨right, hright, h⟩ := bind_eq_ok.mp h
      obtain ⟨left, hleft, h⟩ := bind_eq_ok.mp h
      cases h
      exact .inr ⟨c, op, left, right, hc, hop,
        .cons (node_eq_ok.mp hright) (.cons (node_eq_ok.mp hleft) .nil), rfl⟩

/-- Recording comparisons changes nothing but the graph. -/
theorem recordOperands_frame {vs : List Handle} (h : vs.foldlM (recordOperand f) s = .ok t) :
    t = { s with graph := t.graph } := by
  refine foldlM_keeps (P := fun r => r = { s with graph := r.graph }) ?_ rfl h
  intro r v r' hr h
  rcases recordOperand_cases h with ⟨_, rfl⟩ | ⟨_, _, _, _, _, _, _, rfl⟩
  · exact hr
  · rw [hr]
    rfl

theorem lowered_of_extend (hop : i.opcode = .zext) (h : extend f s i = .ok t) :
    Lowered f s i t := by
  unfold extend at h
  split at h
  · exact absurd h malformed_ne_ok
  next hseen =>
    obtain ⟨hlen, ht⟩ := combine_eq_ok.mp h
    exact .extend hop (Bool.eq_false_iff.mpr hseen) hlen ht

theorem lowered_of_select (hop : i.opcode = .select) (h : select f s i = .ok t) :
    Lowered f s i t := by
  unfold select at h
  split at h
  next condition ifTrue ifFalse hargs =>
    split at h
    · exact absurd h malformed_ne_ok
    next c hc =>
      obtain ⟨type, ht, h⟩ := bind_eq_ok.mp h
      rw [typeOf_eq_ok] at ht
      split at h
      next hd =>
        cases h
        refine .selectCode hop hargs hc ht ?_
        rintro rfl
        cases hd
      next hd =>
        have hdouble : type = .double := isDouble_iff.mp (by simpa using hd)
        subst hdouble
        obtain ⟨_, hno, h⟩ := bind_eq_ok.mp h
        obtain ⟨_, hl, h⟩ := bind_eq_ok.mp h
        obtain ⟨_, hr, h⟩ := bind_eq_ok.mp h
        split at h
        · exact absurd h malformed_ne_ok
        next op hsel =>
          obtain ⟨left, hleft, h⟩ := bind_eq_ok.mp h
          obtain ⟨right, hright, h⟩ := bind_eq_ok.mp h
          obtain ⟨yes, hyes, h⟩ := bind_eq_ok.mp h
          obtain ⟨no, hnode, h⟩ := bind_eq_ok.mp h
          obtain ⟨v, hv, hmax, rfl⟩ := emitResult_eq_ok.mp h
          exact .select hop hargs hc hsel
            ⟨ht, expectDouble_eq_ok.mp hno, expectDouble_eq_ok.mp hl, expectDouble_eq_ok.mp hr⟩
            (.cons (node_eq_ok.mp hleft) (.cons (node_eq_ok.mp hright)
              (.cons (node_eq_ok.mp hyes) (.cons (node_eq_ok.mp hnode) .nil)))) hv hmax
  · exact absurd h wrongCount_ne_ok

theorem lowered_of_callMath {callee : Handle} {name : String} {args : List Handle}
    (hop : i.opcode = .call) (hargs : i.operands = args ++ [callee])
    (hlen : args.length = 1 ∨ args.length = 2) (hname : f.symbol? callee = some name)
    (h : callMath f s i name args = .ok t) : Lowered f s i t := by
  unfold callMath at h
  obtain ⟨_, hd, h⟩ := bind_eq_ok.mp h
  have hd : ∀ a ∈ args, f.type? a = some .double :=
    fun a ha => expectDouble_eq_ok.mp (forM_eq_ok.mp hd a ha)
  split at h
  next rest hrest =>
    split at h
    · obtain ⟨n, hn, h⟩ := bind_eq_ok.mp h
      obtain ⟨v, hv, hmax, rfl⟩ := emitResult_eq_ok.mp h
      exact .discrete hop hargs hname (hd _ (List.mem_singleton_self _)) hrest
        (.cons (node_eq_ok.mp hn) .nil) hv hmax
    · exact absurd h malformed_ne_ok
  next hmath =>
    split at h
    · cases h
    next op hcallee =>
      obtain ⟨ns, hns, h⟩ := bind_eq_ok.mp h
      obtain ⟨v, hv, hmax, rfl⟩ := emitResult_eq_ok.mp h
      have hn : s.HasNodes args ns := (mapM_eq_ok.mp hns).imp fun _ _ => node_eq_ok.mp
      exact .math hop hargs hlen hname hd hmath hcallee hn hv hmax

theorem lowered_of_callAtomic {counted arguments countedResults results length message callee : Handle}
    {name : String} (hop : i.opcode = .call)
    (hargs : i.operands = [counted, arguments, countedResults, results, length, message, callee])
    (hname : f.symbol? callee = some name)
    (h : callAtomic f s name [counted, arguments, countedResults, results, length, message]
      counted arguments countedResults results = .ok t) : Lowered f s i t := by
  unfold callAtomic at h
  split at h
  · cases h
  next rest hrest =>
    obtain ⟨_, _, h⟩ := bind_eq_ok.mp h
    obtain ⟨argumentCount, hcount, h⟩ := bind_eq_ok.mp h
    obtain ⟨resultCount, hresults, h⟩ := bind_eq_ok.mp h
    split at h
    · exact absurd h malformed_ne_ok
    next slots written hl =>
      rw [Bindings.scattered?_eq_some] at hl
      by_cases hslots : slots = argumentCount
      · subst hslots
        rw [if_neg (not_not_intro rfl)] at h
        split at h
        · exact absurd h malformed_ne_ok
        next nodes hnodes =>
          obtain ⟨⟨s', first⟩, hr, h⟩ := bind_eq_ok.mp h
          obtain ⟨hmax, rfl, rfl⟩ := reserve_eq_ok.mp hr
          obtain ⟨b, hb, h⟩ := bind_eq_ok.mp h
          cases h
          obtain ⟨hfree, _, rfl⟩ := Bindings.bindContiguous_eq_ok.mp (orFault_eq_ok.mp hb)
          exact .atomic hop hargs hname hrest hcount hresults hl hnodes hfree hmax
      · rw [if_pos hslots] at h
        obtain ⟨_, h, _⟩ := bind_eq_ok.mp h
        exact absurd h malformed_ne_ok

theorem operands_of_callee {callee : Handle} (hop : i.opcode = .call)
    (h : i.callee? = some callee) : i.operands = i.callArguments ++ [callee] := by
  rw [Instruction.callee?, if_pos hop] at h
  rw [Instruction.callArguments, if_pos hop]
  exact (List.dropLast_append_getLast? callee h).symm

theorem callee_of_operands {args : List Handle} {callee : Handle} (hop : i.opcode = .call)
    (h : i.operands = args ++ [callee]) : i.callee? = some callee ∧ i.callArguments = args := by
  rw [Instruction.callee?, Instruction.callArguments, if_pos hop, if_pos hop, h]
  exact ⟨List.getLast?_concat, List.dropLast_concat⟩

theorem lowered_of_call (hop : i.opcode = .call) (h : call f s i = .ok t) : Lowered f s i t := by
  unfold call at h
  split at h
  · exact absurd h malformed_ne_ok
  next callee hcallee =>
    have hargs := operands_of_callee hop hcallee
    split at h
    · exact absurd h malformed_ne_ok
    next name hname =>
      split at h
      next a ha => exact lowered_of_callMath hop (ha ▸ hargs) (.inl rfl) hname h
      next a b ha => exact lowered_of_callMath hop (ha ▸ hargs) (.inr rfl) hname h
      next a b c d e g ha =>
        rw [ha] at hargs
        exact lowered_of_callAtomic hop hargs hname h
      · exact absurd h malformed_ne_ok

theorem branch_eq_ok (h : branch f s i = .ok t) : t = s := by
  unfold branch at h
  split at h
  · obtain ⟨type, _, h⟩ := bind_eq_ok.mp h
    split at h
    · cases h; rfl
    · exact absurd h malformed_ne_ok
  · obtain ⟨condition, _, h⟩ := bind_eq_ok.mp h
    split at h
    · obtain ⟨_, h, _⟩ := bind_eq_ok.mp h
      exact absurd h malformed_ne_ok
    · obtain ⟨target, _, h⟩ := bind_eq_ok.mp h
      split at h
      · obtain ⟨_, h, _⟩ := bind_eq_ok.mp h
        exact absurd h malformed_ne_ok
      · obtain ⟨other, _, h⟩ := bind_eq_ok.mp h
        split at h
        · cases h; rfl
        · exact absurd h malformed_ne_ok
  · exact absurd h malformed_ne_ok

theorem ret_eq_ok (h : ret f s i = .ok t) : t = s := by
  unfold ret at h
  split at h
  · obtain ⟨type, _, h⟩ := bind_eq_ok.mp h
    split at h
    · cases h; rfl
    · exact absurd h malformed_ne_ok
  · exact absurd h malformed_ne_ok

/-- An instruction that is lowered did one of the things listed. -/
theorem lowered_of_instruction (h : instruction f s i = .ok t) : Lowered f s i t := by
  unfold instruction at h
  split at h
  next hop => cases h; exact .alloca hop
  next hop => exact lowered_of_load hop h
  next hop => exact lowered_of_address hop h
  next hop => exact lowered_of_store hop h
  next hop => exact lowered_of_binary (by rw [hop]; rfl) h
  next hop => exact lowered_of_binary (by rw [hop]; rfl) h
  next hop => exact lowered_of_binary (by rw [hop]; rfl) h
  next hop => exact lowered_of_binary (by rw [hop]; rfl) h
  next hop => exact lowered_of_negate hop h
  next hop => exact lowered_of_compare (.inl hop) h
  next hop => exact lowered_of_compare (.inr hop) h
  next hop => exact lowered_of_extend hop h
  next hop =>
    obtain ⟨hlen, ht⟩ := combine_eq_ok.mp h
    exact .combine hop hlen ht
  next hop => exact lowered_of_select hop h
  next hop => exact lowered_of_call hop h
  next hop => exact branch_eq_ok h ▸ .branch hop
  next hop => exact ret_eq_ok h ▸ .ret hop
  · cases h

end

end Lowering
end SsaGraph

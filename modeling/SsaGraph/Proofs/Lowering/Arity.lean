import SsaGraph.Proofs.Lowering.NodeOrder

/-!
How many nodes an operator takes.

A tag says how many nodes its operator takes, and a consumer of a graph reads that many.
Arithmetic, selections and recorded comparisons are given as many by their own form, and
discrete and atomic functions are checked.  A call of a named operator takes the operator
from the name and the nodes from its operands, and nothing compares the two.  So the
operators that have another number of nodes are exactly those of the calls that pass
another number of arguments (`misfits_before`).
-/

namespace SsaGraph

/-- Number of nodes that an operator takes, for tags that fix one. -/
def Op.arity? : Op → Option Nat
  | atom | atom4 | print | sum => none
  | add | sub | mul | div | pow | azmul | compEq | compLe | compLt | compNe => some 2
  | cexpEq | cexpLe | cexpLt => some 4
  | _ => some 1

namespace Operator

/-- Number of nodes that an operator takes.  An atomic function says so itself. -/
def arity? (o : Operator) : Option Nat :=
  match o.op with
  | .atom => o.args[2]?
  | op => op.arity?

/-- An operator that does not have as many nodes as it takes, with the number it has. -/
def misfit? (o : Operator) : Option (Op × Nat) :=
  if o.arity? = some o.nodes.length then none else some (o.op, o.nodes.length)

theorem misfit?_eq_none_iff {o : Operator} :
    o.misfit? = none ↔ o.arity? = some o.nodes.length := by
  unfold misfit?
  split
  next h => exact ⟨fun _ => h, fun _ => rfl⟩
  next h => exact ⟨fun e => (nomatch e), fun e => absurd e h⟩

end Operator

/-- A call of a named operator with another number of arguments than it takes. -/
def Func.miscall? (f : Func) (i : Instruction) : Option (Op × Nat) := do
  let name ← i.callee?.bind f.symbol?
  let op ← Op.ofCallee? name
  if op.arity? = some i.callArguments.length then none else some (op, i.callArguments.length)

namespace Op

/-- A tag with only nodes for arguments, and a fixed number of them. -/
def Plain (op : Op) (n : Nat) : Prop := op.headSize = 0 ∧ op ≠ .atom ∧ op.arity? = some n

theorem plain_of_binaryOp? {opcode : Opcode} {op : Op}
    (h : Lowering.binaryOp? opcode = some op) : op.Plain 2 := by
  unfold Lowering.binaryOp? at h
  split at h <;> cases h <;> exact ⟨rfl, nofun, rfl⟩

theorem plain_of_selecting? {c : Comparison} {op : Op} (h : c.selecting? = some op) :
    op.Plain 4 := by
  unfold Comparison.selecting? at h
  split at h <;> cases h <;> exact ⟨rfl, nofun, rfl⟩

theorem plain_of_recording? {c : Comparison} {op : Op} (h : c.recording? = some op) :
    op.Plain 2 := by
  unfold Comparison.recording? at h
  split at h <;> cases h <;> exact ⟨rfl, nofun, rfl⟩

/-- A named operator takes one or two nodes. -/
theorem plain_of_ofCallee? {name : String} {op : Op} (h : ofCallee? name = some op) :
    ∃ n, op.Plain n := by
  have hcallee := callee?_of_ofCallee? h
  cases op <;> first | exact ⟨_, rfl, nofun, rfl⟩ | cases hcallee

/-- No named operator has a reserved name. -/
theorem reservedRest?_of_ofCallee? {name : String} {op : Op} (h : ofCallee? name = some op) :
    reservedRest? discreteStart name = none ∧ reservedRest? atomicStart name = none := by
  have hcallee := callee?_of_ofCallee? h
  cases op <;> cases hcallee <;> decide

end Op

theorem Operator.misfit?_of_plain {op : Op} {n : Nat} (h : op.Plain n) (args : List Nat) :
    misfit? ⟨op, args⟩ = if some n = some args.length then none else some (op, args.length) := by
  obtain ⟨hhead, hatom, harity⟩ := h
  have hnodes : nodes ⟨op, args⟩ = args := by
    rw [nodes, hhead, List.drop_zero]
  have harity' : arity? ⟨op, args⟩ = some n := by
    rw [← harity]
    cases op <;> first | rfl | exact absurd rfl hatom
  rw [misfit?, hnodes, harity']

namespace Lowering

/-- The operators of a graph that do not have as many nodes as they take. -/
def misfits (s : Lowering) : List (Op × Nat) := s.graph.operators.filterMap Operator.misfit?

section
variable {f : Func} {s t : Lowering} {i : Instruction}

theorem misfits_pushOperator {g : Graph} (hflat : g.Flat) (op : Op) (args : List Nat) :
    (g.pushOperator op args).operators.filterMap Operator.misfit? =
      g.operators.filterMap Operator.misfit? ++ (Operator.misfit? ⟨op, args⟩).toList := by
  rw [Graph.operators_pushOperator hflat, List.filterMap_append]
  cases h : Operator.misfit? ⟨op, args⟩ <;> simp [h]

theorem misfits_produce (hflat : s.graph.Flat) (v : Handle) (op : Op) (args : List Nat) :
    (s.produce v op args).misfits = s.misfits ++ (Operator.misfit? ⟨op, args⟩).toList :=
  misfits_pushOperator hflat op args

theorem misfits_recordOperands {vs : List Handle} (hflat : s.graph.Flat)
    (h : vs.foldlM (recordOperand f) s = .ok t) : t.misfits = s.misfits := by
  refine (foldlM_keeps (P := fun r => r.graph.Flat ∧ r.misfits = s.misfits) ?_ ⟨hflat, rfl⟩ h).2
  rintro r v r' ⟨hr, hmisfits⟩ hstep
  rcases recordOperand_cases hstep with ⟨_, rfl⟩ | ⟨c, op, left, right, _, hop, _, rfl⟩
  · exact ⟨hr, hmisfits⟩
  · refine ⟨Graph.flat_pushOperator hr _ _, ?_⟩
    have hfit := Operator.misfit?_of_plain (Op.plain_of_recording? hop) [right, left]
    rw [misfits, emit, misfits_pushOperator hr, hfit]
    exact (List.append_nil _).trans hmisfits

theorem miscall?_of_opcode (h : i.opcode ≠ .call) : f.miscall? i = none := by
  rw [Func.miscall?, Instruction.callee?, if_neg h]
  rfl

theorem miscall?_of_call {callee : Handle} {name : String} {args : List Handle}
    (hop : i.opcode = .call) (hargs : i.operands = args ++ [callee])
    (hname : f.symbol? callee = some name) :
    f.miscall? i = (Op.ofCallee? name).bind fun op =>
      if op.arity? = some args.length then none else some (op, args.length) := by
  have hcallee : i.callee? = some callee := by
    rw [Instruction.callee?, if_pos hop, hargs, List.getLast?_concat]
  have harguments : i.callArguments = args := by
    rw [Instruction.callArguments, if_pos hop, hargs, List.dropLast_concat]
  rw [Func.miscall?, hcallee, harguments, Option.bind_some, hname]
  rfl

/-- A call of a reserved name is no call of a named operator. -/
theorem miscall?_of_reserved {callee : Handle} {name rest : String} (args : List Handle)
    (hop : i.opcode = .call) (hargs : i.operands = args ++ [callee])
    (hname : f.symbol? callee = some name)
    (hrest : reservedRest? discreteStart name = some rest ∨
      reservedRest? atomicStart name = some rest) : f.miscall? i = none := by
  rw [miscall?_of_call hop hargs hname]
  cases hcallee : Op.ofCallee? name with
  | none => rfl
  | some op =>
    obtain ⟨hdiscrete, hatomic⟩ := Op.reservedRest?_of_ofCallee? hcallee
    rw [hdiscrete, hatomic] at hrest
    rcases hrest with hrest | hrest <;> cases hrest

/-- A lowered instruction adds an operator that does not fit exactly when it is a call with
another number of arguments than its operator takes. -/
theorem misfits_of_lowered (hflat : s.graph.Flat) (h : Lowered f s i t) :
    t.misfits = s.misfits ++ (f.miscall? i).toList := by
  have hother : i.opcode ≠ .call → s.misfits ++ (f.miscall? i).toList = s.misfits := by
    intro hop
    rw [miscall?_of_opcode hop]
    exact List.append_nil _
  cases h with
  | alloca hop | load hop | element hop | pointer hop | message hop | store hop
  | selectCode hop | branch hop | ret hop => exact (hother (by simp [hop])).symm
  | compare hop => exact (hother (by rcases hop with hop | hop <;> simp [hop])).symm
  | extend hop _ _ ht =>
    rw [hother (by simp [hop]), misfits_recordOperands (by exact hflat) ht]
    rfl
  | combine hop _ ht => rw [hother (by simp [hop]), misfits_recordOperands hflat ht]
  | binary hop =>
    have hcall : i.opcode ≠ .call := by
      intro e
      rw [e] at hop
      cases hop
    rw [misfits_produce hflat, Operator.misfit?_of_plain (Op.plain_of_binaryOp? hop), hother hcall]
    exact List.append_nil _
  | negate hop =>
    rw [misfits_produce hflat, hother (by simp [hop])]
    exact List.append_nil _
  | select hop _ _ hsel =>
    rw [misfits_produce hflat, Operator.misfit?_of_plain (Op.plain_of_selecting? hsel),
      hother (by simp [hop])]
    exact List.append_nil _
  | math hop hargs _ hname _ _ hcallee hn =>
    obtain ⟨n, hplain⟩ := Op.plain_of_ofCallee? hcallee
    have hlen := List.Forall₂.length_eq hn
    rw [misfits_produce hflat, Operator.misfit?_of_plain hplain, miscall?_of_call hop hargs hname,
      hcallee, Option.bind_some, hplain.2.2, hlen]
  | @discrete callee arg _ _ rest _ hop hargs hname _ hrest =>
    have hgrown := Graph.grown_internDiscrete hflat rest
    rw [miscall?_of_reserved [arg] hop hargs hname (.inl hrest),
      misfits_produce hgrown.flat, misfits, Graph.internDiscrete_eq]
    rfl
  | @atomic counted arguments countedResults results length message _ _ rest n resultCount _ nodes hop
      hargs hname hrest _ _ _ hnodes =>
    have hgrown := Graph.grown_internAtomic hflat rest
    have hfit : Operator.misfit? ⟨.atom, (s.graph.internAtomic rest).2 :: resultCount :: n :: nodes⟩ =
        none :=
      Operator.misfit?_eq_none_iff.mpr (congrArg some (Slots.filled_eq_ok_iff.mp hnodes).1.symm)
    rw [miscall?_of_reserved [counted, arguments, countedResults, results, length, message] hop
      hargs hname (.inr hrest), misfits, misfits_pushOperator hgrown.flat, hfit,
      Graph.internAtomic_eq]
    rfl

end

end Lowering

namespace Func

open Lowering

variable {f : Func} {c : Context}

/-- In front of an instruction, the operators that do not fit are those of the calls so
far. -/
theorem misfits_before {r : Lowering} {output : Handle} (hp : f.prepared c = .ok (r, output))
    {index : Nat} {s : Lowering} (hle : index ≤ f.instructions.size)
    (h : f.before c index = .ok s) :
    s.misfits = (f.instructions.toList.take index).filterMap f.miscall? := by
  refine (before_keeps (P := fun k s => InOrder c output s ∧
    s.misfits = (f.instructions.toList.take k).filterMap f.miscall?) ?_ ?_ hle h).2
  · intro s out hs
    rw [hp] at hs
    cases hs
    obtain ⟨input, hready⟩ := ready_of_prepared hp
    refine ⟨inOrder_of_ready hready, ?_⟩
    rw [misfits, hready.graph]
    rfl
  · rintro k i s t hi ⟨hs, hmisfits⟩ ht
    refine ⟨hs.lowered ht, ?_⟩
    rw [← Array.getElem?_toList] at hi
    rw [misfits_of_lowered hs.ordered.flat ht, hmisfits, List.take_add_one, hi,
      List.filterMap_append]
    cases hcall : f.miscall? i <;> simp [hcall]

/-- The operators of a graph that do not have as many nodes as their tags say are, in
order, those of the calls that pass another number of arguments than the named operator
takes.  So every operator has its number of nodes exactly when no call does that. -/
theorem lower_arity_iff {g : Graph} (h : f.lower c = .ok g) :
    g.operators.filterMap Operator.misfit? = f.instructions.toList.filterMap f.miscall? ∧
      ((∀ o ∈ g.operators, o.arity? = some o.nodes.length) ↔
        ∀ i ∈ f.instructions.toList, f.miscall? i = none) := by
  obtain ⟨r, output, s, hp, hs, hg⟩ := lower_eq_ok.mp h
  have hmisfits := misfits_before hp (Nat.le_refl _) hs
  rw [← Array.length_toList, List.take_length] at hmisfits
  obtain ⟨_, _, _, _, rfl⟩ := (inOrder_before hp (Nat.le_refl _) hs).finish_eq_ok hg
  refine ⟨hmisfits, ?_⟩
  show (∀ o ∈ s.graph.operators, _) ↔ _
  rw [← List.filterMap_eq_nil_iff, ← hmisfits, misfits, List.filterMap_eq_nil_iff]
  exact forall₂_congr fun o _ => Operator.misfit?_eq_none_iff.symm

/-- Calls of one and of two arguments, each with as many as its operator takes. -/
def sineOfPower : Func :=
  (ofSteps? "f" [.load 1, .call "pow" [6, 6] .double, .call "sin" [8] .double,
    .call "discrete_floor" [10] .double, .compareFloat .olt 10 12, .extend 13 32, .store 12 3,
    .ret 14]).getD default

theorem lower_arity_sineOfPower :
    ∃ g, sineOfPower.lower ⟨"f", 0, 1, 1⟩ = .ok g ∧ g.tags = #[.pow, .sin, .discrete, .compLe] ∧
      ∀ o ∈ g.operators, o.arity? = some o.nodes.length := by
  have h : sineOfPower.lower ⟨"f", 0, 1, 1⟩ = .ok
      { name := "f", dynamics := 0, independents := 1, constants := #[],
        tags := #[.pow, .sin, .discrete, .compLe], starts := #[0, 2, 3, 5],
        args := #[1, 1, 2, 0, 3, 4, 3], atomicNames := #[], discreteNames := #["floor"],
        dependents := #[4] } := by
    decide +kernel
  exact ⟨_, h, rfl, (lower_arity_iff h).2.mpr (by decide +kernel)⟩

/-- A call of an operator that takes one number, with two. -/
def sineOfTwo : Func :=
  (ofSteps? "f" [.load 1, .call "sin" [6, 6] .double, .store 8 3, .retOk]).getD default

/-- It is lowered, to an operator with two nodes. -/
theorem lower_sineOfTwo_misfit :
    ∃ g, sineOfTwo.lower ⟨"f", 0, 1, 1⟩ = .ok g ∧ g.operators = [⟨.sin, [1, 1]⟩] ∧
      ¬ ∀ o ∈ g.operators, o.arity? = some o.nodes.length := by
  have h : sineOfTwo.lower ⟨"f", 0, 1, 1⟩ = .ok
      { name := "f", dynamics := 0, independents := 1, constants := #[], tags := #[.sin],
        starts := #[0], args := #[1, 1], atomicNames := #[], discreteNames := #[],
        dependents := #[2] } := by
    decide +kernel
  exact ⟨_, h, by decide, by decide⟩

end Func
end SsaGraph

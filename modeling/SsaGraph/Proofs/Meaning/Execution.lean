import SsaGraph.Proofs.Func.Arena
import SsaGraph.Proofs.Lowering.Success
import SsaGraph.Proofs.Meaning.Evaluation

/-!
What a function computes.

`Func.execute?` runs the instructions in the order of the text.  Branches and returns
have no effect, so every instruction runs once, and each buffer can be named by the
value that first points to it: an argument, or the result of an `alloca`.  Memory has
a number, or nothing yet, at each offset of each buffer.  The input holds the inputs at
the start, stores to the message are dropped, and an atomic function reads numbers from
one buffer and writes numbers to another.  Integers are not followed: they decide
nothing but return codes.

A run that loads what was never stored, or that uses a number or a pointer where there
is none, is stuck and has no result.
-/

namespace SsaGraph

/-- What a value is during a run. -/
inductive Datum (α : Type) where
  | number (a : α)
  | truth (b : Bool)
  | pointer (e : Element)

/-- The data of the values so far, and the numbers in each buffer. -/
structure Machine (α : Type) where
  env : Handle → Option (Datum α)
  memory : Handle → Nat → Option α

variable {α : Type}

namespace Machine

def number? (m : Machine α) (v : Handle) : Option α :=
  match m.env v with
  | some (.number a) => some a
  | _ => none

def truth? (m : Machine α) (v : Handle) : Option Bool :=
  match m.env v with
  | some (.truth b) => some b
  | _ => none

def pointer? (m : Machine α) (v : Handle) : Option Element :=
  match m.env v with
  | some (.pointer e) => some e
  | _ => none

theorem number?_of_env {m : Machine α} {v : Handle} {a : α} (h : m.env v = some (.number a)) :
    m.number? v = some a := by
  rw [number?, h]

theorem truth?_of_env {m : Machine α} {v : Handle} {b : Bool} (h : m.env v = some (.truth b)) :
    m.truth? v = some b := by
  rw [truth?, h]

theorem pointer?_of_env {m : Machine α} {v : Handle} {e : Element}
    (h : m.env v = some (.pointer e)) : m.pointer? v = some e := by
  rw [pointer?, h]

/-- Give the result of an instruction, if it has one, a datum. -/
def define (m : Machine α) (result : Option Handle) (d : Option (Datum α)) : Machine α :=
  { m with env := fun v => if result = some v then d else m.env v }

def write (m : Machine α) (e : Element) (a : α) : Machine α :=
  { m with memory := fun b k => if b = e.base ∧ k = e.offset then some a else m.memory b k }

/-- Write `n` numbers from an element on. -/
def fill (m : Machine α) (e : Element) (n : Nat) (values : Nat → α) : Machine α :=
  { m with memory := fun b k =>
      if b = e.base ∧ e.offset ≤ k ∧ k < e.offset + n then some (values (k - e.offset))
      else m.memory b k }

/-- The `n` numbers from an element on. -/
def read? (m : Machine α) (e : Element) (n : Nat) : Option (List α) :=
  (List.range n).mapM fun k => m.memory e.base (e.offset + k)

end Machine

/-- Base and offset of an address.  An index into an array has a zero in front of
it. -/
def Func.elementOf? (f : Func) (operands : List Handle) : Option (Handle × Nat) :=
  match operands with
  | [base, index] => (f.int? index).map fun n => (base, n.toNat)
  | [base, first, index] =>
    if f.int? first = some 0 then (f.int? index).map fun n => (base, n.toNat) else none
  | _ => none

/-! ## Names of operations -/

/-- The operator of an arithmetic instruction. -/
def Opcode.operator? : Opcode → Option Op
  | .fadd => some .add
  | .fsub => some .sub
  | .fmul => some .mul
  | .fdiv => some .div
  | .fneg => some .neg
  | _ => none

/-- The operator that the function of the given name computes. -/
def Op.ofFunction? (name : String) : Option Op :=
  match name with
  | "acos" => some .acos
  | "acosh" => some .acosh
  | "asin" => some .asin
  | "asinh" => some .asinh
  | "atan" => some .atan
  | "atanh" => some .atanh
  | "cos" => some .cos
  | "cosh" => some .cosh
  | "erf" => some .erf
  | "erfc" => some .erfc
  | "exp" => some .exp
  | "expm1" => some .expm1
  | "log" => some .log
  | "log1p" => some .log1p
  | "pow" => some .pow
  | "sin" => some .sin
  | "sinh" => some .sinh
  | "sqrt" => some .sqrt
  | "tan" => some .tan
  | "tanh" => some .tanh
  | "cppad_link_azmul" => some .azmul
  | "cppad_link_fabs" => some .abs
  | "cppad_link_sign" => some .sign
  | _ => none

/-- What stands behind `discrete_` in the name of a discrete function. -/
def discreteName? (name : String) : Option String :=
  match name.toList with
  | 'd' :: 'i' :: 's' :: 'c' :: 'r' :: 'e' :: 't' :: 'e' :: '_' :: c :: cs => some (.ofList (c :: cs))
  | _ => none

/-- What stands behind `atomic_` in the name of an atomic function. -/
def atomicName? (name : String) : Option String :=
  match name.toList with
  | 'a' :: 't' :: 'o' :: 'm' :: 'i' :: 'c' :: '_' :: c :: cs => some (.ofList (c :: cs))
  | _ => none

theorem Opcode.operator?_of_binaryOp? {opcode : Opcode} {op : Op}
    (h : Lowering.binaryOp? opcode = some op) : opcode.operator? = some op := by
  cases opcode <;> first | exact h | cases h

theorem Op.ofFunction?_of_callee? {op : Op} {name : String} (h : op.callee? = some name) :
    ofFunction? name = some op := by
  cases op <;> cases h <;> rfl

/-- A reserved name has something behind its start. -/
theorem exists_of_reservedRest? {start name rest : String} (h : reservedRest? start name = some rest) :
    ∃ c cs, name.toList = start.toList ++ c :: cs ∧ rest = .ofList (c :: cs) := by
  unfold reservedRest? at h
  split at h
  next hstart =>
    rw [Bool.and_eq_true, decide_eq_true_eq, List.isPrefixOf_iff_prefix] at hstart
    obtain ⟨⟨behind, hname⟩, hlength⟩ := hstart
    rw [← String.length_toList, ← String.length_toList, ← hname, List.length_append] at hlength
    obtain ⟨c, cs, rfl⟩ := List.exists_cons_of_length_pos (l := behind) (by omega)
    rw [← hname, ← String.length_toList, List.drop_left] at h
    exact ⟨c, cs, hname.symm, (Option.some.inj h).symm⟩
  · cases h

theorem discreteName?_of_reservedRest? {name rest : String}
    (h : reservedRest? discreteStart name = some rest) : discreteName? name = some rest := by
  obtain ⟨c, cs, hname, rfl⟩ := exists_of_reservedRest? h
  rw [discreteName?, hname]
  rfl

theorem atomicName?_of_reservedRest? {name rest : String}
    (h : reservedRest? atomicStart name = some rest) : atomicName? name = some rest := by
  obtain ⟨c, cs, hname, rfl⟩ := exists_of_reservedRest? h
  rw [atomicName?, hname]
  rfl

/-- No function that computes an operator is discrete. -/
theorem discreteName?_of_callee? {op : Op} {name : String} (h : op.callee? = some name) :
    discreteName? name = none := by
  cases op <;> cases h <;> decide

/-! ## Steps -/

namespace Machine

variable (I : Interpretation α) (f : Func)

/-- The truth of a comparison of two numbers. -/
def comparison? (m : Machine α) (i : Instruction) (left right : Handle) : Option (Datum α) :=
  match i.predicate, m.number? left, m.number? right with
  | some (.float p), some a, some b => some (.truth (I.holds p a b))
  | _, _, _ => none

def callMath? (m : Machine α) (i : Instruction) (name : String) (args : List Handle) :
    Option (Machine α) := do
  let xs ← args.mapM m.number?
  match discreteName? name, xs with
  | some discrete, [a] => some (m.define i.result (some (.number (I.discrete discrete a))))
  | some _, _ => none
  | none, xs =>
    let op ← Op.ofFunction? name
    some (m.define i.result (some (.number (I.operator op xs))))

def callAtomic? (m : Machine α) (i : Instruction) (name : String)
    (counted arguments countedResults results : Handle) : Option (Machine α) := do
  let atomic ← atomicName? name
  let argumentCount ← f.int? counted
  let resultCount ← f.int? countedResults
  let source ← m.pointer? arguments
  let target ← m.pointer? results
  let xs ← m.read? source argumentCount.toNat
  let n := resultCount.toNat
  some ((m.fill target n (I.atomic atomic n xs)).define i.result none)

/-- Run one instruction. -/
def step? (m : Machine α) (i : Instruction) : Option (Machine α) :=
  match i.opcode, i.operands with
  | .alloca, _ => some (m.define i.result (i.result.map fun v => .pointer ⟨v, 0⟩))
  | .load, [p] => do
    let e ← m.pointer? p
    let a ← m.memory e.base e.offset
    some (m.define i.result (some (.number a)))
  | .getelementptr, operands => do
    let (base, offset) ← f.elementOf? operands
    let e ← m.pointer? base
    some (m.define i.result (some (.pointer ⟨e.base, e.offset + offset⟩)))
  | .store, [stored, p] =>
    if f.args[Convention.message]? = some p then some m
    else do
      let a ← m.number? stored
      let e ← m.pointer? p
      some (m.write e a)
  | .fcmp, [left, right] | .icmp, [left, right] =>
    some (m.define i.result (m.comparison? I i left right))
  | .select, [condition, ifTrue, ifFalse] =>
    if f.type? ifTrue = some .double then do
      let b ← m.truth? condition
      let yes ← m.number? ifTrue
      let no ← m.number? ifFalse
      some (m.define i.result (some (.number (if b then yes else no))))
    else some (m.define i.result none)
  | .call, operands => do
    let name ← operands.getLast?.bind f.symbol?
    match operands.dropLast with
    | [counted, arguments, countedResults, results, _, _] =>
      m.callAtomic? I f i name counted arguments countedResults results
    | args => m.callMath? I i name args
  | .zext, _ | .or, _ | .br, _ | .ret, _ => some (m.define i.result none)
  | opcode, operands => do
    let op ← opcode.operator?
    let xs ← operands.mapM m.number?
    some (m.define i.result (some (.number (I.operator op xs))))

section
variable {I f} {m : Machine α} {i : Instruction}

theorem step?_of_operator? {op : Op} (hop : i.opcode.operator? = some op) :
    m.step? I f i = (i.operands.mapM m.number?).bind fun xs =>
      some (m.define i.result (some (.number (I.operator op xs)))) := by
  unfold step?
  cases hopcode : i.opcode with
  | fadd | fsub | fmul | fdiv | fneg =>
    rw [hopcode] at hop
    cases hop
    rfl
  | _ =>
    rw [hopcode] at hop
    cases hop

/-- A call of one or two numbers goes to the functions of numbers. -/
theorem step?_callMath {callee : Handle} {name : String} {args : List Handle}
    (hop : i.opcode = .call) (hargs : i.operands = args ++ [callee])
    (hlen : args.length = 1 ∨ args.length = 2) (hname : f.symbol? callee = some name) :
    m.step? I f i = m.callMath? I i name args := by
  have hlast : (args ++ [callee]).getLast?.bind f.symbol? = some name := by
    rw [List.getLast?_concat]
    exact hname
  have hinit : (args ++ [callee]).dropLast = args := List.dropLast_concat
  simp only [step?, hop, hargs, hlast, hinit, Option.bind_eq_bind, Option.bind_some]
  match args, hlen with
  | [a], _ => rfl
  | [a, b], _ => rfl

theorem env_define {v : Handle} (hv : i.result = some v) (d : Option (Datum α)) :
    (m.define i.result d).env v = d := if_pos hv

end

end Machine

namespace Func

variable (I : Interpretation α) (f : Func)

/-- Before the first instruction, literals are numbers and pointer arguments point to
buffers of their own, of which the input is filled. -/
def initial (inputs : Nat) (x : Nat → α) : Machine α where
  env v :=
    match f.kind? v with
    | some (.float b) => some (.number (I.constant b))
    | some (.argument _) => if f.type? v = some .ptr then some (.pointer ⟨v, 0⟩) else none
    | _ => none
  memory b k := if f.args[Convention.input]? = some b ∧ k < inputs then some (x k) else none

/-- Run all instructions on the inputs `x 0`, …, `x (inputs - 1)`. -/
def execute? (inputs : Nat) (x : Nat → α) : Option (Machine α) :=
  f.instructions.toList.foldlM (Machine.step? I f) (f.initial I inputs x)

end Func
end SsaGraph

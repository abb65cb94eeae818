import SsaGraph.Func.Builder

/-!
A function given by a list of building steps.  Operands are handles, and a step
may name any handle: only the steps that look at an operand's type, or at an
argument of the function, need it to be there.
-/

namespace SsaGraph
namespace Builder

inductive Step where
  | arg (position : Nat)
  | float (x : Binary64)
  | int (bits : Nat) (n : UInt64)
  | symbol (name : String)
  | label (name : String)
  | alloca
  | load (pointer : Handle)
  | store (value pointer : Handle)
  /-- The address of element `offset` of a buffer. -/
  | element (base : Handle) (offset : UInt64)
  | arithmetic (opcode : Opcode) (left right : Handle)
  | negate (operand : Handle)
  | compareFloat (p : FloatPredicate) (left right : Handle)
  | compareInt (p : IntPredicate) (left right : Handle)
  | extend (operand : Handle) (bits : Nat)
  | or (left right : Handle)
  | select (condition ifTrue ifFalse : Handle)
  | call (callee : String) (args : List Handle) (type : Ty)
  /-- A call of an external function on `count` arguments in a buffer, with
  `resultCount` results in another one. -/
  | callAtomic (callee : String) (count : UInt64) (args : Handle) (resultCount : UInt64)
      (results : Handle)
  | branch (condition : Handle) (ifTrue ifFalse : String)
  | jump (target : String)
  | ret (value : Handle)
  /-- Return the code for success, zero. -/
  | retOk
  | push (opcode : Opcode) (operands : List Handle) (type : Ty) (predicate : Option Predicate)
      (name : Option String)
  | setSpan (span : Span)

/-- Push an instruction that must have a result; `void` is not a type for it. -/
def pushValue? (b : Builder) (opcode : Opcode) (operands : List Handle) (type : Ty)
    (predicate : Option Predicate) : Option (Builder × Option Handle) :=
  match b.push opcode operands type predicate none with
  | (b, some v) => some (b, some v)
  | (_, none) => none

def returning (r : Builder × Handle) : Option (Builder × Option Handle) := some (r.1, some r.2)

/-- Perform a step.  The result is the handle the step answers, if any; there is
none at all when the step looks for something that the function lacks. -/
def perform (b : Builder) : Step → Option (Builder × Option Handle)
  | .arg position => (b.func.args[position]?).map fun v => (b, some v)
  | .float x => returning (b.float x)
  | .int bits n => returning (b.int bits n)
  | .symbol name => returning (b.symbol name)
  | .label name => returning (b.label name)
  | .alloca => b.pushValue? .alloca [] .ptr none
  | .load pointer => b.pushValue? .load [pointer] .double none
  | .store value pointer => some (b.push .store [value, pointer] .void none none)
  | .element base offset =>
    let (b, index) := b.int 64 offset
    b.pushValue? .getelementptr [base, index] .ptr none
  | .arithmetic opcode left right => b.pushValue? opcode [left, right] .double none
  | .negate operand => b.pushValue? .fneg [operand] .double none
  | .compareFloat p left right => b.pushValue? .fcmp [left, right] (.int 1) (some (.float p))
  | .compareInt p left right => b.pushValue? .icmp [left, right] (.int 1) (some (.int p))
  | .extend operand bits => b.pushValue? .zext [operand] (.int bits) none
  | .or left right => do b.pushValue? .or [left, right] (← b.func.type? left) none
  | .select condition ifTrue ifFalse => do
    b.pushValue? .select [condition, ifTrue, ifFalse] (← b.func.type? ifTrue) none
  | .call callee args type =>
    let (b, f) := b.symbol callee
    some (b.push .call (args ++ [f]) type none none)
  | .callAtomic callee count args resultCount results =>
    let (b, n) := b.int 64 count
    let (b, m) := b.int 64 resultCount
    let (b, noLength) := b.int 64 0
    (b.func.args[Convention.message]?).bind fun message =>
      let (b, f) := b.symbol callee
      b.pushValue? .call [n, args, m, results, noLength, message, f] (.int 32) none
  | .branch condition ifTrue ifFalse =>
    let (b, t) := b.label ifTrue
    let (b, e) := b.label ifFalse
    some (b.push .br [condition, t, e] .void none none)
  | .jump target =>
    let (b, t) := b.label target
    some (b.push .br [t] .void none none)
  | .ret value => some (b.push .ret [value] .void none none)
  | .retOk =>
    let (b, code) := b.int 32 0
    some (b.push .ret [code] .void none none)
  | .push opcode operands type predicate name => some (b.push opcode operands type predicate name)
  | .setSpan span => some ({ b with span := span }, none)

/-- Perform steps in order, with the answer of each.  The run stops before a
step that cannot be performed, and then there is no builder. -/
def run (b : Builder) : List Step → List (Option Handle) × Option Builder
  | [] => ([], some b)
  | s :: rest =>
    match b.perform s with
    | none => ([], none)
    | some (b', answer) =>
      let (answers, final) := run b' rest
      (answer :: answers, final)

end Builder
end SsaGraph

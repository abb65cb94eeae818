import SsaGraph.Lowering.Buffer

/-!
Why a function cannot be lowered.  Values appear in the causes as messages show
them.
-/

namespace SsaGraph

/-- What is wrong with an instruction, or with the function as a whole. -/
inductive Reason where
  | argumentCount (found : Nat)
  | notPointerArgument (buffer : String)
  | tooManyInputs (count : Nat)
  | tooManyNodes (count last : Nat)
  | buffer (cause : BufferFault)
  | inputBuffer (cause : BufferFault)
  | outputBuffer (cause : BufferFault)
  | resultBuffer (cause : BufferFault)
  | outputUnregistered
  | operandCount (opcode : Opcode) (wanted found : Nat)
  | unknownValue (handle : Handle)
  | wrongType (value : String) (type : Ty) (wanted : String)
  | noNode (value : String)
  | noResult (opcode : Opcode)
  | notCount (value : String)
  | loadThrough (pointer : String)
  | addressShape
  | unknownBase (base : String)
  | offsetBeyond (offset : Nat) (base : String) (length : Nat)
  | offsetPastWords (offset : Nat)
  | storeThrough (pointer : String)
  | noPredicate
  | secondExtension
  | combinedCount (opcode : Opcode) (count : Nat)
  | notRecordable (predicate : Predicate)
  | notComparison (condition : String)
  | notSelectable (predicate : Predicate)
  | noCallee
  | indirectCall (callee : String)
  | discreteCount (name : String)
  | callCount (callee : String) (count : Nat)
  | atomicArgument (value : String) (type wanted : Ty)
  | atomicUnregistered (buffer : String)
  | atomicSlots (slots passed : Nat)
  | atomicUnset (argument : Nat) (name : String)
  | branchShape
  | returnShape
  deriving DecidableEq, Repr

namespace Reason

def text : Reason → String
  | argumentCount found => s!"function takes {found} arguments, expected {Convention.arity}"
  | notPointerArgument which => s!"{which} buffer argument is not a pointer"
  | tooManyInputs count => s!"{count} independent variables exceed the node limit {maxNode}"
  | tooManyNodes count last =>
    s!"{count} more nodes after node {last} exceed the node limit {maxNode}"
  | buffer cause => cause.text
  | inputBuffer cause => s!"input buffer: {cause.text}"
  | outputBuffer cause => s!"output buffer: {cause.text}"
  | resultBuffer cause => s!"atomic result buffer: {cause.text}"
  | outputUnregistered => "output buffer is not registered"
  | operandCount opcode wanted found => s!"{opcode.name} expects {wanted} operands, found {found}"
  | unknownValue handle => s!"unknown value {handle}"
  | wrongType value type wanted => s!"{value} has type {type.text}, expected {wanted}"
  | noNode value => s!"{value} has no node"
  | noResult opcode => s!"{opcode.name} has no result value"
  | notCount value => s!"{value} is not a non-negative integer constant"
  | loadThrough pointer => s!"load through {pointer}, which is not an input or result element"
  | addressShape => "getelementptr expects a base pointer and one constant offset"
  | unknownBase base => s!"getelementptr base {base} is not a known buffer"
  | offsetBeyond offset base length =>
    s!"offset {offset} is out of bounds for {base} with {length} elements"
  | offsetPastWords offset => s!"offset {offset} overflows the node ids"
  | storeThrough pointer => s!"store through {pointer}, which is not an output or argument element"
  | noPredicate => "comparison without a predicate"
  | secondExtension => "more than one zext instruction"
  | combinedCount opcode count => s!"{opcode.name} with {count} operands"
  | notRecordable predicate => s!"predicate {predicate.name} cannot be combined into a comparison"
  | notComparison condition => s!"select condition {condition} is not a comparison"
  | notSelectable predicate => s!"predicate {predicate.name} cannot drive a conditional expression"
  | noCallee => "call without a callee"
  | indirectCall callee => s!"indirect call through {callee}"
  | discreteCount name => s!"discrete function {name} takes one argument"
  | callCount callee count => s!"call to {callee} with {count} arguments"
  | atomicArgument value type wanted =>
    s!"atomic call argument {value} has type {type.text}, expected {wanted.text}"
  | atomicUnregistered address => s!"atomic argument buffer {address} was not registered"
  | atomicSlots slots passed => s!"atomic argument buffer has {slots} slots, call passes {passed}"
  | atomicUnset argument name => s!"argument {argument} of atomic function {name} was never stored"
  | branchShape => "br expects (i1, label, label) or (label)"
  | returnShape => "ret expects one integer operand"

end Reason

/-- What stops the lowering of an instruction. -/
inductive Fault where
  | unsupported (opcode : String)
  | unresolved (callee : String)
  | malformed (reason : Reason)
  /-- The type of a handle that is not in the arena was needed. -/
  | foreign (handle : Handle)
  /-- A slot was written that no memory holds. -/
  | unaddressable (offset : Nat)
  deriving DecidableEq, Repr

/-- Why the lowering of a function is refused. -/
inductive Refusal where
  | unsupported (opcode : String)
  | unresolved (callee : String)
  | incomplete (output : Nat)
  | malformed (instruction : Nat) (reason : Reason)
  deriving DecidableEq, Repr

namespace Refusal

def message : Refusal → String
  | unsupported opcode => s!"Cannot handle the instruction {opcode}"
  | unresolved callee => s!"Cannot call the function {callee}"
  | incomplete output => s!"No store instruction for dependent variable index {output}"
  | malformed instruction reason => s!"malformed input at instruction {instruction}: {reason.text}"

/-- The instruction at fault, where the refusal knows it. -/
def instruction? : Refusal → Option Nat
  | malformed instruction _ => some instruction
  | _ => none

/-- The first instruction that fits the refusal. -/
def culprit? (r : Refusal) (f : Func) : Option Instruction :=
  match r with
  | unsupported opcode => f.instructions.find? fun i => i.opcode.name == opcode
  | unresolved callee => f.instructions.find? fun i => (i.callee?.bind f.symbol?) == some callee
  | _ => r.instruction?.bind fun i => f.instructions[i]?

end Refusal

/-- How a lowering ends without a graph.  A function that is read from a text
has all its operands in its arena; one that is built by hand may not. -/
inductive Stop where
  | refused (r : Refusal)
  | foreign (handle : Handle)
  | unaddressable (offset : Nat)
  deriving DecidableEq, Repr

/-- A fault of instruction number `index`. -/
def Fault.atInstruction (index : Nat) : Fault → Stop
  | .unsupported opcode => .refused (.unsupported opcode)
  | .unresolved callee => .refused (.unresolved callee)
  | .malformed reason => .refused (.malformed index reason)
  | .foreign handle => .foreign handle
  | .unaddressable offset => .unaddressable offset

end SsaGraph

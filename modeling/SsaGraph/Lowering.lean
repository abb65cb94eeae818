import SsaGraph.Lowering.Instruction

/-!
Lowering a function to a graph, in two passes over its instructions.  The first
pass makes the literals nodes and finds the argument buffers of atomic calls.
The second one emits operators in program order; each result gets the next node.
-/

namespace SsaGraph
namespace Lowering

/-- Take a step for each instruction, the first of which has number `index`. -/
def pass (step : Lowering → Instruction → Except Fault Lowering) :
    Nat → Lowering → List Instruction → Except Stop Lowering
  | _, s, [] => .ok s
  | index, s, i :: rest =>
    match step s i with
    | .ok t => pass step (index + 1) t rest
    | .error e => .error (e.atInstruction index)

/-! ## The first pass -/

/-- Make a literal a constant, unless it is one already. -/
def pool (f : Func) (inputs : Nat) (s : Lowering) (v : Handle) : Lowering :=
  match f.float? v with
  | none => s
  | some x =>
    if s.bindings.values.contains v then s
    else { s with
      graph := s.graph.pushConstant x
      bindings := s.bindings.bindValue v (1 + inputs + s.graph.constants.size) }

/-- Register the argument buffer of a call in the form of an atomic one.  What
else is wrong with the call is found when it is lowered. -/
def registerArguments (f : Func) (s : Lowering) (i : Instruction) : Except Fault Lowering := do
  match i.opcode, i.operands with
  | .call, [counted, base, _, _, _, _, _] =>
    if !(← typeOf f base).isPtr then return s
    match f.int? counted with
    | none => return s
    | some n =>
      let b ← orFault .buffer (s.bindings.registerScattered base n.toNat)
      return { s with bindings := b }.recordElement base ⟨base, 0⟩
  | _, _ => return s

def discover (f : Func) (inputs : Nat) (s : Lowering) (i : Instruction) : Except Fault Lowering :=
  registerArguments f (i.operands.foldl (pool f inputs) s) i

/-! ## Both passes -/

/-- The input and the output argument. -/
def bufferArguments (f : Func) : Except Fault (Handle × Handle) := do
  match f.args with
  | [_, input, _, output, _, _] =>
    if !(← typeOf f input).isPtr then malformed (.notPointerArgument "input")
    if !(← typeOf f output).isPtr then malformed (.notPointerArgument "output")
    return (input, output)
  | args => malformed (.argumentCount args.length)

/-- Bind the input to the first nodes and make the output a buffer to be
stored. -/
def bindBuffers (c : Context) (input output : Handle) (s : Lowering) : Except Fault Lowering := do
  let b ← orFault .inputBuffer (s.bindings.bindContiguous input 1 c.inputs)
  let b ← orFault .outputBuffer (b.registerScattered output c.dependents)
  return { s with bindings := b }.recordElement output ⟨output, 0⟩

/-- Between the passes: bind the buffers, and hand out the nodes of the inputs
and the constants. -/
def prepare (c : Context) (input output : Handle) (s : Lowering) : Except Fault Lowering := do
  let s ← bindBuffers c input output s
  let (s, _) ← { s with last := c.inputs }.reserve s.graph.constants.size
  return s

/-- The graph with what was stored in the output as its dependents. -/
def finish (output : Handle) (lastInstruction : Nat) (s : Lowering) : Except Stop Graph :=
  match s.bindings.scattered? output with
  | none => .error (.refused (.malformed lastInstruction .outputUnregistered))
  | some (length, written) =>
    match Slots.filled length written with
    | .error k => .error (.refused (.incomplete k))
    | .ok nodes => .ok (nodes.foldl Graph.pushDependent s.graph)

/-- A fault outside of the instructions counts for the first one. -/
def outside {α : Type} : Except Fault α → Except Stop α
  | .ok a => .ok a
  | .error e => .error (e.atInstruction 0)

end Lowering

open Lowering in
/-- Lower a function to a graph. -/
def Func.lower (f : Func) (c : Context) : Except Stop Graph := do
  let (input, output) ← outside (bufferArguments f)
  if maxNode ≤ c.inputs then outside (malformed (.tooManyInputs c.inputs))
  let instructions := f.instructions.toList
  let s ← pass (discover f c.inputs) 0 (start c) instructions
  let s ← outside (prepare c input output s)
  let s ← pass (instruction f) 0 s instructions
  finish output (instructions.length - 1) s

end SsaGraph

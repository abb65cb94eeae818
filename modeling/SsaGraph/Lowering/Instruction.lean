import SsaGraph.Lowering.State

/-!
Lowering of single instructions.  A comparison emits nothing where it stands: it
is remembered until the instruction that uses it.  An address into a buffer that
is written element by element is remembered until something is stored through
it.
-/

namespace SsaGraph
namespace Lowering

/-! ## Memory -/

def load (f : Func) (s : Lowering) (i : Instruction) : Except Fault Lowering := do
  match i.operands with
  | [pointer] =>
    expectPointer f pointer
    match s.bindings.pointers.get? pointer with
    | none => malformed (.loadThrough (f.display pointer))
    | some n => return { s with bindings := s.bindings.bindValue (← resultOf i) n }
  | _ => wrongCount i 1

/-- Base and constant offset of an address.  An index into an array has a zero
in front of it. -/
def addressParts (f : Func) (i : Instruction) : Except Fault (Handle × Nat) :=
  match i.operands with
  | [base, index] => return (base, ← count f index)
  | [base, first, index] =>
    if f.int? first = some 0 then return (base, ← count f index) else malformed .addressShape
  | _ => malformed .addressShape

def address (f : Func) (s : Lowering) (i : Instruction) : Except Fault Lowering := do
  let (base, offset) ← addressParts f i
  expectPointer f base
  let v ← resultOf i
  match s.bindings.layouts.get? base with
  | none => malformed (.unknownBase (f.display base))
  | some (.scattered _ _) => return s.recordElement v ⟨base, offset⟩
  | some (.contiguous first length) =>
    if length ≤ offset then malformed (.offsetBeyond offset (f.display base) length)
    else if 1 <<< 64 ≤ first + offset then malformed (.offsetPastWords offset)
    else return { s with bindings := s.bindings.bindPointer v (first + offset) }

/-- Stores of a message are dropped. -/
def store (f : Func) (s : Lowering) (i : Instruction) : Except Fault Lowering := do
  match i.operands with
  | [stored, pointer] =>
    if f.args[Convention.message]? = some pointer then return s
    expectDouble f stored
    expectPointer f pointer
    let n ← node f s stored
    match s.elements.get? pointer with
    | none => malformed (.storeThrough (f.display pointer))
    | some e => return { s with bindings := ← orFault .buffer (s.bindings.store e.base e.offset n) }
  | _ => wrongCount i 2

/-! ## Arithmetic -/

def binary (f : Func) (s : Lowering) (i : Instruction) (op : Op) : Except Fault Lowering := do
  match i.operands with
  | [left, right] =>
    expectDouble f left
    expectDouble f right
    s.emitResult i op [← node f s left, ← node f s right]
  | _ => wrongCount i 2

def negate (f : Func) (s : Lowering) (i : Instruction) : Except Fault Lowering := do
  match i.operands with
  | [operand] =>
    expectDouble f operand
    s.emitResult i .neg [← node f s operand]
  | _ => wrongCount i 1

/-! ## Comparisons -/

def compare (f : Func) (s : Lowering) (i : Instruction) : Except Fault Lowering := do
  match i.operands with
  | [left, right] =>
    let expectOperand := if i.opcode = .fcmp then expectDouble f else expectInt f
    expectOperand left
    expectOperand right
    match i.predicate with
    | none => malformed .noPredicate
    | some p =>
      return { s with comparisons := s.comparisons.insert (← resultOf i) ⟨p, left, right⟩ }
  | _ => wrongCount i 2

/-- Record the comparison behind an operand.  Other operands emit nothing. -/
def recordOperand (f : Func) (s : Lowering) (v : Handle) : Except Fault Lowering :=
  match s.comparisons.get? v with
  | none => return s
  | some c =>
    match c.recording? with
    | none => malformed (.notRecordable c.predicate)
    | some op => do
      let right ← node f s c.right
      let left ← node f s c.left
      return s.emit op [right, left]

/-- Combine comparisons into a return code. -/
def combine (f : Func) (s : Lowering) (i : Instruction) : Except Fault Lowering :=
  if 2 < i.operands.length then malformed (.combinedCount i.opcode i.operands.length)
  else i.operands.foldlM (recordOperand f) s

/-- A function extends one return code at most. -/
def extend (f : Func) (s : Lowering) (i : Instruction) : Except Fault Lowering :=
  if s.extended then malformed .secondExtension
  else combine f { s with extended := true } i

/-- A selection between numbers.  One between return codes is not part of the
graph. -/
def select (f : Func) (s : Lowering) (i : Instruction) : Except Fault Lowering := do
  match i.operands with
  | [condition, ifTrue, ifFalse] =>
    match s.comparisons.get? condition with
    | none => malformed (.notComparison (f.display condition))
    | some c =>
      if !(← typeOf f ifTrue).isDouble then return s
      expectDouble f ifFalse
      expectDouble f c.left
      expectDouble f c.right
      match c.selecting? with
      | none => malformed (.notSelectable c.predicate)
      | some op =>
        s.emitResult i op
          [← node f s c.left, ← node f s c.right, ← node f s ifTrue, ← node f s ifFalse]
  | _ => wrongCount i 3

/-! ## Calls -/

/-- A call of a function of one or two numbers. -/
def callMath (f : Func) (s : Lowering) (i : Instruction) (name : String) (args : List Handle) :
    Except Fault Lowering := do
  args.forM (expectDouble f)
  match reservedRest? discreteStart name with
  | some discrete =>
    match args with
    | [arg] =>
      let (g, index) := s.graph.internDiscrete discrete
      let n ← node f s arg
      { s with graph := g }.emitResult i .discrete [index, n]
    | _ => malformed (.discreteCount discrete)
  | none =>
    match Op.ofCallee? name with
    | none => throw (.unresolved name)
    | some op => s.emitResult i op (← args.mapM (node f s))

/-- Refuse an argument of an atomic call that is not of the kind the calling
convention asks for. -/
def expectKind (f : Func) (v : Handle) (wanted : Ty) : Except Fault Unit := do
  let type ← typeOf f v
  match type, wanted with
  | .int _, .int _ | .ptr, .ptr => return ()
  | _, _ => malformed (.atomicArgument (f.display v) type wanted)

/-- A call of an atomic function.  Its arguments are what was last stored in the
argument buffer, and its results fill the result buffer. -/
def callAtomic (f : Func) (s : Lowering) (name : String) (args : List Handle)
    (counted arguments countedResults results : Handle) : Except Fault Lowering := do
  match reservedRest? atomicStart name with
  | none => throw (.unresolved name)
  | some atomic =>
    (args.zip Convention.types).forM fun a => expectKind f a.1 a.2
    let argumentCount ← count f counted
    let resultCount ← count f countedResults
    match s.bindings.scattered? arguments with
    | none => malformed (.atomicUnregistered (f.display arguments))
    | some (slots, written) =>
      if slots ≠ argumentCount then malformed (.atomicSlots slots argumentCount)
      match Slots.filled slots written with
      | .error k => malformed (.atomicUnset k atomic)
      | .ok nodes =>
        let (g, index) := s.graph.internAtomic atomic
        let s := { s with graph := g }.emit .atom (index :: resultCount :: argumentCount :: nodes)
        let (s, first) ← s.reserve resultCount
        let b ← orFault .resultBuffer (s.bindings.bindContiguous results first resultCount)
        return { s with bindings := b }

def call (f : Func) (s : Lowering) (i : Instruction) : Except Fault Lowering := do
  match i.callee? with
  | none => malformed .noCallee
  | some callee =>
    match f.symbol? callee with
    | none => malformed (.indirectCall (f.display callee))
    | some name =>
      match i.callArguments with
      | [a] => callMath f s i name [a]
      | [a, b] => callMath f s i name [a, b]
      | [a, b, c, d, e, g] => callAtomic f s name [a, b, c, d, e, g] a b c d
      | args => malformed (.callCount name args.length)

/-! ## Control flow -/

/-- Branches have no effect.  A conditional one looks at its condition first,
and at each target only after what is before it is in order. -/
def branch (f : Func) (s : Lowering) (i : Instruction) : Except Fault Lowering := do
  match i.operands with
  | [target] => if (← typeOf f target).isLabel then return s else malformed .branchShape
  | [condition, ifTrue, ifFalse] =>
    if !(← typeOf f condition).isInt then malformed .branchShape
    if !(← typeOf f ifTrue).isLabel then malformed .branchShape
    if (← typeOf f ifFalse).isLabel then return s else malformed .branchShape
  | _ => malformed .branchShape

def ret (f : Func) (s : Lowering) (i : Instruction) : Except Fault Lowering := do
  match i.operands with
  | [code] => if (← typeOf f code).isInt then return s else malformed .returnShape
  | _ => malformed .returnShape

/-- Lower one instruction. -/
def instruction (f : Func) (s : Lowering) (i : Instruction) : Except Fault Lowering :=
  match i.opcode with
  | .alloca => return s
  | .load => load f s i
  | .getelementptr => address f s i
  | .store => store f s i
  | .fadd => binary f s i .add
  | .fsub => binary f s i .sub
  | .fmul => binary f s i .mul
  | .fdiv => binary f s i .div
  | .fneg => negate f s i
  | .fcmp | .icmp => compare f s i
  | .zext => extend f s i
  | .or => combine f s i
  | .select => select f s i
  | .call => call f s i
  | .br => branch f s i
  | .ret => ret f s i
  | .other name => .error (.unsupported name)

end Lowering
end SsaGraph

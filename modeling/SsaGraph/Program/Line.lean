import SsaGraph.Program.Operand

/-!
Instructions in the text form, one to a line.
-/

namespace SsaGraph

/-- What a line says, before the instruction is pushed. -/
structure Line where
  opcode : Opcode
  operands : List Handle
  type : Ty
  predicate : Option Predicate := none

namespace Reader

def effect (opcode : Opcode) (operands : List Handle) : Line := ⟨opcode, operands, .void, none⟩

def alloca : Reader Line := do
  discard <| eatKeyword "inalloca"
  discard type
  return ⟨.alloca, [], .ptr, none⟩

def skipAccessFlags : Reader Unit := do
  discard <| eatKeyword "atomic"
  discard <| eatKeyword "volatile"

def load : Reader Line := do
  skipAccessFlags
  let ty ← type
  expect .comma
  let (pointer, _) ← typedValue
  return ⟨.load, [pointer], ty, none⟩

def store : Reader Line := do
  skipAccessFlags
  let (stored, _) ← typedValue
  expect .comma
  let (pointer, _) ← typedValue
  return effect .store [stored, pointer]

def addressFlags : List String := ["inbounds", "nuw", "nusw"]

def isAddressFlag : Token → Bool
  | .word w => addressFlags.contains w
  | _ => false

def isMetadata : Token → Bool
  | .metadata _ => true
  | _ => false

/-- One more operand of an address.  A comma in front of metadata is not part
of it. -/
def addressOperand (operands : List Handle) : Reader (Round (List Handle)) := do
  if (← peek) = .comma ∧ !isMetadata (← peekNext) then
    advance
    let (v, _) ← typedValue
    return .again (operands ++ [v])
  return .done operands

/-- Base and indices of an address. -/
def addressOperands : Reader (List Handle) := iterate addressOperand []

def getelementptr : Reader Line := do
  skip (·.dropWhile fun t => isAddressFlag t.val)
  discard type
  let operands ← addressOperands
  if operands.isEmpty then fail .missingBase
  return ⟨.getelementptr, operands, .ptr, none⟩

def arithmetic (opcode : Opcode) : Reader Line := do
  skipFastMathFlags
  let (left, right, ty) ← operandPair
  return ⟨opcode, [left, right], ty, none⟩

def fneg : Reader Line := do
  skipFastMathFlags
  let (operand, ty) ← typedValue
  return ⟨.fneg, [operand], ty, none⟩

/-- A predicate word, refused at its own place. -/
def predicate {α : Type} (read : String → Option α) (refuse : String → SyntaxError) : Reader α := do
  let word ← expectWord
  match read word.val with
  | some p => return p
  | none => throw ⟨refuse word.val, word.span⟩

def fcmp : Reader Line := do
  skipFastMathFlags
  let p ← predicate FloatPredicate.ofName? .unknownFloatPredicate
  let (left, right, _) ← operandPair
  return ⟨.fcmp, [left, right], .int 1, some (.float p)⟩

def icmp : Reader Line := do
  discard <| eatKeyword "samesign"
  let p ← predicate IntPredicate.ofName? .unknownIntPredicate
  let (left, right, _) ← operandPair
  return ⟨.icmp, [left, right], .int 1, some (.int p)⟩

def zext : Reader Line := do
  discard <| eatKeyword "nneg"
  let (operand, _) ← typedValue
  expectKeyword "to"
  return ⟨.zext, [operand], ← type, none⟩

def or : Reader Line := do
  discard <| eatKeyword "disjoint"
  let (left, right, ty) ← operandPair
  return ⟨.or, [left, right], ty, none⟩

def select : Reader Line := do
  skipFastMathFlags
  let (condition, _) ← typedValue
  expect .comma
  let (ifTrue, ty) ← typedValue
  expect .comma
  let (ifFalse, _) ← typedValue
  return ⟨.select, [condition, ifTrue, ifFalse], ty, none⟩

/-- The callee of a call, by name. -/
def callee : Reader Handle := do
  match ← peek with
  | .glob name =>
    advance
    build (·.symbol name)
  | _ => fail .missingCallee

def callArgument (operands : List Handle) : Reader (Round (List Handle)) := do
  if (← peek) = .rparen then return .done operands
  let ty ← type
  skipArgumentAttributes
  let operands := operands ++ [← value ty]
  if ← eat .comma then return .again operands
  return .done operands

def callArguments : Reader (List Handle) := iterate callArgument []

/-- The result type and the callee of a call, up to its arguments.  A variadic callee is
preceded by its whole type, whose parameters are passed over. -/
def callHead : Reader (Ty × Handle) := do
  skip (·.dropWhile fun t => isCallDecoration t.val)
  let ty ← type
  if (← peek) = .lparen then skip (behindGroup .lparen .rparen 0)
  let callee ← callee
  expect .lparen
  return (ty, callee)

def call : Reader Line := do
  let (ty, callee) ← callHead
  let args ← callArguments
  expect .rparen
  return ⟨.call, args ++ [callee], ty, none⟩

def br : Reader Line := do
  if ← eatKeyword "label" then return effect .br [← value .label]
  let (condition, _) ← typedValue
  expect .comma
  let (ifTrue, _) ← typedValue
  expect .comma
  let (ifFalse, _) ← typedValue
  return effect .br [condition, ifTrue, ifFalse]

def ret : Reader Line := do
  if ← eatKeyword "void" then return effect .ret []
  let (v, _) ← typedValue
  return effect .ret [v]

/-! ## Unknown opcodes -/

/-- What is gathered from a line whose form is not known. -/
structure Gathered where
  operands : List Handle := []
  firstType : Option Ty := none
  castType : Option Ty := none

/-- Gather known values and types up to the end of the line.  Brackets that are
no type, such as the cases of a `switch`, are passed over. -/
def gather : Reader Gathered :=
  iterate (fun g => do
    let t ← peek
    if t.endsLine then return .done g
    match t with
    | .loc name =>
      let v ← local? name
      advance
      return .again { g with operands := g.operands ++ v.toList }
    | .word w =>
      if w = "to" then
        advance
        let ty ← tolerate type
        return .again { g with castType := ty.or g.castType }
      else if g.firstType.isSome then
        advance
        return .again g
      else
        match ← attempt type with
        | some ty => return .again { g with firstType := some ty }
        | none =>
          advance
          return .again g
    | .lbracket =>
      if g.firstType.isSome then
        skip (behindGroup .lbracket .rbracket 0)
        return .again g
      else
        match ← attempt type with
        | some ty => return .again { g with firstType := some ty }
        | none =>
          skip (behindGroup .lbracket .rbracket 0)
          return .again g
    | _ =>
      advance
      return .again g) {}

/-- An instruction with an unknown opcode.  Its result, if it is named, has the
type it is cast to, or else the first type on the line. -/
def unknown (opcode : String) (named : Bool) : Reader Line := do
  let g ← gather
  let ty := if named then (g.castType.or g.firstType).getD .double else .void
  return ⟨.other opcode, g.operands, ty, none⟩

/-! ## Lines -/

/-- The operands behind an opcode. -/
def operandsOf (opcode : String) (named : Bool) : Reader Line :=
  match opcode with
  | "alloca" => alloca
  | "load" => load
  | "store" => store
  | "getelementptr" => getelementptr
  | "fadd" => arithmetic .fadd
  | "fsub" => arithmetic .fsub
  | "fmul" => arithmetic .fmul
  | "fdiv" => arithmetic .fdiv
  | "fneg" => fneg
  | "fcmp" => fcmp
  | "icmp" => icmp
  | "zext" => zext
  | "or" => or
  | "select" => select
  | "call" => call
  | "tail" | "musttail" | "notail" => do
    expectKeyword "call"
    call
  | "br" => br
  | "ret" => ret
  | _ => unknown opcode named

/-- The name in front of `=`. -/
def resultName : Reader (Option String) := do
  match ← peek, ← peekNext with
  | .loc name, .equals =>
    advance
    advance
    return some name
  | _, _ => return none

/-- Read one instruction and push it, with the span of its line. -/
def instruction : Reader Unit := do
  modify fun s => { s with builder := { s.builder with span := lineSpan s.rest } }
  let name ← resultName
  let opcode ← expectWord
  let line ← operandsOf opcode.val name.isSome
  let result ← build (·.push line.opcode line.operands line.type line.predicate name)
  match name, result with
  | some name, some v => define name v
  | some _, none => throw ⟨.noResult opcode.val, opcode.span⟩
  | none, _ => return ()

end Reader
end SsaGraph

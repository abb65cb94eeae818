import SsaGraph.Program.Reader

/-!
Types and operands in the text form.
-/

namespace SsaGraph
namespace Reader

/-! ## Types -/

/-- A star after a type makes it a pointer. -/
def star (type : Ty) : Reader (Round Ty) := do
  if ← eat .star then return .again .ptr
  return .done type

def stars (type : Ty) : Reader Ty := iterate star type

def openArray (lengths : List UInt64) : Reader (Round (List UInt64)) := do
  if ← eat .lbracket then
    let n ← expectInteger
    expectKeyword "x"
    return .again (n :: lengths)
  return .done lengths

def closeArray (element : Ty) (n : UInt64) : Reader Ty := do
  expect .rbracket
  stars (.array n.toNat element)

def baseType : Reader Ty := do
  match ← peek with
  | .word w =>
    match Ty.ofWord? w with
    | some type =>
      advance
      return type
    | none => fail (.expectedType (.word w))
  | t => fail (.expectedType t)

/-- A type inside arrays that are already open, of the given lengths: `[2 x [3 x` gives
`3` and `2`.  The innermost array is closed first. -/
def typeInside (lengths : List UInt64) : Reader Ty := do
  let lengths ← iterate openArray lengths
  let innermost ← stars (← baseType)
  lengths.foldlM closeArray innermost

/-- A type: a type word inside any number of arrays, with stars behind each. -/
def type : Reader Ty := typeInside []

/-! ## Operands -/

/-- Constants that are words. -/
def constantWords : List String := ["true", "false", "null", "undef", "poison", "zeroinitializer"]

/-- The value of the given type that the next token stands for.  An integer literal
may stand for a floating point number, and a truth value has one bit whatever its type. -/
def valueAhead (type : Ty) : Reader Handle := do
  let found ← peek
  match found with
  | .loc name =>
    if type.isLabel then build (·.label name)
    else
      match ← local? name with
      | some v => return v
      | none => fail (.undefinedValue name)
  | .glob name => build (·.symbol name)
  | .float x => if type.isFloating then build (·.float x) else fail (.expectedValue found)
  | .int n =>
    match type with
    | .double | .float => build (·.float (Binary64.ofInt64 n))
    | .int bits => build (·.int bits n)
    | _ => fail (.integerAs type)
  | .word w =>
    if (w = "true" ∨ w = "false") ∧ type.isInt then build (·.int 1 (if w = "true" then 1 else 0))
    else if w ∈ constantWords then fail (.unsupportedConstant w)
    else fail (.expectedValue found)
  | _ => fail (.expectedValue found)

def value (type : Ty) : Reader Handle := do
  let v ← valueAhead type
  advance
  return v

/-- A type and a value of it. -/
def typedValue : Reader (Handle × Ty) := do
  let ty ← type
  return (← value ty, ty)

/-- A type and two values of it. -/
def operandPair : Reader (Handle × Handle × Ty) := do
  let ty ← type
  let left ← value ty
  expect .comma
  let right ← value ty
  return (left, right, ty)

/-! ## Decorations -/

def fastMathFlags : List String :=
  ["fast", "nnan", "ninf", "nsz", "arcp", "contract", "afn", "reassoc"]

def isFastMathFlag : Token → Bool
  | .word w => fastMathFlags.contains w
  | _ => false

/-- Words that are not types stand between `call` and its type. -/
def isCallDecoration : Token → Bool
  | .word w => (Ty.ofWord? w).isNone
  | _ => false

def skipFastMathFlags : Reader Unit := skip (·.dropWhile fun t => isFastMathFlag t.val)

/-- One more attribute between the type and the value of a call argument: a word, a word
with a bracketed group, or `align` with a number. -/
def argumentAttribute : Reader (Round Unit) := do
  match ← peek with
  | .word w =>
    if w ∈ constantWords then return .done ()
    advance
    match ← peek with
    | .lparen => skip (behindGroup .lparen .rparen 0)
    | .int _ => if w = "align" then advance
    | _ => pure ()
    return .again ()
  | _ => return .done ()

def skipArgumentAttributes : Reader Unit := iterate (fun _ => argumentAttribute) ()

end Reader
end SsaGraph

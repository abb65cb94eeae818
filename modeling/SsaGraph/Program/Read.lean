import SsaGraph.Program
import SsaGraph.Program.Line
import SsaGraph.Token.Scan

/-!
Reading the functions of a text.  Lines outside of function definitions are
passed over.  Reading goes on after a fault, so that all faults of a text are
reported together.
-/

namespace SsaGraph
namespace Reader

/-! ## Headers -/

/-- What stands in front of the name of a function goes on up to such a token. -/
def endsResult : Token → Bool
  | .glob _ | .newline | .eof | .lbrace => true
  | _ => false

/-- The name of the function, behind its linkage and its result type. -/
def functionName : Reader String := do
  skip (·.dropWhile fun t => !endsResult t.val)
  match ← peek with
  | .glob name =>
    advance
    return name
  | _ => fail .missingFunctionName

/-- The attributes of a parameter go on up to such a token. -/
def endsAttributes : Token → Bool
  | .loc _ | .comma | .rparen | .newline | .eof => true
  | _ => false

/-- The name of a parameter, behind its attributes. -/
def parameterName? : Reader (Option String) := do
  skip (·.dropWhile fun t => !endsAttributes t.val)
  match ← peek with
  | .loc name =>
    advance
    return some name
  | .comma | .rparen => return none
  | _ => fail .openParameters

/-- One more parameter.  One without a name is numbered by its position. -/
def parameter (params : List (Ty × String)) : Reader (Round (List (Ty × String))) := do
  let t ← peek
  if t = .rparen then return .done params
  if t = .ellipsis then fail .variadic
  let ty ← type
  let name ← parameterName?
  let params := params ++ [(ty, name.getD (toString params.length))]
  if ← eat .comma then return .again params
  return .done params

/-- Parameters up to the closing parenthesis. -/
def parameters : Reader (List (Ty × String)) := iterate parameter []

/-- What stands behind the parameters goes on up to such a token. -/
def endsHeader : Token → Bool
  | .lbrace | .newline | .eof => true
  | _ => false

/-- Everything up to and including the brace that opens the body. -/
def openBody : Reader Unit := do
  skip (·.dropWhile fun t => !endsHeader t.val)
  if (← peek) = .lbrace then advance else fail .missingBody

/-! ## Bodies -/

/-- The label in front of a colon. -/
def label? : Reader (Option String) := do
  match ← peek, ← peekNext with
  | .word name, .colon => return some name
  | .int n, .colon => return some (toString n)
  | .str name, .colon => return some name
  | _, _ => return none

/-- A label, an instruction, the end of a line or the closing brace.  A line with a
fault is noted and passed over. -/
def bodyPart : Reader (Round Unit) := do
  if let some name ← label? then
    advance
    advance
    discard <| build (·.label name)
    return .again ()
  match ← peek with
  | .newline =>
    advance
    return .again ()
  | .rbrace =>
    advance
    return .done ()
  | .eof => fail .openBody
  | _ =>
    recover instruction
    skip fromLineEnd
    return .again ()

/-- Labels and instructions up to the closing brace. -/
def body : Reader Unit := iterate (fun _ => bodyPart) ()

/-- Start a function with the given parameters in scope. -/
def enter (name : String) (params : List (Ty × String)) : Reader Unit := fun s =>
  let f := Func.withArgs name params
  let locals := (params.zip f.args).foldl (fun t p => t.insert p.1.2 p.2) Table.empty
  .ok () { s with builder := .start f, locals := locals }

/-- A function definition, from the word that starts it. -/
def function : Reader Func := do
  advance
  let name ← functionName
  expect .lparen
  let params ← parameters
  expect .rparen
  openBody
  enter name params
  body
  return (← get).builder.func

/-! ## Texts -/

/-- A definition.  One that has a fault outside of its lines is noted and passed over,
up to the end of its body. -/
def definition (fs : List Func) : Reader (Round (List Func)) := fun s =>
  match function s with
  | .ok f t => .ok (.again (fs ++ [f])) t
  | .error e t => .ok (.again fs) { t with rest := behindBody t.rest, faults := t.faults ++ [e] }

/-- A definition, or another line, which is passed over. -/
def textPart (fs : List Func) : Reader (Round (List Func)) := do
  match ← peek with
  | .eof => return .done fs
  | .newline =>
    advance
    return .again fs
  | .word w =>
    if w = "define" then definition fs
    else
      skip fromLineEnd
      return .again fs
  | _ =>
    skip fromLineEnd
    return .again fs

def functions : Reader (List Func) := iterate textPart []

end Reader

namespace Program

/-- The functions given by tokens, or the faults found. -/
def ofTokens (ts : List (Located Token)) : Except (List (Located SyntaxError)) Program :=
  match Reader.functions ⟨ts, [], default, .empty⟩ with
  | .ok fs t => if t.faults.isEmpty then .ok ⟨fs⟩ else .error t.faults
  | .error e t => .error (t.faults ++ [e])

/-- Read all function definitions of a text.  Faults of single tokens are
reported before anything else is looked at. -/
def read (text : String) : Except (List (Located SyntaxError)) Program :=
  let scan := Token.scan text
  if scan.faults.isEmpty then ofTokens scan.tokens else .error scan.faults

/-- The characters of a text can be read as they are given, without decoding the text. -/
theorem read_ofList (cs : List Char) :
    read (.ofList cs) =
      if (Token.scanFrom 0 cs).faults.isEmpty then ofTokens (Token.scanFrom 0 cs).tokens
      else .error (Token.scanFrom 0 cs).faults := by
  rw [read, Token.scan, String.toList_ofList]

/-- Read a text that defines exactly one function. -/
def readSingle (text : String) : Except (List (Located SyntaxError)) Func := do
  let p ← read text
  match p.single? with
  | some f => .ok f
  | none => .error [⟨.functionCount p.functions.length, .absent⟩]

end Program
end SsaGraph

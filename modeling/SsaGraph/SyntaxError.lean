import SsaGraph.Token
import SsaGraph.Ty

/-!
What can be wrong with a text, and the wording of each fault.
-/

namespace SsaGraph

inductive SyntaxError where
  -- Faults of single tokens.
  | missingName (sigil : Char)
  | unterminatedString
  | badHexadecimal (digits : String)
  | badNumber (text : String)
  | unexpectedCharacter (c : Char)
  -- Faults of function headers and bodies.
  | missingFunctionName
  | variadic
  | openParameters
  | missingBody
  | openBody
  | functionCount (found : Nat)
  -- Faults of instructions.
  | expected (wanted found : Token)
  | expectedKeyword (keyword : String) (found : Token)
  | expectedWord (found : Token)
  | expectedInteger (found : Token)
  | expectedType (found : Token)
  | expectedValue (found : Token)
  | undefinedValue (name : String)
  | integerAs (type : Ty)
  | unsupportedConstant (word : String)
  | unknownFloatPredicate (name : String)
  | unknownIntPredicate (name : String)
  | missingBase
  | missingCallee
  | noResult (opcode : String)
  deriving DecidableEq, Repr

namespace SyntaxError

def message : SyntaxError → String
  | missingName sigil => s!"expected a name after '{sigil}'"
  | unterminatedString => "unterminated string"
  | badHexadecimal digits => s!"invalid hexadecimal constant '0x{digits}'"
  | badNumber text => s!"invalid number '{text}'"
  | unexpectedCharacter c => s!"unexpected character '{c}'"
  | missingFunctionName => "expected a function name after 'define'"
  | variadic => "variadic functions are not supported"
  | openParameters => "unterminated parameter list"
  | missingBody => "expected '\x7b' to open the function body"
  | openBody => "expected '\x7d' at the end of the function body"
  | functionCount found => s!"expected exactly one function definition, found {found}"
  | expected wanted found => s!"expected {wanted.description}, found {found.description}"
  | expectedKeyword keyword found => s!"expected '{keyword}', found {found.description}"
  | expectedWord found => s!"expected an opcode or keyword, found {found.description}"
  | expectedInteger found => s!"expected an integer, found {found.description}"
  | expectedType found => s!"expected a type, found {found.description}"
  | expectedValue found => s!"expected a value, found {found.description}"
  | undefinedValue name => s!"use of undefined value '%{name}'"
  | integerAs type => s!"integer literal used as a '{type.text}' value"
  | unsupportedConstant word => s!"constant '{word}' is not supported"
  | unknownFloatPredicate name => s!"unknown fcmp predicate '{name}'"
  | unknownIntPredicate name => s!"unknown icmp predicate '{name}'"
  | missingBase => "expected a base pointer"
  | missingCallee => "expected a direct callee '@name'"
  | noResult opcode => s!"'{opcode}' does not produce a value"

end SyntaxError
end SsaGraph

import SsaGraph.Lowering.Fault
import SsaGraph.Span
import SsaGraph.SyntaxError

/-!
Reports to the user about a text or a function.
-/

namespace SsaGraph

inductive Severity where
  | error
  | warning
  deriving DecidableEq, Repr

def Severity.name : Severity → String
  | error => "error"
  | warning => "warning"

structure Diagnostic where
  severity : Severity
  message : String
  /-- The place reported, absent if there is none. -/
  span : Span
  notes : List String
  help : Option String
  deriving DecidableEq, Repr

namespace Diagnostic

def error (message : String) (span : Span) : Diagnostic := ⟨.error, message, span, [], none⟩

def ofSyntaxError (e : Located SyntaxError) : Diagnostic := error e.val.message e.span

/-- A refusal is reported at the first instruction that fits it. -/
def ofRefusal (r : Refusal) (f : Func) : Diagnostic where
  severity := .error
  message := r.message
  span := ((r.culprit? f).map (·.span)).getD .absent
  notes := [s!"while translating function '{f.name}'"]
  help := none

end Diagnostic
end SsaGraph

import SsaGraph.Func

/-!
The functions of one text.
-/

namespace SsaGraph

structure Program where
  functions : List Func
  deriving DecidableEq, Repr

namespace Program

/-- The first function with the given name. -/
def find? (p : Program) (name : String) : Option Func :=
  p.functions.find? fun f => f.name == name

/-- The only function, if there is exactly one. -/
def single? (p : Program) : Option Func :=
  match p.functions with
  | [f] => some f
  | _ => none

def names (p : Program) : List String := p.functions.map (·.name)

end Program
end SsaGraph

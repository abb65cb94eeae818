import SsaGraph.Binary64.Style
import SsaGraph.Graph.Numbering

/-!
The listing of a graph: a header, a line for each constant and each operator,
and the dependent nodes.
-/

namespace SsaGraph
namespace Graph

def joined (nodes : List Nat) : String := String.intercalate ", " (nodes.map toString)

/-- An operator's name, with the name of the function it calls. -/
def operatorTitle (g : Graph) (o : Operator) : String :=
  let called : Option String := match o.op with
    | .atom | .atom4 => o.args.head?.bind fun i => g.atomicNames[i]?
    | .discrete => o.args.head?.bind fun i => g.discreteNames[i]?
    | _ => none
  match called with
  | some name => s!"{o.op.name}[{name}]"
  | none => o.op.name

/-- The line of an operator, with all its nodes if there are several. -/
def operatorLine? (g : Graph) (o : Operator) (first : Option NodeId) : Option String := do
  let call := s!"{g.operatorTitle o}({joined o.nodes})"
  match first with
  | none => return s!"  {call}"
  | some node =>
    if o.resultCount = 1 then return s!"  {node} = {call}"
    else
      let last ← subCount? (← addCount? node o.resultCount) 1
      return s!"  {node}..{last} = {call}"

def constantLine? (firstConstant : NodeId) (x : Binary64) (index : Nat) : Option String := do
  let node ← addCount? firstConstant index
  return s!"  {node} = const {x.text}"

/-- The listing; none if the nodes cannot be numbered. -/
def listing? (g : Graph) : Option String := do
  let header := s!"graph {g.name}: dynamic={g.dynamics} variable={g.independents} constant={g.constants.size}"
  let firstConstant ← addCount? (← addCount? g.dynamics g.independents) 1
  let constants ← g.constants.toList.zipIdx.mapM fun c => constantLine? firstConstant c.1 c.2
  let firsts ← g.firstResults?
  let operators ← (g.operators.zip firsts).mapM fun o => g.operatorLine? o.1 o.2
  return String.intercalate "\n"
    (header :: constants ++ operators ++ [s!"dependent: {joined g.dependents.toList}"])

end Graph
end SsaGraph

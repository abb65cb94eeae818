import SsaGraph.Graph
import SsaGraph.Json.Codec

/-!
Graphs as documents.
-/

namespace SsaGraph
namespace Graph

def fieldNames : List String :=
  ["function_name", "n_dynamic_ind", "n_variable_ind", "constants", "operators", "arg_start",
   "operator_args", "atomic_names", "discrete_names", "dependents"]

def fieldValues (g : Graph) : List FieldValue :=
  [.scalar (.text g.name), .scalar (.count g.dynamics), .scalar (.count g.independents),
   .list (g.constants.toList.map .number), .list (g.tags.toList.map fun op => .tag op.name),
   .list (g.starts.toList.map .count), .list (g.args.toList.map .count),
   .list (g.atomicNames.toList.map .text), .list (g.discreteNames.toList.map .text),
   .list (g.dependents.toList.map .count)]

/-- Why a document is refused. -/
inductive DocumentError where
  /-- No JSON, or JSON that does not describe a graph. -/
  | json
  | layout (e : LayoutError)
  deriving DecidableEq, Repr

end Graph

namespace Codec

variable (c : Codec)

/-- The document of a graph. -/
def document (g : Graph) : String := c.write (.record (Graph.fieldNames.zip g.fieldValues))

def op? (v : c.Value) : Option Op := c.tag? v >>= Op.ofName?

/-- The fields in the order of a document. -/
def ofFields? : List c.Value → Option Graph
  | [name, dynamics, independents, constants, tags, starts, args, atomicNames, discreteNames,
      dependents] => do
    return {
      name := ← c.text? name
      dynamics := ← c.count? dynamics
      independents := ← c.count? independents
      constants := ← c.array? c.number? constants
      tags := ← c.array? c.op? tags
      starts := ← c.array? c.count? starts
      args := ← c.array? c.count? args
      atomicNames := ← c.array? c.text? atomicNames
      discreteNames := ← c.array? c.text? discreteNames
      dependents := ← c.array? c.count? dependents }
  | _ => none

/-- The graph that a text describes. -/
def graph? (text : String) : Option Graph := do
  c.ofFields? (← c.record? Graph.fieldNames (← c.read? text))

/-- Read a document and check the graph. -/
def ofDocument (text : String) : Except Graph.DocumentError Graph :=
  match c.graph? text with
  | none => .error .json
  | some g =>
    match g.check with
    | .ok () => .ok g
    | .error e => .error (.layout e)

theorem ofDocument_eq_ok_iff {c : Codec} {text : String} {g : Graph} :
    c.ofDocument text = .ok g ↔ c.graph? text = some g ∧ g.check = .ok () := by
  unfold ofDocument
  cases c.graph? text with
  | none => exact ⟨fun h => (nomatch h), fun h => (nomatch h.1)⟩
  | some k =>
    show (match k.check with
      | .ok () => Except.ok k
      | .error e => .error (Graph.DocumentError.layout e)) = .ok g ↔ some k = some g ∧ _
    constructor
    · intro h
      split at h
      next hk =>
        cases h
        exact ⟨rfl, hk⟩
      · cases h
    · rintro ⟨h, hk⟩
      cases h
      rw [hk]

end Codec

/-- The document of a graph in JSON. -/
def Graph.document (g : Graph) : String := Json.codec.document g

/-- Read a document in JSON and check the graph. -/
def Graph.ofDocument (text : String) : Except DocumentError Graph := Json.codec.ofDocument text

end SsaGraph

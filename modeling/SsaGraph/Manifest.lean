import SsaGraph.Lowering.State
import SsaGraph.Text.Blank
import SsaGraph.Text.Digits

/-!
Settings of a lowering, from a manifest file and from the command line.
-/

namespace SsaGraph

/-- How a graph is printed. -/
inductive OutputFormat where
  | text
  | json
  | dot
  deriving DecidableEq, Repr

namespace OutputFormat

def name : OutputFormat → String
  | text => "text"
  | json => "json"
  | dot => "dot"

def ofName? : String → Option OutputFormat
  | "text" => some text
  | "json" => some json
  | "dot" => some dot
  | _ => none

end OutputFormat

/-- Why settings are refused. -/
inductive ConfigError where
  | badCount (key value : String)
  | badFormat (value : String)
  | noVariables
  | noDependents
  deriving DecidableEq, Repr

def manifestFile : String := "ir2graph.toml"

namespace ConfigError

def message : ConfigError → String
  | badCount key value => s!"'function.{key}' must be a non-negative integer, found '{value}'"
  | badFormat value => s!"unknown output format '{value}' (expected text, json or dot)"
  | noVariables => "number of independent variables is not set"
  | noDependents => "number of dependent variables is not set"

def help? : ConfigError → Option String
  | noVariables => some s!"pass --variables or set 'variables' in {manifestFile}"
  | noDependents => some s!"pass --dependent or set 'dependent' in {manifestFile}"
  | _ => none

end ConfigError

/-- Settings, each of which may be missing. -/
structure Manifest where
  function : Option String := none
  dynamic : Option Nat := none
  independent : Option Nat := none
  dependent : Option Nat := none
  format : Option OutputFormat := none
  deriving DecidableEq, Repr

namespace Manifest

/-! ## Reading -/

/-- What a line of a manifest says. -/
inductive Line where
  | nothing
  | heading (name : List Char)
  | entry (key value : List Char)
  deriving DecidableEq, Repr

/-- A line without its comment.  A number sign behind a quote starts none. -/
def withoutComment (cs : List Char) : List Char :=
  let before := cs.takeWhile (· != '#')
  if before.contains '"' then cs else before

def lineOf (cs : List Char) : Line :=
  let cs := Text.trim (withoutComment cs)
  if cs.head? = some '[' ∧ cs.getLast? = some ']' then .heading (Text.trim (cs.drop 1).dropLast)
  else if cs.contains '=' then
    let key := cs.takeWhile (· != '=')
    let value := cs.drop (key.length + 1)
    .entry (Text.unquote (Text.trim key)) (Text.unquote (Text.trim value))
  else .nothing

def count (key : String) (value : List Char) : Except ConfigError Nat :=
  match Digits.signedBelow? (1 <<< 64) value with
  | some n => .ok n
  | none => .error (.badCount key (String.ofList value))

def outputFormat (value : List Char) : Except ConfigError OutputFormat :=
  match OutputFormat.ofName? (String.ofList value) with
  | some f => .ok f
  | none => .error (.badFormat (String.ofList value))

/-- Take over an entry of a section.  Unknown ones are ignored. -/
def setEntry (m : Manifest) (heading key value : List Char) : Except ConfigError Manifest := do
  match String.ofList heading, String.ofList key with
  | "function", "name" => return { m with function := some (String.ofList value) }
  | "function", "dynamic" => return { m with dynamic := some (← count "dynamic" value) }
  | "function", "variables" => return { m with independent := some (← count "variables" value) }
  | "function", "dependent" => return { m with dependent := some (← count "dependent" value) }
  | "output", "format" => return { m with format := some (← outputFormat value) }
  | _, _ => return m

/-- Take over lines, the first of which is in the given section. -/
def readLines (m : Manifest) (current : List Char) : List (List Char) → Except ConfigError Manifest
  | [] => .ok m
  | line :: rest =>
    match lineOf line with
    | .nothing => readLines m current rest
    | .heading name => readLines m name rest
    | .entry key value =>
      match m.setEntry current key value with
      | .ok m => readLines m current rest
      | .error e => .error e

/-- Read a manifest. -/
def read (text : String) : Except ConfigError Manifest := readLines {} [] (Text.lines text.toList)

end Manifest

/-! ## Settings -/

structure Settings where
  function : Option String
  dynamics : Nat
  independents : Nat
  dependents : Nat
  format : OutputFormat
  deriving DecidableEq, Repr

namespace Manifest

/-- Settings in which what is given in `overrides` counts before the manifest.
The numbers of variables and of dependents must be given in one of them. -/
def merge (m overrides : Manifest) : Except ConfigError Settings :=
  match overrides.independent.or m.independent, overrides.dependent.or m.dependent with
  | none, _ => .error .noVariables
  | some _, none => .error .noDependents
  | some independents, some dependents => .ok {
      function := overrides.function.or m.function
      dynamics := (overrides.dynamic.or m.dynamic).getD 0
      independents := independents
      dependents := dependents
      format := (overrides.format.or m.format).getD .text }

end Manifest

def Settings.context (s : Settings) (name : String) : Context :=
  ⟨name, s.dynamics, s.independents, s.dependents⟩

end SsaGraph

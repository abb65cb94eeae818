import SsaGraph.Command
import SsaGraph.Diagnostic
import SsaGraph.Graph.Dataflow
import SsaGraph.Graph.Document
import SsaGraph.Graph.Fingerprint
import SsaGraph.Graph.Listing
import SsaGraph.Lowering
import SsaGraph.Program.Read

/-!
What a command does.  The files it may look at are known from its input path, so
a run is a function of what they hold.
-/

namespace SsaGraph

/-- What a run knows of the file system. -/
structure FileView where
  /-- Whether something is at a path. -/
  present : String → Bool
  /-- The content of the file at a path, or why it cannot be read. -/
  read : String → Except String String

/-- How a run ends, apart from saving a file. -/
inductive Ended where
  /-- Failed, with lines for the user. -/
  | failed (report : List String)
  /-- Broken off, because something needs more memory than there can be. -/
  | aborted
  | done (output : String) (report : List String)
  /-- A graph is to be saved at a path. -/
  | save (path text function : String)

namespace Command

/-! ## The manifest -/

/-- The directories on the way to a file, from the nearest one up.  Empty names
and dots inside the path are no directories of their own. -/
def directories (input : String) : List String :=
  let names := input.splitOn "/"
  let top := if input.toList.head? = some '/' then "/" else ""
  let steps := (names.mapIdx fun i name => (i, name)).filter fun n =>
    n.2 ≠ "" && (n.2 ≠ "." || n.1 = 0)
  if steps.isEmpty then [".", ""]
  else
    (steps.dropLast.reverse.map fun n => String.intercalate "/" (names.take (n.1 + 1))) ++ [top]

/-- The path of a file in a directory. -/
def join (directory file : String) : String :=
  if directory.isEmpty || directory = "/" then directory ++ file else s!"{directory}/{file}"

/-- The places where the manifest is looked for, in order. -/
def manifestPaths (c : Command) : List String :=
  (directories c.input).map fun directory => join directory manifestFile

/-- All paths that a run looks at. -/
def paths (c : Command) : List String := c.input :: c.manifestPaths

/-- Lines about an error without a place. -/
def report (message : String) (notes : List String) (help : Option String) : List String :=
  s!"error: {message}" :: notes.map (fun n => s!"  note: {n}") ++
    help.toList.map fun h => s!"  help: {h}"

def configReport (e : ConfigError) (notes : List String) : List String :=
  report e.message notes e.help?

/-- The nearest manifest, or an empty one if there is none. -/
def manifest (c : Command) (v : FileView) : Except (List String) Manifest :=
  match c.manifestPaths.find? v.present with
  | none => .ok {}
  | some path =>
    match v.read path with
    | .error cause => .error (report s!"cannot read '{path}': {cause}" [] none)
    | .ok text =>
      match Manifest.read text with
      | .ok m => .ok m
      | .error e => .error (configReport e [s!"in {path}"])

def settings (c : Command) (v : FileView) : Except (List String) Settings := do
  let m ← c.manifest v
  match m.merge c.overrides with
  | .ok s => .ok s
  | .error e => .error (configReport e [])

/-! ## The function -/

/-- Lines about a diagnostic.  One with a place starts an excerpt of the text. -/
def diagnosticReport (d : Diagnostic) : List String :=
  if d.span.isAbsent then report d.message d.notes d.help else [s!"Error: {d.message}"]

/-- The function asked for, or the only one. -/
def function (c : Command) (s : Settings) (v : FileView) : Except (List String) Func :=
  match v.read c.input with
  | .error cause => .error [s!"error: cannot read '{c.input}': {cause}"]
  | .ok text =>
    match Program.read text with
    | .error faults => .error (faults.flatMap fun e => diagnosticReport (.ofSyntaxError e))
    | .ok p =>
      match s.function with
      | some name =>
        match p.find? name with
        | some f => .ok f
        | none =>
          let found := String.intercalate ", " p.names
          .error [s!"error: no function '{name}' in '{c.input}' (found: {found})"]
      | none =>
        match p.single? with
        | some f => .ok f
        | none =>
          let n := p.functions.length
          .error [s!"error: '{c.input}' defines {n} functions, select one with --name"]

/-- The graph of a function. -/
def graph (s : Settings) (f : Func) : Except Ended Graph :=
  match f.lower (s.context f.name) with
  | .ok g => .ok g
  | .error (.refused r) => .error (.failed (diagnosticReport (.ofRefusal r f)))
  | .error _ => .error .aborted

/-! ## The run -/

def render? (g : Graph) : OutputFormat → Option String
  | .text => g.listing?.map (· ++ "\n")
  | .json => some (g.document ++ "\n")
  | .dot => g.view?.map (·.dot)

/-- Do what the command asks for; none if the nodes of the graph cannot be numbered, or
if there is no room for its view. -/
def act? (c : Command) (s : Settings) (f : Func) (g : Graph) : Option Ended := do
  match c.action with
  | .translate none => return .done (← render? g s.format) []
  | .translate (some path) => return .save path (← render? g s.format) f.name
  | .check =>
    let nodes ← g.nodeCount?
    return .done "" [s!"OK: {f.name} ({g.tags.size} operators, {nodes} nodes)"]
  | .hash full =>
    let h := if full then g.fingerprintHex else g.fingerprintShort
    return .done s!"{h} {f.name}\n" []

def run (c : Command) (v : FileView) : Ended :=
  let result : Except Ended Ended := do
    let s ← (c.settings v).mapError .failed
    let f ← (c.function s v).mapError .failed
    let g ← graph s f
    return (c.act? s f g).getD .aborted
  match result with
  | .ok e => e
  | .error e => e

/-- The last word on a file that was to be saved. -/
def savedReport (path function : String) : Except String Unit → Bool × List String
  | .ok () => (true, [s!"Translated {function} -> {path}"])
  | .error cause => (false, [s!"error: cannot write '{path}': {cause}"])

end Command

/-! ## Exit codes -/

abbrev ExitCode := UInt32

namespace ExitCode

def success : ExitCode := 0

def failure : ExitCode := 1

def misuse : ExitCode := 2

def aborted : ExitCode := 101

end ExitCode
end SsaGraph

import SsaGraph.Command.Help
import SsaGraph.Command.Run

/-!
The command line program.
-/

namespace SsaGraph

/-- Read a file, or say why it cannot be read; nothing if it is not there. -/
def readFile (path : String) : IO (Option (Except String String)) := do
  try
    return some (.ok (← IO.FS.readFile path))
  catch
    | .noFileOrDirectory .. => return none
    | e => return some (.error (toString e))

/-- Look at the given paths. -/
def viewOf (paths : List String) : IO FileView := do
  let found ← paths.mapM fun path => return (path, ← readFile path)
  let look (path : String) : Option (Except String String) := (found.lookup path).join
  return {
    present := fun path => (look path).isSome
    read := fun path => (look path).getD (.error "No such file or directory (os error 2)") }

def saveFile (path text : String) : IO (Except String Unit) := do
  try
    IO.FS.writeFile path text
    return .ok ()
  catch
    | .noFileOrDirectory .. => return .error "No such file or directory (os error 2)"
    | e => return .error (toString e)

def runCommand (c : Command) : IO ExitCode := do
  match c.run (← viewOf c.paths) with
  | .failed lines =>
    lines.forM fun line => IO.eprintln line
    return .failure
  | .aborted =>
    IO.eprintln "out of memory"
    return .aborted
  | .done output lines =>
    IO.print output
    lines.forM fun line => IO.eprintln line
    return .success
  | .save path text function =>
    let (ok, lines) := Command.savedReport path function (← saveFile path text)
    lines.forM fun line => IO.eprintln line
    return if ok then .success else .failure

end SsaGraph

open SsaGraph in
def main (args : List String) : IO UInt32 := do
  match Request.ofArgs args with
  | .run c => runCommand c
  | .version =>
    IO.print versionText
    return ExitCode.success
  | .help topic =>
    IO.print topic.page.text
    return ExitCode.success
  | .misuse =>
    IO.eprint Topic.program.page.text
    return ExitCode.misuse

/-!
A directory of text files, and what the system says about paths in it.
-/

namespace SsaGraph

/-- Errors of the file system. -/
inductive FileError where
  | missing
  | notDirectory
  | isDirectory
  | nameTooLong
  deriving DecidableEq, Repr

def FileError.text : FileError → String
  | missing => "No such file or directory (os error 2)"
  | notDirectory => "Not a directory (os error 20)"
  | isDirectory => "Is a directory (os error 21)"
  | nameTooLong => "File name too long (os error 36)"

/-- Files by the names on the way to them. -/
structure Files where
  entries : List (List String × String)
  deriving Repr

namespace Files

/-- The names in a path; a slash at its end gives an empty one. -/
def names (path : String) : List String := path.splitOn "/"

def ofList (files : List (String × String)) : Files :=
  ⟨files.map fun f => ((names f.1).filter fun n => !n.isEmpty, f.2)⟩

def file? (d : Files) (way : List String) : Option String := d.entries.lookup way

def isDirectory (d : Files) (way : List String) : Bool :=
  way.isEmpty || d.entries.any fun e => way.isPrefixOf e.1 && way.length < e.1.length

/-- The most bytes in a name. -/
def nameLimit : Nat := 255

/-- The most bytes in a path. -/
def pathLimit : Nat := 4095

def checkPath (path : String) : Except FileError Unit :=
  if path.utf8ByteSize ≤ pathLimit then .ok () else .error .nameTooLong

def checkName (name : String) : Except FileError Unit :=
  if name.utf8ByteSize ≤ nameLimit then .ok () else .error .nameTooLong

/-- Where a way leads from a directory, both as names from the top.  All names
but the last have to be directories. -/
def resolve (d : Files) : List String → List String → Except FileError (List String)
  | here, [] => .ok here
  | here, name :: rest =>
    if !d.isDirectory here then
      .error (if (d.file? here).isSome then .notDirectory else .missing)
    else if name = "" || name = "." then resolve d here rest
    else if name = ".." then resolve d here.dropLast rest
    else
      match checkName name with
      | .ok () => resolve d (here ++ [name]) rest
      | .error e => .error e

def locate (d : Files) (path : String) : Except FileError (List String) := do
  checkPath path
  d.resolve [] (names path)

def read (d : Files) (path : String) : Except FileError String := do
  let way ← d.locate path
  match d.file? way with
  | some content => .ok content
  | none => .error (if d.isDirectory way then .isDirectory else .missing)

/-- Whether a path leads to a file or a directory. -/
def present (d : Files) (path : String) : Bool :=
  match d.locate path with
  | .ok way => (d.file? way).isSome || d.isDirectory way
  | .error _ => false

/-- Where a file is written: its directory has to be there, and its path has to
end in a name without a slash behind it. -/
def target (d : Files) (path : String) : Except FileError (List String) := do
  checkPath path
  let way := (names path).filter fun n => !n.isEmpty
  let last := way.getLast?.getD "."
  let directory ← d.resolve [] (way.dropLast ++ [""])
  if last = "." || last = ".." || path.toList.getLast? = some '/' then .error .isDirectory
  else
    checkName last
    let way := directory ++ [last]
    if d.isDirectory way then .error .isDirectory else .ok way

end Files
end SsaGraph

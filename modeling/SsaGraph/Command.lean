import SsaGraph.Manifest

/-!
Commands, as they are given on the command line.
-/

namespace SsaGraph

/-- What is done with the graph. -/
inductive Action where
  /-- Print it, or save it to a file. -/
  | translate (output : Option String)
  /-- Only report success. -/
  | check
  /-- Print its fingerprint. -/
  | hash (full : Bool)
  deriving DecidableEq, Repr

structure Command where
  action : Action
  input : String
  /-- The settings given on the command line. -/
  overrides : Manifest
  verbose : Bool
  deriving DecidableEq, Repr

/-- The words that a command line starts with. -/
inductive Verb where
  | translate
  | check
  | hash
  deriving DecidableEq, Repr

namespace Verb

def name : Verb → String
  | translate => "translate"
  | check => "check"
  | hash => "hash"

def ofName? (name : String) : Option Verb :=
  [translate, check, hash].find? fun v => v.name == name

end Verb

/-- What help is asked for. -/
inductive Topic where
  | program
  | verb (v : Verb)
  | help
  deriving DecidableEq, Repr

/-- The topic of the given name. -/
def Topic.ofName? (name : String) : Option Topic :=
  if name = "help" then some .help else (Verb.ofName? name).map .verb

/-- What a command line asks for. -/
inductive Request where
  | run (c : Command)
  | version
  | help (topic : Topic)
  /-- The command line is not understood. -/
  | misuse
  deriving DecidableEq, Repr

namespace Command

/-! ## Reading a command line -/

/-- Options that take a value. -/
inductive Param where
  | name | dynamic | independent | dependent | format | output
  deriving DecidableEq, Repr

/-- The arguments read so far. -/
structure Given where
  input : Option String := none
  name : Option String := none
  dynamic : Option Nat := none
  independent : Option Nat := none
  dependent : Option Nat := none
  format : Option OutputFormat := none
  output : Option String := none
  full : Bool := false
  verbose : Bool := false

/-- Why reading ends early. -/
inductive Ending where
  | version
  | help (topic : Topic)
  | misuse

/-- Fill a place that may be filled once. -/
def once {α : Type} (place : Option α) (new : Option α) : Except Ending (Option α) :=
  match place, new with
  | none, some a => .ok (some a)
  | _, _ => .error .misuse

def optionNamed? (verb : Verb) : String → Option Param
  | "name" => some .name
  | "dynamic" => some .dynamic
  | "variables" => some .independent
  | "dependent" => some .dependent
  | "format" => if verb = .translate then some .format else none
  | "output" => if verb = .translate then some .output else none
  | _ => none

def countText? (value : String) : Option Nat := Digits.signedBelow? (1 <<< 64) value.toList

/-- A path is not empty. -/
def path? (value : String) : Option String := if value.isEmpty then none else some value

def Given.set (g : Given) (o : Param) (value : String) : Except Ending Given := do
  match o with
  | .name => return { g with name := ← once g.name (some value) }
  | .dynamic => return { g with dynamic := ← once g.dynamic (countText? value) }
  | .independent => return { g with independent := ← once g.independent (countText? value) }
  | .dependent => return { g with dependent := ← once g.dependent (countText? value) }
  | .format => return { g with format := ← once g.format (OutputFormat.ofName? value) }
  | .output => return { g with output := ← once g.output (path? value) }

def Given.setInput (g : Given) (value : String) : Except Ending Given := do
  return { g with input := ← once g.input (path? value) }

def Given.setVerbose (g : Given) : Except Ending Given :=
  if g.verbose then .error .misuse else .ok { g with verbose := true }

def Given.setFull (g : Given) : Except Ending Given :=
  if g.full then .error .misuse else .ok { g with full := true }

/-- The forms of an argument. -/
inductive Form where
  /-- `--name` or `--name=value`. -/
  | long (name : String) (value : Option String)
  /-- `-abc`. -/
  | short (letters : List Char)
  /-- `--`, behind which nothing is an option. -/
  | separator
  | plain (text : String)
  deriving DecidableEq, Repr

def formOf (arg : String) : Form :=
  match arg.toList with
  | ['-', '-'] => .separator
  | '-' :: '-' :: cs =>
    let name := cs.takeWhile (· != '=')
    let value := if cs.contains '=' then some (String.ofList (cs.drop (name.length + 1))) else none
    .long (String.ofList name) value
  | '-' :: c :: cs => .short (c :: cs)
  | _ => .plain arg

/-- What an argument of a verb leaves to be done. -/
inductive Taken where
  | all (g : Given)
  /-- The option's value is the next argument. -/
  | valueOf (g : Given) (o : Param)

def takeLong (verb : Verb) (g : Given) (name : String) (value : Option String) :
    Except Ending Taken :=
  match optionNamed? verb name, value with
  | some o, some v => (g.set o v).map .all
  | some o, none => .ok (.valueOf g o)
  | none, none =>
    if name = "verbose" then g.setVerbose.map .all
    else if name = "full" ∧ verb = .hash then g.setFull.map .all
    else if name = "help" then .error (.help (.verb verb))
    else .error .misuse
  | none, some _ => .error .misuse

/-- Letters behind one dash.  What is behind `o` is its value. -/
def takeShort (verb : Verb) (g : Given) : List Char → Except Ending Taken
  | [] => .ok (.all g)
  | 'v' :: cs => do takeShort verb (← g.setVerbose) cs
  | 'h' :: _ => .error (.help (.verb verb))
  | 'o' :: cs =>
    if verb = .translate then
      match cs with
      | [] => .ok (.valueOf g .output)
      | '=' :: cs => (g.set .output (String.ofList cs)).map .all
      | cs => (g.set .output (String.ofList cs)).map .all
    else .error .misuse
  | _ => .error .misuse

def takeForm (verb : Verb) (g : Given) : Form → Except Ending Taken
  | .long name value => takeLong verb g name value
  | .short letters => takeShort verb g letters
  | .plain text => (g.setInput text).map .all
  | .separator => .ok (.all g)

/-- Arguments behind a verb, in any order.  The value of an option does not look
like an option. -/
def verbArgs (verb : Verb) : Given → List String → Except Ending Given
  | g, [] => .ok g
  | g, arg :: rest =>
    match formOf arg with
    | .separator => rest.foldlM Given.setInput g
    | form =>
      match takeForm verb g form with
      | .error e => .error e
      | .ok (.all g) => verbArgs verb g rest
      | .ok (.valueOf g o) =>
        match rest with
        | [] => .error .misuse
        | value :: rest =>
          match formOf value with
          | .plain text =>
            match g.set o text with
            | .ok g => verbArgs verb g rest
            | .error e => .error e
          | _ => .error .misuse

def ofGiven (verb : Verb) (verbose : Bool) (g : Given) : Request :=
  match g.input with
  | none => .misuse
  | some input => .run {
      action := match verb with
        | .translate => .translate g.output
        | .check => .check
        | .hash => .hash g.full
      input := input
      overrides := ⟨g.name, g.dynamic, g.independent, g.dependent, g.format⟩
      verbose := verbose || g.verbose }

def ofEnding : Ending → Request
  | .version => .version
  | .help topic => .help topic
  | .misuse => .misuse

/-- Letters before a verb; the answer is whether logging is asked for. -/
def leadingShort (verbose : Bool) : List Char → Except Ending Bool
  | [] => .ok verbose
  | 'v' :: cs => if verbose then .error .misuse else leadingShort true cs
  | 'h' :: _ => .error (.help .program)
  | 'V' :: _ => .error .version
  | _ => .error .misuse

def leadingLong (verbose : Bool) (name : String) : Except Ending Bool :=
  if name = "verbose" then if verbose then .error .misuse else .ok true
  else if name = "help" then .error (.help .program)
  else if name = "version" then .error .version
  else .error .misuse

/-- Read a command line from the verb on, or from the options before it. -/
def readArgs (verbose : Bool) : List String → Request
  | [] => .misuse
  | arg :: rest =>
    match formOf arg with
    | .long name none =>
      match leadingLong verbose name with
      | .ok v => readArgs v rest
      | .error e => ofEnding e
    | .short letters =>
      match leadingShort verbose letters with
      | .ok v => readArgs v rest
      | .error e => ofEnding e
    | .plain "help" =>
      match rest with
      | [] => .help .program
      | [name] => ((Topic.ofName? name).map .help).getD .misuse
      | _ => .misuse
    | .plain text =>
      match Verb.ofName? text with
      | none => .misuse
      | some verb =>
        match verbArgs verb {} rest with
        | .ok g => ofGiven verb verbose g
        | .error e => ofEnding e
    | _ => .misuse

end Command

/-- Read a command line. -/
def Request.ofArgs (args : List String) : Request := Command.readArgs false args

end SsaGraph

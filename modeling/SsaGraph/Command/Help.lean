import SsaGraph.Command

/-!
What the program says about itself.  Help is a page for each topic: a title, the
usage, and sections of entries whose explanations are aligned.
-/

namespace SsaGraph

def programName : String := "ir2graph"

def versionText : String := s!"{programName} 0.1.0\n"

/-- Something to be typed, and what it means. -/
structure HelpEntry where
  form : String
  meaning : String
  deriving DecidableEq, Repr

structure HelpSection where
  title : String
  entries : List HelpEntry
  deriving DecidableEq, Repr

namespace HelpSection

/-- Width of the widest form. -/
def width (h : HelpSection) : Nat := (h.entries.map (·.form.length)).foldl max 0

def lines (h : HelpSection) : List String :=
  s!"{h.title}:" :: h.entries.map fun e =>
    let form := String.ofList (e.form.toList.rightpad h.width ' ')
    s!"  {form}  {e.meaning}"

end HelpSection

structure HelpPage where
  title : String
  /-- What may follow the name of the program. -/
  usage : String
  sections : List HelpSection
  deriving DecidableEq, Repr

def HelpPage.text (p : HelpPage) : String :=
  let parts := [p.title] :: [s!"Usage: {programName} {p.usage}"] :: p.sections.map (·.lines)
  String.intercalate "\n\n" (parts.map (String.intercalate "\n")) ++ "\n"

namespace Verb

def summary : Verb → String
  | translate => "Translate a function and print or save its graph"
  | check => "Translate a function and report only success or the error"
  | hash => "Print the content fingerprint of the translated graph"

/-- Options that other verbs do not have. -/
def ownOptions : Verb → List HelpEntry
  | translate =>
    [⟨"    --format <FORMAT>", "Output format: text, json or dot (default: text)"⟩,
     ⟨"-o, --output <OUTPUT>", "Output file (default: stdout)"⟩]
  | check => []
  | hash => [⟨"    --full", "Show the full 256-bit hash"⟩]

end Verb

namespace Topic

def helpSummary : String := "Print this message or the help of the given subcommand(s)"

def verboseMeaning : String := "Log pass summaries (overridden by RUST_LOG)"

def programPage : HelpPage where
  title := "Translate SSA IR functions into operator graphs"
  usage := "[OPTIONS] <COMMAND>"
  sections :=
    [⟨"Commands", [Verb.translate, .check, .hash].map (fun v => ⟨v.name, v.summary⟩) ++
        [⟨"help", helpSummary⟩]⟩,
     ⟨"Options",
       [⟨"-v, --verbose", verboseMeaning⟩,
        ⟨"-h, --help", "Print help"⟩,
        ⟨"-V, --version", "Print version"⟩]⟩]

def verbPage (v : Verb) : HelpPage where
  title := v.summary
  usage := s!"{v.name} [OPTIONS] <INPUT>"
  sections :=
    [⟨"Arguments", [⟨"<INPUT>", "Input IR file (.ll)"⟩]⟩,
     ⟨"Options",
       [⟨"    --name <NAME>", "Function to translate (default: manifest name, or the only function)"⟩,
        ⟨"-v, --verbose", verboseMeaning⟩,
        ⟨"    --dynamic <DYNAMIC>",
          "Number of dynamic parameters (leading entries of the input buffer)"⟩,
        ⟨"    --variables <VARIABLES>", "Number of independent variables"⟩,
        ⟨"    --dependent <DEPENDENT>", "Number of dependent variables"⟩] ++
       v.ownOptions ++ [⟨"-h, --help", "Print help"⟩]⟩]

def helpPage : HelpPage where
  title := helpSummary
  usage := "help [COMMAND]..."
  sections := [⟨"Arguments", [⟨"[COMMAND]...", "Print help for the subcommand(s)"⟩]⟩]

def page : Topic → HelpPage
  | program => programPage
  | verb v => verbPage v
  | help => helpPage

end Topic
end SsaGraph

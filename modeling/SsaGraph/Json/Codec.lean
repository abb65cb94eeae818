import SsaGraph.Binary64.Style
import SsaGraph.Codec
import SsaGraph.Json

/-!
Documents in JSON, with one item to a line.
-/

namespace SsaGraph
namespace Json

/-! ## Writing -/

/-- Shortest digits, positional from `1e-5` up to `1e16`; a number without
digits is `null`. -/
def numberStyle : NumberStyle where
  low := -5
  high := 16
  plusSign := true
  tie := .even
  infinity := "null"
  minusInfinity := "null"
  nan := "null"

def writeScalar : Scalar → String
  | .text s => quote s
  | .count n => toString n
  | .number x => numberStyle.write x
  | .tag name => quote name

/-- A list that starts on a line with the given blanks in front. -/
def writeList (indent : String) (items : List String) : String :=
  if items.isEmpty then "[]"
  else
    let body := String.intercalate s!",\n{indent}  " items
    s!"[\n{indent}  {body}\n{indent}]"

def writeValue (indent : String) : FieldValue → String
  | .scalar s => writeScalar s
  | .list items => writeList indent (items.map writeScalar)

def writeMember (m : String × String) : String := s!"  {quote m.1}: {m.2}"

def writeObject (members : List (String × String)) : String :=
  if members.isEmpty then "\x7b\x7d"
  else
    let body := String.intercalate ",\n" (members.map writeMember)
    s!"\x7b\n{body}\n\x7d"

def write : Document → String
  | .value v => writeValue "" v
  | .record fields => writeObject (fields.map fun f => (f.1, writeValue "  " f.2))

/-! ## Reading -/

def text? : Json → Option String
  | .string s => s
  | _ => none

def count? : Json → Option Nat
  | .number n => n.count?
  | _ => none

def float? : Json → Option Binary64
  | .number n => n.float?
  | _ => none

/-- A name, or an object that maps the name to `null`. -/
def tag? : Json → Option String
  | .string s => s
  | .object [(key, .null)] => key
  | _ => none

def list? : Json → Option (List Json)
  | .array items => some items
  | _ => none

/-- The only member with the given key. -/
def onlyMember? (members : List (String × Json)) (key : String) : Option Json :=
  match members.filter fun m => m.1 == key with
  | [m] => some m.2
  | _ => none

/-- The fields of an object, whose other members are ignored, or those of an array that
holds nothing else. -/
def record? (names : List String) : Json → Option (List Json)
  | .object members => do
    let members ← members.mapM fun m => m.1.map fun key => (key, m.2)
    names.mapM (onlyMember? members)
  | .array fields => if fields.length = names.length then some fields else none
  | _ => none

def codec : Codec where
  Value := Json
  write := write
  read? := read?
  text? := text?
  count? := count?
  number? := float?
  tag? := tag?
  list? := list?
  record? := record?

end Json
end SsaGraph

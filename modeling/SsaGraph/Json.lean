import SsaGraph.Json.Numeral

/-!
JSON values, and reading them from a text.  Reading checks the syntax only:
whether a numeral is in range, and whether the halves of escaped characters
match, matters to whoever uses the value.
-/

namespace SsaGraph

inductive Json where
  | null
  | bool (b : Bool)
  | number (n : Json.Numeral)
  /-- A string; none if it has an escaped half of a character. -/
  | string (s : Option String)
  | array (items : List Json)
  | object (members : List (Option String × Json))

namespace Json

/-! ## Strings -/

/-- The character of a short escape. -/
def escaped? : Char → Option Char
  | '"' => some '"'
  | '\\' => some '\\'
  | '/' => some '/'
  | 'b' => some '\x08'
  | 'f' => some '\x0c'
  | 'n' => some '\n'
  | 'r' => some '\r'
  | 't' => some '\t'
  | _ => none

/-- The codes of a string up to its closing quote, and what follows.  An escaped
code may be half of a character. -/
def codes : List Char → Option (List Nat × List Char)
  | [] => none
  | '"' :: rest => some ([], rest)
  | '\\' :: 'u' :: a :: b :: c :: d :: rest =>
    match Digits.hexBelow? (1 <<< 16) [a, b, c, d], codes rest with
    | some n, some (ns, rest) => some (n :: ns, rest)
    | _, _ => none
  | '\\' :: e :: rest =>
    match escaped? e, codes rest with
    | some c, some (ns, rest) => some (c.toNat :: ns, rest)
    | _, _ => none
  | c :: rest =>
    if c.toNat < 32 then none
    else (codes rest).map fun r => (c.toNat :: r.1, r.2)

def isHigh (n : Nat) : Bool := 0xD800 ≤ n && n < 0xDC00

def isLow (n : Nat) : Bool := 0xDC00 ≤ n && n < 0xE000

/-- Characters of codes.  Two halves that follow each other are one character;
a half alone is none. -/
def characters? : List Nat → Option (List Char)
  | [] => some []
  | n :: rest =>
    if isHigh n then
      match rest with
      | m :: rest =>
        if isLow m then
          (characters? rest).map (Char.ofNat (0x10000 + (n - 0xD800) * 0x400 + (m - 0xDC00)) :: ·)
        else none
      | [] => none
    else if isLow n then none
    else (characters? rest).map (Char.ofNat n :: ·)

/-! ## Tokens -/

inductive Tok where
  | lbrace | rbrace | lbracket | rbracket | comma | colon
  | null
  | bool (b : Bool)
  | number (n : Numeral)
  | string (s : Option String)

def isSpace (c : Char) : Bool := c == ' ' || c == '\n' || c == '\t' || c == '\r'

def punctuation? : Char → Option Tok
  | '\x7b' => some .lbrace
  | '\x7d' => some .rbrace
  | '[' => some .lbracket
  | ']' => some .rbracket
  | ',' => some .comma
  | ':' => some .colon
  | _ => none

def word? : List Char → Option Tok
  | ['n', 'u', 'l', 'l'] => some .null
  | ['t', 'r', 'u', 'e'] => some (.bool true)
  | ['f', 'a', 'l', 's', 'e'] => some (.bool false)
  | _ => none

/-- Digits after a point, and what follows; a point needs a digit. -/
def fraction? (cs : List Char) : Option (List Char × List Char) :=
  match cs with
  | '.' :: rest =>
    match rest.takeWhile Char.isDigit with
    | [] => none
    | ds => some (ds, rest.drop ds.length)
  | _ => some ([], cs)

/-- An exponent, and what follows; its letter needs a digit. -/
def exponent? (cs : List Char) : Option (Option (Bool × List Char) × List Char) :=
  match cs with
  | [] => some (none, [])
  | e :: rest =>
    if e == 'e' || e == 'E' then
      let sign := (rest.take 1).filter fun c => c == '+' || c == '-'
      let rest := rest.drop sign.length
      match rest.takeWhile Char.isDigit with
      | [] => none
      | ds => some (some (sign == ['-'], ds), rest.drop ds.length)
    else some (none, cs)

/-- A numeral without its sign, and what follows.  Only a lone zero starts with
a zero. -/
def numeral? (negative : Bool) (cs : List Char) : Option (Numeral × List Char) := do
  let whole := cs.takeWhile Char.isDigit
  if whole.isEmpty || (whole.head? == some '0' && whole.length ≠ 1) then none
  else
    let (fraction, rest) ← fraction? (cs.drop whole.length)
    let (exponent, rest) ← exponent? rest
    some (⟨negative, whole, fraction, exponent⟩, rest)

/-- The token that starts with `c`, and what follows it. -/
def token? (c : Char) (cs : List Char) : Option (Tok × List Char) :=
  if let some t := punctuation? c then some (t, cs)
  else if c == '"' then
    (codes cs).map fun r => (.string ((characters? r.1).map String.ofList), r.2)
  else if c == '-' then (numeral? true cs).map fun r => (.number r.1, r.2)
  else if c.isDigit then (numeral? false (c :: cs)).map fun r => (.number r.1, r.2)
  else
    let letters := cs.takeWhile Char.isAlpha
    (word? (c :: letters)).map fun t => (t, cs.drop letters.length)

/-- All tokens of a text.  A token that leaves nothing shorter than what was
there before it does not exist. -/
def tokens? : List Char → Option (List Tok)
  | [] => some []
  | c :: cs =>
    if isSpace c then tokens? cs
    else
      match token? c cs with
      | none => none
      | some (t, rest) =>
        if rest.length ≤ cs.length then (tokens? rest).map (t :: ·) else none
termination_by cs => cs.length

/-! ## Values -/

mutual

/-- A value, and what follows it.  `depth` bounds the steps. -/
def value? : Nat → List Tok → Option (Json × List Tok)
  | 0, _ => none
  | depth + 1, ts =>
    match ts with
    | .null :: ts => some (.null, ts)
    | .bool b :: ts => some (.bool b, ts)
    | .number n :: ts => some (.number n, ts)
    | .string s :: ts => some (.string s, ts)
    | .lbracket :: .rbracket :: ts => some (.array [], ts)
    | .lbracket :: ts => (items? depth ts).map fun r => (.array r.1, r.2)
    | .lbrace :: .rbrace :: ts => some (.object [], ts)
    | .lbrace :: ts => (members? depth ts).map fun r => (.object r.1, r.2)
    | _ => none

/-- The items of an array up to its closing bracket. -/
def items? : Nat → List Tok → Option (List Json × List Tok)
  | 0, _ => none
  | depth + 1, ts =>
    match value? depth ts with
    | some (v, .comma :: ts) => (items? depth ts).map fun r => (v :: r.1, r.2)
    | some (v, .rbracket :: ts) => some ([v], ts)
    | _ => none

/-- The members of an object up to its closing brace. -/
def members? : Nat → List Tok → Option (List (Option String × Json) × List Tok)
  | 0, _ => none
  | depth + 1, ts =>
    match ts with
    | .string key :: .colon :: ts =>
      match value? depth ts with
      | some (v, .comma :: ts) => (members? depth ts).map fun r => ((key, v) :: r.1, r.2)
      | some (v, .rbrace :: ts) => some ([(key, v)], ts)
      | _ => none
    | _ => none

end

/-- Read a text that holds one value.  Each token allows two steps. -/
def read? (text : String) : Option Json := do
  let ts ← tokens? text.toList
  match value? (2 * ts.length + 1) ts with
  | some (v, []) => some v
  | _ => none

/-! ## Writing -/

/-- A character inside a written string. -/
def escape (c : Char) : List Char :=
  if c == '"' then ['\\', '"']
  else if c == '\\' then ['\\', '\\']
  else if c == '\x08' then ['\\', 'b']
  else if c == '\x0c' then ['\\', 'f']
  else if c == '\n' then ['\\', 'n']
  else if c == '\r' then ['\\', 'r']
  else if c == '\t' then ['\\', 't']
  else if c.toNat < 32 then '\\' :: 'u' :: Digits.hex 4 c.toNat
  else [c]

def quote (s : String) : String := String.ofList ('"' :: s.toList.flatMap escape ++ ['"'])

end Json
end SsaGraph

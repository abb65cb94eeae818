import SsaGraph.Span
import SsaGraph.SyntaxError

/-!
Tokens of a text.  The text is cut into pieces, one after the other without
gaps: a piece is a token, something skipped, or a fault.  A piece is read from
its first character and what follows, and reports how many further characters
it takes, so the pieces put together are the text.
-/

namespace SsaGraph
namespace Token

def isNameChar (c : Char) : Bool :=
  c.isAlphanum || c == '_' || c == '.' || c == '$' || c == '-'

def isWordStart (c : Char) : Bool :=
  c.isAlpha || c == '_' || c == '.' || c == '$'

/-- Characters between tokens.  A line feed is none of them, it is a token. -/
def isBlank (c : Char) : Bool :=
  c == ' ' || c == '\t' || c == '\r' || c == '\x0c'

/-- Characters that may stand between double quotes. -/
def isQuotable (c : Char) : Bool :=
  c != '"' && c != '\n'

def punctuation? : Char → Option Token
  | '\n' => some newline
  | '(' => some lparen
  | ')' => some rparen
  | '\x7b' => some lbrace
  | '\x7d' => some rbrace
  | '[' => some lbracket
  | ']' => some rbracket
  | '<' => some langle
  | '>' => some rangle
  | ',' => some comma
  | '=' => some equals
  | ':' => some colon
  | '*' => some star
  | _ => none

/-- A stretch of text, and how many characters it takes beyond its first. -/
inductive Piece where
  | skipped (more : Nat)
  | token (t : Token) (more : Nat)
  /-- A token that is also reported. -/
  | flawed (t : Token) (e : SyntaxError) (more : Nat)
  | fault (e : SyntaxError) (more : Nat)
  /-- A character that starts nothing.  Each of its bytes is a fault. -/
  | stray
  deriving DecidableEq, Repr

namespace Piece

def more : Piece → Nat
  | skipped n | token _ n | flawed _ _ n | fault _ n => n
  | stray => 0

end Piece

/-- The text between quotes, and how many characters it takes with the closing
quote.  A line end closes it too, and is not taken. -/
def quoted (cs : List Char) : String × Nat × Bool :=
  let body := cs.takeWhile isQuotable
  let closed := (cs.drop body.length).head? == some '"'
  (String.ofList body, if closed then body.length + 1 else body.length, closed)

/-- A name after its sigil: quoted, or made of name characters. -/
def name (cs : List Char) : String × Nat :=
  match cs with
  | '"' :: rest =>
    let (text, taken, _) := quoted rest
    (text, taken + 1)
  | _ =>
    let body := cs.takeWhile isNameChar
    (String.ofList body, body.length)

/-- Digits after a decimal point.  The point belongs to the number only when a
digit follows it. -/
def fraction? (cs : List Char) : Option (List Char) :=
  match cs with
  | '.' :: rest =>
    match rest.takeWhile Char.isDigit with
    | [] => none
    | ds => some ds
  | _ => none

/-- Sign and digits of an exponent.  The letter belongs to the number only when
an exponent follows it. -/
def exponent? (cs : List Char) : Option (List Char × List Char) :=
  match cs with
  | e :: rest =>
    if e == 'e' || e == 'E' then
      let sign := (rest.take 1).filter fun c => c == '+' || c == '-'
      match (rest.drop sign.length).takeWhile Char.isDigit with
      | [] => none
      | ds => some (sign, ds)
    else none
  | [] => none

/-- A literal in hexadecimal is the bit pattern of a floating point number. -/
def hexadecimal (cs : List Char) : Piece :=
  let digits := cs.takeWhile Digits.isHex
  match Digits.hexBelow? (1 <<< 64) digits with
  | some bits => .token (.float ⟨UInt64.ofNat bits⟩) (digits.length + 1)
  | none => .fault (.badHexadecimal (String.ofList digits)) (digits.length + 1)

/-- A decimal literal.  `negative` says that a sign, the first character, has
been taken from `cs`; otherwise the first character is a digit of `cs`. -/
def decimal (negative : Bool) (cs : List Char) : Piece :=
  let whole := cs.takeWhile Char.isDigit
  let afterWhole := cs.drop whole.length
  let fraction := fraction? afterWhole
  let fractionSize := (fraction.map fun ds => ds.length + 1).getD 0
  let exponent := exponent? (afterWhole.drop fractionSize)
  let exponentSize := (exponent.map fun e => e.1.length + e.2.length + 1).getD 0
  let size := whole.length + fractionSize + exponentSize
  let more := if negative then size else size - 1
  if fraction.isNone && exponent.isNone then
    match Digits.natBelow? (1 <<< 64) whole with
    | some n => .token (.int (if negative then 0 - UInt64.ofNat n else UInt64.ofNat n)) more
    | none =>
      .fault (.badNumber (String.ofList (if negative then '-' :: whole else whole))) more
  else
    let fractionDigits := fraction.getD []
    let power : Int := match exponent with
      | none => 0
      | some (sign, ds) => if sign == ['-'] then - (Digits.value 10 ds : Int) else Digits.value 10 ds
    let value := Binary64.ofDecimal negative (Digits.value 10 (whole ++ fractionDigits))
      (power - fractionDigits.length)
    .token (.float value) more

/-- The piece that starts with `c` and goes on in `cs`. -/
def piece (c : Char) (cs : List Char) : Piece :=
  if c == ';' then .skipped (cs.takeWhile (· != '\n')).length
  else if isBlank c then .skipped 0
  else if let some t := punctuation? c then .token t 0
  else if c == '%' || c == '@' then
    let (text, taken) := name cs
    if text.isEmpty then .fault (.missingName c) taken
    else .token (if c == '%' then .loc text else .glob text) taken
  else if c == '#' || c == '!' then
    let (text, taken) := name cs
    .token (if c == '#' then .attr text else .metadata text) taken
  else if c == '"' then
    let (text, taken, closed) := quoted cs
    if closed then .token (.str text) taken else .flawed (.str text) .unterminatedString taken
  else if c == '.' && cs.take 2 == ['.', '.'] then .token .ellipsis 2
  else if c.isDigit then
    if c == '0' && cs.head? == some 'x' then hexadecimal (cs.drop 1) else decimal false (c :: cs)
  else if c == '-' && (cs.head?.any Char.isDigit) then decimal true cs
  else if isWordStart c then
    let body := cs.takeWhile isNameChar
    .token (.word (String.ofList (c :: body))) body.length
  else .stray

/-! ## The whole text -/

/-- Number of bytes of the characters in UTF-8. -/
def byteLength (cs : List Char) : Nat :=
  cs.foldl (fun n c => n + c.utf8Size) 0

/-- What the pieces of a text give: its tokens and its faults, each in the order
of the text. -/
structure Scan where
  tokens : List (Located Token)
  faults : List (Located SyntaxError)
  deriving DecidableEq, Repr

/-- One fault for each byte of a character, named by the character with that
code. -/
def strayFaults (c : Char) (offset : Nat) : List (Located SyntaxError) :=
  (String.utf8EncodeChar c).mapIdx fun i b =>
    ⟨.unexpectedCharacter (Char.ofNat b.toNat), .ofOffsets (offset + i) (offset + i + 1)⟩

/-- Put what a piece gives in front.  The piece takes the bytes from `start` to `stop`. -/
def Piece.onto (p : Piece) (c : Char) (start stop : Nat) (s : Scan) : Scan :=
  let span := .ofOffsets start stop
  match p with
  | .skipped _ => s
  | .token t _ => { s with tokens := ⟨t, span⟩ :: s.tokens }
  | .flawed t e _ => { tokens := ⟨t, span⟩ :: s.tokens, faults := ⟨e, span⟩ :: s.faults }
  | .fault e _ => { s with faults := ⟨e, span⟩ :: s.faults }
  | .stray => { s with faults := strayFaults c start ++ s.faults }

/-- Scan the characters `cs`, the first of which is byte `start` of the text.
The last token marks the end. -/
def scanFrom (start : Nat) : List Char → Scan
  | [] => ⟨[⟨.eof, .ofOffsets start start⟩], []⟩
  | c :: cs =>
    let p := piece c cs
    let stop := start + c.utf8Size + byteLength (cs.take p.more)
    p.onto c start stop (scanFrom stop (cs.drop p.more))
termination_by cs => cs.length
decreasing_by simp only [List.length_drop, List.length_cons]; omega

def scan (text : String) : Scan := scanFrom 0 text.toList

end Token
end SsaGraph

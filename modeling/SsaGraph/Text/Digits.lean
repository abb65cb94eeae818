/-!
Positional numerals.  Reading is a fold over the digits; the bounded readers
refuse a numeral that does not fit the width asked for.
-/

namespace SsaGraph
namespace Digits

/-- Value of a digit up to base sixteen; a character that is no digit counts
zero. -/
def digit (c : Char) : Nat :=
  if c.isDigit then c.toNat - '0'.toNat
  else if 'a' ≤ c ∧ c ≤ 'f' then c.toNat - 'a'.toNat + 10
  else if 'A' ≤ c ∧ c ≤ 'F' then c.toNat - 'A'.toNat + 10
  else 0

def isHex (c : Char) : Bool :=
  c.isDigit || ('a' ≤ c && c ≤ 'f') || ('A' ≤ c && c ≤ 'F')

/-- The number a digit string denotes in base `b`. -/
def value (b : Nat) (cs : List Char) : Nat :=
  cs.foldl (fun n c => n * b + digit c) 0

theorem value_append (b : Nat) (cs : List Char) (c : Char) :
    value b (cs ++ [c]) = value b cs * b + digit c := by
  simp [value]

/-- A non-empty string of decimal digits whose value is below `limit`. -/
def natBelow? (limit : Nat) (cs : List Char) : Option Nat :=
  if cs ≠ [] ∧ cs.all Char.isDigit ∧ value 10 cs < limit then some (value 10 cs) else none

/-- As `natBelow?`, with an optional plus sign in front. -/
def signedBelow? (limit : Nat) : List Char → Option Nat
  | '+' :: cs => natBelow? limit cs
  | cs => natBelow? limit cs

/-- A non-empty string of hexadecimal digits whose value is below `limit`. -/
def hexBelow? (limit : Nat) (cs : List Char) : Option Nat :=
  if cs ≠ [] ∧ cs.all isHex ∧ value 16 cs < limit then some (value 16 cs) else none

/-- Lower-case hexadecimal digit of a number below sixteen. -/
def hexDigit (n : Nat) : Char :=
  if n < 10 then Char.ofNat ('0'.toNat + n) else Char.ofNat ('a'.toNat + (n - 10))

/-- The last `width` hexadecimal digits of `n`. -/
def hex : Nat → Nat → List Char
  | 0, _ => []
  | width + 1, n => hex width (n / 16) ++ [hexDigit (n % 16)]

/-- Number of decimal digits; zero has none. -/
def count (n : Nat) : Nat :=
  if n = 0 then 0 else n.repr.length

end Digits
end SsaGraph

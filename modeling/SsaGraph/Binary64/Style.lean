import SsaGraph.Binary64.Decimal

/-!
Written forms of binary64 numbers.  A style decides where positional digits
end, how an exponent is written and what stands for the numbers without digits.
-/

namespace SsaGraph

/-- Numbers `0.d₁d₂… · 10 ^ p` with `low < p ≤ high` are written positionally,
with at least one digit after the point; the others with an exponent. -/
structure NumberStyle where
  low : Int
  high : Int
  plusSign : Bool
  tie : Tie
  infinity : String
  minusInfinity : String
  nan : String

namespace NumberStyle

/-- Shortest digits, positional from `1e-4` up to `1e16`. -/
def plain : NumberStyle where
  low := -4
  high := 16
  plusSign := false
  tie := .up
  infinity := "inf"
  minusInfinity := "-inf"
  nan := "NaN"

def positional (d : Decimal) : List Char :=
  match d.point with
  | .ofNat p =>
    if p = 0 then '0' :: '.' :: d.digits
    else if d.digits.length ≤ p then
      d.digits ++ List.replicate (p - d.digits.length) '0' ++ ['.', '0']
    else d.digits.take p ++ '.' :: d.digits.drop p
  | .negSucc k => '0' :: '.' :: List.replicate (k + 1) '0' ++ d.digits

def exponential (style : NumberStyle) (d : Decimal) : List Char :=
  let e := d.point - 1
  let mark := if e < 0 then ['e', '-'] else if style.plusSign then ['e', '+'] else ['e']
  let fraction := match d.digits.drop 1 with
    | [] => []
    | ds => '.' :: ds
  d.digits.take 1 ++ fraction ++ mark ++ e.natAbs.repr.toList

def digits (style : NumberStyle) (d : Decimal) : List Char :=
  if style.low < d.point ∧ d.point ≤ style.high then positional d else style.exponential d

def write (style : NumberStyle) (x : Binary64) : String :=
  if x.isNaN then style.nan
  else if !x.isFinite then if x.negative then style.minusInfinity else style.infinity
  else
    let body := if x.isZero then ['0', '.', '0'] else style.digits (x.shortest style.tie)
    String.ofList (if x.negative then '-' :: body else body)

end NumberStyle

/-- The number as it stands in messages and listings. -/
def Binary64.text (x : Binary64) : String := NumberStyle.plain.write x

end SsaGraph

import SsaGraph.Binary64
import SsaGraph.Text.Digits

/-!
Numbers in JSON texts.  A numeral is kept as it is written; what it stands for
depends on the kind of number that is asked for.
-/

namespace SsaGraph
namespace Json

structure Numeral where
  negative : Bool
  whole : List Char
  /-- Digits after the point; there is no point without them. -/
  fraction : List Char
  /-- Whether the exponent is negative, and its digits. -/
  exponent : Option (Bool × List Char)
  deriving DecidableEq, Repr

namespace Numeral

/-- A count: an integer from 0 to `2 ^ 64 - 1`, without sign, point or
exponent. -/
def count? (n : Numeral) : Option Nat :=
  if n.negative || !n.fraction.isEmpty || n.exponent.isSome then none
  else Digits.natBelow? (1 <<< 64) n.whole

/-! ## Floating point numbers

The digits go into a 64-bit integer as long as they fit, and the number is that
integer, rounded, times or over a power of ten, rounded.  Two roundings may not
give the nearest number. -/

/-- A significand and the power of ten it is to be multiplied with. -/
structure Parts where
  significand : Nat
  power : Int
  deriving DecidableEq, Repr

/-- Digits before the point.  From the first one that does not fit, each digit
counts only as a factor of ten. -/
def wholeParts : Nat → List Char → Parts
  | sig, [] => ⟨sig, 0⟩
  | sig, c :: cs =>
    if sig * 10 + Digits.digit c < 1 <<< 64 then wholeParts (sig * 10 + Digits.digit c) cs
    else ⟨sig, (cs.length + 1 : Nat)⟩

/-- Digits after the point, up to the first one that does not fit. -/
def fractionParts : Parts → List Char → Parts
  | p, [] => p
  | p, c :: cs =>
    if p.significand * 10 + Digits.digit c < 1 <<< 64 then
      fractionParts ⟨p.significand * 10 + Digits.digit c, p.power - 1⟩ cs
    else p

def powerOfTen (k : Nat) : Binary64 := Binary64.ofNat false (Nat.pow 10 k)

/-- Over `10 ^ k`, in steps of at most 308. -/
def divide (x : Binary64) (k : Nat) : Binary64 :=
  if k ≤ 308 then x.scaleDown (powerOfTen k)
  else if x.isZero then x
  else divide (x.scaleDown (powerOfTen 308)) (k - 308)
termination_by k

/-- Times `10 ^ k`, if that is finite. -/
def multiply? (x : Binary64) (k : Nat) : Option Binary64 :=
  if k ≤ 308 then
    let y := x.scaleUp (powerOfTen k)
    if y.isFinite then some y else none
  else if x.isZero then some x
  else none

def ofParts? (negative : Bool) (p : Parts) : Option Binary64 :=
  let x := Binary64.ofNat negative p.significand
  match p.power with
  | .ofNat k => multiply? x k
  | .negSucc k => some (divide x (k + 1))

/-- The largest exponent that is worked with. -/
def maxExponent : Nat := 1 <<< 31 - 1

/-- The floating point number, if it is finite. -/
def float? (n : Numeral) : Option Binary64 :=
  let p := fractionParts (wholeParts 0 n.whole) n.fraction
  match n.exponent with
  | none => ofParts? n.negative p
  | some (down, ds) =>
    let e := Digits.value 10 ds
    if maxExponent < e then
      if down || p.significand = 0 then some (Binary64.ofMagnitude n.negative 0) else none
    else ofParts? n.negative ⟨p.significand, if down then p.power - e else p.power + e⟩

end Numeral
end Json
end SsaGraph

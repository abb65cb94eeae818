/-!
IEEE 754 binary64 numbers as bit patterns.  A finite magnitude is
`significand · 2 ^ scale` in units of `2 ^ (-1074)`, the least positive number,
so every computation below is in natural numbers.
-/

namespace SsaGraph

/-- A binary64 number by its bits, so that signed zeros and the payloads of
NaNs are kept apart. -/
structure Binary64 where
  bits : UInt64
  deriving DecidableEq, Repr

namespace Binary64

/-- The bits without the sign.  They order the magnitudes. -/
def magnitude (x : Binary64) : Nat := x.bits.toNat % (1 <<< 63)

def negative (x : Binary64) : Bool := 1 <<< 63 ≤ x.bits.toNat

/-- Magnitude bits of infinity. -/
def infinity : Nat := 2047 <<< 52

def isFinite (x : Binary64) : Bool := x.magnitude < infinity

def isNaN (x : Binary64) : Bool := infinity < x.magnitude

def isZero (x : Binary64) : Bool := x.magnitude == 0

def ofMagnitude (negative : Bool) (magnitude : Nat) : Binary64 :=
  ⟨UInt64.ofNat (magnitude + if negative then 1 <<< 63 else 0)⟩

/-- The integer significand: below `2 ^ 52` for subnormal numbers, otherwise
with the leading bit restored. -/
def significand (x : Binary64) : Nat :=
  if x.magnitude < 1 <<< 52 then x.magnitude else x.magnitude % (1 <<< 52) + 1 <<< 52

/-- Exponent of the unit in the last place, counted from `2 ^ (-1074)`. -/
def scale (x : Binary64) : Nat := x.magnitude >>> 52 - 1

/-- Numerator of a finite magnitude over the denominator `2 ^ 1074`. -/
def numerator (x : Binary64) : Nat := x.significand <<< x.scale

/-! ## Rounding -/

/-- The quotient rounded to the nearest integer, a half to the even one. -/
def divRoundEven (n d : Nat) : Nat :=
  if 2 * (n % d) < d then n / d
  else if d < 2 * (n % d) then n / d + 1
  else n / d + n / d % 2

/-- Magnitude bits of the number nearest to `num / den`, a half to the even
significand.  Consecutive scales meet in the bit pattern, so a significand that
rounds up to `2 ^ 53` carries into the exponent by itself. -/
def roundRatio (num den : Nat) : Nat :=
  let shift := ((num <<< 1074) / den).log2 - 52
  min infinity (shift <<< 52 + divRoundEven (num <<< 1074) (den <<< shift))

def ofRatio (negative : Bool) (num den : Nat) : Binary64 :=
  ofMagnitude negative (roundRatio num den)

def ofNat (negative : Bool) (n : Nat) : Binary64 := ofRatio negative n 1

/-- The two's complement integer with the given 64 bits. -/
def ofInt64 (n : UInt64) : Binary64 :=
  if n.toNat < 1 <<< 63 then ofNat false n.toNat else ofNat true (1 <<< 64 - n.toNat)

/-- The number nearest to the magnitude of `x` times that of `y`, with the sign
of `x`. -/
def scaleUp (x y : Binary64) : Binary64 :=
  ofRatio x.negative (x.numerator * y.numerator) (1 <<< 2148)

/-- The number nearest to the magnitude of `x` over that of `y`, with the sign
of `x`. -/
def scaleDown (x y : Binary64) : Binary64 :=
  ofRatio x.negative x.numerator y.numerator

end Binary64
end SsaGraph

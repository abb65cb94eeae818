import SsaGraph.Binary64
import SsaGraph.Text.Digits

/-!
Decimal fractions and binary64 numbers: the number nearest to a decimal, and
the shortest decimal that reads back.
-/

namespace SsaGraph

/-- The value `0.d₁d₂… · 10 ^ point`. -/
structure Decimal where
  digits : List Char
  point : Int
  deriving DecidableEq, Repr

/-- Which of two equally near shortest decimals is taken. -/
inductive Tie where
  | up
  | even
  deriving DecidableEq, Repr

namespace Binary64

/-- The number nearest to `digits · 10 ^ exponent`.  Exponents far outside the
range are settled by size, so that no large power is formed for them. -/
def ofDecimal (negative : Bool) (digits : Nat) (exponent : Int) : Binary64 :=
  let size : Int := Digits.count digits + exponent
  if digits = 0 ∨ size < -330 then ofMagnitude negative 0
  else if 310 < size then ofMagnitude negative infinity
  else match exponent with
    | .ofNat k => ofRatio negative (digits * Nat.pow 10 k) 1
    | .negSucc k => ofRatio negative digits (Nat.pow 10 (k + 1))

/-! ## Shortest decimals -/

/-- The least `p` with `num / den < 10 ^ p`, for a positive fraction. -/
def decimalPoint (num den : Nat) : Int :=
  if den ≤ num then Digits.count (num / den) else 1 - Digits.count ((den - 1) / num)

/-- Four times the magnitude, over `2 ^ 1076`. -/
def center (x : Binary64) : Nat := 4 * x.numerator

/-- End of the interval of reals that round to `x`, in the units of `center`. -/
def upper (x : Binary64) : Nat := x.center + 2 <<< x.scale

/-- Start of that interval.  Below a power of two the spacing is halved. -/
def lower (x : Binary64) : Nat :=
  if x.significand = 1 <<< 52 ∧ 0 < x.scale then x.center - 1 <<< x.scale
  else x.center - 2 <<< x.scale

/-- Whether the real `num / den`, in the units of `center`, rounds to `x`.  The
ends belong to the interval when the significand is even. -/
def roundsTo (x : Binary64) (num den : Nat) : Bool :=
  if x.significand % 2 = 0 then x.lower * den ≤ num && num ≤ x.upper * den
  else x.lower * den < num && num < x.upper * den

/-- One of the two neighbours of `x` among the multiples of `10 ^ grid`, if it
rounds to `x`: the nearer one if both do. -/
def onGrid? (tie : Tie) (x : Binary64) (grid : Int) : Option Nat :=
  let unit := Nat.pow 10 grid.toNat <<< 1076
  let den := Nat.pow 10 (-grid).toNat
  let below := x.center * den / unit
  let excess := x.center * den % unit
  let nearest :=
    if 2 * excess < unit then below
    else if unit < 2 * excess then below + 1
    else match tie with
      | .up => below + 1
      | .even => below + below % 2
  [nearest, below, below + 1].find? fun c => x.roundsTo (c * unit) den

/-- The decimal with the fewest digits that rounds to `x`, the nearest of those.
Seventeen digits always suffice. -/
def shortest (tie : Tie) (x : Binary64) : Decimal :=
  let point := decimalPoint x.numerator (1 <<< 1074)
  let found := (List.range 17).findSome? fun k =>
    let grid := point - (k + 1 : Nat)
    (x.onGrid? tie grid).map fun c => (c.repr.toList, grid)
  match found with
  | none => ⟨[], 0⟩
  | some (ds, grid) =>
    ⟨(ds.reverse.dropWhile (· == '0')).reverse, grid + (ds.length : Nat)⟩

end Binary64
end SsaGraph

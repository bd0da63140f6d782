import DesignTokens.Numeral.Binary64

/-!
# The shortest decimal of a double-precision number

`shortest` finds, among the decimals that round to a given number, one on the coarsest decimal grid,
and of those the nearest; of two that are equally near, a `Tie` says which. The grids `10 ^ k` are
tried from the coarsest that can matter downwards; on each only the two neighbours of the number
need a test.
-/

namespace DesignTokens.Numeral

/-- A decimal: `digits · 10 ^ exponent`. -/
structure Decimal where
  digits : Nat
  exponent : Int
  deriving DecidableEq

/-- Which of two equally near decimals is taken: the one with an even last digit, or the one that is
farther from zero. -/
inductive Tie
  | toEven
  | awayFromZero
  deriving DecidableEq

/-- Of the equally near `below` and `below + 1`, the one that is taken. -/
def Tie.choose (below : Nat) : Tie → Nat
  | toEven => if below % 2 = 0 then below else below + 1
  | awayFromZero => below + 1

/-- The interval of the reals that round to `significand · 2 ^ exponent`, in quarters of
`2 ^ exponent`. The spacing below a power of two is half the spacing above it; the ends belong to
the interval when the significand is even. -/
structure Basin where
  low : Nat
  middle : Nat
  high : Nat
  closed : Bool

def basin (significand : Nat) (exponent : Int) : Basin :=
  let below := if significand = Nat.pow 2 52 ∧ Binary64.leastExponent < exponent then 1 else 2
  { low := 4 * significand - below
    middle := 4 * significand
    high := 4 * significand + 2
    closed := significand % 2 = 0 }

/-- Factors `a` and `b` such that `c · 10 ^ k` compares to `x` quarters of `2 ^ exponent` as `c · a`
compares to `x · b`. -/
def gridFactors (exponent k : Int) : Nat × Nat :=
  (Nat.pow 10 k.toNat * Nat.pow 2 (2 - exponent).toNat,
    Nat.pow 2 (exponent - 2).toNat * Nat.pow 10 (-k).toNat)

/-- The point of the grid `10 ^ k` in the interval that is nearest to its middle. -/
def gridPoint? (tie : Tie) (around : Basin) (exponent k : Int) : Option Nat :=
  let (a, b) := gridFactors exponent k
  let inside (c : Nat) : Bool :=
    if around.closed then around.low * b ≤ c * a && c * a ≤ around.high * b
    else around.low * b < c * a && c * a < around.high * b
  let below := around.middle * b / a
  let above := below + 1
  let distanceBelow := around.middle * b - below * a
  let distanceAbove := above * a - around.middle * b
  match below != 0 && inside below, inside above with
  | true, true =>
    if distanceBelow < distanceAbove then some below
    else if distanceAbove < distanceBelow then some above
    else some (tie.choose below)
  | true, false => some below
  | false, true => some above
  | false, false => none

/-- The first grid at or below `10 ^ k` with a point in the interval, at most `fuel` grids down. -/
def searchGrids (tie : Tie) (around : Basin) (exponent : Int) : Nat → Int → Decimal
  | 0, k => ⟨0, k⟩
  | fuel + 1, k =>
    match gridPoint? tie around exponent k with
    | some digits => ⟨digits, k⟩
    | none => searchGrids tie around exponent fuel (k - 1)

/-- The shortest decimal that rounds to `significand · 2 ^ exponent`. Seventeen digits always
suffice, so a point is found within twenty grids. -/
def shortest (tie : Tie) (significand : Nat) (exponent : Int) : Decimal :=
  if significand = 0 then ⟨0, 0⟩
  else
    let num := significand * Nat.pow 2 exponent.toNat
    let den := Nat.pow 2 (-exponent).toNat
    searchGrids tie (basin significand exponent) exponent 22
      ((digitCount num : Int) - (digitCount den : Int) + 1)

end DesignTokens.Numeral

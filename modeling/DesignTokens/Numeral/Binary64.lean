/-!
# Double-precision numbers

A number of the 64-bit binary format as exact data: a sign, a significand and an exponent of two, or
an infinity. `ofRatio` and `ofDecimal` round an exact quotient or decimal to the nearest such
number, a tie to the even significand; everything is computed on natural numbers.
-/

namespace DesignTokens.Numeral

/-- The quotient `num / den` rounded to the nearest natural number, a tie to the even one. -/
def roundHalfEven (num den : Nat) : Nat :=
  let quotient := num / den
  let twice := 2 * (num % den)
  if twice < den then quotient
  else if den < twice then quotient + 1
  else if quotient % 2 = 0 then quotient
  else quotient + 1

theorem roundHalfEven_near (num : Nat) {den : Nat} (h : 0 < den) :
    2 * (roundHalfEven num den * den) ≤ 2 * num + den ∧
      2 * num ≤ 2 * (roundHalfEven num den * den) + den := by
  have whole := Nat.div_add_mod num den
  have small := Nat.mod_lt num h
  unfold roundHalfEven
  generalize num / den = q at *
  generalize num % den = r at *
  have next : (q + 1) * den = den * q + den := by rw [Nat.add_mul, Nat.one_mul, Nat.mul_comm]
  have same : q * den = den * q := Nat.mul_comm ..
  simp only
  split
  · omega
  · split
    · omega
    · split <;> omega

/-- The number of decimal digits of `n`; zero has one. -/
def digitCount (n : Nat) : Nat :=
  (Nat.toDigits 10 n).length

/-- A double-precision number. The finite ones stand for `significand · 2 ^ exponent`, up to sign;
the least exponent is `-1074`, and above it the significand has all its 53 bits. -/
inductive Binary64
  | finite (negative : Bool) (significand : Nat) (exponent : Int)
  | infinite (negative : Bool)
  deriving DecidableEq

namespace Binary64

def leastExponent : Int := -1074

def greatestExponent : Int := 971

def zero (negative : Bool) : Binary64 :=
  .finite negative 0 leastExponent

/-- The number `significand · 2 ^ exponent`, an infinity when that is too large. -/
def ofScaled (negative : Bool) (significand : Nat) (exponent : Int) : Binary64 :=
  if greatestExponent < exponent then .infinite negative
  else .finite negative significand exponent

/-- The numerator and denominator of `num / den / 2 ^ exponent`. -/
def scale (num den : Nat) (exponent : Int) : Nat × Nat :=
  (num * Nat.pow 2 (-exponent).toNat, den * Nat.pow 2 exponent.toNat)

/-- The number nearest to `num / den`, a tie to the even significand. -/
def ofRatio (negative : Bool) (num den : Nat) : Binary64 :=
  if num = 0 then zero negative
  else
    let guess : Int := max leastExponent ((num.log2 : Int) - (den.log2 : Int) - 52)
    let (n, d) := scale num den guess
    let exponent := if n / d < Nat.pow 2 52 then max leastExponent (guess - 1) else guess
    let (n, d) := scale num den exponent
    let significand := roundHalfEven n d
    if significand = Nat.pow 2 53 then ofScaled negative (Nat.pow 2 52) (exponent + 1)
    else ofScaled negative significand exponent

/-- The number nearest to `digits · 10 ^ exponent`. Decimals beyond all finite numbers, or below
half of the least positive one, are told by their number of digits alone. -/
def ofDecimal (negative : Bool) (digits : Nat) (exponent : Int) : Binary64 :=
  if digits = 0 then zero negative
  else
    let magnitude := exponent + digitCount digits
    if magnitude ≤ -324 then zero negative
    else if 309 < magnitude then .infinite negative
    else ofRatio negative (digits * Nat.pow 10 exponent.toNat) (Nat.pow 10 (-exponent).toNat)

def ofInt (i : Int) : Binary64 :=
  ofRatio (i < 0) i.natAbs 1

/-- The sign, which zero has too. -/
def isNegative : Binary64 → Bool
  | .finite negative _ _ => negative
  | .infinite negative => negative

/-- Whether the number is zero, of either sign. -/
def isZero : Binary64 → Bool
  | .finite _ significand _ => significand == 0
  | .infinite _ => false

end Binary64
end DesignTokens.Numeral

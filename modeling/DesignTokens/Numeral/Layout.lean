import DesignTokens.Numeral.Shortest

/-!
# Numbers as text

Three ways to write a double-precision number. `Layout.write` sets out its shortest decimal, with a
`Layout` that says which magnitudes are positional; the two layouts in use are `Layout.json` and
`Layout.plain`. `fixed` rounds the exact value to a given number of places.
-/

namespace DesignTokens.Numeral

def digitsOf (n : Nat) : List Char :=
  Nat.toDigits 10 n

def integerText (value : Int) : String :=
  String.ofList (if value < 0 then '-' :: digitsOf value.natAbs else digitsOf value.natAbs)

def zeros (n : Nat) : List Char :=
  List.replicate n '0'

/-- How a number is set out as its shortest decimal. Of two equally near decimals `tie` takes one. A
number `d.ddd · 10 ^ k` is positional when `leastPositional ≤ k < positionalBound`, where a missing
bound excludes nothing; `markIntegral` says whether a positional integer ends in `.0`. -/
structure Layout where
  tie : Tie
  leastPositional : Option Int
  positionalBound : Option Int
  markIntegral : Bool

namespace Layout

/-- Numbers in JSON texts: positional from `0.00001` up to `10 ^ 16`, never without a mark that they
are no integers. -/
def json : Layout := ⟨.toEven, some (-5), some 16, true⟩

/-- Numbers in sources: always positional, integers without a point. -/
def plain : Layout := ⟨.awayFromZero, none, none, false⟩

/-- Whether a number with the leading power `10 ^ k` is positional. -/
def isPositional (layout : Layout) (k : Int) : Bool :=
  layout.leastPositional.all (· ≤ k) && layout.positionalBound.all (k < ·)

/-- The decimal `digits · 10 ^ exponent` without an exponent. -/
def positional (layout : Layout) (digits : List Char) (exponent : Int) : List Char :=
  if 0 ≤ exponent then
    digits ++ zeros exponent.toNat ++ (if layout.markIntegral then ['.', '0'] else [])
  else
    let places := (-exponent).toNat
    if places < digits.length then
      digits.take (digits.length - places) ++ '.' :: digits.drop (digits.length - places)
    else
      '0' :: '.' :: zeros (places - digits.length) ++ digits

/-- The decimal `d.ddd · 10 ^ k` with an exponent that always has a sign. -/
def scientific (digits : List Char) (k : Int) : List Char :=
  let tail := digits.drop 1
  let fraction := if tail.isEmpty then [] else '.' :: tail
  digits.take 1 ++ fraction ++ 'e' :: (if k < 0 then '-' else '+') :: digitsOf k.natAbs

/-- The absolute value of a decimal. -/
def magnitude (layout : Layout) (x : Decimal) : List Char :=
  let digits := digitsOf x.digits
  let k := x.exponent + digits.length - 1
  if layout.isPositional k then layout.positional digits x.exponent else scientific digits k

/-- A number as its shortest decimal, `inf` for an infinity. -/
def write (layout : Layout) (x : Binary64) : String :=
  let body :=
    match x with
    | .finite _ significand exponent => layout.magnitude (shortest layout.tie significand exponent)
    | .infinite _ => "inf".toList
  String.ofList (if x.isNegative then '-' :: body else body)

end Layout

/-- The decimal `digits · 10 ^ -places` with exactly `places` digits after the point. -/
def fixedMagnitude (places digits : Nat) : List Char :=
  let text := digitsOf digits
  let padded := zeros (places + 1 - text.length) ++ text
  padded.take (padded.length - places) ++ '.' :: padded.drop (padded.length - places)

/-- A number to `places` digits after the point, its exact value rounded and a tie to the even
digit. The sign stays when all digits are zero. -/
def fixed (places : Nat) (x : Binary64) : String :=
  let body :=
    match x with
    | .finite _ significand exponent =>
      fixedMagnitude places
        (roundHalfEven (significand * Nat.pow 2 exponent.toNat * Nat.pow 10 places)
          (Nat.pow 2 (-exponent).toNat))
    | .infinite _ => "inf".toList
  String.ofList (if x.isNegative then '-' :: body else body)

/-- The quotient `num / den` to `places` digits after the point, a tie to the even digit. -/
def fixedRatio (places num den : Nat) : String :=
  String.ofList (fixedMagnitude places (roundHalfEven (num * Nat.pow 10 places) den))

end DesignTokens.Numeral

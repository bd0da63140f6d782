import DesignTokens.Numeral.Binary64
import DesignTokens.Text.Blank

/-!
# The number at the front of a text

`leading?` reads the number that a text starts with, as in `16px` or ` -2.5em`: blanks, a sign,
digits with an optional point, and an exponent if it is complete. `Spelling.scan?` finds the longest
such front and `Spelling.value` says what it denotes. The front may hold digits of any script; only
one in ASCII digits denotes a number.
-/

namespace DesignTokens.Numeral

/-- The exponent of a numeral. -/
structure Exponent where
  negative : Bool
  digits : List Char

/-- A numeral as it is spelled: the digits before and after the point, and the exponent if there is
one. -/
structure Spelling where
  negative : Bool
  whole : List Char
  fraction : List Char
  exponent : Option Exponent

def ofDigits (digits : List Char) : Nat :=
  digits.foldl (fun n c => 10 * n + (c.toNat - '0'.toNat)) 0

/-- Takes a sign off the front; without one the number is positive. -/
def takeSign : List Char → Bool × List Char
  | '-' :: cs => (true, cs)
  | '+' :: cs => (false, cs)
  | cs => (false, cs)

def takeDigits (cs : List Char) : List Char × List Char :=
  (cs.takeWhile Text.isDecimalDigit, cs.dropWhile Text.isDecimalDigit)

/-- Takes an exponent off the front, if a complete one is there. -/
def takeExponent? : List Char → Option Exponent
  | [] => none
  | c :: cs =>
    if c == 'e' || c == 'E' then
      let (negative, cs) := takeSign cs
      match takeDigits cs with
      | ([], _) => none
      | (digits, _) => some ⟨negative, digits⟩
    else none

namespace Spelling

/-- The longest numeral at the front of `cs`: at least one digit before the point, or one after a
point that stands first. -/
def scan? (cs : List Char) : Option Spelling :=
  let (negative, cs) := takeSign (Text.dropBlank cs)
  match takeDigits cs with
  | ([], '.' :: cs) =>
    match takeDigits cs with
    | ([], _) => none
    | (fraction, cs) => some ⟨negative, [], fraction, takeExponent? cs⟩
  | ([], _) => none
  | (whole, '.' :: cs) =>
    let (fraction, cs) := takeDigits cs
    some ⟨negative, whole, fraction, takeExponent? cs⟩
  | (whole, cs) => some ⟨negative, whole, [], takeExponent? cs⟩

def digits (x : Spelling) : List Char :=
  x.whole ++ x.fraction ++ (x.exponent.map (·.digits)).getD []

/-- The power of ten that the exponent denotes. -/
def power (x : Spelling) : Int :=
  match x.exponent with
  | some e => if e.negative then -(ofDigits e.digits : Int) else ofDigits e.digits
  | none => 0

/-- The number nearest to what the numeral denotes. -/
def value (x : Spelling) : Binary64 :=
  .ofDecimal x.negative (ofDigits (x.whole ++ x.fraction)) (x.power - x.fraction.length)

end Spelling

/-- The number at the front of a text, if the longest numeral there is one in ASCII digits. -/
def leading? (text : String) : Option Binary64 :=
  match Spelling.scan? text.toList with
  | some x => if x.digits.all Char.isDigit then some x.value else none
  | none => none

end DesignTokens.Numeral

import DesignTokens.Config.Toml.Item
import DesignTokens.Text.Hex

/-!
# Numbers, moments and truth values of TOML

A scalar without quotes is a word of letters, digits and a few signs; `scalar?` says what it is. An
integer must fit 64 bits. Digits may be grouped by single underscores.
-/

namespace DesignTokens.Toml

open Numeral (Binary64 ofDigits takeSign)

/-! ### Numbers -/

/-- Digits without the single underscores between them. -/
def ungroup? (isDigit : Char → Bool) : List Char → Option (List Char)
  | [] => none
  | [c] => if isDigit c then some [c] else none
  | c :: '_' :: rest => if isDigit c then (ungroup? isDigit rest).map (c :: ·) else none
  | c :: rest => if isDigit c then (ungroup? isDigit rest).map (c :: ·) else none

def ofBase (base : Nat) (digits : List Char) : Nat :=
  digits.foldl (fun n c => base * n + (Text.hexValue? c).getD 0) 0

/-- An integer that fits 64 bits. -/
def fitInteger? (value : Int) : Option Int :=
  if -Int.pow 2 63 ≤ value && value < Int.pow 2 63 then some value else none

def basedInteger? (base : Nat) (isDigit : Char → Bool) (cs : List Char) : Option Int := do
  fitInteger? (ofBase base (← ungroup? isDigit cs))

/-- The digits of a decimal integer, which start with a zero only if they are one. -/
def wholeDigits? (cs : List Char) : Option (List Char) := do
  match ← ungroup? Char.isDigit cs with
  | '0' :: _ :: _ => none
  | digits => some digits

def integer? (word : List Char) : Option Int :=
  match word with
  | '0' :: 'x' :: rest => basedInteger? 16 (fun c => (Text.hexValue? c).isSome) rest
  | '0' :: 'o' :: rest => basedInteger? 8 (fun c => '0' ≤ c && c ≤ '7') rest
  | '0' :: 'b' :: rest => basedInteger? 2 (fun c => c == '0' || c == '1') rest
  | _ => do
    let (negative, rest) := takeSign word
    let value : Int := ofDigits (← wholeDigits? rest)
    fitInteger? (if negative then -value else value)

/-- The exponent that ends a word; none leaves the number as it is. -/
def exponent? : List Char → Option Int
  | [] => some 0
  | c :: rest => do
    if c == 'e' || c == 'E' then
      let (negative, rest) := takeSign rest
      let value : Int := ofDigits (← ungroup? Char.isDigit rest)
      return if negative then -value else value
    else none

/-- The characters of digits and their groups. -/
def isGrouped (c : Char) : Bool :=
  c.isDigit || c == '_'

/-- The decimal fraction that a word denotes: it has a point, an exponent, or both. One above all
double-precision numbers is none. -/
def fraction? (word : List Char) : Option Binary64 := do
  let (negative, cs) := takeSign word
  let whole ← wholeDigits? (cs.takeWhile isGrouped)
  let (places, rest) ←
    match cs.dropWhile isGrouped with
    | [] => none
    | '.' :: rest =>
      (ungroup? Char.isDigit (rest.takeWhile isGrouped)).map (·, rest.dropWhile isGrouped)
    | rest => some ([], rest)
  let power ← exponent? rest
  match Binary64.ofDecimal negative (ofDigits (whole ++ places)) (power - places.length) with
  | .infinite false => none
  | nearest => some nearest

/-- The float that a word denotes: `inf`, `nan` or a decimal fraction. -/
def float? (word : List Char) : Option ConfigValue :=
  let (negative, rest) := takeSign word
  if rest == "inf".toList then some (.float (some (.infinite negative)))
  else if rest == "nan".toList then some (.float none)
  else (fraction? word).map fun x => .float (some x)

/-! ### Words -/

def isWordChar (c : Char) : Bool :=
  c.isAlphanum || c == '+' || c == '-' || c == '_' || c == '.' || c == ':'

/-- Takes a word off the front. A date takes a time behind one space with it. -/
def takeWord (cs : List Char) : List Char × List Char :=
  let word := cs.takeWhile isWordChar
  match cs.dropWhile isWordChar with
  | ' ' :: c :: rest =>
    if c.isDigit && (date? word).any (·.2.isEmpty) then
      (word ++ ' ' :: (c :: rest).takeWhile isWordChar, (c :: rest).dropWhile isWordChar)
    else (word, ' ' :: c :: rest)
  | rest => (word, rest)

/-- The number or the truth value that a word denotes. -/
def ofWord? (word : List Char) : Option ConfigValue :=
  if word == "true".toList then some (.bool true)
  else if word == "false".toList then some (.bool false)
  else ((integer? word).map .integer).or (float? word)

def scalar? (cs : List Char) : Option (Item × List Char) := do
  let (word, rest) := takeWord cs
  match moment? word with
  | some text => return (.moment (String.ofList text), rest)
  | none => return (.scalar (← ofWord? word), rest)

end DesignTokens.Toml

import DesignTokens.Numeral.Leading

/-!
# Dates and times of TOML

`moment?` reads a date, a time, or both, and gives its one spelling: the date, `T`, the time with as
many digits of the second as matter, and the offset in hours and minutes.
-/

namespace DesignTokens.Toml

open Numeral (ofDigits)

/-! ### Dates -/

/-- Two digits with a value up to `limit`. -/
def twoDigits? (limit : Nat) (a b : Char) : Option Nat :=
  if a.isDigit && b.isDigit && ofDigits [a, b] ≤ limit then some (ofDigits [a, b]) else none

def daysIn (year month : Nat) : Nat :=
  if month == 2 then
    if year % 4 == 0 && (year % 100 != 0 || year % 400 == 0) then 29 else 28
  else if month == 4 || month == 6 || month == 9 || month == 11 then 30
  else 31

def date? : List Char → Option (List Char × List Char)
  | y :: y' :: y'' :: y''' :: '-' :: m :: m' :: '-' :: d :: d' :: rest => do
    let year := [y, y', y'', y''']
    let month ← twoDigits? 12 m m'
    let day ← twoDigits? 31 d d'
    if year.all Char.isDigit && 1 ≤ month && 1 ≤ day && day ≤ daysIn (ofDigits year) month then
      some (year ++ ['-', m, m', '-', d, d'], rest)
    else none
  | _ => none

/-! ### Times -/

/-- The digits of a fraction of a second that matter, behind a point: no zeros at the end, and at
most nine. -/
def secondFraction (digits : List Char) : List Char :=
  match ((digits.take 9).reverse.dropWhile (· == '0')).reverse with
  | [] => []
  | kept => '.' :: kept

def time? : List Char → Option (List Char × List Char)
  | h :: h' :: ':' :: m :: m' :: ':' :: s :: s' :: rest => do
    let _ ← twoDigits? 23 h h'
    let _ ← twoDigits? 59 m m'
    let _ ← twoDigits? 60 s s'
    let time := [h, h', ':', m, m', ':', s, s']
    match rest with
    | '.' :: rest =>
      match rest.takeWhile Char.isDigit with
      | [] => none
      | digits => some (time ++ secondFraction digits, rest.dropWhile Char.isDigit)
    | rest => some (time, rest)
  | _ => none

/-- The offset that ends a moment. One of nothing is positive. -/
def offset? : List Char → Option (List Char)
  | [] => some []
  | ['Z'] | ['z'] => some ['Z']
  | [sign, h, h', ':', m, m'] => do
    let minutes := 60 * (← twoDigits? 23 h h') + (← twoDigits? 59 m m')
    if sign == '+' || sign == '-' then
      some [if minutes == 0 then '+' else sign, h, h', ':', m, m']
    else none
  | _ => none

/-! ### Moments -/

/-- The date, the time, or both, that a text denotes. A time alone has no offset. -/
def moment? (cs : List Char) : Option (List Char) :=
  match date? cs with
  | some (date, []) => some date
  | some (date, c :: rest) => do
    if c == 'T' || c == 't' || c == ' ' then
      let (time, rest) ← time? rest
      return date ++ 'T' :: time ++ (← offset? rest)
    else none
  | none =>
    match time? cs with
    | some (time, []) => some time
    | _ => none

end DesignTokens.Toml

import DesignTokens.Json.Basic
import DesignTokens.Numeral.Leading
import DesignTokens.Text.Hex

/-!
# JSON text

`Written.parse?` reads a JSON text strictly and keeps it as it was written: members in order, also
those of one key, and numbers of any size. `Written.value?` turns what was written into a value.
Three things only matter there, and not in a text that is read and then ignored: arrays and objects
must not nest deeper than there is room for, escapes in strings must spell whole characters, and a
number must not be larger than all double-precision ones.
-/

namespace DesignTokens

open Numeral (Binary64)

/-- A number as it was written: `digits · 10 ^ exponent`. It is integral when it has neither a point
nor an exponent. -/
structure WrittenNumber where
  negative : Bool
  digits : Nat
  exponent : Int
  integral : Bool

/-- A JSON value as it was written. A string is `none` when an escape in it is half of a character
and the other half is missing. -/
inductive Written
  | null
  | bool (value : Bool)
  | number (value : WrittenNumber)
  | string (text : Option String)
  | array (items : List Written)
  | object (members : List (Option String × Written))

namespace Written

/-! ### Reading -/

/-- The blanks that may stand between the parts of a JSON text. -/
def isGap (c : Char) : Bool :=
  c == ' ' || c == '\t' || c == '\n' || c == '\r'

def skipGap (cs : List Char) : List Char :=
  cs.dropWhile isGap

/-- What a character after a backslash stands for, `u` apart. -/
def simpleEscape? : Char → Option Char
  | '"' => some '"'
  | '\\' => some '\\'
  | '/' => some '/'
  | 'b' => some '\x08'
  | 'f' => some '\x0c'
  | 'n' => some '\n'
  | 'r' => some '\r'
  | 't' => some '\t'
  | _ => none

/-- A piece of a string: a character, or the code unit of an escape. -/
inductive StringPart
  | char (c : Char)
  | unit (code : Nat)

/-- Reads a string up to its closing quote. -/
def stringParts? : List Char → Option (List StringPart × List Char)
  | [] => none
  | '"' :: rest => some ([], rest)
  | '\\' :: 'u' :: a :: b :: c :: d :: rest => do
    let code ← Text.hexNumber? [a, b, c, d]
    let (parts, rest) ← stringParts? rest
    return (.unit code :: parts, rest)
  | '\\' :: e :: rest => do
    let c ← simpleEscape? e
    let (parts, rest) ← stringParts? rest
    return (.char c :: parts, rest)
  | c :: rest =>
    if c == '\\' || c.toNat < 32 then none
    else do
      let (parts, rest) ← stringParts? rest
      return (.char c :: parts, rest)

/-- Whether `code` is the first half of a character outside the basic plane. -/
def isLeading (code : Nat) : Bool :=
  0xD800 ≤ code && code < 0xDC00

/-- Whether `code` is the second half of a character outside the basic plane. -/
def isTrailing (code : Nat) : Bool :=
  0xDC00 ≤ code && code < 0xE000

/-- The characters that the parts of a string spell, unless a half stands alone. -/
def spell? : List StringPart → Option (List Char)
  | [] => some []
  | .char c :: parts => (spell? parts).map (c :: ·)
  | .unit first :: .unit second :: parts =>
    if isLeading first then
      if isTrailing second then
        (spell? parts).map
          (Char.ofNat (0x10000 + (first - 0xD800) * 0x400 + (second - 0xDC00)) :: ·)
      else none
    else if isTrailing first then none
    else (spell? (.unit second :: parts)).map (Char.ofNat first :: ·)
  | .unit code :: parts =>
    if isLeading code || isTrailing code then none
    else (spell? parts).map (Char.ofNat code :: ·)

def string? (cs : List Char) : Option (Option String × List Char) := do
  let (parts, rest) ← stringParts? cs
  return ((spell? parts).map String.ofList, rest)

def takeDigits (cs : List Char) : List Char × List Char :=
  (cs.takeWhile Char.isDigit, cs.dropWhile Char.isDigit)

/-- Reads the digits before the point: one zero, or digits that do not start with it. -/
def whole? (cs : List Char) : Option (List Char × List Char) :=
  match cs with
  | '0' :: rest => if rest.head?.any Char.isDigit then none else some (['0'], rest)
  | _ =>
    match takeDigits cs with
    | ([], _) => none
    | found => some found

/-- Reads the point and the digits behind it, if there is one. -/
def fraction? : List Char → Option (Option (List Char) × List Char)
  | '.' :: rest =>
    match takeDigits rest with
    | ([], _) => none
    | (digits, rest) => some (some digits, rest)
  | rest => some (none, rest)

/-- Reads the exponent, if there is one. -/
def exponent? : List Char → Option (Option Int × List Char)
  | [] => some (none, [])
  | c :: rest =>
    if c == 'e' || c == 'E' then
      let (negative, rest) := Numeral.takeSign rest
      match takeDigits rest with
      | ([], _) => none
      | (digits, rest) =>
        let power : Int := Numeral.ofDigits digits
        some (some (if negative then -power else power), rest)
    else some (none, c :: rest)

def number? (cs : List Char) : Option (WrittenNumber × List Char) := do
  let (negative, cs) :=
    match cs with
    | '-' :: rest => (true, rest)
    | _ => (false, cs)
  let (whole, cs) ← whole? cs
  let (fraction, cs) ← fraction? cs
  let (exponent, cs) ← exponent? cs
  let places := fraction.getD []
  return (
    { negative
      digits := Numeral.ofDigits (whole ++ places)
      exponent := exponent.getD 0 - places.length
      integral := fraction.isNone && exponent.isNone },
    cs)

def takeWord? : List Char → List Char → Option (List Char)
  | [], cs => some cs
  | _ :: _, [] => none
  | w :: ws, c :: cs => if w == c then takeWord? ws cs else none

mutual

/-- Reads a value, of which every bracket and comma takes one unit of `fuel`. -/
def read? : Nat → List Char → Option (Written × List Char)
  | 0, _ => none
  | fuel + 1, cs =>
    match skipGap cs with
    | '"' :: rest => do
      let (text, rest) ← string? rest
      return (.string text, rest)
    | '[' :: rest =>
      match skipGap rest with
      | ']' :: rest => some (.array [], rest)
      | rest => do
        let (items, rest) ← readItems? fuel rest
        return (.array items, rest)
    | '\x7b' :: rest =>
      match skipGap rest with
      | '\x7d' :: rest => some (.object [], rest)
      | rest => do
        let (members, rest) ← readMembers? fuel rest
        return (.object members, rest)
    | 'n' :: rest => (takeWord? "ull".toList rest).map (.null, ·)
    | 't' :: rest => (takeWord? "rue".toList rest).map (.bool true, ·)
    | 'f' :: rest => (takeWord? "alse".toList rest).map (.bool false, ·)
    | cs => do
      let (value, rest) ← number? cs
      return (.number value, rest)

/-- Reads the items of an array and its closing bracket. -/
def readItems? : Nat → List Char → Option (List Written × List Char)
  | 0, _ => none
  | fuel + 1, cs => do
    let (item, rest) ← read? fuel cs
    match skipGap rest with
    | ',' :: rest =>
      let (items, rest) ← readItems? fuel rest
      return (item :: items, rest)
    | ']' :: rest => return ([item], rest)
    | _ => none

/-- Reads the members of an object and its closing bracket. -/
def readMembers? : Nat → List Char → Option (List (Option String × Written) × List Char)
  | 0, _ => none
  | fuel + 1, cs => do
    match skipGap cs with
    | '"' :: rest =>
      let (key, rest) ← string? rest
      match skipGap rest with
      | ':' :: rest =>
        let (value, rest) ← read? fuel rest
        match skipGap rest with
        | ',' :: rest =>
          let (members, rest) ← readMembers? fuel rest
          return ((key, value) :: members, rest)
        | '\x7d' :: rest => return ([(key, value)], rest)
        | _ => none
      | _ => none
    | _ => none

end

/-- Reads a text that holds one value and nothing else but blanks. -/
def parse? (text : String) : Option Written := do
  let cs := text.toList
  let (value, rest) ← read? (2 * cs.length + 2) cs
  if (skipGap rest).isEmpty then some value else none

/-! ### Values -/

/-- Whether an integer has a place in 64 bits, signed or unsigned. -/
def fitsWord (value : Int) : Bool :=
  -Int.pow 2 63 ≤ value && value < Int.pow 2 64

/-- The number that was written; `-0` is no integer. A number above all double-precision ones is
none, any other is the nearest one: a reader that trades this for speed may be one unit in the last
place away. -/
def numberValue? (x : WrittenNumber) : Option JsonNumber :=
  let value : Int := if x.negative then -x.digits else x.digits
  if x.integral && fitsWord value && !(x.negative && x.digits == 0) then some (.integer value)
  else
    match Binary64.ofDecimal x.negative x.digits x.exponent with
    | .infinite _ => none
    | nearest => some (.float nearest)

mutual

/-- The value that was written, when `room` more levels of arrays and objects are allowed. The last
of several members of one key counts. -/
def value? (room : Nat) : Written → Option Json
  | null => some .null
  | bool value => some (.bool value)
  | number x => (numberValue? x).map .number
  | string text => text.map .string
  | array items =>
    match room with
    | 0 => none
    | room + 1 => (values? room items).map .array
  | object members =>
    match room with
    | 0 => none
    | room + 1 => (memberValues? room members).map .ofMembers

def values? (room : Nat) : List Written → Option (List Json)
  | [] => some []
  | item :: items => do
    return (← value? room item) :: (← values? room items)

def memberValues? (room : Nat) : List (Option String × Written) → Option (List (String × Json))
  | [] => some []
  | (key, value) :: members => do
    return (← key, ← value? room value) :: (← memberValues? room members)

end

end Written

namespace Json

/-- How deep arrays and objects may nest. -/
def depthLimit : Nat := 127

def parse? (text : String) : Option Json := do
  (← Written.parse? text).value? depthLimit

end Json
end DesignTokens

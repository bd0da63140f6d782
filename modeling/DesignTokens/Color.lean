import DesignTokens.Numeral.Layout
import DesignTokens.Text.Hex

/-!
# Colors in hexadecimal digits

A color is written `#` and its channels, with one or two digits each: red, green, blue, and the
alpha channel if it is not opaque. `Color.parse?` reads the four spellings; the other functions
write a color the way a platform wants it.
-/

namespace DesignTokens

/-- A color: four channels from 0 to 255. -/
structure Color where
  red : Nat
  green : Nat
  blue : Nat
  alpha : Nat
  deriving DecidableEq

namespace Color

open Numeral (digitsOf fixedRatio)

/-! ### Reading -/

def nibbles? (digits : List Char) : Option (List Nat) :=
  digits.mapM Text.hexValue?

/-- The color that hexadecimal digits denote. -/
def ofNibbles? : List Nat → Option Color
  | [r, g, b] => some ⟨17 * r, 17 * g, 17 * b, 255⟩
  | [r, g, b, a] => some ⟨17 * r, 17 * g, 17 * b, 17 * a⟩
  | [r, r', g, g', b, b'] => some ⟨16 * r + r', 16 * g + g', 16 * b + b', 255⟩
  | [r, r', g, g', b, b', a, a'] =>
    some ⟨16 * r + r', 16 * g + g', 16 * b + b', 16 * a + a'⟩
  | _ => none

/-- The color that a text denotes. -/
def parse? (text : String) : Option Color :=
  match text.toList with
  | '#' :: digits => (nibbles? digits).bind ofNibbles?
  | _ => none

/-! ### Writing -/

def hexByte (channel : Nat) : List Char :=
  [Text.hexDigit (channel / 16), Text.hexDigit (channel % 16)]

/-- The color in the order of Android's resources, alpha first. -/
def android (color : Color) : String :=
  String.ofList ('#' :: hexByte color.alpha ++ hexByte color.red ++ hexByte color.green ++
    hexByte color.blue)

/-- The alpha channel as a number from 0 to 1 with at most two places. No channel lies halfway
between two of them. -/
def alphaText (color : Color) : String :=
  let hundredths := (200 * color.alpha + 255) / 510
  let tens := hundredths / 10
  let ones := hundredths % 10
  String.ofList <|
    if hundredths = 100 then ['1']
    else if hundredths = 0 then ['0']
    else if ones = 0 then '0' :: '.' :: digitsOf tens
    else '0' :: '.' :: digitsOf tens ++ digitsOf ones

/-- The color as a call of `rgba`. -/
def rgba (color : Color) : String :=
  "rgba(" ++ String.ofList (digitsOf color.red) ++ ", " ++
    String.ofList (digitsOf color.green) ++ ", " ++ String.ofList (digitsOf color.blue) ++ ", " ++
    color.alphaText ++ ")"

/-- The color as a call of `UIColor`, its channels as fractions with three places. -/
def uiColor (color : Color) : String :=
  "UIColor(red: " ++ fixedRatio 3 color.red 255 ++ ", green: " ++ fixedRatio 3 color.green 255 ++
    ", blue: " ++ fixedRatio 3 color.blue 255 ++ ", alpha: " ++ color.alphaText ++ ")"

/-- A color with eight digits without its alpha channel if it is opaque, else as a call of `rgba`. A
text that is no such color stays. -/
def withoutOpaqueAlpha (text : String) : String :=
  let cs := text.toList
  match parse? text with
  | some color =>
    if cs.length ≠ 9 then text
    else if color.alpha = 255 then String.ofList (cs.take 7)
    else color.rgba
  | none => text

end Color
end DesignTokens

import DesignTokens.Color
import DesignTokens.Dictionary
import DesignTokens.Numeral.Leading

/-!
# Value transforms

A transform brings the values of the tokens of some kinds into the form that a platform wants. A
value that it cannot read stays as it is.
-/

namespace DesignTokens

/-- A form that values are brought into. -/
inductive Transform
  /-- A color `#rrggbbff` becomes `#rrggbb`, with any other alpha `rgba(r, g, b, a)`. -/
  | hex6
  /-- A dimension becomes `16.00dp`. -/
  | pxToDp
  /-- A font size becomes `16.00sp`. -/
  | pxToSp
  /-- A size becomes `CGFloat(16.00)`. -/
  | pxToCGFloat
  /-- A color becomes `#aarrggbb`. -/
  | hex8Android
  /-- A color becomes a call of `UIColor`. -/
  | uiColor
  deriving DecidableEq

/-- The number that a value is, or that its text starts with. -/
def Json.size? : Json → Option Numeral.Binary64
  | .number x => some x.toBinary64
  | .string text => Numeral.leading? text
  | _ => none

namespace Transform

def all : List Transform := [hex6, pxToDp, pxToSp, pxToCGFloat, hex8Android, uiColor]

def name : Transform → String
  | hex6 => "color/hex6"
  | pxToDp => "size/pxToDp"
  | pxToSp => "size/pxToSp"
  | pxToCGFloat => "size/pxToCGFloat"
  | hex8Android => "color/hex8android"
  | uiColor => "color/UIColorSwift"

def ofName? (name : String) : Option Transform :=
  all.find? fun transform => transform.name == name

/-- Whether the transform is for tokens of this kind. -/
def covers (kind : Kind) : Transform → Bool
  | hex6 | hex8Android | uiColor => kind = .color
  | pxToDp => kind = .dimension
  | pxToSp => kind = .fontSize
  | pxToCGFloat => kind.isSize

/-- A size with two places and a unit around it; a value without a size stays. -/
def onSize (before behind : String) (value : Json) : Json :=
  match value.size? with
  | some x => .string (before ++ Numeral.fixed 2 x ++ behind)
  | none => value

/-- A color written by `write`; a value that is no color stays. -/
def onColor (write : Color → String) (value : Json) : Json :=
  match value.asString?.bind Color.parse? with
  | some color => .string (write color)
  | none => value

def apply (value : Json) : Transform → Json
  | hex6 =>
    match value with
    | .string text => .string (Color.withoutOpaqueAlpha text)
    | value => value
  | pxToDp => onSize "" "dp" value
  | pxToSp => onSize "" "sp" value
  | pxToCGFloat => onSize "CGFloat(" ")" value
  | hex8Android => onColor Color.android value
  | uiColor => onColor Color.uiColor value

/-- The token with its value transformed, if the transform is for it. -/
def applyTo (t : Token) (transform : Transform) : Token :=
  if transform.covers t.kind then { t with value := transform.apply t.value } else t

/-- The token with its value transformed by all transforms in order. -/
def applyAllTo (transforms : List Transform) (t : Token) : Token :=
  transforms.foldl applyTo t

end Transform

/-- The dictionary with every value transformed, in order. No transforms change nothing, also not
the referents. -/
def Dictionary.transformed (d : Dictionary) (transforms : List Transform) : Dictionary :=
  if transforms.isEmpty then d else d.map (Transform.applyAllTo transforms)

end DesignTokens

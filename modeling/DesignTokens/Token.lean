import DesignTokens.Json.Print

/-!
# Design tokens

A token is a named design decision: a path that says where it belongs, a name under which sources
know it, a value, and the expression that the value was computed from. Its `Kind` follows from its
type, or from its category where the type says nothing.
-/

namespace DesignTokens

/-- What a token's value is. -/
inductive Kind
  | color
  | dimension
  | fontSize
  | fontWeight
  | other
  deriving DecidableEq

namespace Kind

/-- The kind that a type name stands for. -/
def ofType? : String → Option Kind
  | "color" => some color
  | "dimension" => some dimension
  | "fontSize" => some fontSize
  | "fontWeight" => some fontWeight
  | _ => none

/-- The kind that a category stands for. -/
def ofCategory? : String → Option Kind
  | "color" => some color
  | "size" => some dimension
  | _ => none

/-- The kind by the type, else by the category, else `other`. -/
def infer (typeName category : Option String) : Kind :=
  ((typeName.bind ofType?).or (category.bind ofCategory?)).getD other

/-- Whether the value is a length. -/
def isSize : Kind → Bool
  | dimension | fontSize => true
  | _ => false

def name : Kind → String
  | color => "Color"
  | dimension => "Dimension"
  | fontSize => "FontSize"
  | fontWeight => "FontWeight"
  | other => "Other"

end Kind

/-- A design token. Its `raw` expression may hold placeholders for other tokens. -/
structure Token where
  path : List String
  name : String
  value : Json
  raw : Option Json
  typeName : Option String
  category : Option String
  comment : Option String
  deprecated : Bool
  reason : Option String

namespace Token

/-- The token of which path, name and value are known; it was written as its value. -/
def ofValue (path : List String) (name : String) (value : Json) : Token :=
  { path, name, value, raw := some value, typeName := none, category := none, comment := none
    deprecated := false, reason := none }

def writtenAs (t : Token) (expression : String) : Token :=
  { t with raw := some (.string expression) }

/-- The explanation of a deprecation for which no reason is given. -/
def defaultDeprecation : String := "This token is deprecated."

def kind (t : Token) : Kind :=
  Kind.infer t.typeName t.category

/-- The value as it stands in a source. -/
def shownValue (t : Token) : String :=
  t.value.asText

/-- The raw expression if it is a string; no other holds placeholders. -/
def expression? (t : Token) : Option String :=
  t.raw.bind Json.asString?

/-- The path as a placeholder spells it. -/
def dottedPath (t : Token) : String :=
  ".".intercalate t.path

/-- The reason for the deprecation unless it is empty. -/
def statedReason? (t : Token) : Option String :=
  t.reason.filter (!·.isEmpty)

/-- The explanation of the deprecation of a deprecated token. -/
def deprecationNote? (t : Token) : Option String :=
  if t.deprecated then some (t.statedReason?.getD defaultDeprecation) else none

def jsonMembers (t : Token) : List (String × Json) :=
  let optional (key : String) (text? : Option String) : List (String × Json) :=
    (text?.map fun text => (key, Json.string text)).toList
  [("value", t.value)] ++ optional "type" t.typeName ++ optional "comment" t.comment ++
    (if t.deprecated then ("deprecated", .bool true) :: optional "deprecated_comment" t.reason
      else []) ++
    [("name", .string t.name), ("path", .array (t.path.map .string))] ++
    (t.raw.map fun raw => ("original", Json.object [("value", raw)])).toList ++
    (t.category.map fun category =>
      ("attributes", Json.object [("category", .string category)])).toList

def toJson (t : Token) : Json :=
  .ofMembers t.jsonMembers

end Token
end DesignTokens

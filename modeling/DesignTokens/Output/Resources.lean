import DesignTokens.Context
import DesignTokens.Identifier
import DesignTokens.Mode.Groups
import DesignTokens.Reference
import DesignTokens.Text.Literal
import DesignTokens.Transform

/-!
# Android resources

A resource file lists named values, one element each, in markup. `Resources.ofVariants` lists every
token and gives dark variants a name of their own; `Resources.ofSide` lists every canonical path
once, with its light or its dark variant first; `Resources.dimens` lists sizes with their units.
What is listed is a list of `Resource`s; `Resources.text` writes them.
-/

namespace DesignTokens

inductive ResourceElement
  | color
  | dimen
  /-- An `item` whose type is `string`. -/
  | item
  | string
  deriving DecidableEq

/-- A named value with a comment before it. -/
structure Resource where
  comment : Option String
  element : ResourceElement
  name : String
  value : String

/-- Which variant of a canonical path a file lists. -/
inductive ResourceSide
  | light
  | dark
  deriving DecidableEq

def ResourceSide.choose (pair : Pair) : ResourceSide → Token
  | light => pair.preferLight
  | dark => pair.preferDark

namespace Resources

/-! ### What is listed -/

def elementOf (kind : Kind) : ResourceElement :=
  if kind = .color then .color else if kind.isSize then .dimen else .item

/-- The type under which a resource is referred to. -/
def referenceType : ResourceElement → String
  | .color => "color"
  | .dimen => "dimen"
  | .item | .string => "string"

def nameOf (context : Context) (canonical : List String) : String :=
  Identifier.resourceName canonical (some context.stem)

def reference (context : Context) (t : Token) : String :=
  "@" ++ referenceType (elementOf t.kind) ++ "/" ++
    nameOf context (t.canonicalPath context.convention)

def ofToken (dictionary : Dictionary) (context : Context) (name : String) (t : Token) : Resource :=
  { comment := t.comment
    element := elementOf t.kind
    name
    value := Reference.emit dictionary context.outputReferences (reference context) t }

/-- The name of a token where dark variants have one of their own. -/
def variantName (context : Context) (t : Token) : String :=
  Identifier.resourceName (t.canonicalPath context.convention)
    (some (if t.isDark context.convention then context.stem ++ "_dark" else context.stem))

/-- Every token with a path. -/
def ofVariants (dictionary : Dictionary) (context : Context) : List Resource :=
  (dictionary.tokens.filter fun t => !(t.canonicalPath context.convention).isEmpty).map fun t =>
    ofToken dictionary context (variantName context t) t

/-- Every canonical path once. -/
def ofSide (side : ResourceSide) (dictionary : Dictionary) (context : Context) : List Resource :=
  let groups := Groups.ofTokens context.convention dictionary.tokens
  (groups.filter fun group => !group.1.isEmpty).map fun (canonical, pair) =>
    ofToken dictionary context (nameOf context canonical) (side.choose pair)

/-- The value of a token in a file of sizes: its number with two places and the unit of its kind. -/
def sizeText (t : Token) : String :=
  match t.value.size? with
  | some x => Numeral.fixed 2 x ++ (if t.kind = .fontSize then "sp" else "dp")
  | none => t.shownValue

/-- Every token as a size, font weights as they are. -/
def dimens (dictionary : Dictionary) (context : Context) : List Resource :=
  dictionary.tokens.map fun t =>
    { comment := t.comment
      element := if t.kind = .fontWeight then .string else .dimen
      name := nameOf context t.path
      value := if t.kind = .fontWeight then t.shownValue else sizeText t }

/-! ### How it is written -/

/-- What every resource file starts with. -/
def declaration : String := "<?xml version=\"1.0\" encoding=\"UTF-8\"?>\n"

def commentText (comment : Option String) : String :=
  match comment with
  | some text => "  <!-- " ++ Text.Comment.xml text ++ " -->\n"
  | none => ""

def elementText (name value : String) : ResourceElement → String
  | .color => "<color name=\"" ++ name ++ "\">" ++ value ++ "</color>"
  | .dimen => "<dimen name=\"" ++ name ++ "\">" ++ value ++ "</dimen>"
  | .item => "<item name=\"" ++ name ++ "\" type=\"string\">" ++ value ++ "</item>"
  | .string => "<string name=\"" ++ name ++ "\">" ++ value ++ "</string>"

def resourceText (r : Resource) : String :=
  commentText r.comment ++ "  " ++
    elementText (Text.Literal.xml r.name) (Text.Literal.xml r.value) r.element ++ "\n"

/-- The text of a resource file: the declaration, the header, and the resources. -/
def text (header : String) (resources : List Resource) : String :=
  declaration ++ header ++ "<resources>\n" ++ String.join (resources.map resourceText) ++
    "</resources>\n"

end Resources
end DesignTokens

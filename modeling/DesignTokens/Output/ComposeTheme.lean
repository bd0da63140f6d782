import DesignTokens.Context
import DesignTokens.Output.Container
import DesignTokens.Reference
import DesignTokens.Text.Literal
import DesignTokens.Transform

/-!
# Compose themes

A Kotlin object that holds an object per inner segment and a `val` per token. A token with both
variants has a composable getter that asks for the system's mode; any other has an initializer.
-/

namespace DesignTokens

/-- An expression for one variant of a token. -/
inductive ThemeExpression
  /-- A member of the theme, qualified. -/
  | reference (name : String)
  /-- A color, from the text of its digits. -/
  | color (text : String)
  /-- A number with a unit. -/
  | size (number : Numeral.Binary64) (unit : String)
  /-- Any other text. -/
  | text (value : String)

/-- How a member of a theme gets its value. -/
inductive ThemeBody
  | initializer (value : ThemeExpression)
  | getter (light dark : ThemeExpression)

structure ThemeMember where
  name : String
  isColor : Bool
  comment : Option String
  deprecation : Option String
  body : ThemeBody

structure ComposeTheme where
  packageName : String
  root : Container ThemeMember

namespace ComposeTheme

def defaultRoot : String := "Theme"

def defaultPackage : String := "com.xplor.design"

/-! ### What is declared -/

/-- The member that a token is referred to as. -/
def memberReference (context : Context) (t : Token) : String :=
  Identifier.qualified (context.rootName defaultRoot) (t.canonicalPath context.convention)
    Identifier.kotlin

/-- The value of a token as a literal of a kind. -/
def literal (kind : Kind) (t : Token) : ThemeExpression :=
  if kind = .color then .color t.shownValue
  else if kind.isSize then
    match t.value.size? with
    | some x => .size x (if kind = .fontSize then "sp" else "dp")
    | none => .text t.shownValue
  else .text t.shownValue

/-- The expression for a variant: a reference if the raw expression is a single one and references
are on, else a literal of the kind of its pair. -/
def expression (dictionary : Dictionary) (context : Context) (kind : Kind) (t : Token) :
    ThemeExpression :=
  if context.outputReferences && t.expression?.any Reference.isSingle then
    match Reference.resolve? dictionary (memberReference context) t with
    | some name => .reference name
    | none => literal kind t
  else literal kind t

def member (dictionary : Dictionary) (context : Context) (leaf : Leaf) : ThemeMember :=
  let kind := leaf.pair.preferLight.kind
  { name := Container.memberName Identifier.kotlin leaf
    isColor := kind = .color
    comment := leaf.pair.preferLight.comment
    deprecation := leaf.pair.deprecationNote?
    body :=
      match leaf.pair with
      | .both light dark =>
        .getter (expression dictionary context kind light) (expression dictionary context kind dark)
      | .light t | .dark t => .initializer (expression dictionary context kind t) }

def ofDictionary (dictionary : Dictionary) (context : Context) : ComposeTheme :=
  { packageName := context.packageName.getD defaultPackage
    root := Container.ofNode Identifier.kotlin (member dictionary context)
      (context.rootName defaultRoot)
      (Node.ofGroups (Groups.ofTokens context.convention dictionary.tokens)) }

/-! ### How it is written -/

def quoted (text : String) : String :=
  "\"" ++ Text.Literal.kotlin text ++ "\""

def expressionText : ThemeExpression → String
  | .reference name => name
  | .color text => quoted text ++ ".toColor()"
  | .size number unit => Numeral.Layout.plain.write number ++ "." ++ unit
  | .text value => quoted value

/-- The declaration of a member behind `val`. Inside of an object `Color` the name `Color` is that
object's, so colors have the imported alias for a type. -/
def bodyText (indent name annotation : String) : ThemeBody → String
  | .getter light dark =>
    indent ++ "val " ++ name ++ annotation ++ "\n" ++
      indent ++ "    @Composable get() = if (isSystemInDarkTheme()) " ++ expressionText dark ++
      " else " ++ expressionText light ++ "\n"
  | .initializer value =>
    indent ++ "val " ++ name ++ annotation ++ " = " ++ expressionText value ++ "\n"

def memberText (indent : String) (m : ThemeMember) : String :=
  (m.comment.map fun text => indent ++ "/** " ++ Text.Comment.block text ++ " */\n").getD "" ++
    (m.deprecation.map fun message =>
      indent ++ "@Deprecated(" ++ quoted message ++ ")\n").getD "" ++
    bodyText indent m.name (if m.isColor then ": ComposeColor" else "") m.body

/-- The imports and the conversion of colors that every theme needs. -/
def preamble : String :=
  "import androidx.compose.foundation.isSystemInDarkTheme\n" ++
  "import androidx.compose.runtime.Composable\n" ++
  "import androidx.compose.ui.graphics.Color as ComposeColor\n" ++
  "import androidx.compose.ui.unit.dp\n" ++
  "import androidx.compose.ui.unit.sp\n" ++
  "\n" ++
  "/** Converts hex string to Compose Color */\n" ++
  "private fun String.toColor(): ComposeColor \x7b\n" ++
  "    val hex = this.removePrefix(\"#\").removePrefix(\"0x\")\n" ++
  "    return when (hex.length) \x7b\n" ++
  "        6 -> ComposeColor(android.graphics.Color.parseColor(\"#$hex\"))\n" ++
  "        8 -> ComposeColor(android.graphics.Color.parseColor(\"#$hex\"))\n" ++
  "        else -> ComposeColor.Unspecified\n" ++
  "    \x7d\n" ++
  "\x7d\n" ++
  "\n"

/-- The text of a theme behind its header. -/
def text (theme : ComposeTheme) : String :=
  "package " ++ theme.packageName ++ "\n\n" ++ preamble ++
    theme.root.text "object" memberText ""

end ComposeTheme
end DesignTokens

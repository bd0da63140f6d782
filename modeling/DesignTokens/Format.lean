import DesignTokens.Output.ComposeTheme
import DesignTokens.Output.Declarations
import DesignTokens.Output.FlatEnum
import DesignTokens.Output.NestedEnum
import DesignTokens.Output.Resources
import DesignTokens.Output.ScriptModule
import DesignTokens.Output.Stylesheet

/-!
# Output formats

The formats in which a dictionary can be written. `Format.document` is a function of a dictionary
and a context: every format has a document for every dictionary.
-/

namespace DesignTokens

/-- An output format. A stylesheet without a dark rule is a plain one; a resource file without a
side lists both. -/
inductive Format
  | stylesheet (dialect : Dialect) (rule : Option DarkRule)
  | resources (side : Option ResourceSide)
  | dimens
  | composeTheme
  | flatEnum
  | nestedEnum
  | scriptModule
  | declarations
  | treeDump
  deriving DecidableEq

namespace Format

def all : List Format :=
  [stylesheet .css none, stylesheet .css (some .darkClass), stylesheet .css (some .darkMedia),
   stylesheet .scss none, stylesheet .scss (some .darkClass), stylesheet .scss (some .darkMedia),
   resources none, resources (some .light), resources (some .dark), dimens, composeTheme, flatEnum,
   nestedEnum, scriptModule, declarations, treeDump]

/-- The family of the formats in a dialect. -/
def dialectName : Dialect → String
  | .css => "css"
  | .scss => "scss"

def name : Format → String
  | stylesheet dialect none => dialectName dialect ++ "/variables"
  | stylesheet dialect (some .darkClass) => dialectName dialect ++ "/variables-class-mode"
  | stylesheet dialect (some .darkMedia) => dialectName dialect ++ "/variables-media-mode"
  | resources none => "android/resources-with-modes"
  | resources (some .light) => "android/resources-light"
  | resources (some .dark) => "android/resources-dark"
  | dimens => "android/dimens"
  | composeTheme => "android/kotlin-theme"
  | flatEnum => "ios-swift/enum-with-modes-legacy"
  | nestedEnum => "ios-swift/enum-with-modes"
  | scriptModule => "javascript/umd-with-modes"
  | declarations => "typescript/declarations"
  | treeDump => "json/debug"

def ofName? (name : String) : Option Format :=
  all.find? fun format => format.name == name

/-- The family that the name of a format says: what stands before its first slash. -/
def familyOf (name : String) : String :=
  String.ofList (name.toList.takeWhile (· != '/'))

/-- What a format is, in a few words. -/
def description : Format → String
  | stylesheet _ none => "Variables for brands without color modes"
  | stylesheet _ (some .darkClass) => "Custom properties with a .dark class override"
  | stylesheet _ (some .darkMedia) => "Custom properties with a prefers-color-scheme override"
  | resources none => "Android resources, light and dark in one file"
  | resources (some .light) => "Android resources for values/"
  | resources (some .dark) => "Android resources for values-night/"
  | dimens => "Android dimensions (dp) and font sizes (sp)"
  | composeTheme => "Jetpack Compose theme object with light/dark getters"
  | flatEnum => "Flat Swift enum with dynamic colors and legacy aliases"
  | nestedEnum => "Nested Swift enums with dynamic colors"
  | scriptModule => "UMD module with light/dark values"
  | declarations => "TypeScript declarations for the UMD module"
  | treeDump => "Nested token tree as indented JSON"

/-- The extensions of the files that a format is meant for, if no other is named. -/
def extensions : Format → List String
  | stylesheet .css (some .darkClass) => ["css"]
  | stylesheet .scss (some .darkClass) => ["scss"]
  | resources (some .light) => ["xml"]
  | composeTheme => ["kt"]
  | nestedEnum => ["swift"]
  | scriptModule => ["js"]
  | declarations => ["ts"]
  | treeDump => ["json"]
  | _ => []

def document (dictionary : Dictionary) (context : Context) : Format → String
  | stylesheet dialect none =>
    context.header ++ (Stylesheet.ofTokens dialect dictionary context).text
  | stylesheet dialect (some rule) =>
    context.header ++ (Stylesheet.ofVariants dialect rule dictionary context).text
  | resources none => Resources.text context.header (Resources.ofVariants dictionary context)
  | resources (some side) =>
    Resources.text context.header (Resources.ofSide side dictionary context)
  | dimens => Resources.text context.header (Resources.dimens dictionary context)
  | composeTheme => context.header ++ (ComposeTheme.ofDictionary dictionary context).text
  | flatEnum => context.header ++ (FlatEnum.ofDictionary dictionary context).text
  | nestedEnum => context.header ++ NestedEnum.text (NestedEnum.ofDictionary dictionary context)
  | scriptModule =>
    context.header ++ ScriptModule.text (ScriptModule.ofDictionary dictionary context)
  | declarations =>
    context.header ++ Declarations.text (Declarations.ofDictionary dictionary context)
  | treeDump => dictionary.tree.pretty

end Format
end DesignTokens

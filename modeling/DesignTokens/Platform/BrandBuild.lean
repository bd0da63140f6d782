import DesignTokens.Context
import DesignTokens.Mode.Detection
import DesignTokens.Platform

/-!
# What a build is configured with

A `BrandBuild` says for a brand which names its files have and what they hold. It is all that the
plans of the brand depend on.
-/

namespace DesignTokens

/-- The conventions of the families of formats: stylesheets, scripts, Android and Swift sources. -/
structure FamilyConventions where
  css : Convention := .standard
  js : Convention := .standard
  android : Convention := .standard
  ios : Convention := .standard

/-- The names of the enums in Swift sources. -/
structure SwiftNames where
  colorClassName : String := "StyleDictionaryColor"
  sizeClassName : String := "StyleDictionarySize"
  themeClassName : String := "Theme"

/-- The names in Kotlin sources. -/
structure ComposeNames where
  kotlinClassName : String := "ApolloTheme"
  packageName : String := "com.xplor.apollo.design"

/-- What the plans of a brand are made from. -/
structure BrandBuild where
  brand : String
  buildPath : String
  stem : String := Context.defaultStem
  legacyBrands : List String := ["apollo"]
  modes : BrandModes := .without
  conventions : FamilyConventions := {}
  outputReferences : Bool := true
  headerLines : List String := []
  ios : SwiftNames := {}
  android : ComposeNames := {}

namespace BrandBuild

/-- Whether the brand still has the older Android and Swift files. -/
def isLegacy (config : BrandBuild) : Bool :=
  config.legacyBrands.contains config.brand

def directory (config : BrandBuild) (platform : Platform) : String :=
  Path.withoutTrailingSlashes config.buildPath ++ "/" ++ config.brand ++ "/" ++ platform.name ++ "/"

end BrandBuild
end DesignTokens

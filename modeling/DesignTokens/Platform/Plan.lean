import DesignTokens.Format
import DesignTokens.Platform.BrandBuild

/-!
# Plans

A plan says, for a brand and a platform, which files to write: each with a format, the tokens that
it gets, and its options. `Plan.ofPlatform` makes it from a `BrandBuild`, `Plan.outputs` turns it
into texts with their paths. Neither touches any file.
-/

namespace DesignTokens

/-! ### What a plan says -/

/-- Which tokens a file gets. -/
inductive Selection
  | all
  | colors
  | sizes
  /-- The tokens of a category; one without a category has its first segment for one. -/
  | category (name : String)
  deriving DecidableEq

namespace Selection

/-- Whether a file gets the token. -/
def holds (t : Token) : Selection → Bool
  | all => true
  | colors => t.kind = .color
  | sizes => t.kind.isSize || t.kind = .fontWeight
  | category name => t.category.or t.path.head? == some name

def name : Selection → String
  | all => "all"
  | colors => "colors"
  | sizes => "sizes"
  | category name => "category:" ++ name

end Selection

structure PlannedFile where
  destination : String
  format : Format
  filter : Selection
  convention : Convention
  outputReferences : Bool := false
  className : Option String := none
  packageName : Option String := none
  showHeader : Bool := true

structure Plan where
  platform : Platform
  directory : String
  stem : Option String
  transforms : List Transform
  headerLines : List String
  files : List PlannedFile

namespace Plan

def context (plan : Plan) (file : PlannedFile) : Context :=
  { destination := file.destination
    showHeader := file.showHeader
    headerLines := plan.headerLines
    outputReferences := file.outputReferences
    className := file.className
    packageName := file.packageName
    convention := file.convention
    stemOption := plan.stem }

/-! ### Making plans -/

def transformsOf : Platform → List Transform
  | .android => [.hex8Android, .pxToDp, .pxToSp]
  | .ios => [.uiColor, .pxToCGFloat]
  | .css => [.hex6]
  | .scss | .js | .debug => []

/-- The files of Android. Only the older brands have them. -/
def androidFiles (config : BrandBuild) : List PlannedFile :=
  let convention := config.conventions.android
  let outputReferences := config.outputReferences
  if config.isLegacy then
    [{ destination := "colors.xml"
       format := .resources (if config.modes.hasModes then some .light else none)
       filter := .colors, convention, outputReferences }] ++
    (if config.modes.hasModes then
      [{ destination := "values-night/colors.xml", format := .resources (some .dark),
         filter := .colors, convention, outputReferences }]
    else []) ++
    [{ destination := "dimens.xml", format := .dimens, filter := .sizes, convention },
     { destination := "Theme.kt", format := .composeTheme, filter := .all, convention
       className := some config.android.kotlinClassName
       packageName := some config.android.packageName }]
  else []

/-- The files of iOS. Only the older brands have the flat enums. -/
def iosFiles (config : BrandBuild) : List PlannedFile :=
  let convention := config.conventions.ios
  let outputReferences := config.outputReferences
  (if config.isLegacy then
    [{ destination := "StyleDictionaryColor.swift", format := .flatEnum, filter := .colors
       convention, outputReferences, className := some config.ios.colorClassName },
     { destination := "StyleDictionaryFont.swift", format := .flatEnum, filter := .sizes
       convention, outputReferences, className := some config.ios.sizeClassName }]
  else []) ++
  [{ destination := "Theme.swift", format := .nestedEnum, filter := .all
     convention, outputReferences, className := some config.ios.themeClassName }]

/-- The stylesheets of a brand: two with modes, one without. -/
def stylesheetFiles (config : BrandBuild) (dialect : Dialect) (main media : String)
    (showHeader : Bool) : List PlannedFile :=
  let convention := config.conventions.css
  let outputReferences := config.outputReferences
  if config.modes.hasModes then
    [{ destination := main, format := .stylesheet dialect (some .darkClass), filter := .all
       convention, outputReferences, showHeader },
     { destination := media, format := .stylesheet dialect (some .darkMedia), filter := .all
       convention, outputReferences, showHeader }]
  else
    [{ destination := main, format := .stylesheet dialect none, filter := .all
       convention, outputReferences, showHeader }]

/-- The module and the declarations of a category. -/
def scriptFiles (config : BrandBuild) (category stem : String) : List PlannedFile :=
  let convention := config.conventions.js
  let outputReferences := config.outputReferences
  [{ destination := stem ++ ".js", format := .scriptModule, filter := .category category
     convention, outputReferences },
   { destination := stem ++ ".d.ts", format := .declarations, filter := .category category
     convention, outputReferences }]

def filesOf (config : BrandBuild) : Platform → List PlannedFile
  | .android => androidFiles config
  | .ios => iosFiles config
  | .css => stylesheetFiles config .css "variables.css" "variables-media.css" false
  | .scss => stylesheetFiles config .scss "_variables.scss" "_variables-media.scss" true
  | .js => scriptFiles config "color" "colors" ++ scriptFiles config "font" "font"
  | .debug =>
    [{ destination := "tokens.json", format := .treeDump, filter := .all, convention := .standard
       showHeader := false }]

/-- What generated names start with on a platform; scripts and dumps have no such names. -/
def stemOf (config : BrandBuild) : Platform → Option String
  | .js | .debug => none
  | _ => some config.stem

def ofPlatform (config : BrandBuild) (platform : Platform) : Plan :=
  { platform
    directory := config.directory platform
    stem := stemOf config platform
    transforms := transformsOf platform
    headerLines := config.headerLines
    files := filesOf config platform }

def all (config : BrandBuild) : List Plan :=
  Platform.all.map (ofPlatform config)

end Plan

/-! ### Rendering -/

structure OutputFile where
  path : String
  contents : String
  deriving DecidableEq

namespace Plan

def pathOf (plan : Plan) (file : PlannedFile) : String :=
  Path.join plan.directory file.destination

/-- The texts of all files of a plan. -/
def outputs (plan : Plan) (dictionary : Dictionary) : List OutputFile :=
  let transformed := dictionary.transformed plan.transforms
  plan.files.map fun file =>
    { path := plan.pathOf file
      contents := file.format.document (transformed.filter file.filter.holds)
        (plan.context file) }

end Plan
end DesignTokens

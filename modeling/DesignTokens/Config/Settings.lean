import DesignTokens.Config.Value
import DesignTokens.Format
import DesignTokens.Platform.BrandBuild

/-!
# Settings

The settings of the tools: `Settings.standard` are the ones that hold where nothing else is set,
`Settings.encode` and `Settings.decode?` turn settings into a configuration and back. Decoding is
lenient where texts are expected from other scalars, and strict about what is missing.
-/

namespace DesignTokens

/-- Where files are built and what they hold. -/
structure BuildSettings where
  buildPath : String
  stem : String
  legacyBrands : List String
  outputReferences : Bool
  tokensDir : String

structure Settings where
  build : BuildSettings
  headerLines : List String
  modes : FamilyConventions
  ios : SwiftNames
  android : ComposeNames

namespace Settings

/-- The settings that hold where nothing else is set. -/
def standard : Settings :=
  { build :=
      { buildPath := "build"
        stem := Context.defaultStem
        legacyBrands := ["apollo"]
        outputReferences := true
        tokensDir := "tokens" }
    headerLines := []
    modes := {}
    ios := {}
    android := {} }

/-- What the plans of a brand are made from. -/
def forBrand (settings : Settings) (brand : String) (modes : BrandModes) : BrandBuild :=
  { brand
    buildPath := settings.build.buildPath
    stem := settings.build.stem
    legacyBrands := settings.build.legacyBrands
    modes
    conventions := settings.modes
    outputReferences := settings.build.outputReferences
    headerLines := settings.headerLines
    ios := settings.ios
    android := settings.android }

end Settings

/-- The convention of the family that a format name belongs to. -/
def FamilyConventions.ofFormat (conventions : FamilyConventions) (name : String) : Convention :=
  match Format.familyOf name with
  | "css" | "scss" => conventions.css
  | "javascript" | "typescript" => conventions.js
  | "android" => conventions.android
  | "ios-swift" => conventions.ios
  | _ => .standard

/-! ### Encoding -/

namespace ConfigValue

def texts (values : List String) : ConfigValue :=
  array (values.map string)

def textTable (entries : List (String × String)) : ConfigValue :=
  table (SortedAssoc.ofList (entries.map fun (key, value) => (key, string value)))

end ConfigValue

def Settings.encode (s : Settings) : ConfigValue :=
  .table (SortedAssoc.ofList [
    ("build", .table (SortedAssoc.ofList [
      ("build_path", .string s.build.buildPath),
      ("prefix", .string s.build.stem),
      ("legacy_brands", .texts s.build.legacyBrands),
      ("output_references", .bool s.build.outputReferences),
      ("tokens_dir", .string s.build.tokensDir)])),
    ("header", .table [("lines", .texts s.headerLines)]),
    ("modes", .textTable [
      ("css", s.modes.css.name), ("js", s.modes.js.name),
      ("android", s.modes.android.name), ("ios", s.modes.ios.name)]),
    ("ios", .textTable [
      ("color_class_name", s.ios.colorClassName), ("size_class_name", s.ios.sizeClassName),
      ("theme_class_name", s.ios.themeClassName)]),
    ("android", .textTable [
      ("kotlin_class_name", s.android.kotlinClassName),
      ("package_name", s.android.packageName)])])

/-! ### Decoding -/

namespace ConfigValue

def floatText : Option Numeral.Binary64 → String
  | some x => Numeral.Layout.plain.write x
  | none => "NaN"

def decodeText? : ConfigValue → Option String
  | string value => some value
  | bool value => some (if value then "true" else "false")
  | integer value => some (Numeral.integerText value)
  | float value => some (floatText value)
  | _ => none

def decodeTexts? : ConfigValue → Option (List String)
  | array items => items.mapM decodeText?
  | _ => none

/-- The truth value that a text stands for, in any case. -/
def flagOfText? (text : String) : Option Bool :=
  match String.ofList (text.toList.map Char.toLower) with
  | "1" | "true" | "on" | "yes" => some true
  | "0" | "false" | "off" | "no" => some false
  | _ => none

/-- The truth value of a scalar; a number is true unless it is zero. -/
def decodeFlag? : ConfigValue → Option Bool
  | bool value => some value
  | integer value => some (value != 0)
  | float (some x) => some (!x.isZero)
  | float none => some true
  | string text => flagOfText? text
  | _ => none

/-- The convention that a text names in any case, or that is the only key of a table. -/
def decodeConvention? : ConfigValue → Option Convention
  | string name | table [(name, _)] =>
    Convention.ofName? (String.ofList (name.toList.map Char.toLower))
  | _ => none

/-- The field of a record: the entry of a table by its key, or the item of an array by its place. -/
def field? {α : Type} (decode : ConfigValue → Option α) (value : ConfigValue) (key : String)
    (place : Nat) : Option α :=
  match value with
  | table entries => (SortedAssoc.find? key entries).bind decode
  | array items => items[place]?.bind decode
  | _ => none

def decodeBuild? (value : ConfigValue) : Option BuildSettings := do
  return {
    buildPath := ← field? decodeText? value "build_path" 0
    stem := ← field? decodeText? value "prefix" 1
    legacyBrands := ← field? decodeTexts? value "legacy_brands" 2
    outputReferences := ← field? decodeFlag? value "output_references" 3
    tokensDir := ← field? decodeText? value "tokens_dir" 4 }

def decodeHeader? (value : ConfigValue) : Option (List String) :=
  field? decodeTexts? value "lines" 0

def decodeModes? (value : ConfigValue) : Option FamilyConventions := do
  return {
    css := ← field? decodeConvention? value "css" 0
    js := ← field? decodeConvention? value "js" 1
    android := ← field? decodeConvention? value "android" 2
    ios := ← field? decodeConvention? value "ios" 3 }

def decodeIos? (value : ConfigValue) : Option SwiftNames := do
  return {
    colorClassName := ← field? decodeText? value "color_class_name" 0
    sizeClassName := ← field? decodeText? value "size_class_name" 1
    themeClassName := ← field? decodeText? value "theme_class_name" 2 }

def decodeAndroid? (value : ConfigValue) : Option ComposeNames := do
  return {
    kotlinClassName := ← field? decodeText? value "kotlin_class_name" 0
    packageName := ← field? decodeText? value "package_name" 1 }

end ConfigValue

def Settings.decode? (value : ConfigValue) : Option Settings := do
  return {
    build := ← ConfigValue.field? ConfigValue.decodeBuild? value "build" 0
    headerLines := ← ConfigValue.field? ConfigValue.decodeHeader? value "header" 1
    modes := ← ConfigValue.field? ConfigValue.decodeModes? value "modes" 2
    ios := ← ConfigValue.field? ConfigValue.decodeIos? value "ios" 3
    android := ← ConfigValue.field? ConfigValue.decodeAndroid? value "android" 4 }

end DesignTokens

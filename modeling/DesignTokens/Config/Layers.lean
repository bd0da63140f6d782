import DesignTokens.Config.KeyPath
import DesignTokens.Config.Settings
import DesignTokens.Config.Toml.Document

/-!
# Settings in layers

Settings are loaded from files that are laid over the standard ones in order, and from single
overrides that are laid over all files. A key of a file that spells a key path is taken for one.
-/

namespace DesignTokens

/-- Why settings cannot be loaded. -/
inductive SettingsError
  /-- A required file is not there. -/
  | missingFile (name : String)
  /-- A file is no TOML document. -/
  | malformedFile (name : String)
  /-- The key of an override is no key path. -/
  | malformedKey (key : String)
  /-- A setting has a value of a wrong kind, or is missing. -/
  | unsuitableValue
  deriving DecidableEq

def SettingsError.message : SettingsError → String
  | missingFile name => "configuration file \"" ++ name ++ "\" not found"
  | malformedFile name => "configuration file \"" ++ name ++ "\" is not valid TOML"
  | malformedKey key => "invalid key '" ++ key ++ "'"
  | unsuitableValue => "a setting has an unsuitable value"

/-- A file of settings: its name, its text if it is there, and whether it has to be. -/
structure SettingsFile where
  name : String
  text : Option String
  required : Bool

/-- Something that settings are loaded from. -/
inductive SettingsLayer
  | file (source : SettingsFile)
  | override (key : String) (value : ConfigValue)

namespace SettingsFile

def withoutOrderMark (text : String) : String :=
  match text.toList with
  | '\uFEFF' :: rest => String.ofList rest
  | _ => text

/-- The entries of a file. One that may be missing and is has none. -/
def entries (file : SettingsFile) : Except SettingsError (List (String × ConfigValue)) :=
  match file.text with
  | none => if file.required then .error (.missingFile file.name) else .ok []
  | some text =>
    match Toml.parse? (withoutOrderMark text) with
    | some entries => .ok entries
    | none => .error (.malformedFile file.name)

/-- Lays the entries of a file over a configuration. -/
def layOver (root : ConfigValue) (file : SettingsFile) : Except SettingsError ConfigValue := do
  return (← file.entries).foldl (fun root (key, value) => .place (.ofText key) value root) root

end SettingsFile

namespace SettingsLayer

/-- The file of a layer. -/
def file? : SettingsLayer → Option SettingsFile
  | .file source => some source
  | .override _ _ => none

/-- The path and the value of an override; none for a file. -/
def override? : SettingsLayer → Except SettingsError (Option (KeyPath × ConfigValue))
  | .file _ => .ok none
  | .override key value =>
    match KeyPath.parse? key with
    | some path => .ok (some (path, value))
    | none => .error (.malformedKey key)

end SettingsLayer

namespace Settings

/-- Loads settings from layers over the standard settings. -/
def load (layers : List SettingsLayer) : Except SettingsError Settings := do
  let overrides ← layers.mapM SettingsLayer.override?
  let root ← (layers.filterMap SettingsLayer.file?).foldlM SettingsFile.layOver standard.encode
  let root := (overrides.filterMap id).foldl (fun root (path, value) => .place path value root) root
  match decode? root with
  | some settings => .ok settings
  | none => .error .unsuitableValue

end Settings
end DesignTokens

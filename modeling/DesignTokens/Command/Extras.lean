import DesignTokens.Config.Settings
import DesignTokens.Text.Blank

/-!
# Extra parameters

Arguments of the form `--extra-KEY VALUE`, or `--extra-KEY` alone, may stand anywhere on a command
line. `Extras.split` takes them out of it; some of them then replace settings
(`Settings.overriddenBy`), the others are parameters of the format (`Settings.paramsFor`).
-/

namespace DesignTokens

namespace Extras

/-- What is behind `word` in a text that starts with it. -/
def behind? (word text : String) : Option String :=
  if word.toList.isPrefixOf text.toList then
    some (String.ofList (text.toList.drop word.toList.length))
  else none

/-- The key of an argument that names an extra parameter. -/
def key? (argument : String) : Option String :=
  (behind? "--extra-" argument).or (behind? "--extras-" argument)

/-- Whether an argument looks like an option, so that it is no value. -/
def isOption (argument : String) : Bool :=
  argument.toList.head? == some '-'

/-- The value of a parameter that has none of its own. -/
def defaultValue : String := "true"

/-- The arguments without extra parameters, and the parameters in order. -/
def splitPairs : List String → List String × List (String × String)
  | [] => ([], [])
  | [argument] =>
    match key? argument with
    | some key => ([], [(key, defaultValue)])
    | none => ([argument], [])
  | argument :: next :: rest =>
    match key? argument with
    | some key =>
      if isOption next then
        let (kept, pairs) := splitPairs (next :: rest)
        (kept, (key, defaultValue) :: pairs)
      else
        let (kept, pairs) := splitPairs rest
        (kept, (key, next) :: pairs)
    | none =>
      let (kept, pairs) := splitPairs (next :: rest)
      (argument :: kept, pairs)

/-- The arguments without extra parameters, and the parameters; the last one of a key counts. -/
def split (arguments : List String) : List String × Params :=
  let (kept, pairs) := splitPairs arguments
  (kept, SortedAssoc.ofList pairs)

/-- Takes the parameter of the first of `keys` that there is one of. -/
def take (params : Params) : List String → Option String × Params
  | [] => (none, params)
  | key :: keys =>
    match SortedAssoc.find? key params with
    | some value => (some value, SortedAssoc.erase key params)
    | none => take params keys

def commaParts (current : List Char) : List Char → List (List Char)
  | [] => [current.reverse]
  | c :: cs =>
    if c == ',' then current.reverse :: commaParts [] cs else commaParts (c :: current) cs

/-- The names in a text, with commas between them and blanks around them. -/
def names (text : String) : List String :=
  (((commaParts [] text.toList).map Text.trim).filter (!·.isEmpty)).map String.ofList

end Extras

namespace Settings

/-- The text of a truth value among parameters. -/
def flagText (flag : Bool) : String :=
  if flag then "true" else "false"

/-- The settings with those replaced that extra parameters name, and the other parameters. -/
def overriddenBy (s : Settings) (extras : Params) : Except Error (Settings × Params) := do
  let (stem, extras) := Extras.take extras ["prefix"]
  let (flag, extras) := Extras.take extras ["output-references", "output-refs"]
  let outputReferences ← match flag with
    | some value => Context.readFlag "output-references" value
    | none => .ok s.build.outputReferences
  let (header, extras) := Extras.take extras ["header"]
  let (brands, extras) := Extras.take extras ["legacy-brands"]
  let build :=
    { s.build with
      stem := stem.getD s.build.stem
      outputReferences
      legacyBrands := (brands.map Extras.names).getD s.build.legacyBrands }
  return ({ s with build, headerLines := (header.map ([·])).getD s.headerLines }, extras)

/-- The parameters for a document in one format: those of the settings, replaced and extended by the
extra ones. -/
def paramsFor (s : Settings) (format : String) (extras : Params) : Params :=
  SortedAssoc.override
    (SortedAssoc.ofList [
      ("prefix", s.build.stem),
      ("output-references", flagText s.build.outputReferences),
      ("mode-convention", (s.modes.ofFormat format).name)])
    extras

/-- The context for a document in one format. Its header has the lines of the settings unless a
parameter says otherwise. -/
def contextFor (s : Settings) (format destination : String) (extras : Params) :
    Except Error Context := do
  let params := s.paramsFor format extras
  let context ← Context.ofParams destination params
  return if SortedAssoc.contains "header" params then context
    else { context with headerLines := s.headerLines }

end Settings
end DesignTokens

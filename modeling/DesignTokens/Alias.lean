import DesignTokens.Text.CaseFold

/-!
# Names that were replaced

Names that generated sources keep declaring because older code still uses them: a table for the
stylesheets, and a rule for the members of the flat Swift enums, whose names once lacked the word
behind their stem.
-/

namespace DesignTokens

/-- A retired name and the one that replaced it. -/
structure Alias where
  legacy : String
  current : String
  comment : Option String

namespace Alias

/-- The retired names of the stylesheets. -/
def table : List Alias :=
  [⟨"xpl-color-transparent", "xpl-color-transparent-0",
    some "Backwards-compatible alias. Use --xpl-color-transparent-0 instead."⟩]

end Alias

/-- The word that the members of a Swift enum once lacked. -/
inductive LegacyWord
  | color
  | size
  deriving DecidableEq

namespace LegacyWord

def text : LegacyWord → String
  | color => "Color"
  | size => "Size"

/-- Whether `word` stands somewhere in a text. -/
def occursIn (word : List Char) : List Char → Bool
  | [] => word.isEmpty
  | c :: cs => word.isPrefixOf (c :: cs) || occursIn word cs

/-- The word for an enum of this name. -/
def ofClassName (className : String) : LegacyWord :=
  if occursIn "color".toList (className.toList.map Char.toLower) then color else size

/-- The earlier names of a member: the name without the word behind the stem, compared up to case,
and the bare name of the transparent color. -/
def earlierNames (word : LegacyWord) (stem name : String) : List String :=
  match Text.takeFolded? stem.toList name.toList with
  | none => []
  | some (met, rest) =>
    match Text.takeFolded? word.text.toList rest with
    | none => []
    | some (_, rest) =>
      let earlier := String.ofList (met ++ rest)
      if rest.isEmpty || rest.contains '\n' || earlier == name then []
      else if earlier == stem ++ "Transparent0" then [earlier, stem ++ "Transparent"]
      else [earlier]

end LegacyWord
end DesignTokens

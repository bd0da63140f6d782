import DesignTokens.Dictionary
import DesignTokens.Mode

/-!
# Names that variants share

Where a document declares light and dark values under one name, a dark variant goes by the name of
its light counterpart.
-/

namespace DesignTokens

/-- The name of a token, of a dark variant that of its light counterpart. Without a counterpart in
the dictionary the name is derived from the canonical path. -/
def Token.sharedName (dictionary : Dictionary) (convention : Convention)
    (derive : List String → String) (t : Token) : String :=
  if t.isDark convention then
    let canonical := t.canonicalPath convention
    match dictionary.find? (".".intercalate canonical) with
    | some other => if other.isDark convention then derive canonical else other.name
    | none => derive canonical
  else t.name

end DesignTokens

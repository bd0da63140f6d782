import DesignTokens.Mode.Pair

/-!
# Tokens grouped by canonical path

`Groups.ofTokens` pairs the variants of each canonical path. The paths are lists of segments, so
that a dot inside a segment confuses nothing, in lexicographic order. Of several tokens for one
variant the last one counts.
-/

namespace DesignTokens

/-- The pairs of all canonical paths, the paths in increasing order. -/
abbrev Groups : Type := List (List String × Pair)

namespace Groups

def add (convention : Convention) (groups : Groups) (t : Token) : Groups :=
  SortedAssoc.upsert (t.canonicalPath convention) (Pair.putVariant convention t) groups

def ofTokens (convention : Convention) (tokens : List Token) : Groups :=
  tokens.foldl (add convention) []

def get? (groups : Groups) (canonical : List String) : Option Pair :=
  SortedAssoc.find? canonical groups

end Groups
end DesignTokens

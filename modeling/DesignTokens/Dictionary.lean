import DesignTokens.Token

/-!
# Dictionaries of tokens

A dictionary is a list of tokens, the tokens that placeholders may refer to (the referents), and a
nested tree. A filter narrows the list alone, so that a file with few tokens can still refer to all
the others. A change of the tokens makes the current list the referents.
-/

namespace DesignTokens

/-- The tokens of a build and what references to them resolve against. -/
structure Dictionary where
  tokens : List Token
  referents : List Token
  tree : Json

namespace Dictionary

/-! ### The nested tree -/

/-- Puts `value` at the end of a path of keys. What stands in the way and is no object is replaced
by one. -/
def plant (value : Json) : List String → JsonObject → JsonObject
  | [], members => members
  | [leaf], members => SortedAssoc.insert leaf value members
  | segment :: rest, members =>
    SortedAssoc.upsert segment
      (fun old => .object (plant value rest ((old.map Json.membersOrNone).getD []))) members

/-- The tree of the tokens' JSON views, each at its path; later tokens replace earlier ones. -/
def treeOf (tokens : List Token) : Json :=
  .object (tokens.foldl (fun members t => plant t.toJson t.path members) [])

/-! ### Building and reading -/

def ofParts (tokens : List Token) (tree : Json) : Dictionary :=
  ⟨tokens, tokens, tree⟩

/-- The dictionary of `tokens` with the tree of their paths. -/
def ofTokens (tokens : List Token) : Dictionary :=
  ofParts tokens (treeOf tokens)

/-- The token that a placeholder with the text `key` refers to, the last one of that path. -/
def find? (d : Dictionary) (key : String) : Option Token :=
  d.referents.reverse.find? fun t => t.dottedPath == key

/-! ### Changing -/

def filter (d : Dictionary) (keep : Token → Bool) : Dictionary :=
  { d with tokens := d.tokens.filter keep }

def map (d : Dictionary) (change : Token → Token) : Dictionary :=
  let tokens := d.tokens.map change
  { d with tokens, referents := tokens }

end Dictionary
end DesignTokens

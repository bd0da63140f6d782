import DesignTokens.Mode.Tree
import DesignTokens.Text.Comment

/-!
# The merged token tree

The object tree that scripts see: a group per inner segment, and at each canonical path the JSON
view of the primary token with the values of both variants merged. An object of the tree is taken
for a token when it has a value.
-/

namespace DesignTokens.MergedTree

/-- The value of a pair: the two values by mode, unless only the light one is there. -/
def valueOf : Pair → Json
  | .light t => t.value
  | .dark t => .ofMembers [("dark", t.value)]
  | .both light dark => .ofMembers [("light", light.value), ("dark", dark.value)]

def ofPair (pair : Pair) : Json :=
  .object (SortedAssoc.insert "value" (valueOf pair) pair.preferLight.toJson.membersOrNone)

def addLeaf (members : JsonObject) (leaf : Leaf) : JsonObject :=
  SortedAssoc.insert leaf.key (ofPair leaf.pair) members

mutual

/-- The group of a node. A leaf replaces a group of the same key. -/
def ofNode : Node → JsonObject
  | .mk leaves children => leaves.foldl addLeaf (ofChildren children [])

def ofChildren : List (String × Node) → JsonObject → JsonObject
  | [], members => members
  | (segment, child) :: rest, members =>
    ofChildren rest (SortedAssoc.insert segment (.object (ofNode child)) members)

end

def ofTokens (convention : Convention) (tokens : List Token) : JsonObject :=
  ofNode (Node.ofGroups (Groups.ofTokens convention tokens))

/-- The value that makes an object a token, under either spelling. -/
def tokenValue? (members : JsonObject) : Option Json :=
  (SortedAssoc.find? "value" members).or (SortedAssoc.find? "$value" members)

/-- The lines of the doc comment of a token: its comment, and its deprecation. -/
def notesOf (members : JsonObject) : List String :=
  let clean (text : String) : String := Text.Comment.block (Text.Comment.line text)
  let text? (key : String) : Option String :=
    (SortedAssoc.find? key members).bind Json.asString?
  let deprecated := (SortedAssoc.find? "deprecated" members).bind Json.asBool? == some true
  ((text? "comment").map clean).toList ++
    if deprecated then
      match (text? "deprecated_comment").filter (!·.isEmpty) with
      | some reason => ["@deprecated " ++ clean reason]
      | none => ["@deprecated"]
    else []

end DesignTokens.MergedTree

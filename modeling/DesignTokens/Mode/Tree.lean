import DesignTokens.Mode.Groups

/-!
# The nested view of grouped tokens

Every segment of a canonical path but the last names a node, the last one a leaf in it. Leaves and
children of a node are in increasing order; the empty path has no place.
-/

namespace DesignTokens

/-- A pair with its canonical path. -/
structure Leaf where
  path : List String
  pair : Pair

def Leaf.key (leaf : Leaf) : String :=
  leaf.path.getLastD ""

/-- A node: its leaves, and the nodes below it by segment. -/
inductive Node
  | mk (leaves : List Leaf) (children : List (String × Node))

namespace Node

def leaves : Node → List Leaf
  | mk leaves _ => leaves

def children : Node → List (String × Node)
  | mk _ children => children

def empty : Node := mk [] []

def isEmpty (node : Node) : Bool :=
  node.leaves.isEmpty && node.children.isEmpty

mutual

/-- The number of leaves in a node and below it. -/
def size : Node → Nat
  | mk leaves children => leaves.length + sizes children

def sizes : List (String × Node) → Nat
  | [] => 0
  | (_, child) :: rest => child.size + sizes rest

end

/-- Puts a leaf last into the node below the given segments. -/
def push (leaf : Leaf) : List String → Node → Node
  | [], mk leaves children => mk (leaves ++ [leaf]) children
  | segment :: rest, mk leaves children =>
    mk leaves (SortedAssoc.upsert segment (fun old => push leaf rest (old.getD empty)) children)

/-- The tree of all pairs with a path that is not empty. -/
def ofGroups (groups : Groups) : Node :=
  groups.foldl (fun root (path, pair) =>
    if path.isEmpty then root else push ⟨path, pair⟩ path.dropLast root) empty

end Node
end DesignTokens

import DesignTokens.Identifier
import DesignTokens.Mode.Tree

/-!
# Nested containers

The sources that keep the hierarchy of the paths nest containers: one per inner segment, with a
member per leaf. `Container.ofNode` names containers and makes members of leaves, `Container.text`
writes a container with its inner containers before its members.
-/

namespace DesignTokens

/-- A named container with the containers and members in it. -/
inductive Container (α : Type)
  | mk (name : String) (children : List (Container α)) (members : List α)

namespace Container

variable {α : Type}

def name : Container α → String
  | mk name _ _ => name

mutual

def ofNode (identifier : String → String) (member : Leaf → α) (name : String) : Node → Container α
  | .mk leaves children => mk name (ofNodes identifier member children) (leaves.map member)

/-- The containers of nodes, each named by its segment. -/
def ofNodes (identifier : String → String) (member : Leaf → α) :
    List (String × Node) → List (Container α)
  | [] => []
  | (segment, child) :: rest =>
    ofNode identifier member (identifier (Identifier.pascalCase segment)) child ::
      ofNodes identifier member rest

end

def memberName (identifier : String → String) (leaf : Leaf) : String :=
  identifier (Identifier.camelCase leaf.key)

def deeper (indent : String) : String :=
  indent ++ "    "

mutual

/-- The text of a container that `keyword` declares, where `memberText` writes a member. -/
def text (keyword : String) (memberText : String → α → String) (indent : String) :
    Container α → String
  | mk name children members =>
    indent ++ keyword ++ " " ++ name ++ " \x7b\n" ++
      texts keyword memberText (deeper indent) children ++
      String.join (members.map (memberText (deeper indent))) ++ indent ++ "\x7d\n"

def texts (keyword : String) (memberText : String → α → String) (indent : String) :
    List (Container α) → String
  | [] => ""
  | child :: rest => text keyword memberText indent child ++ texts keyword memberText indent rest

end

end Container
end DesignTokens

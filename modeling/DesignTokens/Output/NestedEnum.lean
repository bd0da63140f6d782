import DesignTokens.Context
import DesignTokens.Output.Container
import DesignTokens.Output.SwiftMember
import DesignTokens.Reference

/-!
# Nested Swift enums

A Swift enum that holds an enum per inner segment and a constant per token. A color with both
variants follows the mode of the system; any other token has the value of its primary variant.
-/

namespace DesignTokens

structure NestedMember where
  name : String
  deprecation : Option String
  comment : Option String
  body : SwiftMember.Body

namespace NestedEnum

def defaultRoot : String := "Theme"

/-- The constant that a token is referred to as. -/
def memberReference (context : Context) (t : Token) : String :=
  Identifier.qualified (context.rootName defaultRoot) (t.canonicalPath context.convention)
    Identifier.swift

def value (dictionary : Dictionary) (context : Context) (t : Token) : String :=
  Reference.emit dictionary context.outputReferences (memberReference context) t

def member (dictionary : Dictionary) (context : Context) (leaf : Leaf) : NestedMember :=
  { name := Container.memberName Identifier.swift leaf
    deprecation := leaf.pair.deprecationNote?
    comment := leaf.pair.preferLight.comment
    body := .ofPair (value dictionary context) leaf.pair }

def ofDictionary (dictionary : Dictionary) (context : Context) : Container NestedMember :=
  Container.ofNode Identifier.swift (member dictionary context)
    (context.rootName defaultRoot)
    (Node.ofGroups (Groups.ofTokens context.convention dictionary.tokens))

def memberText (indent : String) (m : NestedMember) : String :=
  SwiftMember.attributeText indent m.deprecation ++
    SwiftMember.declarationText indent m.name m.body ++
    (m.comment.map fun text => " /** " ++ Text.Comment.nested text ++ " */").getD "" ++ "\n"

/-- The text of a nested enum behind its header. -/
def text (root : Container NestedMember) : String :=
  SwiftMember.importLines ++ root.text "public enum" memberText ""

end NestedEnum
end DesignTokens

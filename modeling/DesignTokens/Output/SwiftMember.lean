import DesignTokens.Mode.Pair
import DesignTokens.Text.Comment
import DesignTokens.Text.Literal

/-!
# Members of Swift enums

What the two kinds of Swift enums have in common: the imports, the attribute of a deprecated member,
and the declaration of a member whose value is either one expression or a color that follows the
mode of the system.
-/

namespace DesignTokens.SwiftMember

/-- The value of a member. -/
inductive Body
  | fixed (value : String)
  | dynamic (light dark : String)

/-- The value of the member of a pair. A color with both variants follows the mode; any other pair
has the value of its primary variant. -/
def Body.ofPair (value : Token → String) : Pair → Body
  | .both light dark =>
    if light.kind = .color then .dynamic (value light) (value dark) else .fixed (value light)
  | .light t | .dark t => .fixed (value t)

def importLines : String := "import UIKit\nimport SwiftUI\n\n"

/-- The attribute of a member that is deprecated with a message. -/
def availabilityAttribute (indent message : String) : String :=
  indent ++ "@available(*, deprecated, message: \"" ++ Text.Literal.swift message ++ "\")\n"

/-- The attribute of a member, if it is deprecated. -/
def attributeText (indent : String) (deprecation : Option String) : String :=
  (deprecation.map (availabilityAttribute indent)).getD ""

/-- The declaration of a member without a break at the end. -/
def declarationText (indent name : String) : Body → String
  | .fixed value => indent ++ "public static let " ++ name ++ " = " ++ value
  | .dynamic light dark =>
    indent ++ "public static let " ++ name ++ " = UIColor \x7b traitCollection in\n" ++
      indent ++ "    return traitCollection.userInterfaceStyle == .dark ? " ++ dark ++ " : " ++
      light ++ "\n" ++ indent ++ "\x7d"

end DesignTokens.SwiftMember

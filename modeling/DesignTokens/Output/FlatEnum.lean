import DesignTokens.Alias
import DesignTokens.Context
import DesignTokens.Identifier
import DesignTokens.Mode.Counterpart
import DesignTokens.Mode.Groups
import DesignTokens.Output.SwiftMember
import DesignTokens.Reference

/-!
# Flat Swift enums

A Swift enum with one constant per canonical path, and the names that these constants had before. An
enum of colors is followed by an extension of `Color` that makes all of them available there.
-/

namespace DesignTokens

/-- A constant in a flat enum. -/
structure FlatMember where
  name : String
  deprecation : Option String
  body : SwiftMember.Body

/-- An earlier name of a constant. -/
structure FlatAlias where
  legacy : String
  current : String

structure FlatEnum where
  className : String
  members : List FlatMember
  aliases : List FlatAlias

namespace FlatEnum

def defaultRoot : String := "StyleDictionaryColor"

/-- The word that the members of the enum once lacked. -/
def legacyWord (e : FlatEnum) : LegacyWord :=
  .ofClassName e.className

/-! ### What is declared -/

def memberName (dictionary : Dictionary) (context : Context) (t : Token) : String :=
  t.sharedName dictionary context.convention fun canonical =>
    Identifier.flatName (context.stem :: canonical)

/-- The name of the constant of a pair: that of its light variant, if there is one. -/
def pairName (dictionary : Dictionary) (context : Context) : Pair → String
  | .light t | .both t _ => t.name
  | .dark t => memberName dictionary context t

def value (dictionary : Dictionary) (context : Context) (t : Token) : String :=
  Reference.emit dictionary context.outputReferences
    (fun r => Identifier.swift (memberName dictionary context r)) t

def member (dictionary : Dictionary) (context : Context) (pair : Pair) : FlatMember :=
  { name := pairName dictionary context pair
    deprecation := pair.deprecationNote?
    body := .ofPair (value dictionary context) pair }

/-- The earlier names of a constant. -/
def aliasesOf (context : Context) (className : String) (m : FlatMember) : List FlatAlias :=
  ((LegacyWord.ofClassName className).earlierNames context.stem m.name).map fun legacy =>
    ⟨legacy, m.name⟩

def ofDictionary (dictionary : Dictionary) (context : Context) : FlatEnum :=
  let className := context.rootName defaultRoot
  let members := (Groups.ofTokens context.convention dictionary.tokens).map fun group =>
    member dictionary context group.2
  ⟨className, members, members.flatMap (aliasesOf context className)⟩

/-! ### How it is written -/

def memberText (m : FlatMember) : String :=
  SwiftMember.attributeText "    " m.deprecation ++
    SwiftMember.declarationText "    " (Identifier.swift m.name) m.body ++ "\n"

def renamedAttribute (a : FlatAlias) : String :=
  "    @available(*, deprecated, renamed: \"" ++ a.current ++ "\")\n"

/-- The line that opens the earlier names. -/
def aliasMark : String := "\n    // MARK: - Backwards Compatibility Aliases\n"

def aliasText (a : FlatAlias) : String :=
  renamedAttribute a ++
    SwiftMember.declarationText "    " (Identifier.swift a.legacy)
      (.fixed (Identifier.swift a.current)) ++ "\n"

/-- The earlier names, if there are any. -/
def aliasesText (aliases : List FlatAlias) : String :=
  if aliases.isEmpty then ""
  else
    aliasMark ++
      "    // These aliases maintain compatibility with older token names.\n" ++
      "    // They will be removed in a future major version.\n\n" ++
      String.join (aliases.map aliasText)

/-- The line that makes a member of the enum available in `Color`. -/
def extensionLine (className name : String) : String :=
  let member := Identifier.swift name
  SwiftMember.declarationText "    " member
    (.fixed ("Color(" ++ className ++ "." ++ member ++ ")")) ++ "\n"

def extensionText (e : FlatEnum) : String :=
  "extension Color \x7b\n" ++
    String.join (e.members.map fun m =>
      SwiftMember.attributeText "    " m.deprecation ++ extensionLine e.className m.name) ++
    (if e.aliases.isEmpty then ""
      else aliasMark ++ "\n" ++ String.join (e.aliases.map fun a =>
        renamedAttribute a ++ extensionLine e.className a.legacy)) ++
    "\x7d\n"

/-- The text of a flat enum behind its header. -/
def text (e : FlatEnum) : String :=
  SwiftMember.importLines ++ "public enum " ++ e.className ++ " \x7b\n" ++
    String.join (e.members.map memberText) ++ aliasesText e.aliases ++ "\x7d\n\n" ++
    (if e.legacyWord = .color then extensionText e else "")

end FlatEnum
end DesignTokens

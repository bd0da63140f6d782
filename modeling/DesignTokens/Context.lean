import DesignTokens.Error
import DesignTokens.Header
import DesignTokens.Mode

/-!
# What a document is generated with

A `Context` says where a document goes and which options hold. `Context.ofParams` reads it from
named texts, as a command line gives them.
-/

namespace DesignTokens

/-- A map from names to texts, the names in increasing order. -/
abbrev Params : Type := List (String × String)

/-- Where a document goes, and the options that it is generated with. The `stem` is what generated
names start with. -/
structure Context where
  destination : String
  showHeader : Bool := true
  headerLines : List String := []
  outputReferences : Bool := false
  className : Option String := none
  packageName : Option String := none
  convention : Convention := .standard
  stemOption : Option String := none

namespace Context

/-- The stem where none is set. -/
def defaultStem : String := "xpl"

/-- What generated names start with; an empty option is none. -/
def stem (context : Context) : String :=
  (context.stemOption.filter (!·.isEmpty)).getD defaultStem

/-- The header of the document, empty if it is not shown. -/
def header (context : Context) : String :=
  if context.showHeader then Header.text context.destination context.headerLines else ""

/-- The name of the class that the document declares. -/
def rootName (context : Context) (default : String) : String :=
  context.className.getD default

/-! ### Parameters -/

/-- The truth value that a text stands for, in any case of its ASCII letters. -/
def readFlag (key value : String) : Except Error Bool :=
  match String.ofList (value.toList.map Char.toLower) with
  | "true" | "1" | "yes" | "on" => .ok true
  | "false" | "0" | "no" | "off" => .ok false
  | _ => .error (.invalidFlag key value)

/-- The truth value of a parameter, `default` without it. -/
def flagParam (params : Params) (key : String) (default : Bool) : Except Error Bool :=
  match SortedAssoc.find? key params with
  | some value => readFlag key value
  | none => .ok default

def conventionParam (params : Params) : Except Error Convention :=
  match SortedAssoc.find? "mode-convention" params with
  | some value =>
    match Convention.ofName? value with
    | some convention => .ok convention
    | none => .error (.unknownConvention value)
  | none => .ok .standard

/-- The context of a destination and parameters. Parameters of other names have no effect. -/
def ofParams (destination : String) (params : Params) : Except Error Context := do
  let text? (key : String) : Option String := SortedAssoc.find? key params
  return {
    destination
    showHeader := ← flagParam params "show-header" true
    headerLines := (text? "header").toList
    outputReferences := ← flagParam params "output-references" false
    className := text? "class-name"
    packageName := text? "package-name"
    convention := ← conventionParam params
    stemOption := text? "prefix" }

end Context
end DesignTokens

import DesignTokens.Context
import DesignTokens.Dictionary
import DesignTokens.Output.MergedTree

/-!
# Type declarations

The shape of a script module as TypeScript. `ValueType.of` infers the type of a JSON value,
`Declarations.ofTree` declares every group and token of a merged tree, and the printers write both.
-/

namespace DesignTokens

/-- The type of a JSON value. An array has the types of its items, each once; an object has its
fields. -/
inductive ValueType
  | null
  | boolean
  | number
  | string
  | array (items : List ValueType)
  | object (fields : List (String × ValueType))

namespace ValueType

/-! ### Writing types -/

/-- Whether a character may start a key without quotes. -/
def isKeyStart (c : Char) : Bool :=
  c.isAlpha || c == '_' || c == '$'

/-- Whether a key needs no quotes. -/
def isPlainKey (key : String) : Bool :=
  match key.toList with
  | [] => false
  | c :: cs => isKeyStart c && cs.all fun c => isKeyStart c || c.isDigit

/-- A key of an object type, in quotes if it needs them. -/
def keyText (key : String) : String :=
  if isPlainKey key then key else Json.quote key

mutual

def text : ValueType → String
  | null => "null"
  | boolean => "boolean"
  | number => "number"
  | string => "string"
  | array [] => "unknown[]"
  | array [item] => item.text ++ "[]"
  | array (item :: items) => "(" ++ item.text ++ unionText items ++ ")[]"
  | object [] => "\x7b\x7d"
  | object ((key, type) :: fields) =>
    "\x7b " ++ keyText key ++ ": " ++ type.text ++ fieldsText fields ++ " \x7d"

/-- The texts of the alternatives behind the first one. -/
def unionText : List ValueType → String
  | [] => ""
  | item :: items => " | " ++ item.text ++ unionText items

/-- The texts of the fields behind the first one. -/
def fieldsText : List (String × ValueType) → String
  | [] => ""
  | (key, type) :: fields => "; " ++ keyText key ++ ": " ++ type.text ++ fieldsText fields

end

/-! ### Inferring types -/

/-- Types without those whose text came before. -/
def distinct (types : List ValueType) : List ValueType :=
  types.foldl
    (fun kept type => if kept.any (·.text == type.text) then kept else kept ++ [type]) []

mutual

def of : Json → ValueType
  | .null => null
  | .bool _ => boolean
  | .number _ => number
  | .string _ => string
  | .array items => array (distinct (ofItems items))
  | .object members => object (ofMembers members)

def ofItems : List Json → List ValueType
  | [] => []
  | item :: items => of item :: ofItems items

def ofMembers : List (String × Json) → List (String × ValueType)
  | [] => []
  | (key, value) :: members => (key, of value) :: ofMembers members

end

end ValueType

/-- What is declared under a key. -/
inductive DeclaredEntry
  | token (key : String) (docs : List String) (value : ValueType) (typeName : Option String)
  | group (key : String) (entries : List DeclaredEntry)
  | plain (key : String) (type : ValueType)

namespace Declarations

/-! ### What is declared -/

mutual

/-- The entries of a group. -/
def ofTree : List (String × Json) → List DeclaredEntry
  | [] => []
  | (key, value) :: rest => entry key value :: ofTree rest

def entry (key : String) : Json → DeclaredEntry
  | .object members =>
    match MergedTree.tokenValue? members with
    | some value =>
      .token key (MergedTree.notesOf members) (.of value)
        ((SortedAssoc.find? "type" members).bind Json.asString?)
    | none => .group key (ofTree members)
  | value => .plain key (.of value)

end

def ofDictionary (dictionary : Dictionary) (context : Context) : List DeclaredEntry :=
  ofTree (MergedTree.ofTokens context.convention dictionary.tokens)

/-! ### How they are written -/

/-- The lines of a doc comment. -/
def docText (indent : String) (docs : List String) : List String :=
  if docs.isEmpty then []
  else [indent ++ "/**"] ++ docs.map (fun line => indent ++ " * " ++ line) ++ [indent ++ " */"]

def deeper (indent : String) : String :=
  indent ++ "  "

mutual

def entryLines (indent : String) : DeclaredEntry → List String
  | .token key docs value typeName =>
    docText indent docs ++
      [indent ++ "readonly " ++ ValueType.keyText key ++ ": \x7b",
        deeper indent ++ "readonly value: " ++ value.text ++ ";"] ++
      (typeName.map fun name =>
        deeper indent ++ "readonly type: " ++ Json.quote name ++ ";").toList ++
      [indent ++ "\x7d;"]
  | .group key entries =>
    [indent ++ "readonly " ++ ValueType.keyText key ++ ": \x7b"] ++
      entriesLines (deeper indent) entries ++ [indent ++ "\x7d;"]
  | .plain key type => [indent ++ "readonly " ++ ValueType.keyText key ++ ": " ++ type.text ++ ";"]

def entriesLines (indent : String) : List DeclaredEntry → List String
  | [] => []
  | entry :: rest => entryLines indent entry ++ entriesLines indent rest

end

/-- The text of declarations behind their header. -/
def text (entries : List DeclaredEntry) : String :=
  "declare const _styleDictionary: \x7b\n" ++
    String.join ((entriesLines "  " entries).map (· ++ "\n")) ++
    "\x7d;\n\nexport = _styleDictionary;\nexport as namespace StyleDictionary;\n"

end Declarations
end DesignTokens

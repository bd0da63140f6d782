import DesignTokens.Json.Basic
import DesignTokens.Numeral.Layout
import DesignTokens.Text.Hex

/-!
# JSON text of a value

Two spellings of a value. `Json.compact` has no blanks; `Json.pretty` puts each item and each member
on a line of its own, two more spaces deep than the brackets around it, and leaves empty brackets
closed.
-/

namespace DesignTokens.Json

open Numeral (Layout)

/-! ### Strings and numbers -/

/-- What a character becomes inside a string: quotes, backslashes and the controls below the space
are escaped, the controls without a letter of their own by their code. -/
def escape (c : Char) : List Char :=
  if c == '"' then ['\\', '"']
  else if c == '\\' then ['\\', '\\']
  else if c == '\n' then ['\\', 'n']
  else if c == '\r' then ['\\', 'r']
  else if c == '\t' then ['\\', 't']
  else if c.toNat == 8 then ['\\', 'b']
  else if c.toNat == 12 then ['\\', 'f']
  else if c.toNat < 32 then
    ['\\', 'u', '0', '0', Text.hexDigit (c.toNat / 16), Text.hexDigit (c.toNat % 16)]
  else [c]

def quoteChars (text : List Char) : List Char :=
  '"' :: text.flatMap escape ++ ['"']

/-- A string in quotes. -/
def quote (text : String) : String :=
  String.ofList (quoteChars text.toList)

def numberText : JsonNumber → String
  | .integer value => Numeral.integerText value
  | .float value => Layout.json.write value

/-! ### Compact text -/

mutual

def compactChars : Json → List Char
  | null => "null".toList
  | bool true => "true".toList
  | bool false => "false".toList
  | number value => (numberText value).toList
  | string value => quoteChars value.toList
  | array [] => "[]".toList
  | array (item :: items) => '[' :: compactChars item ++ compactItems items
  | object [] => ['\x7b', '\x7d']
  | object ((key, value) :: members) =>
    '\x7b' :: quoteChars key.toList ++ ':' :: compactChars value ++ compactMembers members

/-- The items after the first one, and the closing bracket. -/
def compactItems : List Json → List Char
  | [] => [']']
  | item :: items => ',' :: compactChars item ++ compactItems items

/-- The members after the first one, and the closing bracket. -/
def compactMembers : List (String × Json) → List Char
  | [] => ['\x7d']
  | (key, value) :: members =>
    ',' :: quoteChars key.toList ++ ':' :: compactChars value ++ compactMembers members

end

/-- The text of a value without blanks. -/
def compact (value : Json) : String :=
  String.ofList value.compactChars

/-! ### Indented text -/

/-- A line break and the blanks of `depth` levels. -/
def newline (depth : Nat) : List Char :=
  '\n' :: List.replicate (2 * depth) ' '

mutual

/-- The characters of the indented text of a value whose first line stands `depth` levels deep. -/
def prettyChars (depth : Nat) : Json → List Char
  | null => "null".toList
  | bool true => "true".toList
  | bool false => "false".toList
  | number value => (numberText value).toList
  | string value => quoteChars value.toList
  | array [] => "[]".toList
  | array (item :: items) =>
    '[' :: newline (depth + 1) ++ prettyChars (depth + 1) item ++ prettyItems depth items
  | object [] => ['\x7b', '\x7d']
  | object ((key, value) :: members) =>
    '\x7b' :: newline (depth + 1) ++ quoteChars key.toList ++ ':' :: ' ' ::
      prettyChars (depth + 1) value ++ prettyMembers depth members

def prettyItems (depth : Nat) : List Json → List Char
  | [] => newline depth ++ [']']
  | item :: items =>
    ',' :: newline (depth + 1) ++ prettyChars (depth + 1) item ++ prettyItems depth items

def prettyMembers (depth : Nat) : List (String × Json) → List Char
  | [] => newline depth ++ ['\x7d']
  | (key, value) :: members =>
    ',' :: newline (depth + 1) ++ quoteChars key.toList ++ ':' :: ' ' ::
      prettyChars (depth + 1) value ++ prettyMembers depth members

end

/-- The text of a value, one item or member a line. -/
def pretty (value : Json) : String :=
  String.ofList (value.prettyChars 0)

/-! ### Values as text -/

/-- A value as it stands in a source: a string without its quotes, all else as compact text. -/
def asText : Json → String
  | string value => value
  | value => value.compact

end DesignTokens.Json

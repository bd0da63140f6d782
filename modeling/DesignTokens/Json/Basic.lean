import DesignTokens.Numeral.Binary64
import DesignTokens.SortedAssoc

/-!
# JSON values

A JSON value with the members of an object in increasing order of their keys, one per key. A number
is an integer of at most 64 bits, signed or unsigned, or a double-precision number.
-/

namespace DesignTokens

open Numeral (Binary64)

inductive JsonNumber
  | integer (value : Int)
  | float (value : Binary64)
  deriving DecidableEq

inductive Json
  | null
  | bool (value : Bool)
  | number (value : JsonNumber)
  | string (value : String)
  | array (items : List Json)
  | object (members : List (String × Json))
  deriving Inhabited

abbrev JsonObject : Type := List (String × Json)

namespace JsonNumber

/-- The number as a double-precision one, the nearest if it has none. -/
def toBinary64 : JsonNumber → Binary64
  | integer value => .ofInt value
  | float value => value

end JsonNumber

namespace Json

def asString? : Json → Option String
  | string value => some value
  | _ => none

def asBool? : Json → Option Bool
  | bool value => some value
  | _ => none

/-- The members of an object; another value has none. -/
def membersOrNone : Json → JsonObject
  | object members => members
  | _ => []

def get? (key : String) (value : Json) : Option Json :=
  SortedAssoc.find? key value.membersOrNone

/-- The object of a list of members; a later one replaces an earlier one of the same key. -/
def ofMembers (members : List (String × Json)) : Json :=
  object (SortedAssoc.ofList members)

end Json
end DesignTokens

import DesignTokens.Numeral.Layout
import DesignTokens.SortedAssoc

/-!
# Values of a configuration

A configuration is a tree of values whose tables have their keys in small letters. `merge` lays a
value over what is under a key: tables are merged deeply, anything else replaces what was there.
`place` does the same at the end of a `KeyPath`, and makes the tables and arrays on the way.
-/

namespace DesignTokens

/-- A value of a configuration. The float without a number is not a number. -/
inductive ConfigValue
  | nil
  | bool (value : Bool)
  | integer (value : Int)
  | float (value : Option Numeral.Binary64)
  | string (value : String)
  | array (items : List ConfigValue)
  | table (entries : List (String × ConfigValue))

/-- A step to a value inside of another: the entry of a table, or an item of an array, where a
negative index counts from the end. -/
inductive KeyStep
  | child (key : String)
  | item (index : Int)
  deriving DecidableEq

/-- Where a value of a configuration is: the key of an entry, and the steps from there. -/
structure KeyPath where
  key : String
  steps : List KeyStep
  deriving DecidableEq

namespace ConfigValue

/-- A key in small letters. One letter outside ASCII has a small form in it. -/
def smallKey (key : String) : String :=
  String.ofList (key.toList.map fun c => if c == '\u212A' then 'k' else c.toLower)

/-- The entries of a table; another value has none. -/
def entries : ConfigValue → List (String × ConfigValue)
  | table entries => entries
  | _ => []

/-- The items of an array; another value has none. -/
def items : ConfigValue → List ConfigValue
  | array items => items
  | _ => []

/-! ### Merging -/

mutual

/-- Lays a value over what is under `key` in `root`, which becomes a table if it is none. -/
def merge (key : String) (root : ConfigValue) : ConfigValue → ConfigValue
  | table incoming =>
    let target := (SortedAssoc.find? (smallKey key) root.entries).getD (table [])
    table (SortedAssoc.insert (smallKey key) (mergeEntries target incoming) root.entries)
  | value => table (SortedAssoc.insert (smallKey key) value root.entries)

def mergeEntries (root : ConfigValue) : List (String × ConfigValue) → ConfigValue
  | [] => root
  | (key, value) :: rest => mergeEntries (merge key root value) rest

end

/-! ### Placing -/

/-- The place of an index in an array of a length. -/
def position (index : Int) (length : Nat) : Nat :=
  if 0 ≤ index then index.toNat else length - index.natAbs

/-- Changes the item at a place, after filling the array up to there. -/
def setItem (place : Nat) (change : ConfigValue → ConfigValue) (items : List ConfigValue) :
    List ConfigValue :=
  let filled := items ++ List.replicate (place + 1 - items.length) nil
  filled.modify place change

/-- Lays `value` over what is at the end of the steps from a value. -/
def placeBelow (value : ConfigValue) : List KeyStep → ConfigValue → ConfigValue
  | [], _ => value
  | [.child key], current => merge key current value
  | .child key :: rest, current =>
    table (SortedAssoc.upsert (smallKey key) (fun old => placeBelow value rest (old.getD nil))
      current.entries)
  | .item index :: rest, current =>
    array (setItem (position index current.items.length) (placeBelow value rest) current.items)

/-- Lays `value` over what is at `path` in a table. -/
def place (path : KeyPath) (value root : ConfigValue) : ConfigValue :=
  placeBelow value (.child path.key :: path.steps) root

end ConfigValue
end DesignTokens

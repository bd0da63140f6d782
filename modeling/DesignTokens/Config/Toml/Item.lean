import DesignTokens.Config.Toml.Moment
import DesignTokens.Config.Value

/-!
# What a TOML document holds

A document is a tree of items. Its tables keep their entries in the order in which they came about,
because the first one decides what a table stands for: one that begins with the key `momentKey` is
no table but the moment whose text is under that key (`Item.value?`).
-/

namespace DesignTokens.Toml

/-- How a table came about: by its own header, on the way to the table of another header, or on the
way to a value under a dotted key. -/
inductive Origin
  | header
  | implied
  | dotted
  deriving DecidableEq

/-- What is under a key. An inline table is closed, as any value is; other tables and arrays of
tables may still grow. -/
inductive Item
  | scalar (value : ConfigValue)
  | moment (text : String)
  | array (items : List Item)
  | inline (entries : List (String × Item))
  | table (origin : Origin) (entries : List (String × Item))
  | tables (elements : List (List (String × Item)))

/-- The entries of a table, in the order in which they came about. -/
abbrev Entries : Type := List (String × Item)

/-! ### Values -/

/-- The key of a table that stands for a moment. -/
def momentKey : String := "$__toml_private_datetime"

/-- The moment whose text an item is. -/
def Item.quotedMoment? : Item → Option ConfigValue
  | .scalar (.string text) =>
    (moment? text.toList).map fun spelled => .string (String.ofList spelled)
  | _ => none

mutual

def Item.value? : Item → Option ConfigValue
  | .scalar value => some value
  | .moment text => some (.string text)
  | .array items => do return .array (← itemValues? items)
  | .inline entries | .table _ entries => tableValue? entries
  | .tables elements => do return .array (← tableValues? elements)

def itemValues? : List Item → Option (List ConfigValue)
  | [] => some []
  | item :: rest => do return (← item.value?) :: (← itemValues? rest)

/-- The value of a table: a moment, or a table. What stands behind the key of a moment counts for
nothing. -/
def tableValue? : List (String × Item) → Option ConfigValue
  | [] => some (.table [])
  | (key, item) :: rest =>
    if key = momentKey then item.quotedMoment?
    else do
      let value ← item.value?
      return .table (SortedAssoc.ofList ((key, value) :: (← entryValues? rest)))

def entryValues? : List (String × Item) → Option (List (String × ConfigValue))
  | [] => some []
  | (key, item) :: rest => do return (key, ← item.value?) :: (← entryValues? rest)

def tableValues? : List (List (String × Item)) → Option (List ConfigValue)
  | [] => some []
  | entries :: rest => do return (← tableValue? entries) :: (← tableValues? rest)

end

end DesignTokens.Toml

import DesignTokens.Config.Toml.Item

/-!
# Tables of TOML while they are defined

Whether a table may be extended depends on how it came about. A header defines its table once,
dotted keys extend only what dotted keys made, and a value is never extended.
-/

namespace DesignTokens.Toml.Entries

def find? (key : String) (entries : Entries) : Option Item :=
  SortedAssoc.find? key entries

/-- Puts `item` under `key`, where the key is or else at the end. -/
def put (key : String) (item : Item) : Entries → Entries
  | [] => [(key, item)]
  | (k, old) :: rest => if key = k then (k, item) :: rest else (k, old) :: put key item rest

/-- Puts a value under a dotted key. The table that gets it, unless it is the one at hand, must have
come about by dotted keys. -/
def insertPair (value : Item) : List String → Entries → Option Entries
  | [], _ => none
  | [key], entries =>
    if (entries.find? key).isSome then none else some (put key value entries)
  | key :: next :: rest, entries => do
    match find? key entries with
    | none => return put key (.table .dotted (← insertPair value (next :: rest) [])) entries
    | some (.table origin inner) =>
      if origin = .header || (rest.isEmpty && origin ≠ .dotted) then none
      else return put key (.table origin (← insertPair value (next :: rest) inner)) entries
    | some (.tables elements) =>
      if rest.isEmpty then none
      else
        let inner ← insertPair value (next :: rest) (elements.getLastD [])
        return put key (.tables (elements.dropLast ++ [inner])) entries
    | some _ => none

/-- Changes the table at the end of a path; tables that are missing on the way are implied. Of an
array of tables the last one is meant. -/
def updateAt (change : Entries → Option Entries) : List String → Entries → Option Entries
  | [], entries => change entries
  | key :: rest, entries => do
    match find? key entries with
    | none => return put key (.table .implied (← updateAt change rest [])) entries
    | some (.table origin inner) =>
      return put key (.table origin (← updateAt change rest inner)) entries
    | some (.tables elements) =>
      let inner ← updateAt change rest (elements.getLastD [])
      return put key (.tables (elements.dropLast ++ [inner])) entries
    | some _ => none

/-- Defines the table under `key` by its header; `fill` puts its pairs in. Only an implied table may
be there before, and it moves to the end. -/
def defineTable (fill : Entries → Option Entries) (key : String) (entries : Entries) :
    Option Entries := do
  match find? key entries with
  | none => return put key (.table .header (← fill [])) entries
  | some (.table .implied inner) =>
    return put key (.table .header (← fill inner)) (SortedAssoc.erase key entries)
  | some _ => none

/-- Adds a table to the array of tables under `key`. -/
def appendTable (fill : Entries → Option Entries) (key : String) (entries : Entries) :
    Option Entries := do
  match find? key entries with
  | none => return put key (.tables [← fill []]) entries
  | some (.tables elements) => return put key (.tables (elements ++ [← fill []])) entries
  | some _ => none

def insertPairs (pairs : List (List String × Item)) (entries : Entries) : Option Entries :=
  pairs.foldlM (fun entries (path, value) => insertPair value path entries) entries

end DesignTokens.Toml.Entries

import DesignTokens.Config.Toml.Scalar
import DesignTokens.Config.Toml.Table
import DesignTokens.Config.Toml.Text

/-!
# TOML documents

`Toml.parse?` reads a document: lines that each hold a pair of a key and a value, or a header. Pairs
behind a header belong to its table. Arrays and inline tables must not nest deeper than a limit.
-/

namespace DesignTokens.Toml

/-! ### Values -/

/-- How many keys a dotted key may have, and how deep values may nest, both exclusive. -/
def nestingLimit : Nat := 80

/-- Keys with dots between them. -/
def dottedKey? (cs : List Char) : Option (List String × List Char) := do
  let (keys, rest) ← key? cs.length cs
  if keys.length < nestingLimit then some (keys, rest) else none

mutual

/-- A value. It takes `fuel` for every bracket and comma in it, and one unit of `room` for every
level. -/
def value? : Nat → Nat → List Char → Option (Item × List Char)
  | 0, _, _ => none
  | fuel + 1, room, cs =>
    match cs with
    | '"' :: _ | '\'' :: _ => do
      let (text, rest) ← string? cs
      return (.scalar (.string text), rest)
    | '[' :: rest =>
      match room with
      | 0 => none
      | room + 1 => do
        let (items, rest) ← items? fuel room rest
        return (.array items, rest)
    | '\x7b' :: rest =>
      match room with
      | 0 => none
      | room + 1 => do
        let (pairs, rest) ←
          match skipBlank rest with
          | '\x7d' :: rest => some ([], rest)
          | rest => pairs? fuel room rest
        return (.inline (← Entries.insertPairs pairs []), rest)
    | _ => scalar? cs

/-- The items of an array and its closing bracket. A comma may stand behind the last item. -/
def items? : Nat → Nat → List Char → Option (List Item × List Char)
  | 0, _, _ => none
  | fuel + 1, room, cs =>
    match skipGaps false cs with
    | ']' :: rest => some ([], rest)
    | cs => do
      let (item, rest) ← value? fuel room cs
      match skipGaps false rest with
      | ',' :: rest =>
        let (items, rest) ← items? fuel room rest
        return (item :: items, rest)
      | ']' :: rest => return ([item], rest)
      | _ => none

/-- The pairs of an inline table and its closing bracket. -/
def pairs? : Nat → Nat → List Char → Option (List (List String × Item) × List Char)
  | 0, _, _ => none
  | fuel + 1, room, cs => do
    match ← dottedKey? (skipBlank cs) with
    | (keys, '=' :: rest) =>
      let (value, rest) ← value? fuel room (skipBlank rest)
      match skipBlank rest with
      | ',' :: rest =>
        let (pairs, rest) ← pairs? fuel room rest
        return ((keys, value) :: pairs, rest)
      | '\x7d' :: rest => return ([(keys, value)], rest)
      | _ => none
    | _ => none

end

/-! ### Lines -/

inductive Line
  | blank
  | pair (path : List String) (value : Item)
  | table (path : List String)
  | tables (path : List String)

/-- The header of an array of tables, behind its two brackets. -/
def tablesHeader? (cs : List Char) : Option (Line × List Char) := do
  match ← dottedKey? (skipBlank cs) with
  | (path, ']' :: ']' :: rest) => some (.tables path, rest)
  | _ => none

/-- The header of a table, behind its bracket. -/
def tableHeader? (cs : List Char) : Option (Line × List Char) := do
  match ← dottedKey? (skipBlank cs) with
  | (path, ']' :: rest) => some (.table path, rest)
  | _ => none

def pair? (cs : List Char) : Option (Line × List Char) := do
  match ← dottedKey? cs with
  | (path, '=' :: rest) =>
    let (value, rest) ← value? (2 * rest.length + 2) (nestingLimit - 1) (skipBlank rest)
    return (.pair path value, rest)
  | _ => none

/-- A line without its end. -/
def line? (cs : List Char) : Option (Line × List Char) :=
  match skipBlank cs with
  | [] => some (.blank, [])
  | '[' :: '[' :: rest => tablesHeader? rest
  | '[' :: rest => tableHeader? rest
  | c :: rest =>
    if c == '#' || c == '\n' || c == '\r' then some (.blank, c :: rest) else pair? (c :: rest)

def lines? : Nat → List Char → Option (List Line)
  | _, [] => some []
  | 0, _ => none
  | fuel + 1, cs => do
    let (line, rest) ← line? cs
    return line :: (← lines? fuel (← takeLineEnd? rest))

/-! ### The document -/

/-- The pairs at the front of lines, up to the next header, and the lines from there. -/
def takePairs : List Line → List (List String × Item) × List Line
  | .blank :: lines => takePairs lines
  | .pair path value :: lines =>
    let (pairs, rest) := takePairs lines
    ((path, value) :: pairs, rest)
  | lines => ([], lines)

/-- Defines what headers and the pairs behind them say, at most `fuel` of them. -/
def define? : Nat → List Line → Entries → Option Entries
  | _, [], root => some root
  | 0, _, _ => none
  | fuel + 1, line :: lines, root => do
    let (pairs, rest) := takePairs lines
    let fill := Entries.insertPairs pairs
    match line with
    | .table path =>
      let key ← path.getLast?
      define? fuel rest (← Entries.updateAt (Entries.defineTable fill key) path.dropLast root)
    | .tables path =>
      let key ← path.getLast?
      define? fuel rest (← Entries.updateAt (Entries.appendTable fill key) path.dropLast root)
    | _ => none

/-- The entries of a document. A mark of the byte order may stand at its front. -/
def parse? (text : String) : Option (List (String × ConfigValue)) := do
  let cs :=
    match text.toList with
    | '\uFEFF' :: rest => rest
    | cs => cs
  let (pairs, rest) := takePairs (← lines? (cs.length + 1) cs)
  let root ← define? rest.length rest (← Entries.insertPairs pairs [])
  match ← tableValue? root with
  | .table entries => some entries
  | _ => none

end DesignTokens.Toml

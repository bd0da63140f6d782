import DesignTokens.Dictionary
import DesignTokens.Error
import DesignTokens.Json.Written

/-!
# Dictionary exports

`Dictionary.ofExport` reads the JSON text of a dictionary. An export, a token, its raw expression
and its attributes are records (`Record`): an object with each known field at most once, or an array
that lists the fields in their order. Unknown fields are read and ignored. A field may have a second
spelling behind a dollar sign, and `null` in an optional field is its absence.

The whole text is read before any token is judged: a token without a value is reported only when
everything around it is well formed.
-/

namespace DesignTokens

/-! ### Records -/

/-- The fields of a record: their names in order, and how many an array must at least list. -/
structure RecordShape where
  names : List String
  required : Nat

/-- What was written in the fields of a record. -/
abbrev Record : Type := List (String × Written)

namespace Record

def isDistinct : List String → Bool
  | [] => true
  | name :: names => !names.contains name && isDistinct names

/-- Reads the fields of a record. Every key must be whole text, also that of an unknown field. -/
def read? (shape : RecordShape) : Written → Option Record
  | .object members => do
    let named ← members.mapM fun (key, value) => key.map (·, value)
    let known := named.filter fun field => shape.names.contains field.1
    if isDistinct (known.map (·.1)) then some known else none
  | .array items =>
    if shape.required ≤ items.length && items.length ≤ shape.names.length then
      some (shape.names.zip items)
    else none
  | _ => none

/-- A field that may be absent but not null. -/
def plain? {α : Type} (record : Record) (name : String) (absent : α)
    (read : Written → Option α) : Option α :=
  match record.lookup name with
  | none => some absent
  | some written => read written

/-- A field that may be absent or null. -/
def optional? {α : Type} (record : Record) (name : String) (read : Written → Option α) :
    Option (Option α) :=
  match record.lookup name with
  | none | some .null => some none
  | some written => (read written).map some

end Record

/-! ### Fields -/

namespace Written

def text? : Written → Option String
  | string text => text
  | _ => none

/-- A list of items that `read` reads. -/
def list? {α : Type} (read : Written → Option α) : Written → Option (List α)
  | array items => items.mapM read
  | _ => none

end Written

/-! ### Tokens -/

/-- A token as an export lists it: the fields that it has, and all their spellings. -/
structure TokenEntry where
  path : List String
  name : Option String
  value : Option Json
  dollarValue : Option Json
  rawValue : Option Json
  rawDollarValue : Option Json
  typeName : Option String
  dollarType : Option String
  category : Option String
  comment : Option String
  description : Option String
  deprecated : Option Json
  deprecatedComment : Option String

namespace TokenEntry

def shape : RecordShape :=
  ⟨["path", "name", "value", "$value", "original", "type", "$type", "attributes", "comment",
    "$description", "deprecated", "deprecated_comment"], 12⟩

def rawShape : RecordShape := ⟨["value", "$value"], 2⟩

def attributesShape : RecordShape := ⟨["category"], 1⟩

/-- Room for the values of a token, which stand three levels deep in an export. -/
def valueRoom : Nat := Json.depthLimit - 3

/-- Reads the two spellings of a raw expression, which stands one level deeper. -/
def readRaw? (written : Written) : Option (Option Json × Option Json) := do
  let record ← Record.read? rawShape written
  return (← record.optional? "value" (·.value? (valueRoom - 1)),
    ← record.optional? "$value" (·.value? (valueRoom - 1)))

def readAttributes? (written : Written) : Option (Option String) := do
  let record ← Record.read? attributesShape written
  record.optional? "category" Written.text?

def read? (written : Written) : Option TokenEntry := do
  let record ← Record.read? shape written
  let raw ← record.plain? "original" (none, none) readRaw?
  return {
    path := ← record.plain? "path" [] (Written.list? Written.text?)
    name := ← record.optional? "name" Written.text?
    value := ← record.optional? "value" (·.value? valueRoom)
    dollarValue := ← record.optional? "$value" (·.value? valueRoom)
    rawValue := raw.1
    rawDollarValue := raw.2
    typeName := ← record.optional? "type" Written.text?
    dollarType := ← record.optional? "$type" Written.text?
    category := ← record.plain? "attributes" none readAttributes?
    comment := ← record.optional? "comment" Written.text?
    description := ← record.optional? "$description" Written.text?
    deprecated := ← record.optional? "deprecated" (·.value? valueRoom)
    deprecatedComment := ← record.optional? "deprecated_comment" Written.text? }

/-- Whether the token is deprecated: by a flag, or by a message in its place. -/
def isDeprecated (e : TokenEntry) : Bool :=
  match e.deprecated with
  | some (.bool flag) => flag
  | some (.string _) => true
  | _ => false

/-- The message in place of the deprecation flag. -/
def deprecationText? (e : TokenEntry) : Option String :=
  e.deprecated.bind Json.asString?

/-- The token of an entry. Without a name it has its path for one; without a value it is none. -/
def toToken (e : TokenEntry) : Except Error Token :=
  let name := e.name.getD ("-".intercalate e.path)
  match e.value.or e.dollarValue with
  | none => .error (.missingValue name)
  | some value => .ok {
      path := e.path
      name
      value
      raw := e.rawValue.or e.rawDollarValue
      typeName := e.typeName.or e.dollarType
      category := e.category
      comment := e.comment.or e.description
      deprecated := e.isDeprecated
      reason := e.deprecatedComment.or e.deprecationText? }

end TokenEntry

/-! ### The export -/

namespace Dictionary

/-- The fields of an export. -/
def exportShape : RecordShape := ⟨["allTokens", "tokens"], 0⟩

/-- Reads the tokens of an export and its tree, if it has one. -/
def readExport? (written : Written) : Option (List TokenEntry × Option Json) := do
  let record ← Record.read? exportShape written
  return (← record.plain? "allTokens" [] (Written.list? TokenEntry.read?),
    ← record.optional? "tokens" (·.value? (Json.depthLimit - 1)))

/-- The dictionary of an export. Without a tree it gets the tree of its tokens' paths. -/
def ofExport (source : String) : Except Error Dictionary := do
  match (Written.parse? source).bind readExport? with
  | none => .error .malformedExport
  | some (entries, tree?) =>
    let tokens ← entries.mapM TokenEntry.toToken
    return match tree? with
      | some tree => ofParts tokens tree
      | none => ofTokens tokens

end Dictionary
end DesignTokens

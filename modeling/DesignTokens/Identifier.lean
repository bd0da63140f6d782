import DesignTokens.Text.Blank

/-!
# Identifiers from path segments

Path segments are free text (`500`, `1.5rem`, `background-primary`); the generated sources need
names. A segment is read as its maximal runs of ASCII letters and digits (`words`), or as the finer
pieces that start at a capital after a small letter or a digit (`humps`). Neither loses a letter or
a digit (`flatten_words`, `flatten_humps`).

* `pascalCase`, `camelCase` name one segment. They guard a leading digit by `_`, and a segment
  without letters and digits is `Unknown` or `unknown`.
* `flatName`, `hyphenatedName`, `resourceName` name a whole path.
* `qualified` names a member of a tree of nested containers.
* `swift`, `kotlin` put a reserved word into backticks.
-/

namespace DesignTokens.Identifier

/-! ### Reserved words -/

def swiftReserved : List String :=
  ["Any", "Protocol", "Self", "Type", "as", "associatedtype", "await", "break", "case", "catch",
   "class", "continue", "default", "defer", "deinit", "do", "else", "enum", "extension",
   "fallthrough", "false", "fileprivate", "for", "func", "guard", "if", "import", "in", "init",
   "inout", "internal", "is", "let", "nil", "open", "operator", "precedencegroup", "private",
   "protocol", "public", "repeat", "rethrows", "return", "self", "static", "struct", "subscript",
   "super", "switch", "throw", "throws", "true", "try", "typealias", "var", "where", "while"]

def kotlinReserved : List String :=
  ["as", "break", "class", "continue", "do", "else", "false", "for", "fun", "if", "in",
   "interface", "is", "null", "object", "package", "return", "super", "this", "throw", "true",
   "try", "typealias", "typeof", "val", "var", "when", "while"]

/-- The name in backticks if it is one of the `reserved` words. -/
def guardReserved (reserved : List String) (name : String) : String :=
  if name ∈ reserved then "`" ++ name ++ "`" else name

/-- The name as an identifier of Swift. -/
def swift (name : String) : String :=
  guardReserved swiftReserved name

/-- The name as an identifier of Kotlin. -/
def kotlin (name : String) : String :=
  guardReserved kotlinReserved name

/-! ### Words -/

/-- Puts a finished word in front of the words after it; the empty word is no word. -/
def consWord (word : List Char) (rest : List (List Char)) : List (List Char) :=
  if word.isEmpty then rest else word :: rest

/-- The words of `cs` when the letters of `current`, last one first, stand in front of it. -/
def wordsFrom (current : List Char) : List Char → List (List Char)
  | [] => consWord current.reverse []
  | c :: cs =>
    if c.isAlphanum then wordsFrom (c :: current) cs
    else consWord current.reverse (wordsFrom [] cs)

/-- The maximal runs of ASCII letters and digits. -/
def words (segment : List Char) : List (List Char) :=
  wordsFrom [] segment

theorem flatten_consWord (word : List Char) (rest : List (List Char)) :
    (consWord word rest).flatten = word ++ rest.flatten := by
  unfold consWord
  split
  · next h => simp [List.isEmpty_iff.1 h]
  · simp

theorem flatten_wordsFrom (current cs : List Char) :
    (wordsFrom current cs).flatten = current.reverse ++ cs.filter Char.isAlphanum := by
  induction cs generalizing current with
  | nil => simp [wordsFrom, flatten_consWord]
  | cons c cs ih =>
    unfold wordsFrom
    split
    · next h => simp [ih, h]
    · next h => simp [flatten_consWord, ih, h]

/-- The words of a segment are its letters and digits, in order. -/
theorem flatten_words (segment : List Char) :
    (words segment).flatten = segment.filter Char.isAlphanum := by
  simp [words, flatten_wordsFrom]

/-- Whether a new piece starts at `c` after `previous`. -/
def isHump (previous c : Char) : Bool :=
  c.isUpper && (previous.isLower || previous.isDigit)

/-- The pieces of the word `cs` when the letters of `current`, last one first, stand in front
of it. -/
def humpsFrom (current : List Char) : List Char → List (List Char)
  | [] => consWord current.reverse []
  | c :: cs =>
    if current.head?.any (isHump · c) then current.reverse :: humpsFrom [c] cs
    else humpsFrom (c :: current) cs

/-- The words of a segment, cut before each capital that follows a small letter or a digit. -/
def humps (segment : List Char) : List (List Char) :=
  (words segment).flatMap (humpsFrom [])

theorem flatten_humpsFrom (current cs : List Char) :
    (humpsFrom current cs).flatten = current.reverse ++ cs := by
  induction cs generalizing current with
  | nil => simp [humpsFrom, flatten_consWord]
  | cons c cs ih =>
    unfold humpsFrom
    split <;> simp [ih]

theorem flatten_humps (segment : List Char) :
    (humps segment).flatten = segment.filter Char.isAlphanum := by
  have kept : ∀ ws : List (List Char), (ws.flatMap (humpsFrom [])).flatten = ws.flatten := by
    intro ws
    induction ws with
    | nil => rfl
    | cons w ws ih => simp [flatten_humpsFrom, ih]
  rw [humps, kept, flatten_words]

def capitalize : List Char → List Char
  | [] => []
  | c :: cs => c.toUpper :: cs

def uncapitalize : List Char → List Char
  | [] => []
  | c :: cs => c.toLower :: cs

def lower (word : List Char) : List Char :=
  word.map Char.toLower

/-! ### One segment -/

/-- The capitalized words of a segment in one, `_` in front of a digit, `Unknown` for none. -/
def pascalChars (segment : List Char) : List Char :=
  match (words segment).flatMap capitalize with
  | [] => "Unknown".toList
  | c :: cs => if c.isDigit then '_' :: c :: cs else c :: cs

/-- The result of `pascalChars` with a small first letter. -/
def camelChars (segment : List Char) : List Char :=
  uncapitalize (pascalChars segment)

/-- The name of a container: `background-primary` is `BackgroundPrimary`, `0` is `_0`. -/
def pascalCase (segment : String) : String :=
  Text.onChars pascalChars segment

/-- The name of a member: `background-primary` is `backgroundPrimary`, `500` is `_500`. -/
def camelCase (segment : String) : String :=
  Text.onChars camelChars segment

/-! ### Whole paths -/

/-- The pieces of all `parts` in order, in small letters. -/
def lowerHumps (parts : List String) : List (List Char) :=
  (parts.flatMap fun part => humps part.toList).map lower

/-- One name for a path, each piece but the first capitalized: `xpl`, `color`, `red`, `500` is
`xplColorRed500`. A path without letters and digits is `unknown`. -/
def flatName (parts : List String) : String :=
  match lowerHumps parts with
  | [] => "unknown"
  | first :: rest => String.ofList (first ++ rest.flatMap capitalize)

/-- One name for a path, the pieces joined by hyphens: `xpl`, `color`, `backgroundPrimary` is
`xpl-color-background-primary`. -/
def hyphenatedName (parts : List String) : String :=
  "-".intercalate ((lowerHumps parts).map String.ofList)

/-- What a character becomes in a resource name: the ASCII letters of its small form, its digits and
`_` stay, all else is `_`. Two characters outside ASCII have a small form that starts with an ASCII
letter. -/
def resourceChar (c : Char) : List Char :=
  if c.isUpper then [c.toLower]
  else if c.isLower || c.isDigit || c == '_' then [c]
  else if c == '\u0130' then ['i', '_']
  else if c == '\u212A' then ['k']
  else ['_']

/-- The name of a path among Android resources, behind `namespace?` if there is one that is not
empty. -/
def resourceName (path : List String) (namespace? : Option String) : String :=
  let name := Text.onChars (·.flatMap resourceChar) ("_".intercalate path)
  match namespace? with
  | some space => if space.isEmpty then name else space ++ "_" ++ name
  | none => name

/-! ### Members of nested containers -/

/-- The identifiers along `path`: a container for each segment but the last, then the member. -/
def chain (identifier : String → String) : List String → List String
  | [] => []
  | [last] => [identifier (camelCase last)]
  | segment :: rest => identifier (pascalCase segment) :: chain identifier rest

/-- The member that `path` names below `root`: `Theme` and `color`, `red`, `500` give
`Theme.Color.Red._500`. -/
def qualified (root : String) (path : List String) (identifier : String → String) : String :=
  ".".intercalate (root :: chain identifier path)

end DesignTokens.Identifier

/-!
# Paths of files

A path is a text in which slashes separate components; two texts are the same path when they have
the same `components`. An empty component, and a `.` that does not stand at the very front, count
for nothing. `join` and `parent?` work on the text, so that what was written stays as it was.
-/

namespace DesignTokens.Path

inductive Component
  /-- The slash at the front of an absolute path. -/
  | root
  /-- A `.` at the front. -/
  | here
  /-- A `..`. -/
  | up
  /-- A name. -/
  | named (name : String)
  deriving DecidableEq

/-- The parts of a text between slashes, the part before the first slash behind `current`, which
holds its characters last one first. -/
def partsFrom (current : List Char) : List Char → List (List Char)
  | [] => [current.reverse]
  | c :: cs => if c == '/' then current.reverse :: partsFrom [] cs else partsFrom (c :: current) cs

def parts (path : String) : List (List Char) :=
  partsFrom [] path.toList

theorem partsFrom_ne_nil (current cs : List Char) : partsFrom current cs ≠ [] := by
  induction cs generalizing current with
  | nil => simp [partsFrom]
  | cons c cs ih =>
    unfold partsFrom
    split
    · simp
    · exact ih _

/-- The component of a part behind the first one, if it counts. -/
def component? : List Char → Option Component
  | [] => none
  | ['.'] => none
  | ['.', '.'] => some .up
  | name => some (.named (String.ofList name))

def isAbsolute (path : String) : Bool :=
  path.toList.head? == some '/'

def components (path : String) : List Component :=
  match parts path with
  | [] => []
  | [] :: rest =>
    (if isAbsolute path then [.root] else []) ++ rest.filterMap component?
  | ['.'] :: rest => .here :: rest.filterMap component?
  | first => first.filterMap component?

def fileName? (path : String) : Option String :=
  match (components path).getLast? with
  | some (.named name) => some name
  | _ => none

/-- What stands behind the last dot of a file's name. A dot in front of all is part of the name. -/
def extension? (path : String) : Option String := do
  let name := (← fileName? path).toList
  let behind := (name.reverse.takeWhile (· != '.')).reverse
  if behind.length + 1 < name.length then some (String.ofList behind) else none

/-- The path with `tail` below it; an absolute `tail` stands for itself. -/
def join (path tail : String) : String :=
  if isAbsolute tail then tail
  else if path.isEmpty || path.toList.getLast? == some '/' then path ++ tail
  else path ++ "/" ++ tail

def withoutTrailingSlashes (path : String) : String :=
  String.ofList (path.toList.reverse.dropWhile (· == '/')).reverse

/-- Takes trailing slashes, and trailing `.` parts with their slashes, off the reversed text of a
path. The slash at the front of an absolute path stays. -/
def dropTrailing : List Char → List Char
  | '/' :: c :: cs => dropTrailing (c :: cs)
  | ['.', '/'] => ['/']
  | '.' :: '/' :: c :: cs => dropTrailing (c :: cs)
  | cs => cs

/-- The path without its last component, unless it has none or is the root. -/
def parent? (path : String) : Option String :=
  match components path with
  | [] | [.root] => none
  | _ =>
    let cut := (dropTrailing path.toList.reverse).dropWhile (· != '/')
    some (String.ofList (dropTrailing cut).reverse)

/-- The path with an extension behind its name, if it ends in one. -/
def appendExtension (path extension : String) : String :=
  match fileName? path with
  | some _ => String.ofList (dropTrailing path.toList.reverse).reverse ++ "." ++ extension
  | none => path

end DesignTokens.Path

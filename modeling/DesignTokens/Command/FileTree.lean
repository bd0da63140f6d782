import DesignTokens.Command.Host
import DesignTokens.Path
import DesignTokens.SortedAssoc

/-!
# A tree of files

Files and directories as a value: the text of each file, or the fact of a directory, by the names
that lead to it from the place where the tool runs. Names that begin with `..` lead to what is above
that place, names that begin with `/` to what is below the top of the system. Of all that only what
every system has is known (`surroundings?`). The operations answer as a file system does, with the
causes that it gives.
-/

namespace DesignTokens

/-- What is under a name. A sink keeps nothing that is written to it. -/
inductive FileEntry
  | file (text : String)
  | directory
  | sink
  deriving DecidableEq

/-- Files and directories by the names that lead to them. -/
abbrev FileTree : Type := List (List String × FileEntry)

namespace FileTree

/-! ### Names -/

def topDirectories : List String :=
  ["bin", "boot", "dev", "etc", "home", "lib", "media", "mnt", "opt", "proc", "root", "run", "sbin",
   "srv", "sys", "tmp", "usr", "var"]

/-- What is there without having been put there: the place itself, the directories above it, and
the top of the system. -/
def surroundings? : List String → Option FileEntry
  | ["/", "dev", "null"] => some .sink
  | ["/", name] => if topDirectories.contains name then some .directory else none
  | names => if names == ["/"] || names.all (· == "..") then some .directory else none

/-- What is at the end of names. -/
def entry? (tree : FileTree) (names : List String) : Option FileEntry :=
  (surroundings? names).or (SortedAssoc.find? names tree)

/-- The names of the directory above. The top of the system has none above it. -/
def above (names : List String) : List String :=
  if names == ["/"] then names
  else if names.all (· == "..") then names ++ [".."]
  else names.dropLast

/-! ### Following paths -/

/-- How many bytes a name has at most. -/
def longestName : Nat := 255

/-- How many bytes a path has at most. -/
def longestPath : Nat := 4095

/-- Fails unless there is a directory at the end of names. -/
def enter (tree : FileTree) (names : List String) : Except FileError Unit :=
  match tree.entry? names with
  | some .directory => .ok ()
  | some _ => .error .notDirectory
  | none => .error .notFound

/-- The names that parts of a path lead to from `names`, each of which must be a directory to go on
from it. -/
def walk (tree : FileTree) (names : List String) : List (List Char) → Except FileError (List String)
  | [] => .ok names
  | part :: rest => do
    tree.enter names
    match part with
    | [] | ['.'] => walk tree names rest
    | ['.', '.'] => walk tree (above names) rest
    | part =>
      let name := String.ofList part
      if longestName < name.utf8ByteSize then .error .nameTooLong
      else walk tree (names ++ [name]) rest

/-- The names that the parts of a path lead to, which may be fewer than the path has. -/
def follow (tree : FileTree) (path : String) (parts : List (List Char)) :
    Except FileError (List String) :=
  if path.toList.contains '\x00' then .error .nulCharacter
  else if path.isEmpty then .error .notFound
  else if longestPath < path.utf8ByteSize then .error .nameTooLong
  else tree.walk (if Path.isAbsolute path then ["/"] else []) parts

def resolve (tree : FileTree) (path : String) : Except FileError (List String) :=
  tree.follow path (Path.parts path)

def find (tree : FileTree) (path : String) : Except FileError FileEntry := do
  let names ← tree.resolve path
  match tree.entry? names with
  | some entry => return entry
  | none => .error .notFound

/-! ### Operations -/

def readText (tree : FileTree) (path : String) : Except FileError String := do
  match ← tree.find path with
  | .file text => return text
  | .sink => return ""
  | .directory => .error .isDirectory

/-- The parts of a path without the empty ones behind its slashes at the end. -/
def solidParts (path : String) : List (List Char) :=
  ((Path.parts path).reverse.dropWhile (·.isEmpty)).reverse

/-- The tree with the text of a file. A path that ends in a slash or in dots names no file. -/
def writeText (tree : FileTree) (path text : String) : Except FileError FileTree := do
  if path.endsWith "/" then
    tree.enter (← tree.follow path (solidParts path).dropLast)
    .error .isDirectory
  else
    let names ← tree.resolve path
    match tree.entry? names with
    | some .directory => .error .isDirectory
    | some .sink => return tree
    | some (.file _) => return SortedAssoc.insert names (.file text) tree
    | none =>
      if (Path.fileName? path).isNone then .error .notFound
      else return SortedAssoc.insert names (.file text) tree

def makeDirectory (tree : FileTree) (path : String) : Except FileError FileTree := do
  let names ← tree.follow path (solidParts path)
  match tree.entry? names with
  | some _ => .error .alreadyExists
  | none => return SortedAssoc.insert names .directory tree

def isDirectory (tree : FileTree) (path : String) : Bool :=
  match tree.find path with
  | .ok .directory => true
  | _ => false

def isFile (tree : FileTree) (path : String) : Bool :=
  match tree.find path with
  | .ok (.file _) => true
  | _ => false

/-! ### Whole trees -/

/-- The tree with a directory at the end of names, unless something is there. -/
def withDirectory (tree : FileTree) (names : List String) : FileTree :=
  if (tree.entry? names).isSome then tree else SortedAssoc.insert names .directory tree

/-- The tree with the directories that lead to the end of names, from those at `above`. -/
def addDirectories (above : List String) : List String → FileTree → FileTree
  | [], tree => tree
  | name :: rest, tree =>
    addDirectories (above ++ [name]) rest (tree.withDirectory (above ++ [name]))

def namesOf (path : String) : List String :=
  (Path.components path).filterMap fun
    | .named name => some name
    | _ => none

/-- The tree with a directory and those that lead to it. -/
def addDirectory (tree : FileTree) (path : String) : FileTree :=
  addDirectories [] (namesOf path) tree

/-- The tree with a file and the directories that lead to it. -/
def addFile (tree : FileTree) (path text : String) : FileTree :=
  let names := namesOf path
  SortedAssoc.insert names (.file text) (addDirectories [] names.dropLast tree)

/-- Whether names lead to something below the place where the tool runs. -/
def isBelow (names : List String) : Bool :=
  names.head?.all fun name => name != ".." && name != "/"

/-- The path and the text of a file below the place where the tool runs that another tree does not
have, or has with another text. -/
def changedFile? (tree before : FileTree) (names : List String) : Option (String × String) :=
  match tree.entry? names with
  | some (.file text) =>
    if !isBelow names || before.entry? names = some (.file text) then none
    else some ("/".intercalate names, text)
  | _ => none

/-- The changed files of a tree, by path. -/
def changedFrom (tree before : FileTree) : List (String × String) :=
  SortedAssoc.ofList (tree.filterMap fun (names, _) => tree.changedFile? before names)

end FileTree
end DesignTokens

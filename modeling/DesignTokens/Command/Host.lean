/-!
# What the tool asks of its surroundings

A `Host` is the files and the output that the tool works with, in any monad. The tool itself is a
function of a host, so that it runs on the files of a system and on a `FileTree` alike.
-/

namespace DesignTokens

/-- Why a file or a directory is not available. -/
inductive FileError
  | notFound
  | notDirectory
  | isDirectory
  | alreadyExists
  | nameTooLong
  | nulCharacter
  | other (text : String)
  deriving DecidableEq

def FileError.message : FileError → String
  | notFound => "No such file or directory (os error 2)"
  | notDirectory => "Not a directory (os error 20)"
  | isDirectory => "Is a directory (os error 21)"
  | alreadyExists => "File exists (os error 17)"
  | nameTooLong => "File name too long (os error 36)"
  | nulCharacter => "file name contained an unexpected NUL byte"
  | other text => text

/-- The files and the output that the tool works with. -/
structure Host (m : Type → Type) where
  /-- The text of a file. -/
  readText : String → m (Except FileError String)
  /-- Makes the text that of a file, which may be new. -/
  writeText : String → String → m (Except FileError Unit)
  /-- Makes a directory in one that exists. -/
  makeDirectory : String → m (Except FileError Unit)
  /-- Whether there is a directory. -/
  isDirectory : String → m Bool
  /-- Whether there is a file. -/
  isFile : String → m Bool
  /-- Adds a text to the output. -/
  print : String → m Unit
  /-- Adds a text to the diagnostics. -/
  warn : String → m Unit

end DesignTokens

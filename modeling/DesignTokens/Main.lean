import DesignTokens.Command.Run

/-!
# The program

The tool on the files and the streams of the system.
-/

namespace DesignTokens

/-- The cause that the system gives, with its number where it is none of the known ones. -/
def FileError.ofSystem : IO.Error → FileError
  | .noFileOrDirectory _ _ _ => .notFound
  | .alreadyExists _ _ _ => .alreadyExists
  | .inappropriateType _ 20 _ => .notDirectory
  | .inappropriateType _ 21 _ => .isDirectory
  | .invalidArgument _ 36 _ => .nameTooLong
  | .inappropriateType _ code text
  | .permissionDenied _ code text
  | .invalidArgument _ code text
  | .resourceExhausted _ code text
  | .noSuchThing _ code text
  | .otherError code text => .other (text ++ " (os error " ++ toString code ++ ")")
  | cause => .other (toString cause)

namespace Host

/-- Gives the cause of a failure of an operation on a path as a value. -/
def caught {α : Type} (path : String) (operation : IO α) : IO (Except FileError α) := do
  if path.toList.contains '\x00' then return .error .nulCharacter
  try
    return .ok (← operation)
  catch cause =>
    return .error (.ofSystem cause)

/-- The files and the streams of the system. -/
def system : Host IO where
  readText path := caught path do (← IO.FS.Handle.mk path .read).readToEnd
  writeText path text := caught path (IO.FS.writeFile path text)
  makeDirectory path := caught path (IO.FS.createDir path)
  isDirectory path := do
    match ← caught path ((← IO.currentDir) / path).readDir with
    | .ok _ => return true
    | .error _ => return false
  isFile path := do
    match ← caught path ((← IO.currentDir) / path).metadata with
    | .ok found => return found.type == .file
    | .error _ => return false
  print text := do
    let output ← IO.getStdout
    output.putStr text
    output.flush
  warn text := IO.eprint text

end Host
end DesignTokens

open DesignTokens in
/-- Runs the tool and ends with its exit code. -/
def main (arguments : List String) : IO UInt32 := do
  return (← Tool.run Host.system arguments).toUInt32

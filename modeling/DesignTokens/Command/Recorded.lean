import DesignTokens.Command.FileTree

/-!
# Runs on a tree of files

A `Recorded` state is a tree of files with the output and the diagnostics so far;
`Host.recorded` is the host that works on such a state.
-/

namespace DesignTokens

/-- A tree of files, the output and the diagnostics. -/
structure Recorded where
  tree : FileTree
  output : String := ""
  diagnostics : String := ""

/-- Replaces the tree if a change of it succeeds. -/
def Recorded.update (change : FileTree → Except FileError FileTree) :
    StateM Recorded (Except FileError Unit) := do
  match change (← get).tree with
  | .ok tree =>
    modify ({ · with tree })
    return .ok ()
  | .error cause => return .error cause

/-- The host that works on a tree of files and keeps what it is told. -/
def Host.recorded : Host (StateM Recorded) where
  readText path := return (← get).tree.readText path
  writeText path text := Recorded.update (·.writeText path text)
  makeDirectory path := Recorded.update (·.makeDirectory path)
  isDirectory path := return (← get).tree.isDirectory path
  isFile path := return (← get).tree.isFile path
  print text := modify fun s => { s with output := s.output ++ text }
  warn text := modify fun s => { s with diagnostics := s.diagnostics ++ text }

end DesignTokens

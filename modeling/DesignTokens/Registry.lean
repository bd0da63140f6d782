import DesignTokens.Format

/-!
# Registries of formats

A registry knows formats by their names, in increasing order. It finds one by name, or by the
extension of a file.
-/

namespace DesignTokens

abbrev Registry : Type := List (String × Format)

namespace Registry

def empty : Registry := []

def insert (registry : Registry) (format : Format) : Registry :=
  SortedAssoc.insert format.name format registry

/-- The registry of all formats. -/
def standard : Registry :=
  Format.all.foldl insert empty

def get? (registry : Registry) (name : String) : Option Format :=
  SortedAssoc.find? name registry

def get (registry : Registry) (name : String) : Except Error Format :=
  match registry.get? name with
  | some format => .ok format
  | none => .error (.unknownFormat name)

def names (registry : Registry) : List String :=
  registry.map (·.1)

def descriptions (registry : Registry) : List (String × String) :=
  registry.map fun (name, format) => (name, format.description)

def forFile? (registry : Registry) (filename : String) : Option String := do
  let extension ← Path.extension? filename
  let (name, _) ← registry.find? fun entry => entry.2.extensions.contains extension
  return name

/-- The name of a file for a format, from the first extension that it is meant for. -/
def standardDestination (registry : Registry) (name : String) : String :=
  match (registry.get? name).bind (·.extensions.head?) with
  | some extension => "tokens." ++ extension
  | none => "tokens"

/-- The document of a dictionary in the format of this name. -/
def document (registry : Registry) (dictionary : Dictionary) (name : String) (context : Context) :
    Except Error String := do
  return (← registry.get name).document dictionary context

end Registry
end DesignTokens

import DesignTokens.Token

/-!
# Light and dark variants

A dark variant of a token has the path of its light counterpart with one more segment, `dark`, the
marker. Where the marker stands is a `Convention`. A segment `dark` anywhere else is an ordinary
one, and so is the last segment of a path.
-/

namespace DesignTokens

/-- Where the marker of a dark variant stands. -/
inductive Convention
  /-- Behind the first segment: `color.dark.background.primary`. -/
  | secondSegment
  /-- Before the last segment: `color.background.dark.primary`. -/
  | penultimate
  deriving DecidableEq

namespace Convention

def marker : String := "dark"

/-- The convention that holds where none is chosen. -/
def standard : Convention := secondSegment

def name : Convention → String
  | secondSegment => "second-segment"
  | penultimate => "penultimate"

def ofName? : String → Option Convention
  | "second-segment" => some secondSegment
  | "penultimate" => some penultimate
  | _ => none

/-- Where a marker would stand in a path. -/
def place? (path : List String) : Convention → Option Nat
  | secondSegment => if 3 ≤ path.length then some 1 else none
  | penultimate => if 2 ≤ path.length then some (path.length - 2) else none

/-- Where the marker stands in a path that has one. -/
def markerPlace? (convention : Convention) (path : List String) : Option Nat :=
  (convention.place? path).filter fun i => path[i]? == some marker

/-- A path without its marker: the canonical path. -/
def unmark (convention : Convention) (path : List String) : List String :=
  match convention.markerPlace? path with
  | some i => path.eraseIdx i
  | none => path

def isMarked (convention : Convention) (path : List String) : Bool :=
  (convention.markerPlace? path).isSome

end Convention

namespace Token

def isDark (convention : Convention) (t : Token) : Bool :=
  convention.isMarked t.path

/-- The path that the token shares with its variant. -/
def canonicalPath (convention : Convention) (t : Token) : List String :=
  convention.unmark t.path

end Token
end DesignTokens

/-!
# Platforms

The platforms that files are built for. Each has a name, under which its files also have a directory
of their own.
-/

namespace DesignTokens

/-- A platform that files are built for. -/
inductive Platform
  | android
  | ios
  | css
  | scss
  | js
  | debug
  deriving DecidableEq

namespace Platform

/-- All platforms, in the order in which they are built. -/
def all : List Platform := [android, ios, css, scss, js, debug]

def name : Platform → String
  | android => "android"
  | ios => "ios"
  | css => "css"
  | scss => "scss"
  | js => "js"
  | debug => "debug"

def ofName? (name : String) : Option Platform :=
  all.find? fun platform => platform.name == name

end Platform
end DesignTokens

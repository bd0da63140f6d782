import DesignTokens.Path

/-!
# Detecting the modes of a brand

A brand has modes when its token sources hold both `brands/<brand>/color/light` and the sibling
`dark`. A `Detector` remembers what it found for a brand and a directory of sources, directories
compared as paths, until it is cleared. Looking for a directory is an effect: `detect` works in any
monad in which one can ask whether a directory can be read.
-/

namespace DesignTokens

/-- What is known of a brand's modes. -/
structure BrandModes where
  hasModes : Bool
  lightPath : Option String
  darkPath : Option String
  deriving DecidableEq

namespace BrandModes

def without : BrandModes := ⟨false, none, none⟩

def withBoth (brand : String) : BrandModes :=
  ⟨true, some (brand ++ "/color/light"), some (brand ++ "/color/dark")⟩

end BrandModes

/-- What a detector remembers a finding under. -/
structure DetectionKey where
  brand : String
  directory : List Path.Component
  deriving DecidableEq

/-- A detector: its findings. -/
structure Detector where
  findings : List (DetectionKey × BrandModes)

namespace Detector

/-- The detector that has found nothing yet. -/
def empty : Detector := ⟨[]⟩

def colorDirectory (brand directory : String) : String :=
  Path.join (Path.join (Path.join directory "brands") brand) "color"

def find? (detector : Detector) (key : DetectionKey) : Option BrandModes :=
  (detector.findings.find? fun finding => finding.1 = key).map (·.2)

/-- Looks for the two directories; for the dark one only if the light one is there. -/
def look {m : Type → Type} [Monad m] (isReadable : String → m Bool) (brand directory : String) :
    m BrandModes := do
  let colors := colorDirectory brand directory
  if ← isReadable (Path.join colors "light") then
    if ← isReadable (Path.join colors "dark") then
      return .withBoth brand
    else
      return .without
  else
    return .without

/-- The modes of a brand, looked for unless they were found before. -/
def detect {m : Type → Type} [Monad m] (isReadable : String → m Bool) (brand directory : String)
    (detector : Detector) : m (BrandModes × Detector) := do
  let key : DetectionKey := ⟨brand, Path.components directory⟩
  match detector.find? key with
  | some modes => return (modes, detector)
  | none =>
    let modes ← look isReadable brand directory
    return (modes, ⟨(key, modes) :: detector.findings⟩)

def clear (_ : Detector) : Detector := empty

def size (detector : Detector) : Nat :=
  detector.findings.length

end Detector
end DesignTokens

import DesignTokens.Mode

/-!
# Pairs of variants

What is known of one canonical path: a light token, a dark one, or both.
-/

namespace DesignTokens

/-- The light variant, the dark variant, or both variants of one canonical token. -/
inductive Pair
  | light (token : Token)
  | dark (token : Token)
  | both (light dark : Token)

namespace Pair

def light? : Pair → Option Token
  | light t | both t _ => some t
  | dark _ => none

def dark? : Pair → Option Token
  | dark t | both _ t => some t
  | light _ => none

/-- The light variant, else the dark one. -/
def preferLight : Pair → Token
  | light t | dark t | both t _ => t

/-- The dark variant, else the light one. -/
def preferDark : Pair → Token
  | light t | dark t | both _ t => t

/-- Whether there is no light variant. -/
def isDarkOnly : Pair → Bool
  | dark _ => true
  | _ => false

/-! ### Deprecation -/

/-- Whether a variant is deprecated. -/
def isDeprecated (p : Pair) : Bool :=
  p.light?.any (·.deprecated) || p.dark?.any (·.deprecated)

/-- The explanation of a deprecation: the reason that the light variant states, else that of the
dark one, else the default. -/
def deprecationNote? (p : Pair) : Option String :=
  if p.isDeprecated then
    some (((p.light?.bind Token.statedReason?).or (p.dark?.bind Token.statedReason?)).getD
      Token.defaultDeprecation)
  else none

/-! ### Filling -/

/-- What is there, with `t` as its light variant. -/
def putLight (old : Option Pair) (t : Token) : Pair :=
  match old.bind dark? with
  | some d => both t d
  | none => light t

/-- What is there, with `t` as its dark variant. -/
def putDark (old : Option Pair) (t : Token) : Pair :=
  match old.bind light? with
  | some l => both l t
  | none => dark t

/-- What is there, with `t` as the variant that it is. -/
def putVariant (convention : Convention) (t : Token) (old : Option Pair) : Pair :=
  if t.isDark convention then putDark old t else putLight old t

end Pair
end DesignTokens

/-!
# Hexadecimal digits

The value of a hexadecimal digit in either case, and the digit of a value in small letters.
-/

namespace DesignTokens.Text

def hexValue? (c : Char) : Option Nat :=
  if c.isDigit then some (c.toNat - '0'.toNat)
  else if 'a' ≤ c && c ≤ 'f' then some (c.toNat - 'a'.toNat + 10)
  else if 'A' ≤ c && c ≤ 'F' then some (c.toNat - 'A'.toNat + 10)
  else none

/-- The hexadecimal digit of a value below sixteen. -/
def hexDigit (n : Nat) : Char :=
  Nat.digitChar n

def hexNumber? (digits : List Char) : Option Nat :=
  digits.foldlM (fun n c => (hexValue? c).map (16 * n + ·)) 0

end DesignTokens.Text

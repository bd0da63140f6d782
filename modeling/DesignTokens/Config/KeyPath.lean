import DesignTokens.Config.Value
import DesignTokens.Numeral.Leading

/-!
# The text of key paths

A key path is written as keys with dots between them and indices in brackets: `build.prefix`,
`header.lines[0]`. A key has ASCII letters, digits, blanks, `_` and `-`.
-/

namespace DesignTokens.KeyPath

def isKeyChar (c : Char) : Bool :=
  c.isAlphanum || c == ' ' || c == '_' || c == '-'

/-- The blanks that may stand around an index. -/
def isGap (c : Char) : Bool :=
  c == ' ' || c == '\t'

def takeKey? (cs : List Char) : Option (String × List Char) :=
  match cs.takeWhile isKeyChar with
  | [] => none
  | key => some (String.ofList key, cs.dropWhile isKeyChar)

/-- Takes an index and its closing bracket off the front. -/
def takeIndex? (cs : List Char) : Option (Int × List Char) :=
  let cs := cs.dropWhile isGap
  let (negative, cs) :=
    match cs with
    | '-' :: rest => (true, rest)
    | _ => (false, cs)
  match cs.takeWhile Char.isDigit, (cs.dropWhile Char.isDigit).dropWhile isGap with
  | [], _ => none
  | digits, ']' :: rest =>
    let value : Int := Numeral.ofDigits digits
    let index := if negative then -value else value
    if -Int.pow 2 63 ≤ index && index < Int.pow 2 63 then some (index, rest) else none
  | _, _ => none

/-- Reads the steps that a text spells, at most `fuel` of them. -/
def steps? : Nat → List Char → Option (List KeyStep)
  | _, [] => some []
  | 0, _ => none
  | fuel + 1, '.' :: cs => do
    let (key, cs) ← takeKey? cs
    return .child key :: (← steps? fuel cs)
  | fuel + 1, '[' :: cs => do
    let (index, cs) ← takeIndex? cs
    return .item index :: (← steps? fuel cs)
  | _, _ => none

/-- The key path that a text spells. -/
def parse? (text : String) : Option KeyPath := do
  let (key, cs) ← takeKey? text.toList
  return ⟨key, ← steps? cs.length cs⟩

/-- The key path that a text spells, or the text as one key if it spells none. -/
def ofText (text : String) : KeyPath :=
  (parse? text).getD ⟨text, []⟩

end DesignTokens.KeyPath

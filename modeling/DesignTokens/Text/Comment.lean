import DesignTokens.Text.Blank

/-!
# Free text inside comments

A comment text must not end, or open, the comment that holds it. Each grammar has pairs of
neighbouring characters that it forbids: `--` in markup comments, `*/` in block comments, `*/` and
`/*` in block comments that nest. `breakPairs` puts a space into every forbidden pair and leaves the
rest as it is. A line comment has nothing to forbid but line breaks, which become spaces.
-/

namespace DesignTokens.Text.Comment

/-- Puts a space between two neighbours that `forbidden` relates. -/
def breakPairs (forbidden : Char → Char → Bool) : List Char → List Char
  | [] => []
  | [c] => [c]
  | c :: d :: cs =>
    if forbidden c d then c :: ' ' :: breakPairs forbidden (d :: cs)
    else c :: breakPairs forbidden (d :: cs)

/-- The pair `--`, which a markup comment must not hold. -/
def isDoubleDash (c d : Char) : Bool :=
  c == '-' && d == '-'

/-- The end of a block comment. -/
def isClosing (c d : Char) : Bool :=
  c == '*' && d == '/'

/-- The end or the beginning of a block comment, for grammars where block comments nest. -/
def isNesting (c d : Char) : Bool :=
  (c == '/' && d == '*') || (c == '*' && d == '/')

def isLineBreak (c : Char) : Bool :=
  c == '\r' || c == '\n'

/-- A text for `<!-- -->`. -/
def xml (text : String) : String :=
  onChars (breakPairs isDoubleDash) text

/-- A text for a block comment that does not nest. -/
def block (text : String) : String :=
  onChars (breakPairs isClosing) text

/-- A text for a block comment that nests. -/
def nested (text : String) : String :=
  onChars (breakPairs isNesting) text

/-- A text for the rest of one line. -/
def line (text : String) : String :=
  onChars (·.map fun c => if isLineBreak c then ' ' else c) text

end DesignTokens.Text.Comment

import DesignTokens.Text.Hex

/-!
# Strings, keys and gaps of TOML

The parts of a TOML document that are made of characters alone. Each reader takes what it reads off
the front of a text. A string is read behind its opening quotes; strings over several lines may hold
line breaks, each of which counts as one feed, and a basic one may join lines by a backslash.
-/

namespace DesignTokens.Toml

/-! ### Gaps -/

/-- The blanks inside a line. -/
def isBlank (c : Char) : Bool :=
  c == ' ' || c == '\t'

def skipBlank (cs : List Char) : List Char :=
  cs.dropWhile isBlank

/-- The characters that may stand in comments and strings: all but the controls, and the tab. -/
def isVisible (c : Char) : Bool :=
  c == '\t' || (32 ≤ c.toNat && c.toNat != 127)

def takeBreak? : List Char → Option (List Char)
  | '\n' :: rest => some rest
  | '\r' :: '\n' :: rest => some rest
  | _ => none

/-- Takes the end of a line off the front: blanks, a comment, and the break unless the text ends. -/
def takeLineEnd? (cs : List Char) : Option (List Char) :=
  let rest :=
    match skipBlank cs with
    | '#' :: rest => rest.dropWhile isVisible
    | rest => rest
  match rest with
  | [] => some []
  | rest => takeBreak? rest

/-- Drops blanks, breaks and comments at the front; the flag says if a comment is open. -/
def skipGaps : Bool → List Char → List Char
  | _, [] => []
  | _, '\n' :: cs => skipGaps false cs
  | _, '\r' :: '\n' :: cs => skipGaps false cs
  | true, c :: cs => if isVisible c then skipGaps true cs else c :: cs
  | false, c :: cs =>
    if isBlank c then skipGaps false cs
    else if c == '#' then skipGaps true cs
    else c :: cs

/-! ### Strings -/

/-- What a character after a backslash stands for, `u` and `U` apart. -/
def simpleEscape? : Char → Option Char
  | 'b' => some '\x08'
  | 't' => some '\t'
  | 'n' => some '\n'
  | 'f' => some '\x0c'
  | 'r' => some '\r'
  | '"' => some '"'
  | '\\' => some '\\'
  | _ => none

def charOfHex? (digits : List Char) : Option Char := do
  let code ← Text.hexNumber? digits
  if code.isValidChar then some (Char.ofNat code) else none

/-- Puts a character in front of a string that is read. -/
def push (c : Char) (found : Option (List Char × List Char)) : Option (List Char × List Char) :=
  found.map fun (text, rest) => (c :: text, rest)

/-- A string in double quotes. -/
def basic? : List Char → Option (List Char × List Char)
  | [] => none
  | '"' :: rest => some ([], rest)
  | '\\' :: 'u' :: a :: b :: c :: d :: rest => do
    push (← charOfHex? [a, b, c, d]) (basic? rest)
  | '\\' :: 'U' :: a :: b :: c :: d :: e :: f :: g :: h :: rest => do
    push (← charOfHex? [a, b, c, d, e, f, g, h]) (basic? rest)
  | '\\' :: e :: rest => do
    push (← simpleEscape? e) (basic? rest)
  | c :: rest => if isVisible c && c != '\\' then push c (basic? rest) else none

/-- A string in single quotes. -/
def literal? : List Char → Option (List Char × List Char)
  | [] => none
  | '\'' :: rest => some ([], rest)
  | c :: rest => if isVisible c then push c (literal? rest) else none

/-- Where a string over several lines is: in its text, behind a backslash that must end its line, or
in the gap behind such a line. -/
inductive LinePlace
  | inside
  | ending
  | joining
  deriving DecidableEq

/-- A string in three double quotes. Up to two quotes may stand before the closing ones. -/
def basicLines? : LinePlace → List Char → Option (List Char × List Char)
  | _, [] => none
  | .ending, '\n' :: rest => basicLines? .joining rest
  | .ending, '\r' :: '\n' :: rest => basicLines? .joining rest
  | .ending, c :: rest => if isBlank c then basicLines? .ending rest else none
  | .joining, ' ' :: rest => basicLines? .joining rest
  | .joining, '\t' :: rest => basicLines? .joining rest
  | .joining, '\n' :: rest => basicLines? .joining rest
  | .joining, '\r' :: '\n' :: rest => basicLines? .joining rest
  | _, '"' :: '"' :: '"' :: '"' :: '"' :: rest => some (['"', '"'], rest)
  | _, '"' :: '"' :: '"' :: '"' :: rest => some (['"'], rest)
  | _, '"' :: '"' :: '"' :: rest => some ([], rest)
  | _, '\\' :: '\n' :: rest => basicLines? .joining rest
  | _, '\\' :: '\r' :: '\n' :: rest => basicLines? .joining rest
  | _, '\\' :: ' ' :: rest => basicLines? .ending rest
  | _, '\\' :: '\t' :: rest => basicLines? .ending rest
  | _, '\\' :: 'u' :: a :: b :: c :: d :: rest => do
    push (← charOfHex? [a, b, c, d]) (basicLines? .inside rest)
  | _, '\\' :: 'U' :: a :: b :: c :: d :: e :: f :: g :: h :: rest => do
    push (← charOfHex? [a, b, c, d, e, f, g, h]) (basicLines? .inside rest)
  | _, '\\' :: e :: rest => do
    push (← simpleEscape? e) (basicLines? .inside rest)
  | _, '\n' :: rest => push '\n' (basicLines? .inside rest)
  | _, '\r' :: '\n' :: rest => push '\n' (basicLines? .inside rest)
  | _, c :: rest =>
    if isVisible c && c != '\\' then push c (basicLines? .inside rest) else none

/-- A string in three single quotes. Up to two quotes may stand before the closing ones. -/
def literalLines? : List Char → Option (List Char × List Char)
  | [] => none
  | '\'' :: '\'' :: '\'' :: '\'' :: '\'' :: rest => some (['\'', '\''], rest)
  | '\'' :: '\'' :: '\'' :: '\'' :: rest => some (['\''], rest)
  | '\'' :: '\'' :: '\'' :: rest => some ([], rest)
  | '\n' :: rest => push '\n' (literalLines? rest)
  | '\r' :: '\n' :: rest => push '\n' (literalLines? rest)
  | c :: rest => if isVisible c then push c (literalLines? rest) else none

def skipBreak (cs : List Char) : List Char :=
  (takeBreak? cs).getD cs

/-- A string, if the text starts with a quote. -/
def string? : List Char → Option (String × List Char)
  | '"' :: '"' :: '"' :: rest => do
    let (text, rest) ← basicLines? .inside (skipBreak rest)
    return (String.ofList text, rest)
  | '"' :: rest => do
    let (text, rest) ← basic? rest
    return (String.ofList text, rest)
  | '\'' :: '\'' :: '\'' :: rest => do
    let (text, rest) ← literalLines? (skipBreak rest)
    return (String.ofList text, rest)
  | '\'' :: rest => do
    let (text, rest) ← literal? rest
    return (String.ofList text, rest)
  | _ => none

/-! ### Keys -/

/-- The characters of a key without quotes. -/
def isBareKeyChar (c : Char) : Bool :=
  c.isAlphanum || c == '_' || c == '-'

/-- A key: bare, or in one pair of quotes. -/
def simpleKey? (cs : List Char) : Option (String × List Char) :=
  match cs with
  | '"' :: rest => do
    let (text, rest) ← basic? rest
    return (String.ofList text, rest)
  | '\'' :: rest => do
    let (text, rest) ← literal? rest
    return (String.ofList text, rest)
  | _ =>
    match cs.takeWhile isBareKeyChar with
    | [] => none
    | key => some (String.ofList key, cs.dropWhile isBareKeyChar)

/-- Keys with dots between them, and the blanks behind them; at most `fuel` keys. -/
def key? : Nat → List Char → Option (List String × List Char)
  | 0, _ => none
  | fuel + 1, cs => do
    let (key, rest) ← simpleKey? cs
    match skipBlank rest with
    | '.' :: rest =>
      let (keys, rest) ← key? fuel (skipBlank rest)
      return (key :: keys, rest)
    | rest => return ([key], rest)

end DesignTokens.Toml

import DesignTokens.Dictionary
import DesignTokens.Text.Blank

/-!
# References between tokens

A raw expression such as `0 0 {color.red.500}` holds placeholders: text in braces that is not empty
and has no brace in it. `Reference.scan` splits an expression into its placeholders and the
characters between them, which spell it (`flatMap_chars_scan`), and `referent?` looks a placeholder
up in a dictionary, by its trimmed text or by that text without a trailing `.value`.

`Reference.resolve?` expands an expression of which every placeholder has a referent. It goes
through the referents in order and replaces, in the text so far, each placeholder that spells the
referent's path. When one placeholder has no referent, the token's value is emitted instead.
-/

namespace DesignTokens.Reference

open Text (isBlank dropBlank trim)

/-! ### Placeholders -/

/-- A character outside of all placeholders, or the text of a placeholder. -/
inductive Piece
  | char (c : Char)
  | placeholder (body : List Char)
  deriving DecidableEq

/-- The characters that a piece was read from. -/
def Piece.chars : Piece → List Char
  | char c => [c]
  | placeholder body => '\x7b' :: body ++ ['\x7d']

/-- An opening brace that turned out to open nothing, and the characters behind it. -/
def loose (behind : List Char) : List Piece :=
  (('\x7b' :: behind)).map .char

/-- The pieces of a text. When a brace is open, `body` holds the characters behind it, last one
first. -/
def scanFrom : Option (List Char) → List Char → List Piece
  | none, [] => []
  | some body, [] => loose body.reverse
  | none, c :: cs => if c == '\x7b' then scanFrom (some []) cs else .char c :: scanFrom none cs
  | some body, c :: cs =>
    if c == '\x7b' then loose body.reverse ++ scanFrom (some []) cs
    else if c == '\x7d' then
      if body.isEmpty then .char '\x7b' :: .char '\x7d' :: scanFrom none cs
      else .placeholder body.reverse :: scanFrom none cs
    else scanFrom (some (c :: body)) cs

def scan (cs : List Char) : List Piece :=
  scanFrom none cs

theorem flatMap_chars_loose (behind : List Char) :
    (loose behind).flatMap Piece.chars = '\x7b' :: behind := by
  have spelled : ∀ cs : List Char, (cs.map Piece.char).flatMap Piece.chars = cs := by
    intro cs
    induction cs with
    | nil => rfl
    | cons c cs ih => simpa [Piece.chars] using ih
  exact spelled _

/-- The pieces spell the text, and the open brace with what is behind it. -/
theorem flatMap_chars_scanFrom (cs : List Char) :
    (scanFrom none cs).flatMap Piece.chars = cs ∧
      ∀ body : List Char,
        (scanFrom (some body) cs).flatMap Piece.chars = '\x7b' :: body.reverse ++ cs := by
  induction cs with
  | nil => exact ⟨rfl, fun body => by simp [scanFrom, flatMap_chars_loose]⟩
  | cons c cs ih =>
    constructor
    · unfold scanFrom
      split
      · next h => simpa [eq_of_beq h] using ih.2 []
      · simpa [Piece.chars] using ih.1
    · intro body
      unfold scanFrom
      split
      · next h => simp [flatMap_chars_loose, ih.2, eq_of_beq h]
      · split
        · next h =>
          split
          · next hb => simp [Piece.chars, ih.1, eq_of_beq h, List.isEmpty_iff.1 hb]
          · simp [Piece.chars, ih.1, eq_of_beq h]
        · simp [ih.2]

theorem flatMap_chars_scan (cs : List Char) : (scan cs).flatMap Piece.chars = cs :=
  (flatMap_chars_scanFrom cs).1

def placeholders (raw : String) : List (List Char) :=
  (scan raw.toList).filterMap fun
    | .placeholder body => some body
    | .char _ => none

/-- Whether an expression has a placeholder. -/
def isUsed (raw : String) : Bool :=
  !(placeholders raw).isEmpty

/-- Whether an expression is one placeholder with nothing but blanks around it. -/
def isSingle (raw : String) : Bool :=
  match scan (trim raw.toList) with
  | [.placeholder _] => true
  | _ => false

/-! ### Referents -/

/-- The end of a placeholder that may be left out. -/
def valueSuffix : List Char := ".value".toList

def withoutSuffix? (cs : List Char) : Option (List Char) :=
  if valueSuffix.isSuffixOf cs then some (cs.take (cs.length - valueSuffix.length)) else none

/-- The token that a placeholder refers to. -/
def referent? (dictionary : Dictionary) (body : List Char) : Option Token :=
  let key := trim body
  (dictionary.find? (String.ofList key)).or
    ((withoutSuffix? key).bind fun shorter => dictionary.find? (String.ofList shorter))

/-- The tokens that an expression refers to, in order. -/
def referents (dictionary : Dictionary) (raw : String) : List Token :=
  (placeholders raw).filterMap (referent? dictionary)

/-! ### Expanding -/

/-- What follows `word` at the front of a text. -/
def after? : List Char → List Char → Option (List Char)
  | [], cs => some cs
  | _ :: _, [] => none
  | w :: ws, c :: cs => if w == c then after? ws cs else none

/-- What follows a placeholder for `path` at the front of a text: blanks may stand inside its
braces, and `.value` behind the path. -/
def afterPlaceholder? (path : List Char) (cs : List Char) : Option (List Char) := do
  let rest ← after? ['\x7b'] cs
  let rest ← after? path (dropBlank rest)
  let rest := (after? valueSuffix rest).getD rest
  after? ['\x7d'] (dropBlank rest)

/-- Replaces each placeholder for `path` in a text, after skipping characters of one that was
replaced. -/
def replaceFrom (path replacement : List Char) : Nat → List Char → List Char
  | _, [] => []
  | skip + 1, _ :: cs => replaceFrom path replacement skip cs
  | 0, c :: cs =>
    match afterPlaceholder? path (c :: cs) with
    | some rest => replacement ++ replaceFrom path replacement (cs.length - rest.length) cs
    | none => c :: replaceFrom path replacement 0 cs

/-- Replaces each placeholder for a token in a text. -/
def replace (text : List Char) (token : Token) (replacement : String) : List Char :=
  replaceFrom token.dottedPath.toList replacement.toList 0 text

/-- An expression with all its placeholders replaced by what `format` makes of their referents; none
if it has no placeholder, or one without a referent. -/
def expand? (dictionary : Dictionary) (format : Token → String) (raw : String) : Option String :=
  let found := referents dictionary raw
  if found.isEmpty || found.length < (placeholders raw).length then none
  else
    some (String.ofList (found.foldl (fun text t => replace text t (format t)) raw.toList))

/-- The token's expression, expanded. -/
def resolve? (dictionary : Dictionary) (format : Token → String) (t : Token) : Option String :=
  t.expression?.bind (expand? dictionary format)

/-- What is emitted for a token: its expanded expression if references are on and there is one, else
its value. -/
def emit (dictionary : Dictionary) (on : Bool) (format : Token → String) (t : Token) : String :=
  if on then (resolve? dictionary format t).getD t.shownValue else t.shownValue

end DesignTokens.Reference

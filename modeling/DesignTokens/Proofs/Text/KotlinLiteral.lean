import DesignTokens.Text.Comment
import DesignTokens.Text.Hex
import DesignTokens.Text.Literal

/-!
# Reading Kotlin literals

`readKotlin?` reads a string literal from its opening quote: it decodes the escapes and stops at the
quote that closes the literal. A bare `$`, by which a template may begin, and an escape that there
is none of, make a literal that cannot be read. So do line breaks, except for a reader that is told
to take them for text, as the language does not.

In the body that is made for a text all quotes, backslashes and `$` are escaped, but line breaks
stand as they are. But for those it is read as the text and nothing more (`readKotlin?_kotlin`).
-/

namespace DesignTokens.Text

/-- What a character behind a backslash stands for, code units apart. -/
def kotlinEscaped? : Char → Option Char
  | 't' => some '\t'
  | 'b' => some '\x08'
  | 'n' => some '\n'
  | 'r' => some '\r'
  | '\'' => some '\''
  | '"' => some '"'
  | '\\' => some '\\'
  | '$' => some '$'
  | _ => none

/-- The character of a code unit. Half of a character is none. -/
def kotlinUnit? (digits : List Char) : Option Char :=
  (hexNumber? digits).bind fun code => if code.isValidChar then some (Char.ofNat code) else none

/-- Whether a character may stand as itself in a body, with or without line breaks in it. -/
def staysKotlin (breaks : Bool) (c : Char) : Bool :=
  c != '\\' && c != '$' && (breaks || !Comment.isLineBreak c)

/-- The text of the body of a literal, and what is behind its closing quote. -/
def kotlinBody? (breaks : Bool) : List Char → Option (List Char × List Char)
  | [] => none
  | '"' :: cs => some ([], cs)
  | '\\' :: 'u' :: a :: b :: c :: d :: cs =>
    (kotlinUnit? [a, b, c, d]).bind fun e => (kotlinBody? breaks cs).map (Prod.map (e :: ·) id)
  | '\\' :: e :: cs =>
    (kotlinEscaped? e).bind fun c => (kotlinBody? breaks cs).map (Prod.map (c :: ·) id)
  | c :: cs =>
    if staysKotlin breaks c then (kotlinBody? breaks cs).map (Prod.map (c :: ·) id) else none

def readKotlin? (breaks : Bool) : List Char → Option (List Char × List Char)
  | '"' :: cs => kotlinBody? breaks cs
  | _ => none

example : readKotlin? false "\"a\\u0041\\\\\\\"\\$\" b".toList =
    some ("aA\\\"$".toList, " b".toList) := by
  decide

example : readKotlin? false "\"$a\"".toList = none := by decide

/-! ### What the body of a literal is read as -/

theorem kotlinBody?_escaped {e c : Char} (h : kotlinEscaped? e = some c) (breaks : Bool)
    (cs : List Char) :
    kotlinBody? breaks ('\\' :: e :: cs) = (kotlinBody? breaks cs).map (Prod.map (c :: ·) id) := by
  have unit : e ≠ 'u' := by
    rintro rfl
    cases h
  rw [kotlinBody?.eq_4 _ _ _ (fun _ _ _ _ _ same => absurd same unit), h, Option.bind_some]

/-- What a character becomes is read as the character, if it may stand there. -/
theorem kotlinBody?_kotlinEscape (breaks : Bool) (c : Char) (cs : List Char) :
    kotlinBody? breaks (Literal.kotlinEscape c ++ cs) =
      if !breaks && Comment.isLineBreak c then none
      else (kotlinBody? breaks cs).map (Prod.map (c :: ·) id) := by
  unfold Literal.kotlinEscape
  split
  · cases breaks <;> exact kotlinBody?_escaped rfl _ cs
  · cases breaks <;> exact kotlinBody?_escaped rfl _ cs
  · cases breaks <;> exact kotlinBody?_escaped rfl _ cs
  next backslash quote dollar =>
    have stays : staysKotlin breaks c = !(!breaks && Comment.isLineBreak c) := by
      have plain : c ≠ '\\' ∧ c ≠ '$' := ⟨backslash, dollar⟩
      simp [staysKotlin, plain]
    rw [List.singleton_append, kotlinBody?.eq_5 _ c cs quote
      (fun _ _ _ _ _ same => absurd same backslash) fun _ _ same => absurd same backslash, stays]
    cases !breaks && Comment.isLineBreak c <;> rfl

/-- **Literals.** The body that is made for a text is read as the text, up to the quote that is put
behind it, unless there is a line break in the text: then it cannot be read, for this alone. -/
theorem readKotlin?_kotlin (breaks : Bool) (text : String) (rest : List Char) :
    readKotlin? breaks ('"' :: (Literal.kotlin text).toList ++ '"' :: rest) =
      if !breaks && text.toList.any Comment.isLineBreak then none
      else some (text.toList, rest) := by
  rw [List.cons_append, readKotlin?, Literal.kotlin, toList_onChars]
  induction text.toList with
  | nil => simp [kotlinBody?]
  | cons c cs ih =>
    rw [List.flatMap_cons, List.append_assoc, kotlinBody?_kotlinEscape, ih, List.any_cons]
    cases breaks <;> cases Comment.isLineBreak c <;> cases cs.any Comment.isLineBreak <;> rfl

end DesignTokens.Text

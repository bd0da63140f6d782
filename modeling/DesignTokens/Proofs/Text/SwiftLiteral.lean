import DesignTokens.Output.SwiftMember
import DesignTokens.Text.Hex
import Mathlib.Data.List.Chain

/-!
# Reading Swift literals

`readSwift?` reads a string literal of one line from behind its opening quote: it decodes the
escapes and stops at the quote that closes the literal. A line break, an interpolation, or an escape
that there is none of, makes a literal that cannot be read. The body that is made for a text is read
as that text and nothing more (`readSwift?_swift`).

A deprecated member has an attribute with such a literal. `SwiftMember.attribute_carries_message`
says that the attribute is one line, and that its message can be read off it.
-/

namespace DesignTokens

namespace Text

/-- Where a literal is read: in its body, behind a backslash, or in the digits of a code point, of
which is held what was read, the last digit first. -/
inductive SwiftRegion
  | body
  | escape
  | codePoint (read : List Char)

/-- What a character behind a backslash stands for, code points apart. A parenthesis would begin an
interpolation, and stands for none. -/
def swiftEscaped? : Char → Option Char
  | '0' => some '\x00'
  | '\\' => some '\\'
  | 't' => some '\t'
  | 'n' => some '\n'
  | 'r' => some '\r'
  | '"' => some '"'
  | '\'' => some '\''
  | _ => none

/-- The character of a code point, which has at most eight digits. -/
def swiftScalar? (digits : List Char) : Option Char :=
  if digits.isEmpty || 8 < digits.length then none
  else (hexNumber? digits).bind fun code =>
    if code.isValidChar then some (Char.ofNat code) else none

/-- The text of a literal, read from inside a region, and what is behind its closing quote. -/
def readSwift? : SwiftRegion → List Char → Option (List Char × List Char)
  | .body, '"' :: cs => some ([], cs)
  | .body, '\\' :: cs => readSwift? .escape cs
  | .body, c :: cs =>
    if Comment.isLineBreak c then none else (readSwift? .body cs).map (Prod.map (c :: ·) id)
  | .escape, 'u' :: '\x7b' :: cs => readSwift? (.codePoint []) cs
  | .escape, c :: cs =>
    (swiftEscaped? c).bind fun d => (readSwift? .body cs).map (Prod.map (d :: ·) id)
  | .codePoint read, '\x7d' :: cs =>
    (swiftScalar? read.reverse).bind fun d => (readSwift? .body cs).map (Prod.map (d :: ·) id)
  | .codePoint read, c :: cs => readSwift? (.codePoint (c :: read)) cs
  | _, [] => none

example : readSwift? .body "a\\u\x7b1F600\x7d\\\\\\\"\" b".toList =
    some ("a😀\\\"".toList, " b".toList) := by
  decide

example : readSwift? .body "\\(a)\"".toList = none := by decide

theorem readSwift?_swiftEscape (c : Char) (cs : List Char) :
    readSwift? .body (Literal.swiftEscape c ++ cs) =
      (readSwift? .body cs).map (Prod.map (c :: ·) id) := by
  unfold Literal.swiftEscape
  split
  iterate 5 rfl
  next backslash quote newline ret _ =>
    have bare : Comment.isLineBreak c = false := by simp_all [Comment.isLineBreak]
    rw [List.singleton_append, readSwift?, bare]
    · rfl
    · exact quote
    · exact backslash

/-- **Literals.** The body that is made for a text is read as the text, and the quote that closes
the literal is the one behind the body. -/
theorem readSwift?_swift (text : String) (rest : List Char) :
    readSwift? .body ((Literal.swift text).toList ++ '"' :: rest) = some (text.toList, rest) := by
  rw [Literal.swift, toList_onChars]
  induction text.toList with
  | nil => rfl
  | cons c cs ih => rw [List.flatMap_cons, List.append_assoc, readSwift?_swiftEscape, ih]; rfl

theorem swift_inj {text other : String} :
    Literal.swift text = Literal.swift other ↔ text = other := by
  refine ⟨fun same => String.toList_injective ?_, congrArg Literal.swift⟩
  have read := readSwift?_swift text []
  rw [same, readSwift?_swift] at read
  exact (Prod.mk.inj (Option.some.inj read)).1.symm

theorem not_isLineBreak_of_mem_swift {text : String} {c : Char}
    (h : c ∈ (Literal.swift text).toList) : Comment.isLineBreak c = false := by
  rw [Literal.swift, toList_onChars] at h
  obtain ⟨d, -, hc⟩ := List.mem_flatMap.1 h
  unfold Literal.swiftEscape at hc
  split at hc
  all_goals simp_all [Comment.isLineBreak]
  all_goals rcases hc with rfl | rfl <;> decide

/-! ### Where a literal begins -/

/-- No quote in the text stands behind a space. -/
def QuotesTight (cs : List Char) : Prop :=
  cs.IsChain fun c d => ¬ (c = ' ' ∧ d = '"')

theorem quotesTight_swift (before : Char) (text : String) :
    QuotesTight (before :: (Literal.swift text).toList) := by
  rw [Literal.swift, toList_onChars]
  induction text.toList generalizing before with
  | nil => exact .singleton before
  | cons c cs ih =>
    rw [List.flatMap_cons]
    unfold Literal.swiftEscape
    split
    iterate 5 exact .cons_cons (by simp) (.cons_cons (by simp) (ih _))
    next _ quote _ _ _ => exact .cons_cons (fun same => quote same.2) (ih c)

/-- Only one place in a text can be a quote behind a space with none further on. -/
theorem append_spaceQuote_inj {front other behind more : List Char}
    (tight : QuotesTight ('"' :: behind)) (tight' : QuotesTight ('"' :: more)) :
    front ++ ' ' :: '"' :: behind = other ++ ' ' :: '"' :: more ↔
      front = other ∧ behind = more := by
  have last {w behind more : List Char} (h : QuotesTight ('"' :: behind))
      (same : ' ' :: '"' :: behind = w ++ ' ' :: '"' :: more) : w = [] := by
    cases w with
    | nil => rfl
    | cons e w =>
      have inside : [' ', '"'] <:+: '"' :: behind :=
        ⟨w, more, by simp [(List.cons.inj same).2]⟩
      have apart := List.isChain_pair.1 <| List.IsChain.infix h inside
      exact absurd ⟨rfl, rfl⟩ apart
  constructor
  · intro same
    rcases List.append_eq_append_iff.1 same with ⟨w, rfl, heq⟩ | ⟨w, rfl, heq⟩
    · obtain rfl := last tight heq
      simpa using heq
    · obtain rfl := last tight' heq
      simpa using heq.symm
  · rintro ⟨rfl, rfl⟩
    rfl

end Text

/-! ### Attributes -/

namespace SwiftMember

/-- What stands before the message of an attribute, the space and the quote apart. -/
def attributeFront : String := "@available(*, deprecated, message:"

/-- An attribute without its indentation and the break behind it. -/
def attributeLine (message : String) : String :=
  attributeFront ++ " \"" ++ Text.Literal.swift message ++ "\")"

theorem not_isLineBreak_of_mem_attributeLine {message : String} {c : Char}
    (h : c ∈ (attributeLine message).toList) : Text.Comment.isLineBreak c = false := by
  have quiet : ((attributeFront ++ " \"").toList ++ "\")".toList).all
      (!Text.Comment.isLineBreak ·) = true := by decide
  have plain : ∀ c ∈ (attributeFront ++ " \"").toList ++ "\")".toList,
      Text.Comment.isLineBreak c = false := by
    simpa only [List.all_eq_true, Bool.not_eq_true'] using quiet
  rw [attributeLine, String.toList_append, String.toList_append] at h
  rcases List.mem_append.1 h with h | h
  · rcases List.mem_append.1 h with h | h
    · exact plain c (List.mem_append_left _ h)
    · exact Text.not_isLineBreak_of_mem_swift h
  · exact plain c (List.mem_append_right _ h)

theorem toList_availabilityAttribute (indent message : String) :
    (availabilityAttribute indent message).toList =
      (indent ++ attributeFront).toList ++
        ' ' :: '"' :: ((Text.Literal.swift message).toList ++ "\")\n".toList) := by
  simp [availabilityAttribute, attributeFront]

theorem availabilityAttribute_inj {indent indent' message other : String} :
    availabilityAttribute indent message = availabilityAttribute indent' other ↔
      indent = indent' ∧ message = other := by
  refine ⟨fun same => ?_, fun ⟨hindent, hmessage⟩ => hindent ▸ hmessage ▸ rfl⟩
  have spelled := congrArg String.toList same
  rw [toList_availabilityAttribute, toList_availabilityAttribute, ← List.cons_append,
    ← List.cons_append, ← List.append_assoc, ← List.cons_append, ← List.cons_append,
    ← List.append_assoc] at spelled
  obtain ⟨front, body⟩ := (Text.append_spaceQuote_inj (Text.quotesTight_swift '"' message)
    (Text.quotesTight_swift '"' other)).1 (List.append_cancel_right spelled)
  rw [String.toList_append, String.toList_append] at front
  exact ⟨String.toList_injective (List.append_cancel_right front),
    Text.swift_inj.1 (String.toList_injective body)⟩

/-- **Messages.** The attribute of a deprecated member is one line. Its literal is read as the
message, up to the quote that the attribute has behind it; and no other message, at whatever
indentation, has the same attribute. -/
theorem attribute_carries_message (indent message : String) :
    availabilityAttribute indent message = indent ++ attributeLine message ++ "\n" ∧
    ('\n' ∉ (attributeLine message).toList ∧ '\r' ∉ (attributeLine message).toList) ∧
    (∀ rest, Text.readSwift? .body ((Text.Literal.swift message).toList ++ '"' :: rest) =
      some (message.toList, rest)) ∧
    ∀ indent' other, availabilityAttribute indent message = availabilityAttribute indent' other ↔
      indent = indent' ∧ message = other := by
  have spelled :
      availabilityAttribute indent message = indent ++ attributeLine message ++ "\n" := by
    refine String.toList_injective ?_
    rw [toList_availabilityAttribute]
    simp [attributeLine]
  have single : '\n' ∉ (attributeLine message).toList ∧ '\r' ∉ (attributeLine message).toList :=
    ⟨fun h => absurd (not_isLineBreak_of_mem_attributeLine h) (by decide),
      fun h => absurd (not_isLineBreak_of_mem_attributeLine h) (by decide)⟩
  exact ⟨spelled, single, Text.readSwift?_swift message, fun _ _ => availabilityAttribute_inj⟩

end SwiftMember

end DesignTokens

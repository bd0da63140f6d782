import DesignTokens.Proofs.Output.ThemeComments
import DesignTokens.Proofs.Text.KotlinLiteral

/-!
# String literals in themes

A theme puts the values of its members and the messages of its deprecations into string literals.
`ComposeTheme.literals_read_iff` says that these are in the document, and that a literal is one, and
is read as its text, exactly if the text has no line break in it; a value of two lines leaves one
that does not end in its line (`ComposeTheme.value_breaks_literal`).
-/

namespace DesignTokens

open Text (readKotlin?)

/-- The text that an expression holds as a literal. -/
def ThemeExpression.literal? : ThemeExpression → Option String
  | .color held | .text held => some held
  | .reference _ | .size _ _ => none

def ThemeBody.expressions : ThemeBody → List ThemeExpression
  | initializer value => [value]
  | getter light dark => [light, dark]

namespace ComposeTheme

/-! ### Literals -/

theorem toList_quoted (text : String) (rest : List Char) :
    (quoted text).toList ++ rest = '"' :: (Text.Literal.kotlin text).toList ++ '"' :: rest := by
  simp [quoted]

theorem not_any_isLineBreak_iff {text : String} :
    ¬ text.toList.any Text.Comment.isLineBreak ↔ '\n' ∉ text.toList ∧ '\r' ∉ text.toList := by
  simp only [List.any_eq_true, not_exists, not_and, Text.Comment.isLineBreak, Bool.or_eq_true,
    beq_iff_eq, not_or]
  constructor
  · intro no
    exact ⟨fun h => (no _ h).2 rfl, fun h => (no _ h).1 rfl⟩
  · rintro ⟨newline, ret⟩ c hc
    exact ⟨fun same => ret (same ▸ hc), fun same => newline (same ▸ hc)⟩

theorem quoted_inj {text other : String} : quoted text = quoted other ↔ text = other := by
  refine ⟨fun same => String.toList_injective ?_, congrArg quoted⟩
  have read := Text.readKotlin?_kotlin true text []
  rw [← toList_quoted, same, toList_quoted, Text.readKotlin?_kotlin] at read
  simpa using read.symm

/-- A literal is read as its text exactly if there is no line break in that. -/
theorem readKotlin?_quoted_eq_iff (text : String) (rest : List Char) :
    readKotlin? false ((quoted text).toList ++ rest) = some (text.toList, rest) ↔
      '\n' ∉ text.toList ∧ '\r' ∉ text.toList := by
  rw [toList_quoted, Text.readKotlin?_kotlin, ← not_any_isLineBreak_iff]
  simp

/-! ### Where literals are written -/

theorem message_infix_memberText {m : ThemeMember} {message : String}
    (h : m.deprecation = some message) (indent : String) :
    ("@Deprecated(" ++ quoted message ++ ")\n").toList <:+: (memberText indent m).toList := by
  let comment := (m.comment.map fun text =>
    indent ++ "/** " ++ Text.Comment.block text ++ " */\n").getD ""
  let body := bodyText indent m.name (if m.isColor then ": ComposeColor" else "") m.body
  refine ⟨(comment ++ indent).toList, body.toList, ?_⟩
  simp [comment, body, memberText, h]

theorem quoted_infix_expressionText {e : ThemeExpression} {text : String}
    (h : e.literal? = some text) : (quoted text).toList <:+: (expressionText e).toList := by
  cases e with
  | reference _ | size _ _ => cases h
  | color own =>
    obtain rfl : own = text := Option.some.inj h
    exact ⟨[], ".toColor()".toList, by simp [expressionText]⟩
  | text own =>
    obtain rfl : own = text := Option.some.inj h
    exact List.infix_refl _

theorem expressionText_infix_bodyText {e : ThemeExpression} {body : ThemeBody}
    (h : e ∈ body.expressions) (indent name annotation : String) :
    (expressionText e).toList <:+: (bodyText indent name annotation body).toList := by
  cases body with
  | initializer value =>
    obtain rfl := List.mem_singleton.1 h
    exact ⟨(indent ++ "val " ++ name ++ annotation ++ " = ").toList, "\n".toList,
      by simp [bodyText]⟩
  | getter light dark =>
    let front := indent ++ "val " ++ name ++ annotation ++ "\n" ++
      indent ++ "    @Composable get() = if (isSystemInDarkTheme()) "
    rcases List.mem_pair.1 h with rfl | rfl
    · exact ⟨(front ++ expressionText dark ++ " else ").toList, "\n".toList,
        by simp [front, bodyText]⟩
    · exact ⟨front.toList, (" else " ++ expressionText light ++ "\n").toList,
        by simp [front, bodyText]⟩

theorem quoted_infix_memberText {m : ThemeMember} {e : ThemeExpression} {text : String}
    (h : e ∈ m.body.expressions) (hliteral : e.literal? = some text) (indent : String) :
    (quoted text).toList <:+: (memberText indent m).toList := by
  have inside := (quoted_infix_expressionText hliteral).trans
    (expressionText_infix_bodyText h indent m.name (if m.isColor then ": ComposeColor" else ""))
  refine inside.trans ?_
  rw [memberText, String.toList_append]
  exact (List.suffix_append _ _).isInfix

section Member

variable (dictionary : Dictionary) (context : Context)

theorem expressions_member (leaf : Leaf) :
    (member dictionary context leaf).body.expressions =
      leaf.pair.variants.map (expression dictionary context leaf.pair.preferLight.kind) := by
  rw [member]
  cases leaf.pair <;> rfl

theorem literal?_expression {kind : Kind} {t : Token} {text : String}
    (h : (expression dictionary context kind t).literal? = some text) : text = t.shownValue := by
  have plain : ∀ {e : ThemeExpression}, e = literal kind t → e.literal? = some text →
      text = t.shownValue := by
    rintro _ rfl h
    unfold literal at h
    split at h
    · exact (Option.some.inj h).symm
    · split at h
      · split at h
        · cases h
        · exact (Option.some.inj h).symm
      · exact (Option.some.inj h).symm
  unfold expression at h
  split at h
  · split at h
    · cases h
    · exact plain rfl h
  · exact plain rfl h

end Member

/-! ### Main statement -/

/-- **Literals of a theme.** The message of every deprecated pair, and the value of every variant
that is written as a literal, is in the document. A literal is read as its text, up to its closing
quote and in front of whatever, exactly if the text has no line break in it; a reader that takes
line breaks for text reads all of them, and no two texts have the same literal. -/
theorem literals_read_iff (dictionary : Dictionary) (context : Context) :
    (∀ (path : List String) (pair : Pair), path ≠ [] →
      (Groups.ofTokens context.convention dictionary.tokens).get? path = some pair →
      (∀ message ∈ pair.deprecationNote?,
        ("@Deprecated(" ++ quoted message ++ ")\n").toList <:+:
          (Format.document dictionary context .composeTheme).toList) ∧
      ∀ t ∈ pair.variants, ∀ text ∈
          (expression dictionary context pair.preferLight.kind t).literal?,
        text = t.shownValue ∧
          (quoted text).toList <:+: (Format.document dictionary context .composeTheme).toList) ∧
    ∀ (text : String) (rest : List Char),
      (readKotlin? false ((quoted text).toList ++ rest) = some (text.toList, rest) ↔
        '\n' ∉ text.toList ∧ '\r' ∉ text.toList) ∧
      readKotlin? true ((quoted text).toList ++ rest) = some (text.toList, rest) ∧
      ∀ other, quoted text = quoted other ↔ text = other := by
  refine ⟨fun path pair named found => ?_, fun text rest =>
    ⟨readKotlin?_quoted_eq_iff text rest, ?_, fun other => quoted_inj⟩⟩
  · obtain ⟨indent, inside⟩ := exists_infix_document dictionary context named found
    refine ⟨fun message noted => ?_, fun t ht text held => ?_⟩
    · exact (message_infix_memberText noted indent).trans inside
    · have own : expression dictionary context pair.preferLight.kind t ∈
          (member dictionary context ⟨path, pair⟩).body.expressions := by
        rw [expressions_member]
        exact List.mem_map_of_mem ht
      exact ⟨literal?_expression dictionary context held,
        (quoted_infix_memberText own held indent).trans inside⟩
  · rw [toList_quoted, Text.readKotlin?_kotlin]
    rfl

/-- A deprecated color, with quotes, a template and a backslash in its reason, and a text of two
lines. -/
def quotedTokens : Dictionary :=
  .ofTokens [
    { Token.ofValue ["color", "page"] "page" (.string "#ffffff") with
      typeName := some "color", deprecated := true, reason := some "say \"$x\\\"" },
    .ofValue ["label", "intro"] "intro" (.string "one\ntwo")]

theorem literals_read_iff_page :
    let document := Format.document quotedTokens { destination := "Theme.kt" } .composeTheme
    (Groups.ofTokens .standard quotedTokens.tokens).get? ["color", "page"] =
      some (.light quotedTokens.tokens[0]) ∧
    (Pair.light quotedTokens.tokens[0]).deprecationNote? = some "say \"$x\\\"" ∧
    ("@Deprecated(" ++ quoted "say \"$x\\\"" ++ ")\n").toList <:+: document.toList ∧
    (quoted "#ffffff").toList <:+: document.toList ∧
    readKotlin? false (quoted "say \"$x\\\"").toList = some ("say \"$x\\\"".toList, []) := by
  intro document
  obtain ⟨written, read⟩ := literals_read_iff quotedTokens { destination := "Theme.kt" }
  have found : (Groups.ofTokens .standard quotedTokens.tokens).get? ["color", "page"] =
      some (.light quotedTokens.tokens[0]) := rfl
  have noted : (Pair.light quotedTokens.tokens[0]).deprecationNote? = some "say \"$x\\\"" := by
    decide
  obtain ⟨messages, values⟩ := written ["color", "page"] _ (by decide) found
  obtain ⟨-, value⟩ := values quotedTokens.tokens[0] (List.mem_singleton_self _) "#ffffff" rfl
  have single := (read "say \"$x\\\"" []).1.2 (by decide)
  rw [List.append_nil] at single
  exact ⟨found, noted, messages _ noted, value, single⟩

/-- The literal of a text of two lines is in the document and is no literal. -/
theorem value_breaks_literal :
    Format.document quotedTokens { destination := "Theme.kt", showHeader := false } .composeTheme =
      "package com.xplor.design\n\n" ++ preamble ++ "object Theme \x7b\n" ++
        "    object Color \x7b\n        @Deprecated(\"say \\\"\\$x\\\\\\\"\")\n" ++
        "        val page: ComposeColor = \"#ffffff\".toColor()\n    \x7d\n" ++
        "    object Label \x7b\n        val intro = " ++ quoted "one\ntwo" ++
        "\n    \x7d\n\x7d\n" ∧
    ∀ rest, readKotlin? false ((quoted "one\ntwo").toList ++ rest) = none := by
  refine ⟨by decide +kernel, fun rest => ?_⟩
  rw [toList_quoted, Text.readKotlin?_kotlin]
  rfl

end ComposeTheme

end DesignTokens

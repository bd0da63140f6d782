import DesignTokens.Format
import DesignTokens.Proofs.Header
import DesignTokens.Proofs.Output.ThemeReads

/-!
# Comments in Kotlin sources

The block comments of Kotlin nest, but the texts that a theme puts into comments, and the lines of a
header, are made for comments that do not: `*/` is broken in them, `/*` is not. So a comment of a
theme ends where it should exactly if no `/*` is in its text (`ComposeTheme.comments_end_iff`); with
one in it, the comment goes on behind its own end (`ComposeTheme.comment_swallows_theme`).
-/

namespace DesignTokens

open Text (BlockGrammar)

/-- A header of a Kotlin source ends where it should exactly if none of its lines has `/*` in it. -/
theorem Header.afterComment?_kotlin_eq_iff {destination : String}
    (kotlin : Path.extension? destination = some "kt") (lines : List String) (rest : List Char) :
    BlockGrammar.nesting.afterComment? ((text destination lines).toList ++ rest) =
        some (['\n', '\n'] ++ rest) ↔
      ∀ line ∈ lines, ¬ ['/', '*'] <:+: line.toList := by
  have style : HeaderStyle.ofDestination destination = .block := by
    rw [HeaderStyle.ofDestination, kotlin]
    rfl
  rw [text, style, HeaderStyle.afterComment?_wrap_block_eq_iff]
  simp only [BlockGrammar.openings_nesting_eq_zero_iff]
  split
  · next none =>
    rw [List.isEmpty_iff.1 none]
    have plain : ¬ ['/', '*'] <:+: defaultLine.toList :=
      BlockGrammar.openings_nesting_eq_zero_iff.1 (by decide)
    simp [plain]
  · rfl

namespace ComposeTheme

theorem docComment_infix_memberText {m : ThemeMember} {text : String} (h : m.comment = some text)
    (indent : String) :
    (BlockGrammar.docComment (Text.Comment.block text)).toList <:+:
      (memberText indent m).toList := by
  refine ⟨indent.toList, ("\n" ++ (m.deprecation.map fun message =>
    indent ++ "@Deprecated(" ++ quoted message ++ ")\n").getD "" ++
      bodyText indent m.name (if m.isColor then ": ComposeColor" else "") m.body).toList, ?_⟩
  simp [memberText, BlockGrammar.docComment, h]

/-- The lines of the member of each canonical path are in the document of a theme. -/
theorem exists_infix_document (dictionary : Dictionary) (context : Context) {path : List String}
    {pair : Pair} (named : path ≠ [])
    (found : (Groups.ofTokens context.convention dictionary.tokens).get? path = some pair) :
    ∃ indent, (memberText indent (member dictionary context ⟨path, pair⟩)).toList <:+:
      (Format.document dictionary context .composeTheme).toList := by
  have declared := mem_declared_iff.2 ⟨⟨path, pair⟩, named, found, rfl, rfl⟩
  obtain ⟨indent, inside⟩ := Container.exists_infix_text "object" memberText _ "" declared
  have behind : ((ofDictionary dictionary context).root.text "object" memberText "").toList <:+:
      (Format.document dictionary context .composeTheme).toList := by
    let theme := ofDictionary dictionary context
    let front := context.header ++ ("package " ++ theme.packageName ++ "\n\n" ++ preamble)
    refine ⟨front.toList, [], ?_⟩
    rw [List.append_nil, ← String.toList_append, String.append_assoc]
    rfl
  exact ⟨indent, inside.trans behind⟩

/-- The comment of the primary token of a pair is in the document of a theme. -/
theorem docComment_infix_document (dictionary : Dictionary) (context : Context) {path : List String}
    {pair : Pair} {text : String} (named : path ≠ [])
    (found : (Groups.ofTokens context.convention dictionary.tokens).get? path = some pair)
    (commented : pair.preferLight.comment = some text) :
    (BlockGrammar.docComment (Text.Comment.block text)).toList <:+:
      (Format.document dictionary context .composeTheme).toList := by
  obtain ⟨indent, inside⟩ := exists_infix_document dictionary context named found
  have first : _ <:+: (memberText indent (member dictionary context ⟨path, pair⟩)).toList :=
    docComment_infix_memberText commented indent
  exact first.trans inside

/-- **Where the comments of a theme end.** The comment of the primary token of every pair is in the
document; as Kotlin reads it, it ends where it should, in front of whatever, exactly if no `/*` is
in its text, and so does the header of a Kotlin source exactly if none is in its lines. -/
theorem comments_end_iff (dictionary : Dictionary) (context : Context) :
    (∀ (path : List String) (pair : Pair) (text : String), path ≠ [] →
      (Groups.ofTokens context.convention dictionary.tokens).get? path = some pair →
      pair.preferLight.comment = some text →
      (BlockGrammar.docComment (Text.Comment.block text)).toList <:+:
        (Format.document dictionary context .composeTheme).toList ∧
      ∀ rest, BlockGrammar.nesting.afterComment?
          ((BlockGrammar.docComment (Text.Comment.block text)).toList ++ rest) = some rest ↔
        ¬ ['/', '*'] <:+: text.toList) ∧
    ∀ (destination : String) (lines : List String), Path.extension? destination = some "kt" →
      ∀ rest, BlockGrammar.nesting.afterComment?
          ((Header.text destination lines).toList ++ rest) = some (['\n', '\n'] ++ rest) ↔
        ∀ line ∈ lines, ¬ ['/', '*'] <:+: line.toList := by
  refine ⟨fun path pair text named found commented => ⟨?_, fun rest => ?_⟩,
    fun destination lines kotlin => Header.afterComment?_kotlin_eq_iff kotlin lines⟩
  · exact docComment_infix_document dictionary context named found commented
  · rw [BlockGrammar.afterComment?_docComment_eq_iff (Text.unclosed_block text),
      BlockGrammar.openings_block, BlockGrammar.openings_nesting_eq_zero_iff]

/-- Two tokens with comments: one names a pattern of files, the other begins with an end. -/
def commented : Dictionary :=
  .ofTokens [
    { Token.ofValue ["color", "page"] "page" (.string "#ffffff") with
      typeName := some "color", comment := some "see src/*" },
    { Token.ofValue ["size", "gap"] "gap" (.string "4") with comment := some "*/ // the gap" }]

theorem comments_end_iff_gap :
    let document := Format.document commented { destination := "Theme.kt" } .composeTheme
    let comment := BlockGrammar.docComment (Text.Comment.block "*/ // the gap")
    (Groups.ofTokens .standard commented.tokens).get? ["size", "gap"] =
      some (.light commented.tokens[1]) ∧
    commented.tokens[1].comment = some "*/ // the gap" ∧
    comment.toList <:+: document.toList ∧
    BlockGrammar.nesting.IsComment comment.toList ∧
    Path.extension? "Theme.kt" = some "kt" ∧
    BlockGrammar.nesting.afterComment? (Header.text "Theme.kt" ["*/"]).toList =
      some ['\n', '\n'] := by
  intro document comment
  obtain ⟨members, headers⟩ := comments_end_iff commented { destination := "Theme.kt" }
  have found : (Groups.ofTokens .standard commented.tokens).get? ["size", "gap"] =
      some (.light commented.tokens[1]) := rfl
  have plain : ¬ ['/', '*'] <:+: "*/ // the gap".toList :=
    BlockGrammar.openings_nesting_eq_zero_iff.1 (by decide)
  obtain ⟨inside, ends⟩ := members ["size", "gap"] (.light commented.tokens[1]) "*/ // the gap"
    (by decide) found rfl
  have kotlin : Path.extension? "Theme.kt" = some "kt" := by decide
  have header := (headers "Theme.kt" ["*/"] kotlin []).2 (by decide)
  rw [List.append_nil] at header
  exact ⟨found, rfl, inside, fun rest => (ends rest).2 plain, kotlin, header⟩

/-- The comment that names a pattern of files does not end in the document, and no header with the
beginning of a comment does. -/
theorem comment_swallows_theme :
    let comment := BlockGrammar.docComment (Text.Comment.block "see src/*")
    let behind := "\n        val page: ComposeColor = \"#ffffff\".toColor()\n    \x7d\n" ++
      ("    object Size \x7b\n        /** * / // the gap */\n        val gap = \"4\"\n" ++
        "    \x7d\n\x7d\n")
    Format.document commented { destination := "Theme.kt", showHeader := false } .composeTheme =
      "package com.xplor.design\n\n" ++ preamble ++
        "object Theme \x7b\n    object Color \x7b\n        " ++ comment ++ behind ∧
    BlockGrammar.nesting.afterComment? (comment ++ behind).toList = none ∧
    BlockGrammar.nesting.afterComment? (Header.text "Theme.kt" ["/* generated"]).toList = none := by
  refine ⟨by decide +kernel, by decide +kernel, by decide +kernel⟩

end ComposeTheme

end DesignTokens

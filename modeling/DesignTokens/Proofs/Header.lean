import DesignTokens.Proofs.Output.ResourceText
import DesignTokens.Proofs.Text.Comments

/-!
# Headers are comments

Whatever lines are given for it, a header is one comment of its style with blank space behind it
(`HeaderStyle.IsHeader`, `HeaderStyle.isHeader_wrap`). For a block this is so as flat comments are
read; where comments nest, it ends where it should if no line opens a level
(`HeaderStyle.afterComment?_wrap_block_eq_iff`). `comments_stay_closed` puts this together with what
is known of the texts of single comments.
-/

namespace DesignTokens

open Text (BlockGrammar IsLines Spaced Unclosed lineComments)

namespace HeaderStyle

/-! ### Blocks -/

/-- The body of a header in a block: the second star of its beginning, and its lines. -/
def blockBody (lines : List String) : List Char :=
  '*' :: '\n' :: lines.flatMap fun text =>
    " * ".toList ++ (Text.Comment.block text).toList ++ ['\n']

theorem toList_wrap_block (lines : List String) :
    (block.wrap lines).toList =
      ('/' :: '*' :: blockBody lines ++ [' ', '*', '/']) ++ ['\n', '\n'] := by
  simp [wrap.eq_def, blockBody, List.flatMap_map]

theorem unclosed_blockBody (lines : List String) : Unclosed (blockBody lines) := by
  have starred : Unclosed (lines.flatMap fun text =>
      " * ".toList ++ (Text.Comment.block text).toList ++ ['\n']) := by
    induction lines with
    | nil => exact .nil
    | cons line lines ih =>
      rw [List.flatMap_cons]
      simpa using (Text.unclosed_block line).starred ih
  exact .cons_cons rfl (starred.cons (by decide))

theorem openings_blockBody_eq_zero_iff (grammar : BlockGrammar) (lines : List String) :
    grammar.openings (blockBody lines) = 0 ↔
      ∀ line ∈ lines, grammar.openings line.toList = 0 := by
  rw [blockBody, BlockGrammar.openings_cons_of_ne (by decide),
    BlockGrammar.openings_cons_of_ne (by decide)]
  induction lines with
  | nil => simp [BlockGrammar.openings]
  | cons line lines ih =>
    rw [List.flatMap_cons, List.append_assoc, List.singleton_append,
      BlockGrammar.openings_starred, BlockGrammar.openings_block, Nat.add_eq_zero_iff, ih,
      List.forall_mem_cons]

/-- A header in a block ends where it should exactly if no line opens a level. -/
theorem afterComment?_wrap_block_eq_iff (grammar : BlockGrammar) (lines : List String)
    (rest : List Char) :
    grammar.afterComment? ((block.wrap lines).toList ++ rest) = some (['\n', '\n'] ++ rest) ↔
      ∀ line ∈ lines, grammar.openings line.toList = 0 := by
  rw [toList_wrap_block, List.append_assoc,
    BlockGrammar.afterComment?_wrapped_eq_iff (unclosed_blockBody lines),
    openings_blockBody_eq_zero_iff]

/-! ### Lines -/

theorem isLines_slashes (text : String) :
    IsLines ("// " ++ Text.Comment.line text ++ "\n").toList
      [' ' :: (Text.Comment.line text).toList] := by
  have body : ∀ c ∈ ' ' :: (Text.Comment.line text).toList,
      Text.Comment.isLineBreak c = false := by
    intro c hc
    rcases List.mem_cons.1 hc with rfl | hc
    · rfl
    · exact Text.Comment.not_isLineBreak_of_mem_line hc
  simpa using Text.isLines_comment body

theorem isLines_join (lines : List String) :
    IsLines (String.join (lines.map fun text => "// " ++ Text.Comment.line text ++ "\n")).toList
      (lines.map fun text => ' ' :: (Text.Comment.line text).toList) := by
  induction lines with
  | nil => exact Text.isLines_nil
  | cons line lines ih => simpa using (isLines_slashes line).append ih

/-- A header in lines is a comment per line, between two empty ones. -/
theorem lineComments_wrap_line (lines : List String) (rest : List Char) :
    lineComments .front ((line.wrap lines).toList ++ rest) =
      ([] :: lines.map (fun text => ' ' :: (Text.Comment.line text).toList) ++ [[]],
        '\n' :: rest) := by
  have empty : IsLines "//\n".toList [[]] := @Text.isLines_comment [] (by simp)
  have whole := (empty.append (isLines_join lines)).append empty ('\n' :: rest)
  have spelled : (line.wrap lines).toList ++ rest = "//\n".toList ++
      (String.join (lines.map fun text => "// " ++ Text.Comment.line text ++ "\n")).toList ++
        "//\n".toList ++ '\n' :: rest := by
    simp [wrap.eq_def]
  rw [spelled, whole]
  simp [lineComments]

/-! ### All styles -/

/-- The text is a header in a style: nothing where there are no comments, else one comment (in
lines: one run of them) with blank space behind it, in front of any text. -/
def IsHeader (text : List Char) : HeaderStyle → Prop
  | xml => ∃ (body blanks : List Char), (∀ c ∈ blanks, Text.isBlank c) ∧
      Markup.Cuts text (.comment body :: blanks.map .char)
  | line => ∃ first more, ∃ blanks : List Char, (∀ c ∈ blanks, Text.isBlank c) ∧
      ∀ rest, lineComments .front (text ++ rest) = (first :: more, blanks ++ rest)
  | block => ∃ blanks : List Char, (∀ c ∈ blanks, Text.isBlank c) ∧
      ∀ rest, BlockGrammar.flat.afterComment? (text ++ rest) = some (blanks ++ rest)
  | none => text = []

theorem isHeader_wrap (style : HeaderStyle) (lines : List String) :
    style.IsHeader (style.wrap lines).toList := by
  have newline : Text.isBlank '\n' := by decide
  cases style with
  | xml =>
    refine ⟨(commentOf lines).toList, ['\n'], by simp [newline], ?_⟩
    rw [toList_wrap_xml]
    exact (Markup.cuts_comment (commentBody_commentOf lines)).append
      (Markup.cuts_char (by decide) (by decide))
  | line => exact ⟨_, _, ['\n'], by simp [newline], lineComments_wrap_line lines⟩
  | block =>
    refine ⟨['\n', '\n'], by simp [newline], fun rest => ?_⟩
    exact (afterComment?_wrap_block_eq_iff .flat lines rest).2
      fun line _ => BlockGrammar.openings_flat line.toList
  | none => exact String.toList_empty

end HeaderStyle

/-! ### Texts and headers -/

/-- **Comments stay closed.** A text for a comment has in it nothing that ends the comment, or a
line, and differs from what it was made of by spaces in between, or by spaces for line breaks; to
make it again changes nothing. In its comment it ends where the comment does. So a header is one
comment of its style, or none, and blank space. -/
theorem comments_stay_closed :
    (∀ text : String,
      (¬ ['-', '-'] <:+: (Text.Comment.xml text).toList ∧
        ¬ ['*', '/'] <:+: (Text.Comment.block text).toList ∧
        ¬ ['/', '*'] <:+: (Text.Comment.nested text).toList ∧
        ¬ ['*', '/'] <:+: (Text.Comment.nested text).toList ∧
        '\r' ∉ (Text.Comment.line text).toList ∧ '\n' ∉ (Text.Comment.line text).toList) ∧
      (Spaced text.toList (Text.Comment.xml text).toList ∧
        Spaced text.toList (Text.Comment.block text).toList ∧
        Spaced text.toList (Text.Comment.nested text).toList ∧
        List.Forall₂ (fun c d => if Text.Comment.isLineBreak c then d = ' ' else d = c)
          text.toList (Text.Comment.line text).toList) ∧
      (Text.Comment.xml (Text.Comment.xml text) = Text.Comment.xml text ∧
        Text.Comment.block (Text.Comment.block text) = Text.Comment.block text ∧
        Text.Comment.nested (Text.Comment.nested text) = Text.Comment.nested text ∧
        Text.Comment.line (Text.Comment.line text) = Text.Comment.line text) ∧
      Markup.Cuts ("<!-- " ++ Text.Comment.xml text ++ " -->").toList
        [.comment (" " ++ Text.Comment.xml text ++ " ").toList] ∧
      BlockGrammar.flat.IsComment
        (BlockGrammar.docComment (Text.Comment.block text)).toList ∧
      BlockGrammar.nesting.IsComment
        (BlockGrammar.docComment (Text.Comment.nested text)).toList) ∧
    ∀ (destination : String) (lines : List String),
      (HeaderStyle.ofDestination destination).IsHeader (Header.text destination lines).toList := by
  have dashes := Text.brokenBySpace_isDoubleDash
  have closings := Text.brokenBySpace_isClosing
  have nestings := Text.brokenBySpace_isNesting
  refine ⟨fun text => ⟨⟨?_, ?_, ?_, ?_, ?_, ?_⟩, ⟨?_, ?_, ?_, ?_⟩, ⟨?_, ?_, ?_, ?_⟩, ?_,
    fun rest => ?_, fun rest => ?_⟩, fun destination lines => ?_⟩
  · exact Text.Comment.not_infix_onChars dashes rfl text
  · exact Text.Comment.not_infix_onChars closings rfl text
  · exact Text.Comment.not_infix_onChars nestings rfl text
  · exact Text.Comment.not_infix_onChars nestings rfl text
  · exact fun h => absurd (Text.Comment.not_isLineBreak_of_mem_line h) (by decide)
  · exact fun h => absurd (Text.Comment.not_isLineBreak_of_mem_line h) (by decide)
  · exact Text.Comment.spaced_onChars text
  · exact Text.Comment.spaced_onChars text
  · exact Text.Comment.spaced_onChars text
  · exact Text.Comment.forall₂_line text
  · exact Text.Comment.onChars_onChars dashes text
  · exact Text.Comment.onChars_onChars closings text
  · exact Text.Comment.onChars_onChars nestings text
  · exact Text.Comment.line_line text
  · simpa using Markup.cuts_comment (Markup.commentBody_xml text)
  · exact (BlockGrammar.afterComment?_docComment_eq_iff (Text.unclosed_block text) rest).2
      (BlockGrammar.openings_flat _)
  · exact (BlockGrammar.afterComment?_docComment_eq_iff (BlockGrammar.unclosed_nested text) rest).2
      (BlockGrammar.openings_nested .nesting text)
  · exact HeaderStyle.isHeader_wrap _ _

end DesignTokens

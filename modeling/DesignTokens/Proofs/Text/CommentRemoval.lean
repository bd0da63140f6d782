import DesignTokens.Json.Print
import DesignTokens.Text.Comment
import Mathlib.Data.List.Chain
import Mathlib.Tactic.SplitIfs

/-!
# Taking the comments out of a text

`withoutComments` drops the block comments of a text and leaves its string literals alone, whatever
looks like a comment in them. A text is taken apart piece by piece: `Strips cs text` says that `cs`
leaves `text` in front of any text, and pieces may be put together (`Strips.append`). A block
comment leaves nothing if its end does not come early, that is if its body is `Unclosed`; the texts
that `Comment.block` makes are (`unclosed_block`).
-/

namespace DesignTokens.Text

/-- Where a text is read: in the code, in a string literal, in a block comment. -/
inductive Region
  | code
  | string
  | comment

/-- The text without its block comments, read from inside a region. -/
def withoutComments : Region → List Char → List Char
  | _, [] => []
  | .code, '/' :: '*' :: cs => withoutComments .comment cs
  | .code, '"' :: cs => '"' :: withoutComments .string cs
  | .code, c :: cs => c :: withoutComments .code cs
  | .string, '\\' :: c :: cs => '\\' :: c :: withoutComments .string cs
  | .string, '"' :: cs => '"' :: withoutComments .code cs
  | .string, c :: cs => c :: withoutComments .string cs
  | .comment, '*' :: '/' :: cs => withoutComments .code cs
  | .comment, _ :: cs => withoutComments .comment cs

example : withoutComments .code "a/* \" */\"/* */\"/***/b".toList = "a\"/* */\"b".toList := by
  decide

/-! ### Pieces of a text -/

/-- Without its comments, `cs` leaves `text`, whatever stands behind it. -/
def Strips (cs text : List Char) : Prop :=
  ∀ rest, withoutComments .code (cs ++ rest) = text ++ withoutComments .code rest

theorem Strips.withoutComments_eq {cs text : List Char} (h : Strips cs text) :
    withoutComments .code cs = text := by
  have whole := h []
  rwa [List.append_nil, withoutComments, List.append_nil] at whole

theorem strips_nil : Strips [] [] :=
  fun _ => rfl

theorem Strips.append {cs ds text more : List Char} (h : Strips cs text) (h' : Strips ds more) :
    Strips (cs ++ ds) (text ++ more) := by
  intro rest
  rw [List.append_assoc, List.append_assoc, h, h']

/-- A character that begins neither a comment nor a string. -/
def isPlain (c : Char) : Bool :=
  c != '/' && c != '"'

theorem strips_plain {cs : List Char} (h : cs.all isPlain) : Strips cs cs := by
  intro rest
  induction cs with
  | nil => rfl
  | cons c cs ih =>
    simp only [List.all_cons, isPlain, Bool.and_eq_true, bne_iff_ne] at h
    obtain ⟨⟨slash, quote⟩, plain⟩ := h
    rw [List.cons_append, withoutComments, ih plain]
    · rfl
    · simp [slash]
    · simp [quote]

theorem Strips.cons {c : Char} {cs text : List Char} (plain : isPlain c) (h : Strips cs text) :
    Strips (c :: cs) (c :: text) :=
  (@strips_plain [c] (by simpa using plain)).append h

/-! ### String literals -/

theorem withoutComments_string_cons {c : Char} (backslash : c ≠ '\\') (quote : c ≠ '"')
    (cs : List Char) :
    withoutComments .string (c :: cs) = c :: withoutComments .string cs := by
  rw [withoutComments]
  · simp [backslash]
  · simp [quote]

theorem withoutComments_escape (c : Char) (cs : List Char) :
    withoutComments .string (Json.escape c ++ cs) =
      Json.escape c ++ withoutComments .string cs := by
  unfold Json.escape
  split_ifs with quote backslash newline ret tab back feed control
  iterate 7 rfl
  · have digits : ∀ n < 16, hexDigit n ≠ '\\' ∧ hexDigit n ≠ '"' := by decide
    have high := digits (c.toNat / 16) (by omega)
    have low := digits (c.toNat % 16) (by omega)
    have zero : '0' ≠ '\\' ∧ '0' ≠ '"' := by decide
    simp only [List.cons_append, List.nil_append, withoutComments,
      withoutComments_string_cons zero.1 zero.2, withoutComments_string_cons high.1 high.2,
      withoutComments_string_cons low.1 low.2]
  · exact withoutComments_string_cons (by simpa using backslash) (by simpa using quote) cs

theorem strips_quoteChars (text : List Char) :
    Strips (Json.quoteChars text) (Json.quoteChars text) := by
  intro rest
  have body : withoutComments .string (text.flatMap Json.escape ++ '"' :: rest) =
      text.flatMap Json.escape ++ '"' :: withoutComments .code rest := by
    induction text with
    | nil => rfl
    | cons c text ih =>
      rw [List.flatMap_cons, List.append_assoc, withoutComments_escape, ih, List.append_assoc]
  rw [Json.quoteChars, List.append_assoc, List.cons_append, List.singleton_append, withoutComments,
    body]
  simp

/-! ### Block comments -/

/-- No end of a block comment is in the text. -/
def Unclosed (cs : List Char) : Prop :=
  cs.IsChain fun c d => Comment.isClosing c d = false

instance (cs : List Char) : Decidable (Unclosed cs) :=
  inferInstanceAs (Decidable (cs.IsChain fun c d => Comment.isClosing c d = false))

theorem Unclosed.append {cs ds : List Char} {d : Char} (h : Unclosed cs) (slash : d ≠ '/')
    (h' : Unclosed (d :: ds)) : Unclosed (cs ++ d :: ds) := by
  refine List.isChain_append.2 ⟨h, h', fun c _ d' hd => ?_⟩
  obtain rfl : d = d' := by simpa using hd
  simp [Comment.isClosing, slash]

theorem Unclosed.cons {c : Char} {cs : List Char} (star : c ≠ '*') (h : Unclosed cs) :
    Unclosed (c :: cs) := by
  refine List.isChain_cons.2 ⟨fun d _ => ?_, h⟩
  simp [Comment.isClosing, star]

theorem Unclosed.append_left {cs ds : List Char} (star : '*' ∉ cs) (h : Unclosed ds) :
    Unclosed (cs ++ ds) := by
  induction cs with
  | nil => exact h
  | cons c cs ih =>
    obtain ⟨first, behind⟩ := not_or.1 (mt List.mem_cons.2 star)
    exact .cons (Ne.symm first) (ih behind)

theorem Unclosed.starred {line more : List Char} (h : Unclosed line) (behind : Unclosed more) :
    Unclosed (" * ".toList ++ line ++ '\n' :: more) := by
  have content := h.append (by decide) (behind.cons (show '\n' ≠ '*' by decide))
  exact .cons (by decide) (.cons_cons rfl (content.cons (by decide)))

theorem head?_breakPairs (forbidden : Char → Char → Bool) (cs : List Char) :
    (Comment.breakPairs forbidden cs).head? = cs.head? := by
  fun_cases Comment.breakPairs forbidden cs <;> rfl

/-- No pair with a space is forbidden, so that one breaks a pair. -/
def BrokenBySpace (forbidden : Char → Char → Bool) : Prop :=
  ∀ c, forbidden c ' ' = false ∧ forbidden ' ' c = false

theorem brokenBySpace_isDoubleDash : BrokenBySpace Comment.isDoubleDash := by
  simp [BrokenBySpace, Comment.isDoubleDash]

theorem brokenBySpace_isClosing : BrokenBySpace Comment.isClosing := by
  simp [BrokenBySpace, Comment.isClosing]

theorem brokenBySpace_isNesting : BrokenBySpace Comment.isNesting := by
  simp [BrokenBySpace, Comment.isNesting]

theorem isChain_breakPairs {forbidden : Char → Char → Bool} (blank : BrokenBySpace forbidden)
    (cs : List Char) :
    (Comment.breakPairs forbidden cs).IsChain fun c d => forbidden c d = false := by
  fun_induction Comment.breakPairs forbidden cs with
  | case1 => exact .nil
  | case2 c => exact .singleton c
  | case3 c d cs _ ih =>
    refine .cons_cons (blank c).1 (List.isChain_cons.2 ⟨fun e _ => (blank e).2, ih⟩)
  | case4 c d cs allowed ih =>
    refine List.isChain_cons.2 ⟨fun e he => ?_, ih⟩
    rw [head?_breakPairs] at he
    obtain rfl : d = e := by simpa using he
    simpa using allowed

theorem unclosed_block (text : String) : Unclosed (Comment.block text).toList := by
  rw [Comment.block, toList_onChars]
  exact isChain_breakPairs brokenBySpace_isClosing _

theorem withoutComments_comment {body : List Char} (h : Unclosed body) (rest : List Char) :
    withoutComments .comment (body ++ '*' :: '/' :: rest) = withoutComments .code rest := by
  induction body with
  | nil => rfl
  | cons c body ih =>
    have behind := ih (List.isChain_cons.1 h).2
    rw [List.cons_append, withoutComments, behind]
    rintro tail rfl front
    rcases body with _ | ⟨d, body⟩
    · cases front
    · obtain ⟨rfl, -⟩ := List.cons.inj front
      cases (List.isChain_cons_cons.1 h).1

theorem strips_comment {body : List Char} (h : Unclosed body) :
    Strips ('/' :: '*' :: body ++ ['*', '/']) [] := by
  intro rest
  rw [List.append_assoc]
  exact withoutComments_comment h rest

end DesignTokens.Text

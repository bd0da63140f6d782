import DesignTokens.Proofs.Text.CommentRemoval
import DesignTokens.Text.Literal

/-!
# The pieces of a marked-up text

`cut` takes a marked-up text apart into comments, instructions, tags and the characters between
them, for which four entities may stand. It refuses a comment with `--` inside. Nothing else is
changed: blanks and the ends of lines are characters like others.

`Cuts cs pieces` says that `cs` is taken apart into `pieces` in front of any text, so that texts may
be put together (`Cuts.append`). Escaped text gives its characters back (`cuts_entities`), and a
comment is one piece (`cuts_comment`) if no `--` is in it and no dash at its end; every comment that
is read is such a one (`commentBody_of_mem_cut`).
-/

namespace DesignTokens.Markup

inductive Piece
  /-- A character that is no markup, or an entity that stands for one. -/
  | char (c : Char)
  /-- A comment, `<!-- -->`. -/
  | comment (body : List Char)
  /-- An instruction, `<? ?>`; the declaration of a document is one. -/
  | instruction (body : List Char)
  /-- A tag, `< >`. -/
  | tag (body : List Char)
  deriving DecidableEq

/-- Where a text is read. What was read of a piece is held last character first. -/
inductive Region
  | content
  | entity (read : List Char)
  | comment (read : List Char)
  | instruction (read : List Char)
  | tag (read : List Char)
  /-- In the quotes of an attribute, where a tag does not end. -/
  | quoted (read : List Char)

/-- The character that an entity stands for. -/
def entity? : List Char → Option Char
  | ['a', 'm', 'p'] => some '&'
  | ['l', 't'] => some '<'
  | ['g', 't'] => some '>'
  | ['q', 'u', 'o', 't'] => some '"'
  | _ => none

/-- The pieces of a text, read from inside a region; none if a piece does not end. Characters are
taken as they are: that some may not stand in a document, and that breaks and the blanks of
attributes are made uniform before anything is read, is left out. -/
def cut : Region → List Char → Option (List Piece)
  | .content, [] => some []
  | .content, '<' :: '!' :: '-' :: '-' :: cs => cut (.comment []) cs
  | .content, '<' :: '?' :: cs => cut (.instruction []) cs
  | .content, '<' :: cs => cut (.tag []) cs
  | .content, '&' :: cs => cut (.entity []) cs
  | .content, c :: cs => (cut .content cs).map (.char c :: ·)
  | .entity read, ';' :: cs =>
    (entity? read.reverse).bind fun c => (cut .content cs).map (.char c :: ·)
  | .entity read, c :: cs => cut (.entity (c :: read)) cs
  | .comment read, '-' :: '-' :: '>' :: cs =>
    (cut .content cs).map (.comment read.reverse :: ·)
  | .comment _, '-' :: '-' :: _ => none
  | .comment read, c :: cs => cut (.comment (c :: read)) cs
  | .instruction read, '?' :: '>' :: cs =>
    (cut .content cs).map (.instruction read.reverse :: ·)
  | .instruction read, c :: cs => cut (.instruction (c :: read)) cs
  | .tag read, '>' :: cs => (cut .content cs).map (.tag read.reverse :: ·)
  | .tag _, '<' :: _ => none
  | .tag read, '"' :: cs => cut (.quoted ('"' :: read)) cs
  | .tag read, c :: cs => cut (.tag (c :: read)) cs
  | .quoted read, '"' :: cs => cut (.tag ('"' :: read)) cs
  | .quoted read, c :: cs => cut (.quoted (c :: read)) cs
  | _, [] => none

example : cut .content "<a b=\">\">&lt;<!-- - --></a>".toList =
    some [.tag "a b=\">\"".toList, .char '<', .comment " - ".toList, .tag "/a".toList] := by
  decide

/-! ### Texts that are put together -/

/-- The text is taken apart into the pieces, whatever stands behind it. -/
def Cuts (cs : List Char) (pieces : List Piece) : Prop :=
  ∀ rest, cut .content (cs ++ rest) = (cut .content rest).map (pieces ++ ·)

theorem Cuts.cut_eq {cs : List Char} {pieces : List Piece} (h : Cuts cs pieces) :
    cut .content cs = some pieces := by
  have whole := h []
  rw [List.append_nil] at whole
  simpa [cut] using whole

theorem cuts_nil : Cuts [] [] := by
  intro rest
  simp

theorem Cuts.append {cs ds : List Char} {pieces more : List Piece} (h : Cuts cs pieces)
    (h' : Cuts ds more) : Cuts (cs ++ ds) (pieces ++ more) := by
  intro rest
  rw [List.append_assoc, h, h', Option.map_map]
  simp [Function.comp_def]

/-! ### Characters -/

theorem cuts_char {c : Char} (tag : c ≠ '<') (reference : c ≠ '&') : Cuts [c] [.char c] := by
  intro rest
  rw [List.singleton_append, cut]
  · rfl
  · exact fun _ h => absurd h tag
  · exact fun _ h => absurd h tag
  · exact tag
  · exact reference

theorem cuts_entity (c : Char) : Cuts (Text.Literal.entity c) [.char c] := by
  unfold Text.Literal.entity
  split
  · exact fun _ => rfl
  · exact fun _ => rfl
  · exact fun _ => rfl
  · exact fun _ => rfl
  · next amp lt _ _ => exact cuts_char lt amp

/-- **Escaped text** is read as the text. -/
theorem cuts_entities (text : List Char) :
    Cuts (text.flatMap Text.Literal.entity) (text.map .char) := by
  induction text with
  | nil => exact cuts_nil
  | cons c text ih =>
    rw [List.flatMap_cons, List.map_cons]
    exact (cuts_entity c).append ih

/-! ### Comments -/

/-- No two dashes are neighbours in the text. -/
def Dashless (cs : List Char) : Prop :=
  cs.IsChain fun c d => Text.Comment.isDoubleDash c d = false

instance (cs : List Char) : Decidable (Dashless cs) :=
  inferInstanceAs (Decidable (cs.IsChain fun c d => Text.Comment.isDoubleDash c d = false))

/-- No two dashes are neighbours in the text, nor would be if one more dash stood behind it. -/
def CommentBody (cs : List Char) : Prop :=
  Dashless (cs ++ ['-'])

instance (cs : List Char) : Decidable (CommentBody cs) :=
  inferInstanceAs (Decidable (Dashless (cs ++ ['-'])))

theorem commentBody_nil : CommentBody [] :=
  .singleton '-'

theorem CommentBody.append {cs ds : List Char} (h : CommentBody cs) (h' : CommentBody ds) :
    CommentBody (cs ++ ds) := by
  obtain ⟨front, -, last⟩ := List.isChain_append.1 h
  rw [CommentBody, List.append_assoc]
  refine List.isChain_append.2 ⟨front, h', fun c hc d _ => ?_⟩
  have other : c ≠ '-' := by simpa [Text.Comment.isDoubleDash] using last c hc '-' rfl
  simp [Text.Comment.isDoubleDash, other]

theorem Dashless.commentBody {cs : List Char} (h : Dashless cs) {c : Char} (other : c ≠ '-') :
    CommentBody (cs ++ [c]) := by
  rw [CommentBody, List.append_assoc]
  refine List.isChain_append.2 ⟨h, ?_, fun b _ d hd => ?_⟩
  · exact .cons_cons (by simp [Text.Comment.isDoubleDash, other]) (.singleton '-')
  · obtain rfl : c = d := by simpa using hd
    simp [Text.Comment.isDoubleDash, other]

theorem dashless_xml (text : String) : Dashless (Text.Comment.xml text).toList := by
  rw [Text.Comment.xml, Text.toList_onChars]
  exact Text.isChain_breakPairs Text.brokenBySpace_isDoubleDash _

/-- With a space at each end such a text is the body of a comment. -/
theorem commentBody_xml (text : String) :
    CommentBody (" ".toList ++ (Text.Comment.xml text).toList ++ " ".toList) := by
  rw [List.append_assoc]
  exact CommentBody.append (by decide) ((dashless_xml text).commentBody (by decide))

theorem Dashless.not_infix {cs : List Char} (h : Dashless cs) : ¬ ['-', '-'] <:+: cs := by
  intro dashes
  have apart := List.isChain_pair.1 <| List.IsChain.infix h dashes
  exact absurd apart (by decide)

theorem cut_comment_cons {read cs : List Char} {c d : Char}
    (single : Text.Comment.isDoubleDash c d = false) :
    cut (.comment read) (c :: d :: cs) = cut (.comment (c :: read)) (d :: cs) := by
  rw [cut]
  · rintro _ rfl heq
    obtain ⟨rfl, -⟩ := List.cons.inj heq
    cases single
  · rintro _ rfl heq
    obtain ⟨rfl, -⟩ := List.cons.inj heq
    cases single

theorem cut_comment {body : List Char} (h : CommentBody body) (read rest : List Char) :
    cut (.comment read) (body ++ '-' :: '-' :: '>' :: rest) =
      (cut .content rest).map (.comment (read.reverse ++ body) :: ·) := by
  induction body generalizing read with
  | nil => simp [cut]
  | cons c body ih =>
    have behind := ih (List.isChain_cons.1 h).2 (c :: read)
    rw [List.reverse_cons, List.append_assoc, List.singleton_append] at behind
    rw [← behind]
    cases body with
    | nil => exact cut_comment_cons (List.isChain_cons_cons.1 h).1
    | cons d body => exact cut_comment_cons (List.isChain_cons_cons.1 h).1

/-- **Comments.** Such a text between its marks is one comment. -/
theorem cuts_comment {body : List Char} (h : CommentBody body) :
    Cuts ("<!--".toList ++ body ++ "-->".toList) [.comment body] := by
  intro rest
  rw [List.append_assoc, List.append_assoc]
  exact cut_comment h [] rest

/-! ### What is refused -/

/-- No two dashes are neighbours in the comment that is being read, the next character included. -/
def Region.Steady (cs : List Char) : Region → Prop
  | .comment read => Dashless (read.reverse ++ cs.head?.toList)
  | _ => True

theorem steady_comment_nil (cs : List Char) : Region.Steady cs (.comment []) := by
  cases cs with
  | nil => exact .nil
  | cons c cs => exact .singleton c

theorem steady_comment_cons {read cs : List Char} {c : Char}
    (steady : Region.Steady (c :: cs) (.comment read))
    (single : ∀ ds, c = '-' → cs = '-' :: ds → False) :
    Region.Steady cs (.comment (c :: read)) := by
  change Dashless ((c :: read).reverse ++ cs.head?.toList)
  rw [List.reverse_cons]
  refine List.isChain_append.2 ⟨steady, steady_comment_nil cs, fun e he d hd => ?_⟩
  obtain rfl : c = e := by simpa using he
  cases cs with
  | nil => simp at hd
  | cons d' ds =>
    obtain rfl : d' = d := by simpa using hd
    by_contra double
    obtain ⟨rfl, rfl⟩ : c = '-' ∧ d' = '-' := by simpa [Text.Comment.isDoubleDash] using double
    exact single ds rfl rfl

theorem mem_map_cons {found : Option (List Piece)} {pieces : List Piece} {first piece : Piece}
    (read : found.map (first :: ·) = some pieces) (h : piece ∈ pieces) :
    piece = first ∨ ∃ more, found = some more ∧ piece ∈ more := by
  obtain ⟨more, hmore, rfl⟩ := Option.map_eq_some_iff.1 read
  exact (List.mem_cons.1 h).imp_right fun hp => ⟨more, hmore, hp⟩

theorem commentBody_of_mem_cut {region : Region} {cs : List Char} {pieces : List Piece}
    {body : List Char} (steady : region.Steady cs) (read : cut region cs = some pieces)
    (hbody : .comment body ∈ pieces) : CommentBody body := by
  fun_induction cut region cs generalizing pieces with
  | case1 => simp_all
  | case2 cs ih => exact ih (steady_comment_nil cs) read hbody
  | case9 before cs ih =>
    -- The end of a comment, of which the first dash belongs to what is steady.
    rcases mem_map_cons read hbody with heq | ⟨more, hmore, hp⟩
    · obtain rfl := Piece.comment.inj heq
      exact steady
    · exact ih trivial hmore hp
  | case11 before c cs _ single ih => exact ih (steady_comment_cons steady single) read hbody
  | case7 before cs ih =>
    obtain ⟨c, -, found⟩ := Option.bind_eq_some_iff.1 read
    rcases mem_map_cons found hbody with heq | ⟨more, hmore, hp⟩
    · cases heq
    · exact ih trivial hmore hp
  | case6 | case12 | case14 =>
    -- The end of another piece.
    rename_i ih
    rcases mem_map_cons read hbody with heq | ⟨more, hmore, hp⟩
    · cases heq
    · exact ih trivial hmore hp
  | case10 | case15 | case20 => cases read
  | case3 | case4 | case5 | case8 | case13 | case16 | case17 | case18 | case19 =>
    rename_i ih
    exact ih trivial read hbody

/-- **What is refused.** A text with `--` in a comment is not taken apart. -/
theorem not_infix_of_mem_cut {cs : List Char} {pieces : List Piece} {body : List Char}
    (read : cut .content cs = some pieces) (hbody : .comment body ∈ pieces) :
    ¬ ['-', '-'] <:+: body := by
  intro dashes
  have steady : Region.Steady cs .content := trivial
  have dashless : Dashless (body ++ ['-']) := commentBody_of_mem_cut steady read hbody
  exact dashless.not_infix (dashes.trans (List.prefix_append body _).isInfix)

end DesignTokens.Markup

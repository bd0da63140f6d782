import DesignTokens.Proofs.Markup.Pieces
import DesignTokens.Proofs.Text.BlockComments

/-!
# Texts that stay inside their comments

A text for a comment differs from what it was made of by spaces alone (`Spaced`), or for a line
comment by its line breaks. Nothing is left in it that the comment could not hold, so making it
again changes nothing. `lineComments` takes the line comments at the front of a text; `IsLines` says
that a text is such comments, and texts of lines may be put together (`IsLines.append`).
-/

namespace DesignTokens.Text

/-! ### Pairs that are broken -/

/-- One text is another with spaces put in. -/
inductive Spaced : List Char → List Char → Prop
  | nil : Spaced [] []
  | keep (c : Char) {cs ds : List Char} (h : Spaced cs ds) : Spaced (c :: cs) (c :: ds)
  | space {cs ds : List Char} (h : Spaced cs ds) : Spaced cs (' ' :: ds)

theorem spaced_self (cs : List Char) : Spaced cs cs := by
  induction cs with
  | nil => exact .nil
  | cons c cs ih => exact .keep c ih

theorem Spaced.mem {cs ds : List Char} (h : Spaced cs ds) {c : Char} (hc : c ∈ ds) :
    c = ' ' ∨ c ∈ cs := by
  induction h with
  | nil => cases hc
  | keep d _ ih =>
    rcases List.mem_cons.1 hc with rfl | hc
    · exact .inr List.mem_cons_self
    · exact (ih hc).imp_right (List.mem_cons_of_mem _)
  | space _ ih => exact (List.mem_cons.1 hc).elim .inl ih

namespace Comment

section Pairs

variable {forbidden : Char → Char → Bool}

theorem spaced_breakPairs (cs : List Char) : Spaced cs (breakPairs forbidden cs) := by
  fun_induction breakPairs forbidden cs with
  | case1 => exact .nil
  | case2 c => exact spaced_self [c]
  | case3 c d cs _ ih => exact .keep c (.space ih)
  | case4 c d cs _ ih => exact .keep c ih

theorem breakPairs_of_isChain {cs : List Char}
    (h : cs.IsChain fun c d => forbidden c d = false) : breakPairs forbidden cs = cs := by
  fun_induction breakPairs forbidden cs with
  | case1 => rfl
  | case2 c => rfl
  | case3 c d cs pair _ => simp [(List.isChain_cons_cons.1 h).1] at pair
  | case4 c d cs _ ih => rw [ih (List.isChain_cons_cons.1 h).2]

/-- What becomes of a text whose forbidden pairs are broken: spaces are put in, none of the pairs is
left, and nothing more happens a second time. -/
theorem spaced_onChars (text : String) :
    Spaced text.toList (onChars (breakPairs forbidden) text).toList := by
  rw [toList_onChars]
  exact spaced_breakPairs text.toList

theorem not_infix_onChars (blank : BrokenBySpace forbidden) {c d : Char} (pair : forbidden c d)
    (text : String) : ¬ [c, d] <:+: (onChars (breakPairs forbidden) text).toList := by
  rw [toList_onChars]
  intro neighbours
  have broken := isChain_breakPairs blank text.toList
  have apart := List.isChain_pair.1 <| List.IsChain.infix broken neighbours
  simp [pair] at apart

theorem onChars_onChars (blank : BrokenBySpace forbidden) (text : String) :
    onChars (breakPairs forbidden) (onChars (breakPairs forbidden) text) =
      onChars (breakPairs forbidden) text := by
  refine String.toList_injective ?_
  rw [toList_onChars, toList_onChars,
    breakPairs_of_isChain (isChain_breakPairs blank text.toList)]

end Pairs

/-! ### Lines -/

theorem not_isLineBreak_of_mem_line {text : String} {c : Char} (h : c ∈ (line text).toList) :
    isLineBreak c = false := by
  rw [line, toList_onChars] at h
  obtain ⟨d, -, rfl⟩ := List.mem_map.1 h
  split
  · rfl
  · next other => simpa using other

theorem forall₂_line (text : String) :
    List.Forall₂ (fun c d => if isLineBreak c then d = ' ' else d = c)
      text.toList (line text).toList := by
  rw [line, toList_onChars, List.forall₂_map_right_iff, List.forall₂_same]
  intro c _
  split <;> rfl

theorem line_line (text : String) : line (line text) = line text := by
  refine String.toList_injective ?_
  rw [line, toList_onChars]
  refine (List.map_congr_left fun c hc => ?_).trans (List.map_id _)
  simp [not_isLineBreak_of_mem_line hc]

end Comment

/-- Where lines are read: in front of a line, or in a comment, of which is held what was read of it,
the last character first. -/
inductive LineRegion
  | front
  | comment (read : List Char)

/-- The bodies of the line comments that a text begins with, and what is behind these lines. -/
def lineComments : LineRegion → List Char → List (List Char) × List Char
  | .front, '/' :: '/' :: cs => lineComments (.comment []) cs
  | .front, cs => ([], cs)
  | .comment read, c :: cs =>
    if Comment.isLineBreak c then (lineComments .front cs).map (read.reverse :: ·) id
    else lineComments (.comment (c :: read)) cs
  | .comment read, [] => ([read.reverse], [])

example : lineComments .front "// a\n//\n\n// b".toList =
    ([" a".toList, []], "\n// b".toList) := by
  decide

/-- The text is lines of comments with these bodies, whatever stands behind it. -/
def IsLines (cs : List Char) (bodies : List (List Char)) : Prop :=
  ∀ rest, lineComments .front (cs ++ rest) = (lineComments .front rest).map (bodies ++ ·) id

theorem isLines_nil : IsLines [] [] :=
  fun _ => rfl

theorem IsLines.append {cs ds : List Char} {bodies more : List (List Char)} (h : IsLines cs bodies)
    (h' : IsLines ds more) : IsLines (cs ++ ds) (bodies ++ more) := by
  intro rest
  rw [List.append_assoc, h, h']
  simp [Prod.map]

theorem isLines_comment {body : List Char} (h : ∀ c ∈ body, Comment.isLineBreak c = false) :
    IsLines ('/' :: '/' :: body ++ ['\n']) [body] := by
  have inside (read rest : List Char) : lineComments (.comment read) (body ++ '\n' :: rest) =
      (lineComments .front rest).map ((read.reverse ++ body) :: ·) id := by
    induction body generalizing read with
    | nil => simp [lineComments, Comment.isLineBreak]
    | cons c body ih =>
      have first : lineComments (.comment read) (c :: body ++ '\n' :: rest) =
          lineComments (.comment (c :: read)) (body ++ '\n' :: rest) := by
        simp [lineComments, h c List.mem_cons_self]
      rw [first, ih fun d hd => h d (List.mem_cons_of_mem _ hd)]
      simp
  intro rest
  rw [List.append_assoc]
  exact inside [] rest

end DesignTokens.Text

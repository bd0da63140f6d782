import DesignTokens.Proofs.Reference.Rewriting
import DesignTokens.Proofs.Reference.Substitution

/-!
# Single references

A token that was written as one reference, with nothing but blanks around it, is rewritten to what
the format makes of its referent, with those blanks around it (`RefersAlone.exists_padded`); and a
single reference that is rewritten at all has a referent (`refersAlone_of_resolve?`).
-/

namespace DesignTokens.Reference

open Text (isBlank)

/-- The token was written as one reference to `r`. -/
def RefersAlone (dictionary : Dictionary) (t r : Token) : Prop :=
  ∃ raw body, t.expression? = some raw ∧ isSingle raw ∧ placeholders raw = [body] ∧
    referent? dictionary body = some r

/-- The text is `core` with blanks around it. -/
def Padded (text core : List Char) : Prop :=
  ∃ left right : List Char, (∀ c ∈ left, isBlank c) ∧ (∀ c ∈ right, isBlank c) ∧
    text = left ++ core ++ right

/-- A single reference is cut into blanks and its placeholder. -/
theorem blocks_of_padded {left body right : List Char} (hleft : ∀ c ∈ left, isBlank c)
    (hright : ∀ c ∈ right, isBlank c) (plain : Braceless body) :
    blocks (left ++ '\x7b' :: (body ++ '\x7d' :: right)) =
      left.map Piece.char ++ .placeholder body :: right.map Piece.char := by
  have behind : Settled false (right.map Piece.char) := by
    have := (settled_map_char_append (braceless_of_blanks hright) [] false).2 trivial
    rwa [List.append_nil] at this
  have settled :
      Settled false (left.map Piece.char ++ .placeholder body :: right.map Piece.char) :=
    (settled_map_char_append (braceless_of_blanks hleft) _ false).2 ⟨plain, behind⟩
  rw [← blocks_flatMap_chars settled]
  simp [Piece.chars, List.flatMap_map]

/-- **A single reference** is rewritten to what the format makes of its referent, with the blanks
around it. -/
theorem expand?_of_isSingle {dictionary : Dictionary} {raw : String} (single : isSingle raw)
    {body : List Char} (only : placeholders raw = [body]) {r : Token}
    (hr : referent? dictionary body = some r) (format : Token → String) :
    ∃ text, expand? dictionary format raw = some text ∧ Padded text.toList (format r).toList := by
  obtain ⟨body', left, right, only', hleft, hright, htext⟩ := of_isSingle single
  obtain rfl : body = body' := by simpa [only] using only'
  have mem : body ∈ placeholders raw := only ▸ List.mem_singleton_self body
  have cut := blocks_of_padded hleft hright (braceless_of_mem_placeholders mem)
  rw [← htext] at cut
  -- `{}` would be a block of its own, and here the only one has characters in it.
  have plain : r.dottedPath = "" → ¬ ['\x7b', '\x7d'] <:+: raw.toList := fun _ empty => by
    have bare := placeholder_nil_mem_blocks.2 empty
    rw [cut] at bare
    have nonempty := (mem_placeholders.1 mem).1
    simp [nonempty.symm] at bare
  refine ⟨_, expand?_eq_substitute_of_single only hr plain format, left, right, hleft, hright, ?_⟩
  obtain ⟨b, bs, rfl⟩ := List.exists_cons_of_ne_nil (mem_placeholders.1 mem).1
  rw [substitute_eq, cut]
  simp [Piece.scanned, Piece.filled, hr, List.flatMap_map]

theorem RefersAlone.exists_padded {dictionary : Dictionary} {t r : Token}
    (h : RefersAlone dictionary t r) (format : Token → String) :
    ∃ text, resolve? dictionary format t = some text ∧ Padded text.toList (format r).toList := by
  obtain ⟨raw, body, written, single, only, hr⟩ := h
  rw [resolve?, written]
  exact expand?_of_isSingle single only hr format

theorem refersAlone_of_resolve? {dictionary : Dictionary} {format : Token → String} {t : Token}
    (single : t.expression?.any isSingle) {text : String}
    (rewritten : resolve? dictionary format t = some text) : ∃ r, RefersAlone dictionary t r := by
  obtain ⟨raw, written, single⟩ := (Option.any_eq_true _ _).1 single
  rw [resolve?, written, Option.bind_some] at rewritten
  obtain ⟨body, -, -, only, -⟩ := of_isSingle single
  have all := (isSome_expand?_iff.1 (Option.isSome_of_eq_some rewritten)).2
  rw [only, List.forall_mem_singleton] at all
  obtain ⟨r, hr⟩ := Option.isSome_iff_exists.1 all
  exact ⟨r, raw, body, written, single, only, hr⟩

end DesignTokens.Reference

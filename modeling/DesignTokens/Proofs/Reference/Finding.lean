import DesignTokens.Proofs.Reference.Referents

/-!
# Which placeholders a text has

`Reference.Finds` says what the placeholders of a text are without a scan: from left to right, where
one starts it is taken, and the search goes on behind it. Every text has exactly one such list, and
`placeholders` is it (`finds_iff`). A single reference is blanks around its only placeholder and
nothing else (`of_isSingle`).
-/

namespace DesignTokens.Reference

open Text (isBlank dropBlank trim)

/-- A placeholder starts at the front of the text: a pair of braces around characters, at least one,
none of which is a brace. -/
def Opens (cs : List Char) : Prop :=
  ∃ body rest : List Char, body ≠ [] ∧ Braceless body ∧ cs = '\x7b' :: (body ++ '\x7d' :: rest)

/-- The placeholders of a text, found from left to right: one that starts here is taken and the rest
searched behind it, where none starts the search goes on at the next character. -/
inductive Finds : List Char → List (List Char) → Prop
  | nil : Finds [] []
  | skip {c : Char} {cs : List Char} {bodies : List (List Char)} :
      ¬ Opens (c :: cs) → Finds cs bodies → Finds (c :: cs) bodies
  | take {body rest : List Char} {bodies : List (List Char)} :
      body ≠ [] → Braceless body → Finds rest bodies →
        Finds ('\x7b' :: (body ++ '\x7d' :: rest)) (body :: bodies)

theorem not_opens_of_ne {c : Char} (h : c ≠ '\x7b') (cs : List Char) : ¬ Opens (c :: cs) := by
  rintro ⟨body, rest, -, -, heq⟩
  exact h (List.cons.inj heq).1

theorem Finds.unique {cs : List Char} {bodies others : List (List Char)} (h : Finds cs bodies)
    (h' : Finds cs others) : bodies = others := by
  induction h generalizing others with
  | nil =>
    cases h'
    rfl
  | skip closed _ ih =>
    cases h' with
    | skip _ h' => exact ih h'
    | take nonempty plain _ => exact absurd ⟨_, _, nonempty, plain, rfl⟩ closed
  | @take body rest bodies nonempty plain _ ih =>
    generalize htext : '\x7b' :: (body ++ '\x7d' :: rest) = text at h'
    cases h' with
    | nil => cases htext
    | skip closed _ => exact absurd ⟨_, _, nonempty, plain, htext.symm⟩ closed
    | @take body' rest' others _ plain' h' =>
      obtain ⟨rfl, rfl⟩ := block_inj plain plain' (List.cons.inj htext).2
      rw [ih h']

/-! ### The scan finds them -/

/-- Behind a loose brace no other brace closes before one opens. -/
theorem flatMap_chars_ne_of_settled {ps : List Piece} (h : Settled true ps) {body : List Char}
    (plain : Braceless body) (rest : List Char) :
    ps.flatMap Piece.chars ≠ body ++ '\x7d' :: rest := by
  induction ps generalizing body with
  | nil => simp
  | cons p ps ih =>
    intro heq
    obtain c | inner := p
    · rw [List.flatMap_cons, Piece.chars, List.singleton_append] at heq
      unfold Settled at h
      cases body with
      | nil =>
        obtain rfl : c = '\x7d' := (List.cons.inj heq).1
        simp at h
      | cons b body =>
        obtain ⟨⟨open_ne, close_ne⟩, plain_tail⟩ := braceless_cons.1 plain
        obtain ⟨rfl, tails⟩ := List.cons.inj heq
        rw [if_neg open_ne, if_neg close_ne] at h
        exact ih h plain_tail tails
    · rw [List.flatMap_cons, Piece.chars] at heq
      cases body with
      | nil => simp at heq
      | cons b body =>
        obtain ⟨⟨open_ne, -⟩, -⟩ := braceless_cons.1 plain
        exact open_ne (List.cons.inj heq).1.symm

theorem finds_of_settled {ps : List Piece} (h : Settled false ps) :
    Finds (ps.flatMap Piece.chars) (ps.filterMap Piece.body?) := by
  induction ps with
  | nil => exact .nil
  | cons p ps ih =>
    obtain c | body := p
    · have inner : Finds (ps.flatMap Piece.chars) (ps.filterMap Piece.body?) := by
        unfold Settled at h
        split at h
        · exact ih h.close
        · split at h
          · exact ih h.2
          · exact ih h
      refine .skip ?_ inner
      by_cases brace : c = '\x7b'
      · unfold Settled at h
        rw [if_pos brace] at h
        rintro ⟨body, rest, -, plain, heq⟩
        exact flatMap_chars_ne_of_settled h plain rest (List.cons.inj heq).2
      · exact not_opens_of_ne brace _
    · obtain ⟨plain, rest⟩ := h
      cases body with
      | nil =>
        -- `{}` is no placeholder: neither of its characters starts one.
        refine .skip ?_ (.skip (not_opens_of_ne (by decide) _) (ih rest))
        rintro ⟨_ | ⟨b, body⟩, rest, nonempty, plain, heq⟩
        · exact nonempty rfl
        · exact (braceless_cons.1 plain).1.2 (List.cons.inj (List.cons.inj heq).2).1.symm
      | cons b body =>
        rw [List.flatMap_cons, Piece.chars, List.append_assoc]
        exact .take (List.cons_ne_nil b body) plain (ih rest)

/-- **The placeholders of an expression** are those that are found from left to right. -/
theorem finds_iff {raw : String} {bodies : List (List Char)} :
    Finds raw.toList bodies ↔ bodies = placeholders raw := by
  have found : Finds raw.toList (placeholders raw) := by
    have := finds_of_settled (settled_blocks raw.toList)
    rwa [flatMap_chars_blocks, ← placeholders_eq] at this
  exact ⟨fun h => h.unique found, fun h => h ▸ found⟩

/-! ### Single references -/

theorem Finds.braceless_append {front cs : List Char} {bodies : List (List Char)}
    (plain : Braceless front) (h : Finds cs bodies) : Finds (front ++ cs) bodies := by
  induction front with
  | nil => exact h
  | cons c front ih =>
    obtain ⟨⟨open_ne, -⟩, plain⟩ := braceless_cons.1 plain
    exact .skip (not_opens_of_ne open_ne _) (ih plain)

theorem exists_blanks_append_trim (cs : List Char) :
    ∃ left right : List Char, (∀ c ∈ left, isBlank c) ∧ (∀ c ∈ right, isBlank c) ∧
      cs = left ++ trim cs ++ right := by
  obtain ⟨left, hleft, front⟩ := exists_blanks_append_dropBlank cs
  obtain ⟨right, hright, back⟩ := exists_dropBlank_eq_trim_append cs
  exact ⟨left, right, hleft, hright, by rw [List.append_assoc, ← back, front]⟩

/-- The placeholder of a single reference is its only one, and there are blanks around it. -/
theorem of_isSingle {raw : String} (single : isSingle raw) :
    ∃ body left right : List Char, placeholders raw = [body] ∧
      (∀ c ∈ left, isBlank c) ∧ (∀ c ∈ right, isBlank c) ∧
      raw.toList = left ++ '\x7b' :: (body ++ '\x7d' :: right) := by
  obtain ⟨left, right, hleft, hright, htext⟩ := exists_blanks_append_trim raw.toList
  unfold isSingle at single
  split at single
  · next body scanned =>
    have spelled := flatMap_chars_scan (trim raw.toList)
    have mem : body ∈ placeholders (String.ofList (trim raw.toList)) := by
      simp [placeholders, scanned]
    rw [scanned] at spelled
    have text : raw.toList = left ++ '\x7b' :: (body ++ '\x7d' :: right) := by
      rw [htext, ← spelled]
      simp [Piece.chars]
    refine ⟨body, left, right, (finds_iff.1 ?_).symm, hleft, hright, text⟩
    rw [text]
    have rest : Finds right [] := by
      simpa using Finds.nil.braceless_append (braceless_of_blanks hright)
    exact .braceless_append (braceless_of_blanks hleft)
      (.take (mem_placeholders.1 mem).1 (braceless_of_mem_placeholders mem) rest)
  · cases single

end DesignTokens.Reference

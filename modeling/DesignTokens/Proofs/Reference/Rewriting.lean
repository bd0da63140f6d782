import DesignTokens.Proofs.Reference.Finding

/-!
# Rewriting is all or nothing

An expression is rewritten exactly when it has a placeholder and every placeholder of it refers to a
token. Both are said without the scan and the lookup: `Finds` lists the placeholders, and `Refers`
asks for a token among the referents whose path the trimmed placeholder is, with or without
`.value` behind it. In every other case the token's value is emitted, which no format has a part in.
-/

namespace DesignTokens.Reference

open Text (trim)

/-! ### What refers to a token -/

/-- The text of a placeholder, trimmed, is the path of a referent, or that path with `.value` behind
it. -/
def Refers (dictionary : Dictionary) (body : List Char) : Prop :=
  ∃ r ∈ dictionary.referents, ∃ suffix ∈ [[], valueSuffix],
    trim body = r.dottedPath.toList ++ suffix

theorem withoutSuffix?_eq_some_iff {cs shorter : List Char} :
    withoutSuffix? cs = some shorter ↔ cs = shorter ++ valueSuffix := by
  unfold withoutSuffix?
  constructor
  · intro h
    obtain ⟨suffix, front⟩ := Option.ite_none_right_eq_some.1 h
    obtain ⟨start, rfl⟩ := List.isSuffixOf_iff_suffix.1 suffix
    obtain rfl : start = shorter := by simpa using front
    rfl
  · rintro rfl
    have suffix : valueSuffix.isSuffixOf (shorter ++ valueSuffix) :=
      List.isSuffixOf_iff_suffix.2 (List.suffix_append _ _)
    simp [suffix]

theorem isSome_find?_ofList {dictionary : Dictionary} {cs : List Char} :
    (dictionary.find? (String.ofList cs)).isSome ↔
      ∃ r ∈ dictionary.referents, cs = r.dottedPath.toList := by
  simp only [Dictionary.find?, List.find?_isSome, List.mem_reverse, beq_iff_eq]
  refine exists_congr fun r => and_congr_right fun _ => ?_
  rw [eq_comm, ← String.toList_inj, String.toList_ofList]

theorem isSome_referent?_iff {dictionary : Dictionary} {body : List Char} :
    (referent? dictionary body).isSome ↔ Refers dictionary body := by
  have shorter : ((withoutSuffix? (trim body)).bind fun cs =>
      dictionary.find? (String.ofList cs)).isSome ↔
      ∃ r ∈ dictionary.referents, trim body = r.dottedPath.toList ++ valueSuffix := by
    rw [Option.isSome_bind, Option.any_eq_true]
    constructor
    · rintro ⟨cs, cut, found⟩
      obtain ⟨r, hr, rfl⟩ := isSome_find?_ofList.1 found
      exact ⟨r, hr, withoutSuffix?_eq_some_iff.1 cut⟩
    · rintro ⟨r, hr, text⟩
      exact ⟨_, withoutSuffix?_eq_some_iff.2 text, isSome_find?_ofList.2 ⟨r, hr, rfl⟩⟩
  rw [referent?, Option.isSome_or, Bool.or_eq_true, isSome_find?_ofList, shorter]
  simp [Refers, exists_or, and_or_left]

/-! ### What is rewritten -/

/-- The token was written as a text with placeholders, each of which refers to a token. -/
def Rewritable (dictionary : Dictionary) (t : Token) : Prop :=
  ∃ (raw : String) (bodies : List (List Char)), t.raw = some (.string raw) ∧
    Finds raw.toList bodies ∧ bodies ≠ [] ∧ ∀ body ∈ bodies, Refers dictionary body

theorem expression?_eq_some_iff {t : Token} {raw : String} :
    t.expression? = some raw ↔ t.raw = some (.string raw) := by
  rw [Token.expression?, Option.bind_eq_some_iff]
  constructor
  · rintro ⟨json, hraw, text⟩
    cases json <;> simp_all [Json.asString?]
  · intro hraw
    exact ⟨_, hraw, rfl⟩

/-- An expansion gives no text for an expression with a placeholder too few, or with none. -/
theorem isSome_expand?_iff {dictionary : Dictionary} {format : Token → String} {raw : String} :
    (expand? dictionary format raw).isSome ↔
      placeholders raw ≠ [] ∧ ∀ body ∈ placeholders raw, (referent? dictionary body).isSome := by
  constructor
  · intro h
    have counted : ¬ (referents dictionary raw = [] ∨
        (referents dictionary raw).length < (placeholders raw).length) := by
      intro few
      simp [expand?, few] at h
    obtain ⟨found, enough⟩ := not_or.1 counted
    refine ⟨fun none => found (by simp [referents, none]), ?_⟩
    have all : (referents dictionary raw).length = (placeholders raw).length :=
      (List.length_filterMap_le _ _).antisymm (Nat.not_lt.1 enough)
    rwa [referents, List.length_filterMap_eq_countP, List.countP_eq_length] at all
  · rintro ⟨nonempty, resolved⟩
    rw [expand?_of_resolved resolved, if_neg nonempty]
    rfl

theorem isSome_resolve?_iff {dictionary : Dictionary} {format : Token → String} {t : Token} :
    (resolve? dictionary format t).isSome ↔ Rewritable dictionary t := by
  rw [resolve?, Option.isSome_bind, Option.any_eq_true]
  constructor
  · rintro ⟨raw, written, expands⟩
    obtain ⟨nonempty, resolved⟩ := isSome_expand?_iff.1 expands
    exact ⟨raw, placeholders raw, expression?_eq_some_iff.1 written, finds_iff.2 rfl, nonempty,
      fun body hbody => isSome_referent?_iff.1 (resolved body hbody)⟩
  · rintro ⟨raw, bodies, written, found, nonempty, refer⟩
    obtain rfl := finds_iff.1 found
    exact ⟨raw, expression?_eq_some_iff.2 written,
      isSome_expand?_iff.2 ⟨nonempty, fun body hbody => isSome_referent?_iff.2 (refer body hbody)⟩⟩

/-- **Rewriting is all or nothing.** An expression is rewritten exactly when it is a text with at
least one placeholder and each of them refers to a token; then, with references on, that rewritten
text is emitted. Otherwise, and always with references off, it is the value's text, whatever the
format. -/
theorem rewrites_all_or_nothing (dictionary : Dictionary) (t : Token) :
    (∀ format, (∃ text, resolve? dictionary format t = some text) ↔ Rewritable dictionary t) ∧
    (∀ format text, resolve? dictionary format t = some text →
      emit dictionary true format t = text) ∧
    (∀ on, on = false ∨ ¬ Rewritable dictionary t →
      ∀ format, emit dictionary on format t = t.shownValue) := by
  refine ⟨fun format => ?_, fun format text rewritten => ?_, fun on other format => ?_⟩
  · rw [← Option.isSome_iff_exists]
    exact isSome_resolve?_iff
  · rw [emit, if_pos rfl, rewritten, Option.getD_some]
  · rcases other with off | not_all
    · rw [emit, off, if_neg Bool.false_ne_true]
    · have none : resolve? dictionary format t = none := by
        rw [← Option.not_isSome_iff_eq_none, isSome_resolve?_iff]
        exact not_all
      rw [emit, none, Option.getD_none, ite_self]

/-- One placeholder of two refers to no token, so that neither is replaced. -/
example :
    let dictionary := Dictionary.ofTokens [.ofValue ["color", "red"] "red" (.string "#f00")]
    let glow := (Token.ofValue ["glow"] "glow" (.string "0 #f00 #654")).writtenAs
      "0 \x7bcolor.red\x7d \x7bcolor.missing\x7d"
    emit dictionary true Token.name glow = "0 #f00 #654" := by
  decide

end DesignTokens.Reference

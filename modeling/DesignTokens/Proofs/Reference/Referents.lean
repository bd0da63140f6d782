import DesignTokens.Proofs.Reference.Replacement

/-!
# The tokens that an expression refers to

A placeholder spells the path of its own referent (`spells_of_referent?`), and a referent is the
token that its own path stands for (`referent?_eq_some`), so that two referents of one path are the
same token. Where every placeholder has a referent, an expansion is the run of replacements for all
of them, unless there is none (`expand?_of_resolved`).
-/

namespace DesignTokens.Reference

open Text (isBlank dropBlank trim)

theorem find?_dottedPath {dictionary : Dictionary} {key : String} {t : Token}
    (h : dictionary.find? key = some t) : t.dottedPath = key := by
  simpa using List.find?_some h

/-- A referent is the token that its own path stands for, and its placeholder spells that path. -/
theorem referent?_eq_some {dictionary : Dictionary} {body : List Char} {t : Token}
    (h : referent? dictionary body = some t) :
    dictionary.find? t.dottedPath = some t ∧
      ∃ suffix ∈ [[], valueSuffix], trim body = t.dottedPath.toList ++ suffix := by
  simp only [referent?, Option.or_eq_some_iff, Option.bind_eq_some_iff] at h
  rcases h with h | ⟨-, shorter, hs, h⟩
  · have key := find?_dottedPath h
    exact ⟨key ▸ h, [], by simp, by simp [key]⟩
  · have key := find?_dottedPath h
    refine ⟨key ▸ h, valueSuffix, by simp, ?_⟩
    unfold withoutSuffix? at hs
    split at hs
    · next suffix =>
      obtain ⟨front, hf⟩ := List.isSuffixOf_iff_suffix.1 suffix
      rw [← hf] at hs ⊢
      simp at hs
      simp [key, hs]
    · simp at hs

theorem exists_dropBlank_eq_trim_append (body : List Char) :
    ∃ after : List Char, (∀ c ∈ after, isBlank c) ∧ dropBlank body = trim body ++ after := by
  obtain ⟨front, blank, h⟩ := exists_blanks_append_dropBlank (dropBlank body).reverse
  refine ⟨front.reverse, by simpa using blank, ?_⟩
  rw [trim, ← List.reverse_append, h, List.reverse_reverse]

theorem spells_of_referent? {dictionary : Dictionary} {body : List Char} {t : Token}
    (h : referent? dictionary body = some t) : spells t.dottedPath.toList body := by
  obtain ⟨-, suffix, hs, key⟩ := referent?_eq_some h
  obtain ⟨after, blank, hafter⟩ := exists_dropBlank_eq_trim_append body
  exact spells_iff.2 ⟨suffix, hs, after, blank, by rw [hafter, key]⟩

theorem mem_referents {dictionary : Dictionary} {raw : String} {t : Token} :
    t ∈ referents dictionary raw ↔
      ∃ body ∈ placeholders raw, referent? dictionary body = some t :=
  List.mem_filterMap

theorem braceless_of_mem_referents {dictionary : Dictionary} {raw : String} {t : Token}
    (h : t ∈ referents dictionary raw) : Braceless t.dottedPath.toList := by
  obtain ⟨body, hbody, ht⟩ := mem_referents.1 h
  obtain ⟨-, suffix, -, key⟩ := referent?_eq_some ht
  have sub : trim body ⊆ body := by
    intro c hc
    obtain ⟨after, -, hafter⟩ := exists_dropBlank_eq_trim_append body
    exact (List.dropWhile_suffix _).subset (hafter ▸ List.mem_append_left _ hc)
  have := (braceless_of_mem_placeholders hbody).of_subset sub
  rw [key, braceless_append] at this
  exact this.1

theorem eq_of_dottedPath_eq {dictionary : Dictionary} {raw : String} {s t : Token}
    (hs : s ∈ referents dictionary raw) (ht : t ∈ referents dictionary raw)
    (h : s.dottedPath = t.dottedPath) : s = t := by
  obtain ⟨_, -, hs⟩ := mem_referents.1 hs
  obtain ⟨_, -, ht⟩ := mem_referents.1 ht
  have := (referent?_eq_some hs).1
  rw [h, (referent?_eq_some ht).1] at this
  exact (Option.some.inj this).symm

theorem length_referents {dictionary : Dictionary} {raw : String}
    (resolved : ∀ body ∈ placeholders raw, (referent? dictionary body).isSome) :
    (referents dictionary raw).length = (placeholders raw).length := by
  rw [referents, List.length_filterMap_eq_countP, List.countP_eq_length]
  exact resolved

/-- Where all placeholders have a referent, the expansion is the run of the replacements. -/
theorem expand?_of_resolved {dictionary : Dictionary} {raw : String}
    (resolved : ∀ body ∈ placeholders raw, (referent? dictionary body).isSome)
    (format : Token → String) :
    expand? dictionary format raw =
      if placeholders raw = [] then none
      else some (String.ofList ((referents dictionary raw).foldl
        (fun text t => replace text t (format t)) raw.toList)) := by
  have length := length_referents resolved
  unfold expand?
  by_cases h : placeholders raw = []
  · have : referents dictionary raw = [] := by simpa [h] using length
    simp [h, this]
  · have : referents dictionary raw ≠ [] := by
      intro h'
      rw [h'] at length
      exact h (List.eq_nil_of_length_eq_zero length.symm)
    simp [h, this, length]

end DesignTokens.Reference

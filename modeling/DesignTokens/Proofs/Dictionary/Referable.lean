import DesignTokens.Proofs.Dictionary.Changes

/-!
# Paths that stay referable

A filter leaves the index of a dictionary alone, so that a file with few tokens can refer to all the
others. Transforms make the index from the tokens that are left, and with it goes what a filter
before them took away (`filter_before_transforms_loses`). So a run leaves those dotted paths
referable that have a token which the filters before the last transforms keep (`referable_iff`);
these are all paths where the filters come last.
-/

namespace DesignTokens.Dictionary

/-- The dotted paths of the tokens, and no others, can be referred to. -/
def RefersExactly (d : Dictionary) (tokens : List Token) : Prop :=
  ∀ key, (d.find? key).isSome ↔ key ∈ tokens.map Token.dottedPath

/-- A dotted path can be referred to if a token that has it was left when the index was made. -/
theorem isSome_find?_run {d : Dictionary} (own : d.referents = d.tokens) (changes : List Change)
    (key : String) :
    ((d.run changes).find? key).isSome ↔
      ∃ t ∈ d.tokens, t.dottedPath = key ∧
        (Change.untilIndexed changes).all fun c => c.keeps t := by
  rw [isSome_find?_iff, referents_run own, tokens_run]
  constructor
  · rintro ⟨_, left, path⟩
    obtain ⟨t, ht, rfl⟩ := List.mem_map.1 left
    obtain ⟨listed, kept⟩ := List.mem_filter.1 ht
    exact ⟨t, listed, by rwa [Transform.dottedPath_applyAllTo] at path, kept⟩
  · rintro ⟨t, listed, path, kept⟩
    exact ⟨_, List.mem_map_of_mem (List.mem_filter.2 ⟨listed, kept⟩),
      by rwa [Transform.dottedPath_applyAllTo]⟩

theorem refersExactly_iff {d : Dictionary} (own : d.referents = d.tokens)
    (changes : List Change) :
    (d.run changes).RefersExactly d.tokens ↔
      ∀ t ∈ d.tokens, ∃ u ∈ d.tokens, u.dottedPath = t.dottedPath ∧
        (Change.untilIndexed changes).all fun c => c.keeps u := by
  constructor
  · intro exact t ht
    exact (isSome_find?_run own changes _).1 ((exact _).2 (List.mem_map_of_mem ht))
  · intro kept key
    rw [isSome_find?_run own, List.mem_map]
    constructor
    · rintro ⟨t, ht, path, -⟩
      exact ⟨t, ht, path⟩
    · rintro ⟨t, ht, rfl⟩
      exact kept t ht

/-- Filters behind the last transforms are none of those that the index was made after. -/
theorem Change.untilIndexed_append_filters (changes : List Change) (selections : List Selection) :
    untilIndexed (changes ++ selections.map .filter) = untilIndexed changes := by
  have filters : ∀ c ∈ (selections.map Change.filter).reverse, !c.reindexes := by
    simp [reindexes]
  rw [untilIndexed, List.rdropWhile, List.reverse_append, List.dropWhile_append_of_pos filters]
  rfl

theorem Change.keeps_of_mem_untilIndexed {transforms : List (List Transform)} {c : Change}
    (h : c ∈ untilIndexed (transforms.map .transform)) (t : Token) : c.keeps t := by
  obtain ⟨list, -, rfl⟩ := List.mem_map.1 ((List.rdropWhile_prefix _ _).subset h)
  rfl

/-- **What filtering costs.** After any run of changes of an export, a dotted path can be referred
to exactly if one of its tokens passes all filters before the last change that made the index. So
all paths of the export can still be referred to, and no others, exactly if each has such a token;
which is so where all transforms come first. -/
theorem referable_iff {source : String} {parsed : Dictionary} (read : ofExport source = .ok parsed)
    (changes : List Change) :
    (∀ key, ((parsed.run changes).find? key).isSome ↔
      ∃ t ∈ parsed.tokens, t.dottedPath = key ∧
        (Change.untilIndexed changes).all fun c => c.keeps t) ∧
    ((parsed.run changes).RefersExactly parsed.tokens ↔
      ∀ t ∈ parsed.tokens, ∃ u ∈ parsed.tokens, u.dottedPath = t.dottedPath ∧
        (Change.untilIndexed changes).all fun c => c.keeps u) ∧
    ∀ (transforms : List (List Transform)) (selections : List Selection),
      changes = transforms.map .transform ++ selections.map .filter →
        (parsed.run changes).RefersExactly parsed.tokens := by
  have own := referents_of_ofExport read
  refine ⟨isSome_find?_run own changes, refersExactly_iff own changes, ?_⟩
  rintro transforms selections rfl
  rw [refersExactly_iff own, Change.untilIndexed_append_filters]
  intro t ht
  exact ⟨t, ht, rfl, List.all_eq_true.2 fun c hc => Change.keeps_of_mem_untilIndexed hc t⟩

theorem referable_iff_palette :
    ofExport paletteText = .ok palette ∧
      (palette.run [.transform [.hex8Android], .filter .colors]).RefersExactly palette.tokens ∧
      ((palette.run [.filter .all, .transform [.hex6], .filter .colors, .transform []]).find?
        "size.m").isSome := by
  obtain ⟨-, -, ordered⟩ := referable_iff ofExport_paletteText
    [.transform [.hex8Android], .filter .colors]
  obtain ⟨found, -⟩ := referable_iff ofExport_paletteText
    [.filter .all, .transform [.hex6], .filter .colors, .transform []]
  refine ⟨ofExport_paletteText, ordered [[.hex8Android]] [.colors] rfl, (found _).2 ?_⟩
  decide +kernel

/-- Filtered after the transforms, the palette can still refer to its size; filtered before them, it
cannot. -/
theorem filter_before_transforms_loses :
    ofExport paletteText = .ok palette ∧ "size.m" ∈ palette.tokens.map Token.dottedPath ∧
      ((palette.run [.transform [.hex6], .filter .colors]).find? "size.m").isSome ∧
      ((palette.run [.filter .colors, .transform [.hex6]]).find? "size.m").isNone ∧
      ¬ ∀ changes : List Change, (∀ c ∈ changes, c ≠ .rebuild) →
        (palette.run changes).RefersExactly palette.tokens := by
  have listed : "size.m" ∈ palette.tokens.map Token.dottedPath := by decide +kernel
  have lost : ((palette.run [.filter .colors, .transform [.hex6]]).find? "size.m").isNone := by
    decide +kernel
  refine ⟨ofExport_paletteText, listed, by decide +kernel, lost, fun always => ?_⟩
  have found := (always [.filter .colors, .transform [.hex6]] (by simp) "size.m").2 listed
  rw [Option.isNone_iff_eq_none.1 lost] at found
  exact absurd found (by simp)

end DesignTokens.Dictionary

import DesignTokens.Mode.Groups
import DesignTokens.Proofs.SortedAssoc
import Mathlib.Data.List.Dedup
import Mathlib.Data.List.Induction
import Mathlib.Data.String.Basic

/-!
# What grouping finds

A token fills one side, light or dark, of the pair of its canonical path; the tokens of a list that
fill one side are a `slot`. Adding a token replaces that side of that pair and nothing else
(`side_putVariant`, `get?_add`), so that a side of a group is the last token of its slot
(`bind_side_get?_ofTokens`). A pair is known by its two sides, and groups by their pairs.
-/

namespace DesignTokens

/-! ### Canonical paths -/

/-- Only a path with a segment before the marker loses the marker. -/
theorem Convention.unmark_ne_nil (convention : Convention) {path : List String}
    (named : path ≠ []) : convention.unmark path ≠ [] := by
  unfold unmark
  split
  · next i place =>
    have bound : i < path.length ∧ 2 ≤ path.length := by
      cases convention <;>
        simp only [markerPlace?, place?, Option.filter_eq_some_iff, Option.ite_none_right_eq_some,
          Option.some.injEq] at place <;> omega
    intro erased
    have length := congrArg List.length erased
    rw [List.length_eraseIdx_of_lt bound.1, List.length_nil] at length
    omega
  · exact named

theorem Token.canonicalPath_of_not_isDark {convention : Convention} {t : Token}
    (light : t.isDark convention = false) : t.canonicalPath convention = t.path := by
  have unmarked : convention.markerPlace? t.path = none := by
    simpa [isDark, Convention.isMarked] using light
  rw [canonicalPath, Convention.unmark, unmarked]

/-! ### The sides of a pair -/

namespace Pair

/-- The dark variant or the light one. -/
def side (isDark : Bool) (p : Pair) : Option Token :=
  if isDark then p.dark? else p.light?

theorem option_ext {p q : Option Pair}
    (h : ∀ isDark, p.bind (side isDark) = q.bind (side isDark)) : p = q := by
  have light := h false
  have dark := h true
  rcases p with _ | _ | _ | _ <;> rcases q with _ | _ | _ | _ <;>
    simp_all [side, light?, dark?]

/-- The light variant and the dark one, as far as they are there. -/
def variants (p : Pair) : List Token :=
  (p.side false).toList ++ (p.side true).toList

@[simp] theorem variants_light (t : Token) : (light t).variants = [t] :=
  rfl

@[simp] theorem variants_dark (t : Token) : (dark t).variants = [t] :=
  rfl

@[simp] theorem variants_both (l d : Token) : (both l d).variants = [l, d] :=
  rfl

theorem mem_variants {p : Pair} {t : Token} :
    t ∈ p.variants ↔ ∃ isDark, p.side isDark = some t := by
  simp [variants]

theorem preferLight_mem_variants (p : Pair) : p.preferLight ∈ p.variants := by
  cases p <;> simp [preferLight]

theorem preferDark_mem_variants (p : Pair) : p.preferDark ∈ p.variants := by
  cases p <;> simp [preferDark]

theorem isSome_iff_exists_side {p : Option Pair} :
    p.isSome ↔ ∃ isDark, (p.bind (side isDark)).isSome := by
  rcases p with _ | _ | _ | _ <;> simp [side, light?, dark?]

theorem side_putVariant (convention : Convention) (t : Token) (old : Option Pair) (isDark : Bool) :
    (putVariant convention t old).side isDark =
      if t.isDark convention = isDark then some t else old.bind (side isDark) := by
  cases isDark <;> cases h : t.isDark convention <;>
    rcases old with _ | _ | _ | _ <;>
      simp [putVariant, putLight, putDark, side, light?, dark?, h]

end Pair

/-- The tokens of a list that fill one side of a canonical path. -/
def Token.slot (convention : Convention) (canonical : List String) (isDark : Bool)
    (tokens : List Token) : List Token :=
  tokens.filter fun t => t.canonicalPath convention = canonical ∧ t.isDark convention = isDark

theorem Token.mem_slot {convention : Convention} {canonical : List String} {isDark : Bool}
    {tokens : List Token} {t : Token} :
    t ∈ Token.slot convention canonical isDark tokens ↔
      t ∈ tokens ∧ t.canonicalPath convention = canonical ∧ t.isDark convention = isDark := by
  simp [slot]

theorem Token.slot_append_singleton (convention : Convention) (canonical : List String)
    (isDark : Bool) (tokens : List Token) (t : Token) :
    Token.slot convention canonical isDark (tokens ++ [t]) =
      Token.slot convention canonical isDark tokens ++
        if t.canonicalPath convention = canonical ∧ t.isDark convention = isDark then [t]
        else [] := by
  rw [slot, List.filter_append, ← slot]
  split
  · next fills => simp [fills]
  · next misses => simp [misses]

/-- Neighbours of different slots may change places. -/
theorem Token.slot_swap {convention : Convention} {t u : Token}
    (differ : t.canonicalPath convention ≠ u.canonicalPath convention ∨
      t.isDark convention ≠ u.isDark convention)
    (before after : List Token) (canonical : List String) (isDark : Bool) :
    Token.slot convention canonical isDark (before ++ t :: u :: after) =
      Token.slot convention canonical isDark (before ++ u :: t :: after) := by
  unfold slot
  rw [List.filter_append, List.filter_append]
  congr 1
  by_cases ht : t.canonicalPath convention = canonical ∧ t.isDark convention = isDark
  · have hu : ¬ (u.canonicalPath convention = canonical ∧ u.isDark convention = isDark) := by
      rintro ⟨hc, hd⟩
      rcases differ with differ | differ
      · exact differ (ht.1.trans hc.symm)
      · exact differ (ht.2.trans hd.symm)
    simp [ht, hu]
  · simp [List.filter_cons, ht]

namespace Groups

open SortedAssoc (Increasing)

variable {convention : Convention}

/-! ### One more token -/

theorem ofTokens_append_singleton (tokens : List Token) (t : Token) :
    ofTokens convention (tokens ++ [t]) = (ofTokens convention tokens).add convention t :=
  List.foldl_concat ..

theorem increasing_ofTokens (tokens : List Token) : Increasing (ofTokens convention tokens) := by
  induction tokens using List.reverseRecOn with
  | nil => exact .nil
  | append_singleton tokens t ih =>
    rw [ofTokens_append_singleton]
    exact ih.upsert _ _

theorem get?_add {groups : Groups} (h : Increasing groups) (t : Token) (canonical : List String) :
    (groups.add convention t).get? canonical =
      if canonical = t.canonicalPath convention then
        some (Pair.putVariant convention t (groups.get? canonical))
      else groups.get? canonical := by
  refine (h.find?_upsert _ canonical _).trans ?_
  split
  · next heq => rw [heq, get?]
  · rfl

/-- One more token fills its own side of its own canonical path. -/
theorem bind_side_get?_add {groups : Groups} (h : Increasing groups) (t : Token)
    (canonical : List String) (isDark : Bool) :
    ((groups.add convention t).get? canonical).bind (Pair.side isDark) =
      if t.canonicalPath convention = canonical ∧ t.isDark convention = isDark then some t
      else (groups.get? canonical).bind (Pair.side isDark) := by
  rw [get?_add h]
  by_cases hc : t.canonicalPath convention = canonical
  · rw [if_pos hc.symm, Option.bind_some, Pair.side_putVariant]
    simp [hc]
  · rw [if_neg (Ne.symm hc), if_neg fun both => hc both.1]

/-! ### All tokens -/

/-- A side of a group is the last token of its slot. -/
theorem bind_side_get?_ofTokens (tokens : List Token) (canonical : List String) (isDark : Bool) :
    ((ofTokens convention tokens).get? canonical).bind (Pair.side isDark) =
      (Token.slot convention canonical isDark tokens).getLast? := by
  induction tokens using List.reverseRecOn with
  | nil => rfl
  | append_singleton tokens t ih =>
    rw [ofTokens_append_singleton, bind_side_get?_add (increasing_ofTokens tokens), ih,
      Token.slot_append_singleton]
    split
    · simp
    · simp

/-- A group is there for the canonical path of each token, and for no other path. -/
theorem isSome_get?_ofTokens (tokens : List Token) (canonical : List String) :
    ((ofTokens convention tokens).get? canonical).isSome ↔
      ∃ t ∈ tokens, t.canonicalPath convention = canonical := by
  rw [Pair.isSome_iff_exists_side]
  simp only [bind_side_get?_ofTokens, List.getLast?_isSome]
  constructor
  · rintro ⟨isDark, filled⟩
    obtain ⟨t, ht⟩ := List.exists_mem_of_ne_nil _ filled
    obtain ⟨hmem, hc, -⟩ := Token.mem_slot.1 ht
    exact ⟨t, hmem, hc⟩
  · rintro ⟨t, hmem, hc⟩
    exact ⟨t.isDark convention, List.ne_nil_of_mem (Token.mem_slot.2 ⟨hmem, hc, rfl⟩)⟩

theorem of_side {tokens : List Token} {canonical : List String} {pair : Pair} {isDark : Bool}
    {t : Token} (found : (ofTokens convention tokens).get? canonical = some pair)
    (ht : pair.side isDark = some t) :
    t ∈ tokens ∧ t.canonicalPath convention = canonical ∧ t.isDark convention = isDark := by
  have last := @bind_side_get?_ofTokens convention tokens canonical isDark
  rw [found, Option.bind_some, ht] at last
  exact Token.mem_slot.1 (List.mem_of_getLast? last.symm)

theorem of_mem_variants {tokens : List Token} {canonical : List String} {pair : Pair} {t : Token}
    (found : (ofTokens convention tokens).get? canonical = some pair) (ht : t ∈ pair.variants) :
    t ∈ tokens ∧ t.canonicalPath convention = canonical := by
  obtain ⟨isDark, hside⟩ := Pair.mem_variants.1 ht
  obtain ⟨hmem, path, -⟩ := of_side found hside
  exact ⟨hmem, path⟩

/-- There is one group for each canonical path. -/
theorem length_ofTokens (tokens : List Token) :
    (ofTokens convention tokens).length =
      (tokens.map (Token.canonicalPath convention)).dedup.length := by
  have perm : List.Perm ((ofTokens convention tokens).map Prod.fst)
      (tokens.map (Token.canonicalPath convention)).dedup := by
    refine (List.perm_ext_iff_of_nodup (increasing_ofTokens tokens).nodup
      (List.nodup_dedup _)).2 fun canonical => ?_
    rw [← SortedAssoc.isSome_find?_iff, List.mem_dedup, List.mem_map]
    exact isSome_get?_ofTokens tokens canonical
  simpa using perm.length_eq

/-- Tokens of different slots may change places. -/
theorem ofTokens_eq_of_slots {tokens others : List Token}
    (same : ∀ canonical isDark, Token.slot convention canonical isDark others =
      Token.slot convention canonical isDark tokens) :
    ofTokens convention others = ofTokens convention tokens := by
  refine (increasing_ofTokens others).ext (increasing_ofTokens tokens) fun canonical => ?_
  refine Pair.option_ext fun isDark => ?_
  change ((ofTokens convention others).get? canonical).bind _ =
    ((ofTokens convention tokens).get? canonical).bind _
  rw [bind_side_get?_ofTokens, bind_side_get?_ofTokens, same]

/-- **Grouping.** A canonical path has a group exactly when a token has that path; its sides are the
last light token and the last dark token of the path; there are as many groups as canonical paths,
and they come in increasing order of the paths. So only the order within a slot matters. -/
theorem ofTokens_spec (convention : Convention) (tokens : List Token) :
    (∀ canonical,
      (((ofTokens convention tokens).get? canonical).isSome ↔
        ∃ t ∈ tokens, t.canonicalPath convention = canonical) ∧
      ((ofTokens convention tokens).get? canonical).bind Pair.light? =
        (tokens.filter fun t =>
          t.canonicalPath convention = canonical ∧ t.isDark convention = false).getLast? ∧
      ((ofTokens convention tokens).get? canonical).bind Pair.dark? =
        (tokens.filter fun t =>
          t.canonicalPath convention = canonical ∧ t.isDark convention = true).getLast?) ∧
    (ofTokens convention tokens).length =
      (tokens.map (Token.canonicalPath convention)).dedup.length ∧
    ((ofTokens convention tokens).map Prod.fst).Pairwise (· < ·) ∧
    ∀ others : List Token,
      (∀ canonical isDark, Token.slot convention canonical isDark others =
        Token.slot convention canonical isDark tokens) →
      ofTokens convention others = ofTokens convention tokens := by
  refine ⟨fun canonical => ⟨isSome_get?_ofTokens tokens canonical, ?_, ?_⟩,
    length_ofTokens tokens, increasing_ofTokens tokens, fun others => ofTokens_eq_of_slots⟩
  · exact bind_side_get?_ofTokens tokens canonical false
  · exact bind_side_get?_ofTokens tokens canonical true

/-- A light token and its dark variant make one group, in either order. -/
theorem ofTokens_spec_swap :
    (∀ canonical isDark,
      Token.slot .secondSegment canonical isDark
          [.ofValue ["color", "dark", "red"] "dark-red" .null,
            .ofValue ["color", "red"] "red" .null] =
        Token.slot .secondSegment canonical isDark
          [.ofValue ["color", "red"] "red" .null,
            .ofValue ["color", "dark", "red"] "dark-red" .null]) ∧
    ofTokens .secondSegment
        [.ofValue ["color", "dark", "red"] "dark-red" .null,
          .ofValue ["color", "red"] "red" .null] =
      ofTokens .secondSegment
        [.ofValue ["color", "red"] "red" .null,
          .ofValue ["color", "dark", "red"] "dark-red" .null] := by
  have swapped := @Token.slot_swap .secondSegment
    (.ofValue ["color", "dark", "red"] "dark-red" .null) (.ofValue ["color", "red"] "red" .null)
    (.inr (by decide)) [] []
  exact ⟨swapped, (ofTokens_spec .secondSegment _).2.2.2 _ swapped⟩

end Groups
end DesignTokens

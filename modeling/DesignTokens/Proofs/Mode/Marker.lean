import DesignTokens.Proofs.Mode.Grouping
import Mathlib.Data.List.InsertIdx

/-!
# Paths with and without the marker

Taking the marker out of a path loses nothing else. Where the marker stood is known from the number
of segments alone (`Convention.place?_congr`), so that it can be put back
(`Convention.insertIdx_unmark`), and a canonical path with one side comes from one path only
(`Convention.eq_of_unmark_eq`). In the other direction `Convention.mark` makes the path of the dark
variant from that of the light one; the two fill the two sides of one group
(`Groups.get?_of_mark`).
-/

namespace DesignTokens

namespace Convention

variable {convention : Convention} {path other : List String} {i : Nat}

/-! ### Where a marker stands -/

/-- A marker has a segment behind it. -/
theorem succ_lt_of_place? (place : convention.place? path = some i) : i + 1 < path.length := by
  cases convention <;>
    simp only [place?, Option.ite_none_right_eq_some, Option.some.injEq] at place <;> omega

/-- The place of a marker depends on the number of segments alone. -/
theorem place?_congr (same : path.length = other.length) :
    convention.place? path = convention.place? other := by
  cases convention <;> simp only [place?, same]

theorem markerPlace?_eq_some_iff :
    convention.markerPlace? path = some i ↔
      convention.place? path = some i ∧ path[i]? = some marker := by
  simp [markerPlace?, Option.filter_eq_some_iff]

theorem isMarked_of_markerPlace? (place : convention.markerPlace? path = some i) :
    convention.isMarked path = true := by
  rw [isMarked, place, Option.isSome_some]

theorem markerPlace?_eq_none (unmarked : convention.isMarked path = false) :
    convention.markerPlace? path = none := by
  simpa [isMarked] using unmarked

/-! ### Taking the marker out -/

theorem unmark_of_markerPlace? (place : convention.markerPlace? path = some i) :
    convention.unmark path = path.eraseIdx i := by
  rw [unmark, place]

theorem unmark_of_not_isMarked (unmarked : convention.isMarked path = false) :
    convention.unmark path = path := by
  rw [unmark, markerPlace?_eq_none unmarked]

theorem length_unmark_add_one (place : convention.markerPlace? path = some i) :
    (convention.unmark path).length + 1 = path.length := by
  have bound := succ_lt_of_place? (markerPlace?_eq_some_iff.1 place).1
  rw [unmark_of_markerPlace? place, List.length_eraseIdx_of_lt (by omega)]
  omega

theorem getLast?_unmark (place : convention.markerPlace? path = some i) :
    (convention.unmark path).getLast? = path.getLast? := by
  have bound := succ_lt_of_place? (markerPlace?_eq_some_iff.1 place).1
  have length := length_unmark_add_one place
  rw [List.getLast?_eq_getElem?, List.getLast?_eq_getElem?, unmark_of_markerPlace? place,
    List.getElem?_eraseIdx_of_ge, ← unmark_of_markerPlace? place]
  · congr 1
    omega
  · rw [← unmark_of_markerPlace? place]
    omega

theorem insertIdx_unmark (place : convention.markerPlace? path = some i) :
    (convention.unmark path).insertIdx i marker = path := by
  obtain ⟨hi, here⟩ := List.getElem?_eq_some_iff.1 (markerPlace?_eq_some_iff.1 place).2
  rw [unmark_of_markerPlace? place, ← here]
  exact List.insertIdx_eraseIdx_getElem hi

theorem unmark_ne_iff : convention.unmark path ≠ path ↔ convention.isMarked path = true := by
  refine ⟨fun changed => ?_, fun marked => ?_⟩
  · by_contra unmarked
    exact changed (unmark_of_not_isMarked (Bool.eq_false_of_not_eq_true unmarked))
  · obtain ⟨i, place⟩ := Option.isSome_iff_exists.1 marked
    intro same
    have length := length_unmark_add_one place
    rw [same] at length
    omega

/-- Of the paths that have a marker, or of those that have none, no two have one canonical path. -/
theorem eq_of_unmark_eq (side : convention.isMarked path = convention.isMarked other)
    (same : convention.unmark path = convention.unmark other) : path = other := by
  cases marked : convention.isMarked path with
  | false =>
    rwa [unmark_of_not_isMarked marked, unmark_of_not_isMarked (side ▸ marked)] at same
  | true =>
    obtain ⟨i, place⟩ := Option.isSome_iff_exists.1 marked
    obtain ⟨j, place'⟩ := Option.isSome_iff_exists.1 (side ▸ marked)
    -- Paths of one length have their markers in one place.
    have length : path.length = other.length := by
      rw [← length_unmark_add_one place, ← length_unmark_add_one place', same]
    have here := (markerPlace?_eq_some_iff.1 place).1
    rw [place?_congr length, (markerPlace?_eq_some_iff.1 place').1] at here
    calc path
      _ = (convention.unmark path).insertIdx i marker := (insertIdx_unmark place).symm
      _ = (convention.unmark other).insertIdx j marker := by rw [same, Option.some.inj here]
      _ = other := insertIdx_unmark place'

theorem count_unmark_add_one (place : convention.markerPlace? path = some i) :
    (convention.unmark path).count marker + 1 = path.count marker := by
  have bound := succ_lt_of_place? (markerPlace?_eq_some_iff.1 place).1
  have length := length_unmark_add_one place
  have perm := List.perm_insertIdx marker (convention.unmark path) (i := i) (by omega)
  rw [insertIdx_unmark place] at perm
  rw [perm.count_eq, List.count_cons_self]

theorem not_isMarked_of_not_mem (plain : marker ∉ path) : convention.isMarked path = false := by
  by_contra marked
  obtain ⟨i, place⟩ := Option.isSome_iff_exists.1 (Bool.eq_true_of_not_eq_false marked)
  exact plain (List.mem_of_getElem? (markerPlace?_eq_some_iff.1 place).2)

/-- Where only one segment can be a marker, the canonical path has none. -/
theorem unmark_unmark (once : path.count marker ≤ 1) :
    convention.unmark (convention.unmark path) = convention.unmark path := by
  cases marked : convention.isMarked path with
  | false => rw [unmark_of_not_isMarked marked, unmark_of_not_isMarked marked]
  | true =>
    obtain ⟨i, place⟩ := Option.isSome_iff_exists.1 marked
    have count := count_unmark_add_one place
    have none_left : marker ∉ convention.unmark path := List.count_eq_zero.1 (by omega)
    exact unmark_of_not_isMarked (not_isMarked_of_not_mem none_left)

/-! ### Putting a marker in -/

/-- How many segments a path has at least that a marker can be put into. -/
def shortest : Convention → Nat
  | secondSegment => 2
  | penultimate => 1

/-- The path of the dark variant of a light token: behind the first segment, or before the last,
comes the marker. -/
def mark (path : List String) : Convention → List String
  | secondSegment => path.insertIdx 1 marker
  | penultimate => path.insertIdx (path.length - 1) marker

/-- The marker that was put into a path is the one that it has, and without it the path is what it
was. -/
theorem exists_mark (long : convention.shortest ≤ path.length) :
    ∃ i, convention.mark path = path.insertIdx i marker ∧
      convention.markerPlace? (convention.mark path) = some i := by
  cases convention with
  | secondSegment =>
    have hlong : 1 + 1 ≤ path.length := long
    refine ⟨1, rfl, markerPlace?_eq_some_iff.2 ⟨?_, ?_⟩⟩
    · rw [place?, mark, List.length_insertIdx_of_le_length (by omega), if_pos (by omega)]
    · rw [mark, List.getElem?_insertIdx_self, if_pos (by omega)]
  | penultimate =>
    have hlong : 1 ≤ path.length := long
    refine ⟨path.length - 1, rfl, markerPlace?_eq_some_iff.2 ⟨?_, ?_⟩⟩
    · rw [place?, mark, List.length_insertIdx_of_le_length (by omega), if_pos (by omega)]
      congr 1
    · rw [mark, List.getElem?_insertIdx_self, if_pos (by omega)]

theorem isMarked_mark (long : convention.shortest ≤ path.length) :
    convention.isMarked (convention.mark path) = true := by
  obtain ⟨i, -, place⟩ := exists_mark long
  exact isMarked_of_markerPlace? place

theorem unmark_mark (long : convention.shortest ≤ path.length) :
    convention.unmark (convention.mark path) = path := by
  obtain ⟨i, spelled, place⟩ := exists_mark long
  rw [unmark_of_markerPlace? place, spelled, List.eraseIdx_insertIdx_self]

end Convention

/-! ### Both sides of a group -/

namespace Groups

open Convention (marker)

variable {convention : Convention} {tokens : List Token} {path : List String}

/-- A side of a group is filled where a token has the path of that side. -/
theorem exists_side (convention : Convention) {t : Token} (ht : t ∈ tokens) :
    ∃ u, ((ofTokens convention tokens).get? (t.canonicalPath convention)).bind
        (Pair.side (t.isDark convention)) = some u ∧ u.path = t.path := by
  let slot := Token.slot convention (t.canonicalPath convention) (t.isDark convention) tokens
  have filled : slot ≠ [] := List.ne_nil_of_mem (Token.mem_slot.2 ⟨ht, rfl, rfl⟩)
  obtain ⟨-, canonical, side⟩ := Token.mem_slot.1 (List.getLast_mem filled)
  refine ⟨slot.getLast filled, ?_, Convention.eq_of_unmark_eq side canonical⟩
  rw [bind_side_get?_ofTokens, List.getLast?_eq_some_getLast filled]

/-- Tokens at a path without a marker and at the path with the marker make a group of both. -/
theorem get?_of_mark (unmarked : convention.isMarked path = false)
    (long : convention.shortest ≤ path.length)
    (light : ∃ t ∈ tokens, t.path = path) (dark : ∃ t ∈ tokens, t.path = convention.mark path) :
    ∃ l d, (ofTokens convention tokens).get? path = some (.both l d) ∧
      l.path = path ∧ d.path = convention.mark path := by
  obtain ⟨t, ht, rfl⟩ := light
  obtain ⟨u, hu, spelled⟩ := dark
  have canonical : u.canonicalPath convention = t.path := by
    rw [Token.canonicalPath, spelled, Convention.unmark_mark long]
  have isDark : u.isDark convention = true := by
    rw [Token.isDark, spelled, Convention.isMarked_mark long]
  obtain ⟨l, hl, lpath⟩ := exists_side convention ht
  obtain ⟨d, hd, dpath⟩ := exists_side convention hu
  rw [Token.canonicalPath_of_not_isDark unmarked, Token.isDark, unmarked] at hl
  rw [canonical, isDark] at hd
  refine ⟨l, d, Pair.option_ext fun side => ?_, lpath, dpath.trans spelled⟩
  cases side with
  | false => exact hl
  | true => exact hd

end Groups

/-! ### Main statement -/

/-- **Canonical paths are exact.** A path changes exactly if it has a marker; it is then one segment
shorter, ends in the same segment, and the marker put back where it stood gives it again. Of two
marked paths, or of two others, the canonical paths differ. A path with one segment `dark` at most
has a canonical path without a marker. A marker put into a path makes it a marked one with that
canonical path, and tokens at both paths make a group with both sides. -/
theorem Convention.canonicalPaths_exact (convention : Convention) :
    (∀ path : List String,
      (convention.unmark path ≠ path ↔ convention.isMarked path = true) ∧
      ∀ i, convention.markerPlace? path = some i →
        (convention.unmark path).length + 1 = path.length ∧
        (convention.unmark path).getLast? = path.getLast? ∧
        (convention.unmark path).insertIdx i marker = path) ∧
    (∀ path other : List String, convention.isMarked path = convention.isMarked other →
      convention.unmark path = convention.unmark other → path = other) ∧
    (∀ path : List String, path.count marker ≤ 1 →
      convention.unmark (convention.unmark path) = convention.unmark path) ∧
    ∀ path : List String, convention.isMarked path = false → convention.shortest ≤ path.length →
      convention.isMarked (convention.mark path) = true ∧
      convention.unmark (convention.mark path) = path ∧
      ∀ tokens : List Token, (∃ t ∈ tokens, t.path = path) →
        (∃ t ∈ tokens, t.path = convention.mark path) →
        ∃ light dark, (Groups.ofTokens convention tokens).get? path = some (.both light dark) ∧
          light.path = path ∧ dark.path = convention.mark path := by
  refine ⟨fun path => ⟨unmark_ne_iff, fun i place => ?_⟩, fun path other => eq_of_unmark_eq,
    fun path => unmark_unmark, fun path unmarked long => ?_⟩
  · exact ⟨length_unmark_add_one place, getLast?_unmark place, insertIdx_unmark place⟩
  · exact ⟨isMarked_mark long, unmark_mark long, fun tokens => Groups.get?_of_mark unmarked long⟩

/-- A path of one segment gets its marker in front, and loses it again. -/
theorem Convention.canonicalPaths_exact_page :
    (penultimate.unmark ["dark", "page"]).insertIdx 0 marker = ["dark", "page"] ∧
    ["dark", "page"] = penultimate.mark ["page"] ∧
    penultimate.unmark (penultimate.unmark ["dark", "page"]) = penultimate.unmark ["dark", "page"] ∧
    ∃ light dark,
      (Groups.ofTokens .penultimate
        [.ofValue ["dark", "page"] "night" .null, .ofValue ["page"] "day" .null]).get? ["page"] =
          some (.both light dark) ∧
      light.path = ["page"] ∧ dark.path = ["dark", "page"] := by
  obtain ⟨each, injective, idempotent, marked⟩ := canonicalPaths_exact .penultimate
  refine ⟨((each ["dark", "page"]).2 0 (by decide)).2.2,
    injective ["dark", "page"] _ (by decide) (by decide), idempotent ["dark", "page"] (by decide),
    ?_⟩
  exact (marked ["page"] (by decide) (by decide)).2.2 _ (by simp [Token.ofValue])
    (by simp [Token.ofValue, mark, marker])

end DesignTokens

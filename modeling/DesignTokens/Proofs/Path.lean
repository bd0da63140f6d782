import DesignTokens.Path
import Mathlib.Data.List.Nodup
import Mathlib.Data.List.TakeWhile
import Mathlib.Data.String.Basic

/-!
# Paths below other paths

A slash separates the parts in front of it from those behind it (`Path.parts_append`). How a path
begins shows in its first part, so that a longer path has the components of the one above it, with
those of the further parts behind them (`Path.components_append`).

The other way round, `Path.parent?` works on the text: it takes slashes and dots off the end, then
the last part, and then slashes and dots again. What that does is said in terms of `Path.stepsOf`,
which slashes and dots do not show in (`Path.parent?_spec`).
-/

namespace DesignTokens.Path

theorem partsFrom_append (current front rest : List Char) :
    partsFrom current (front ++ '/' :: rest) = partsFrom current front ++ partsFrom [] rest := by
  induction front generalizing current with
  | nil => simp [partsFrom]
  | cons c front ih =>
    rw [List.cons_append, partsFrom, partsFrom]
    split
    · rw [ih, List.cons_append]
    · exact ih _

theorem parts_append (front rest : String) :
    parts (front ++ "/" ++ rest) = parts front ++ parts rest := by
  rw [parts, parts, parts, ← partsFrom_append]
  simp

theorem exists_parts (path : String) : ∃ first others, parts path = first :: others :=
  List.exists_cons_of_ne_nil (partsFrom_ne_nil [] path.toList)

/-- The components of a path besides what it begins with. -/
def stepsOf (path : List Char) : List Component :=
  (partsFrom [] path).filterMap component?

theorem stepsOf_below (front rest : String) :
    stepsOf (front ++ "/" ++ rest).toList = stepsOf front.toList ++ stepsOf rest.toList := by
  change (parts (front ++ "/" ++ rest)).filterMap component? = _
  rw [parts_append, List.filterMap_append]
  rfl

def origin (path : String) : List Component :=
  if isAbsolute path then [.root]
  else if (parts path).head? = some ['.'] then [.here]
  else []

theorem head?_parts_of_isAbsolute {path : String} (absolute : isAbsolute path = true) :
    (parts path).head? = some [] := by
  obtain ⟨rest, spelled⟩ : ∃ rest, path.toList = '/' :: rest := by
    simpa [isAbsolute, List.head?_eq_some_iff] using absolute
  rw [parts, spelled]
  rfl

theorem components_eq (path : String) :
    components path = origin path ++ stepsOf path.toList := by
  obtain ⟨first, others, found⟩ := exists_parts path
  have relative : first ≠ [] → isAbsolute path = false := by
    intro named
    by_contra absolute
    have head := head?_parts_of_isAbsolute (Bool.eq_true_of_not_eq_false absolute)
    rw [found] at head
    exact named (Option.some.inj head)
  unfold components origin
  rw [stepsOf, ← parts, found]
  split <;> simp_all [component?, List.filterMap_cons]

theorem isAbsolute_below (front rest : String) :
    isAbsolute (front ++ "/" ++ rest) = isAbsolute (front ++ "/") := by
  cases h : front.toList <;> simp [isAbsolute, h]

/-- The components of a path below another one are those of the path above it, and behind them
those of the further parts. -/
theorem components_append (front rest : String) :
    components (front ++ "/" ++ rest) = components (front ++ "/") ++ stepsOf rest.toList := by
  have above := stepsOf_below front ""
  have joined := parts_append front ""
  rw [String.append_empty] at above joined
  have start : origin (front ++ "/" ++ rest) = origin (front ++ "/") := by
    obtain ⟨first, others, found⟩ := exists_parts front
    rw [origin, origin, isAbsolute_below, parts_append, joined, found]
    rfl
  rw [components_eq, components_eq, start, stepsOf_below, above]
  simp [stepsOf, partsFrom, component?]

theorem nodup_components_append (front : String) {rests : List String}
    (h : (rests.map fun rest => stepsOf rest.toList).Nodup) :
    (rests.map fun rest => components (front ++ "/" ++ rest)).Nodup := by
  have split : (rests.map fun rest => components (front ++ "/" ++ rest)) =
      (rests.map fun rest => stepsOf rest.toList).map (components (front ++ "/") ++ ·) := by
    rw [List.map_map]
    exact List.map_congr_left fun rest _ => components_append front rest
  rw [split]
  exact h.map (List.append_right_injective _)

/-! ### The path above another one -/

def lastPart (path : List Char) : List Char :=
  (path.reverse.takeWhile (· != '/')).reverse

theorem partsFrom_of_not_mem {current path : List Char} (plain : '/' ∉ path) :
    partsFrom current path = [current.reverse ++ path] := by
  induction path generalizing current with
  | nil => simp [partsFrom]
  | cons c path ih =>
    rw [List.mem_cons, not_or] at plain
    rw [partsFrom, if_neg (by simpa using Ne.symm plain.1), ih plain.2]
    simp

theorem stepsOf_append (path : List Char) {part : List Char} (plain : '/' ∉ part) :
    stepsOf (path ++ '/' :: part) = stepsOf path ++ (component? part).toList := by
  rw [stepsOf, partsFrom_append, partsFrom_of_not_mem plain, List.filterMap_append]
  cases h : component? part <;> simp [stepsOf, h]

theorem not_mem_lastPart (path : List Char) : '/' ∉ lastPart path := by
  intro hmem
  simpa using List.mem_takeWhile_imp (List.mem_reverse.1 hmem)

/-- What stands behind the last slash is the last part; the other parts stand in front of it. -/
theorem eq_lastPart_or (path : List Char) :
    (path.reverse.dropWhile (· != '/') = [] ∧ path = lastPart path) ∨
    ∃ above, path.reverse.dropWhile (· != '/') = '/' :: above ∧
      path = above.reverse ++ '/' :: lastPart path := by
  have whole : (path.reverse.dropWhile (· != '/')).reverse ++ lastPart path = path := by
    rw [lastPart, ← List.reverse_append, List.takeWhile_append_dropWhile, List.reverse_reverse]
  have begins := List.head?_dropWhile_not (· != '/') path.reverse
  cases cut : path.reverse.dropWhile (· != '/') with
  | nil =>
    rw [cut] at whole
    exact .inl ⟨rfl, whole.symm⟩
  | cons slash above =>
    rw [cut] at whole begins
    obtain rfl : slash = '/' := by simpa using begins
    exact .inr ⟨above, rfl, by simpa using whole.symm⟩

theorem exists_partsFrom (path : List Char) :
    ∃ above, partsFrom [] path = above ++ [lastPart path] := by
  rcases eq_lastPart_or path with ⟨-, only⟩ | ⟨above, -, whole⟩
  · refine ⟨[], ?_⟩
    rw [partsFrom_of_not_mem (only ▸ not_mem_lastPart path), ← only]
    rfl
  · refine ⟨partsFrom [] above.reverse, ?_⟩
    conv_lhs => rw [whole]
    rw [partsFrom_append, partsFrom_of_not_mem (not_mem_lastPart path)]
    rfl

theorem lastPart_below (front rest : String) :
    lastPart (front ++ "/" ++ rest).toList = lastPart rest.toList := by
  obtain ⟨above, found⟩ := exists_partsFrom (front ++ "/" ++ rest).toList
  obtain ⟨others, behind⟩ := exists_partsFrom rest.toList
  have whole := parts_append front rest
  rw [parts, parts, parts, found, behind, ← List.append_assoc] at whole
  exact List.singleton_inj.1 (List.append_inj_right' whole rfl)

theorem fileName?_eq {path name : String}
    (last : component? (lastPart path.toList) = some (.named name)) :
    fileName? path = some name := by
  obtain ⟨above, found⟩ := exists_partsFrom path.toList
  rw [fileName?, components_eq, stepsOf, found, List.filterMap_append,
    List.filterMap_cons_some last, List.filterMap_nil, ← List.append_assoc, List.getLast?_concat]

/-- Slashes and dots at the end are no steps. -/
theorem stepsOf_dropTrailing (reversed : List Char) :
    stepsOf (dropTrailing reversed).reverse = stepsOf reversed.reverse := by
  fun_induction dropTrailing reversed with
  | case1 c cs ih =>
    have spelled : ('/' :: c :: cs).reverse = (c :: cs).reverse ++ '/' :: [] := by simp
    rw [ih, spelled, stepsOf_append _ (by simp)]
    simp [component?]
  | case2 => rfl
  | case3 c cs ih =>
    have spelled : ('.' :: '/' :: c :: cs).reverse = (c :: cs).reverse ++ '/' :: ['.'] := by simp
    rw [ih, spelled, stepsOf_append _ (by simp)]
    simp [component?]
  | case4 cs => rfl

theorem dropTrailing_suffix (reversed : List Char) : dropTrailing reversed <:+ reversed := by
  fun_induction dropTrailing reversed with
  | case1 c cs ih => exact ih.trans (List.suffix_cons _ _)
  | case2 => exact List.suffix_cons _ _
  | case3 c cs ih => exact ih.trans ((List.suffix_cons _ _).trans (List.suffix_cons _ _))
  | case4 cs => exact List.suffix_rfl

theorem dropTrailing_ne_nil {reversed : List Char} (h : reversed ≠ []) :
    dropTrailing reversed ≠ [] := by
  fun_induction dropTrailing reversed with
  | case1 c cs ih => exact ih (List.cons_ne_nil c cs)
  | case2 => exact List.cons_ne_nil _ _
  | case3 c cs ih => exact ih (List.cons_ne_nil c cs)
  | case4 cs => exact h

theorem isSome_component? {part : List Char} (named : part ≠ []) (moves : part ≠ ['.']) :
    (component? part).isSome := by
  unfold component?
  split <;> simp_all

/-- What is left ends in a step, unless it has none. -/
theorem dropTrailing_ends (reversed : List Char) :
    stepsOf (dropTrailing reversed).reverse = [] ∨
      (component? (lastPart (dropTrailing reversed).reverse)).isSome := by
  fun_induction dropTrailing reversed with
  | case1 c cs ih => exact ih
  | case2 => exact .inl rfl
  | case3 c cs ih => exact ih
  | case4 cs noSlash noRootDot noDot =>
    rw [lastPart, List.reverse_reverse]
    match cs with
    | [] => exact .inl rfl
    | c :: more =>
      by_cases slash : c = '/'
      · subst slash
        cases more with
        | nil => exact .inl rfl
        | cons d ds => exact (noSlash d ds rfl).elim
      · rw [List.takeWhile_cons_of_pos (by simpa using slash)]
        by_cases dot : (c :: more.takeWhile (· != '/')).reverse = ['.']
        · left
          obtain ⟨rfl, nothing⟩ : c = '.' ∧ more.takeWhile (· != '/') = [] := by
            simpa [List.append_eq_cons_iff, and_comm] using dot
          cases more with
          | nil => rfl
          | cons d ds =>
            obtain rfl : d = '/' := by simpa [List.takeWhile_cons] using nothing
            cases ds with
            | nil => exact (noRootDot rfl).elim
            | cons e ds => exact (noDot e ds rfl).elim
        · exact .inr (isSome_component? (by simp) dot)

/-- A path has nothing above it only if it is no more than what it begins with. -/
theorem stepsOf_eq_nil_of_parent? {path : String} (h : parent? path = none) :
    stepsOf path.toList = [] := by
  have whole := components_eq path
  have noRoot : Component.root ∉ stepsOf path.toList := by
    intro hmem
    obtain ⟨part, -, hpart⟩ := List.mem_filterMap.1 hmem
    unfold component? at hpart
    split at hpart <;> simp at hpart
  unfold parent? at h
  split at h
  · next none_at_all => exact (List.append_eq_nil_iff.1 (whole.symm.trans none_at_all)).2
  · next only =>
    rw [only] at whole
    rcases List.singleton_eq_append_iff.1 whole with ⟨-, steps⟩ | ⟨-, steps⟩
    · rw [steps] at noRoot
      simp at noRoot
    · exact steps
  · simp at h

/-- What stands in front of the last slash, without slashes and dots at its end. -/
def aboveOf (path : List Char) : List Char :=
  (dropTrailing (path.reverse.dropWhile (· != '/'))).reverse

section Above

variable {path : List Char}

theorem aboveOf_eq_or (path : List Char) :
    (aboveOf path = [] ∧ '/' ∉ path ∧ lastPart path = path) ∨
    ∃ front, aboveOf path = (dropTrailing ('/' :: front.reverse)).reverse ∧
      path = front ++ '/' :: lastPart path := by
  rcases eq_lastPart_or path with ⟨cut, only⟩ | ⟨above, cut, whole⟩
  · refine .inl ⟨?_, only ▸ not_mem_lastPart path, only.symm⟩
    rw [aboveOf, cut]
    rfl
  · exact .inr ⟨above.reverse, by rw [aboveOf, cut, List.reverse_reverse], whole⟩

theorem stepsOf_aboveOf {c : Component} (last : component? (lastPart path) = some c) :
    stepsOf path = stepsOf (aboveOf path) ++ [c] := by
  rcases aboveOf_eq_or path with ⟨nothing, plain, only⟩ | ⟨front, above, whole⟩
  · rw [only] at last
    rw [stepsOf, partsFrom_of_not_mem plain, nothing, List.reverse_nil, List.nil_append,
      List.filterMap_cons_some last]
    rfl
  · have steps : stepsOf (front ++ '/' :: []) = stepsOf front := by
      rw [stepsOf_append _ List.not_mem_nil]
      simp [component?]
    calc stepsOf path
      _ = stepsOf (front ++ '/' :: lastPart path) := congrArg stepsOf whole
      _ = stepsOf front ++ [c] := by
        rw [stepsOf_append _ (not_mem_lastPart path), last, Option.toList_some]
      _ = stepsOf (aboveOf path) ++ [c] := by
        rw [above, stepsOf_dropTrailing, List.reverse_cons, List.reverse_reverse, steps]

theorem aboveOf_isPrefix (path : List Char) : aboveOf path <+: path := by
  rw [← List.reverse_suffix, aboveOf, List.reverse_reverse]
  exact (dropTrailing_suffix _).trans (List.dropWhile_suffix _)

theorem length_aboveOf_lt (named : lastPart path ≠ []) : (aboveOf path).length < path.length := by
  rcases aboveOf_eq_or path with ⟨nothing, -, only⟩ | ⟨front, above, whole⟩
  · rw [nothing, ← only]
    exact List.length_pos_of_ne_nil named
  · have shorter := (dropTrailing_suffix ('/' :: front.reverse)).length_le
    have last := List.length_pos_of_ne_nil named
    have length := congrArg List.length whole
    rw [List.length_append, List.length_cons] at length
    rw [above, List.length_reverse]
    rw [List.length_cons, List.length_reverse] at shorter
    omega

theorem head?_of_isPrefix {front : List Char} (h : front <+: path) (more : front ≠ []) :
    front.head? = path.head? := by
  obtain ⟨rest, rfl⟩ := h
  exact (List.head?_append_of_ne_nil front more).symm

theorem head?_aboveOf (path : List Char) :
    (aboveOf path).head? = some '/' ↔ path.head? = some '/' := by
  rcases aboveOf_eq_or path with ⟨nothing, plain, -⟩ | ⟨front, above, -⟩
  · rw [nothing]
    exact ⟨by simp, fun slash => (plain (List.mem_of_head? slash)).elim⟩
  · have more : aboveOf path ≠ [] := by
      rw [above]
      simpa using dropTrailing_ne_nil (List.cons_ne_nil '/' front.reverse)
    rw [head?_of_isPrefix (aboveOf_isPrefix path) more]

end Above

/-- **The path above another one** has all its steps but the last. It is a shorter text, with which
the other one begins, and it ends in a step if it has any. -/
theorem parent?_spec {path parent : String} (h : parent? path = some parent)
    (moves : stepsOf path.toList ≠ []) :
    (∃ c, stepsOf path.toList = stepsOf parent.toList ++ [c]) ∧
    parent.toList <+: path.toList ∧ parent.toList.length < path.toList.length ∧
    isAbsolute parent = isAbsolute path ∧
    (stepsOf parent.toList = [] ∨ (component? (lastPart parent.toList)).isSome) := by
  let solid := (dropTrailing path.toList.reverse).reverse
  have spelled : parent.toList = aboveOf solid := by
    unfold parent? at h
    split at h
    · simp at h
    · simp at h
    · rw [← Option.some.inj h, String.toList_ofList, aboveOf, List.reverse_reverse]
  have front : solid <+: path.toList := by
    simpa [solid] using List.reverse_prefix.2 (dropTrailing_suffix path.toList.reverse)
  have steps : stepsOf solid = stepsOf path.toList := by
    rw [stepsOf_dropTrailing, List.reverse_reverse]
  obtain ⟨c, last⟩ : ∃ c, component? (lastPart solid) = some c := by
    have either := dropTrailing_ends path.toList.reverse
    rw [← Option.isSome_iff_exists]
    exact either.resolve_left fun nothing => moves (steps.symm.trans nothing)
  have named : lastPart solid ≠ [] := by
    intro blank
    rw [blank] at last
    simp [component?] at last
  have absolute : solid.head? = path.toList.head? := by
    refine head?_of_isPrefix front fun nothing => named ?_
    rw [nothing]
    rfl
  rw [spelled]
  refine ⟨⟨c, ?_⟩, (aboveOf_isPrefix solid).trans front, ?_, ?_, ?_⟩
  · rw [← steps, stepsOf_aboveOf last]
  · exact (length_aboveOf_lt named).trans_le front.length_le
  · rw [isAbsolute, isAbsolute, spelled, Bool.eq_iff_iff, beq_iff_eq, beq_iff_eq,
      head?_aboveOf, absolute]
  · exact dropTrailing_ends _

end DesignTokens.Path

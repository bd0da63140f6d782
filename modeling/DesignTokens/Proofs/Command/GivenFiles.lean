import DesignTokens.Proofs.Command.Saving
import DesignTokens.Proofs.SortedAssoc
import Mathlib.Data.List.Infix

/-!
# Trees of given files, and what changed in them

A tree can be filled with directories and files before the tool runs. Where a path goes down by
names alone, a directory is there then as if the tool had made it (`FileTree.paved_addDirectory`),
and a file as if the tool had saved it (`FileTree.saved_addFile`). What changed between two trees is
told by the files that the later one has and the earlier one has not: when files were saved, these
are saved files, and none is left out that was new (`FileTree.Saved.changedFrom`).
-/

namespace DesignTokens.FileTree

open DesignTokens.Path (stepsOf)

variable {tree saved : FileTree} {file : OutputFile} {files : List OutputFile}

/-! ### Given files -/

theorem entry?_withDirectory (tree : FileTree) (names others : List String) :
    FileTree.entry? (tree.withDirectory names) others =
      if tree.entry? others = none ∧ others = names then some .directory
      else tree.entry? others := by
  unfold withDirectory
  cases found : tree.entry? names with
  | some entry =>
    rw [Option.isSome_some, if_pos rfl, if_neg]
    rintro ⟨none, rfl⟩
    rw [found] at none
    cases none
  | none =>
    have new : surroundings? names = none := by
      rw [FileTree.entry?, Option.or_eq_none_iff] at found
      exact found.1
    rw [Option.isSome_none, if_neg (by decide), entry?_insert new]
    by_cases same : others = names
    · simp [same, found]
    · simp [same]

/-- Directories are added wherever nothing was on the way. -/
theorem entry?_addDirectories {above : List String} (start : tree.entry? above ≠ none)
    (rest names : List String) :
    FileTree.entry? (addDirectories above rest tree) names =
      if tree.entry? names = none ∧ names ∈ rest.inits.map (above ++ ·) then some .directory
      else tree.entry? names := by
  induction rest generalizing above tree with
  | nil =>
    rw [addDirectories, if_neg]
    rintro ⟨none, here⟩
    obtain rfl : names = above := by simpa using here
    exact start none
  | cons name rest ih =>
    have ways : names ∈ (name :: rest).inits.map (above ++ ·) ↔
        names = above ∨ names ∈ rest.inits.map (above ++ [name] ++ ·) := by
      simp [eq_comm]
    have first : above ++ [name] ∈ rest.inits.map (above ++ [name] ++ ·) :=
      List.mem_map.2 ⟨[], by simp, List.append_nil _⟩
    have provided := entry?_withDirectory tree (above ++ [name])
    rw [addDirectories]
    generalize tree.withDirectory (above ++ [name]) = further at provided ⊢
    have there : further.entry? (above ++ [name]) ≠ none := by
      rw [provided]
      split_ifs <;> simp_all
    rw [ih there]
    by_cases here : names = above ++ [name]
    · subst here
      rw [if_neg fun both => there both.1, provided]
      exact if_congr (and_congr_right fun _ => iff_of_true rfl (ways.2 (.inr first))) rfl rfl
    · have same : further.entry? names = tree.entry? names :=
        (provided names).trans (if_neg fun both => here both.2)
      rw [same]
      refine if_congr (and_congr_right fun missing => ?_) rfl rfl
      rw [ways, or_iff_right]
      rintro rfl
      exact start missing

theorem scanl_next_named (start names : List String) :
    (names.map Path.Component.named).scanl next start = names.inits.map (start ++ ·) := by
  induction names generalizing start with
  | nil => simp
  | cons name names ih =>
    rw [List.map_cons, List.scanl_cons, ih, next]
    simp

theorem namesOf_eq {path : String} {names : List String}
    (down : stepsOf path.toList = names.map .named) (relative : Path.isAbsolute path = false) :
    namesOf path = names := by
  rw [namesOf, Path.components_eq, List.filterMap_append, down, List.filterMap_map, Path.origin,
    relative]
  split_ifs <;> simp

theorem mem_passed_iff {path : String} {names way : List String}
    (down : stepsOf path.toList = names.map .named) (relative : Path.isAbsolute path = false) :
    way ∈ passed path ↔ way ∈ names.inits := by
  rw [passed, down, origin, relative, scanl_next_named]
  simp

/-- **A given directory is there as a made one**, if its path goes down by names alone and there
can be directories on the way. -/
theorem paved_addDirectory {path : String} {names : List String}
    (down : stepsOf path.toList = names.map .named) (relative : Path.isAbsolute path = false)
    (free : ∀ way ∈ passed path, tree.IsFree way) :
    tree.Paved (passed path) (tree.addDirectory path) := by
  intro others
  rw [addDirectory, namesOf_eq down relative,
    entry?_addDirectories (by simp [FileTree.entry?, surroundings?])]
  by_cases onWay : others ∈ passed path
  · have listed := (mem_passed_iff down relative).1 onWay
    rcases free others onWay with missing | there
    · rw [if_pos ⟨missing, by simpa using listed⟩, if_pos onWay]
    · rw [if_pos onWay, there, ite_self]
  · rw [if_neg onWay, if_neg]
    rintro ⟨-, listed⟩
    exact onWay ((mem_passed_iff down relative).2 (by simpa using listed))

/-- **A given file is there as a saved one**, if its path goes down by names alone and the file
could be saved. -/
theorem saved_addFile {front : List String} {name : String}
    (down : stepsOf file.path.toList = (front ++ [name]).map .named)
    (relative : Path.isAbsolute file.path = false) (savable : tree.Savable [file])
    (noSink : tree.entry? file.names ≠ some .sink) :
    tree.Saved [file] (tree.addFile file.path file.contents) := by
  have self : file ∈ [file] := List.mem_singleton_self file
  have origin : origin file.path = [] := by rw [FileTree.origin, relative]; rfl
  have names : file.names = front ++ [name] := by
    rw [OutputFile.names, reached, down, origin, foldl_next_named, List.nil_append]
  have ways : file.ways = front.inits := by
    rw [OutputFile.ways, passed, down, origin, scanl_next_named, List.inits_append]
    simp
  have apart : file.names ∉ file.ways := savable.apart file self file self
  have new : surroundings? file.names = none :=
    surroundings?_eq_none (savable.noDirectory file self) noSink
  have added (others : List String) :
      FileTree.entry? (tree.addFile file.path file.contents) others =
      if others = file.names then some (.file file.contents)
      else if tree.entry? others = none ∧ others ∈ file.ways then some .directory
      else tree.entry? others := by
    rw [addFile, namesOf_eq down relative, List.dropLast_concat, ← names, entry?_insert new,
      entry?_addDirectories (by simp [FileTree.entry?, surroundings?]), ways]
    simp
  refine ⟨?_, ?_, ?_⟩
  · simp only [List.forall_mem_singleton]
    intro way onWay
    rw [added, if_neg (ne_of_mem_of_not_mem onWay apart)]
    rcases savable.isFree file self way onWay with none | there
    · rw [if_pos ⟨none, onWay⟩]
    · rw [there, if_neg (by simp)]
  · simp [added, noSink]
  · simp only [List.forall_mem_singleton]
    rintro others ⟨offWay, ne⟩
    rw [added, if_neg ne, if_neg fun both => offWay both.2]

/-! ### What changed -/

theorem changedFile?_eq_some_iff {names : List String} {path text : String} :
    saved.changedFile? tree names = some (path, text) ↔
      path = "/".intercalate names ∧ isBelow names = true ∧
        saved.entry? names = some (.file text) ∧ tree.entry? names ≠ some (.file text) := by
  rw [changedFile?]
  rcases found : saved.entry? names with _ | ⟨contents⟩ | _ | _
  case some.file =>
    simp only [Option.some.injEq, FileEntry.file.injEq]
    constructor
    · intro told
      split_ifs at told with same
      obtain ⟨rfl, rfl⟩ := Prod.mk.inj (Option.some.inj told)
      simpa using same
    · rintro ⟨rfl, below, rfl, differs⟩
      simp [below, differs]
  all_goals simp

/-- A file stands in the list of the tree: the surroundings have none. -/
theorem find?_of_file {names : List String} {text : String}
    (there : tree.entry? names = some (.file text)) :
    SortedAssoc.find? names tree = some (.file text) := by
  rw [FileTree.entry?, Option.or_eq_some_iff] at there
  refine there.elim (fun around => ?_) And.right
  unfold surroundings? at around
  split at around <;> simp at around

/-- **What changed are the saved files**: a file that is told has the path and the contents of one
that was saved, and a saved file is told unless the tree had it before, or has no place for it
below. -/
theorem Saved.changedFrom (h : tree.Saved files saved) :
    (∀ changed ∈ saved.changedFrom tree, ∃ file ∈ files,
      changed = ("/".intercalate file.names, file.contents)) ∧
    ∀ file ∈ files, isBelow file.names = true → tree.entry? file.names ≠ some .sink →
      tree.entry? file.names ≠ some (.file file.contents) →
      "/".intercalate file.names ∈ (saved.changedFrom tree).map Prod.fst := by
  constructor
  · rintro ⟨path, text⟩ told
    obtain ⟨⟨names, entry⟩, -, told⟩ := List.mem_filterMap.1 (SortedAssoc.mem_of_mem_ofList told)
    obtain ⟨rfl, -, there, differs⟩ := changedFile?_eq_some_iff.1 told
    -- Elsewhere the tree is as it was, and there are directories on the ways.
    obtain ⟨file, hfile, off⟩ : ∃ file ∈ files, names ∈ file.ways ∨ names = file.names := by
      by_contra off
      push Not at off
      exact differs (h.rest names off ▸ there)
    rcases off with onWay | rfl
    · rw [h.directories file hfile names onWay] at there
      cases there
    · rw [h.contents file hfile] at there
      split_ifs at there
      · cases there
      · cases there
        exact ⟨file, hfile, rfl⟩
  · intro file hfile below noSink differs
    have there : saved.entry? file.names = some (.file file.contents) :=
      (h.contents file hfile).trans (if_neg noSink)
    have listed := SortedAssoc.mem_of_find? (find?_of_file there)
    have told := changedFile?_eq_some_iff.2 ⟨rfl, below, there, differs⟩
    rw [FileTree.changedFrom, SortedAssoc.mem_keys_ofList]
    exact List.mem_map.2 ⟨_, List.mem_filterMap.2 ⟨_, listed, told⟩, rfl⟩

end DesignTokens.FileTree

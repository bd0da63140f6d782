import DesignTokens.Proofs.Command.Directories

/-!
# What the saving of files leaves

Files can be saved one after the other in a tree exactly if they are `FileTree.Savable` there, and
the tree has them then (`FileTree.Saved`). Both speak of the files as a set. So the order in which
they are saved, and how often each is, make no difference (`FileTree.Saved.entry?_eq`), as long as
files of the same names have the same contents. The main statement, `Tool.changes_saveFiles`, is by
induction on the files: what can be saved behind a file is what could be saved together with it
(`FileTree.savable_cons_iff`).
-/

namespace DesignTokens

open DesignTokens.Path (component? stepsOf lastPart)
open FileTree (passed reached Followable)

/-! ### Files in a tree -/

namespace OutputFile

def names (file : OutputFile) : List String :=
  reached file.path

/-- The names of the directories that lead to the file. -/
def ways (file : OutputFile) : List (List String) :=
  (passed file.path).dropLast

/-- The path of the file ends in a name. -/
def IsNamed (file : OutputFile) : Prop :=
  ∃ name, component? (lastPart file.path.toList) = some (.named name)

/-- Files of the same names have the same contents. -/
def Consistent (files : List OutputFile) : Prop :=
  ∀ file ∈ files, ∀ other ∈ files, other.names = file.names → other.contents = file.contents

theorem Consistent.mono {files others : List OutputFile} (h : Consistent files)
    (less : others ⊆ files) : Consistent others :=
  fun file hfile other hother => h file (less hfile) other (less hother)

end OutputFile

namespace FileTree

/-- **Files that can be saved in a tree**: there can be directories on the way to each of them,
there is none in the place of one, and none of them is on the way to another one. -/
structure Savable (tree : FileTree) (files : List OutputFile) : Prop where
  followable : ∀ file ∈ files, Followable file.path
  isFree : ∀ file ∈ files, ∀ way ∈ file.ways, tree.IsFree way
  noDirectory : ∀ file ∈ files, tree.entry? file.names ≠ some .directory
  apart : ∀ file ∈ files, ∀ other ∈ files, file.names ∉ other.ways

/-- **The tree with saved files**: there are directories on the way to each of them and it has its
contents, unless they went into a sink; everything else is as it was. -/
structure Saved (tree : FileTree) (files : List OutputFile) (saved : FileTree) : Prop where
  directories : ∀ file ∈ files, ∀ way ∈ file.ways, saved.entry? way = some .directory
  contents : ∀ file ∈ files, saved.entry? file.names =
    if tree.entry? file.names = some .sink then some .sink else some (.file file.contents)
  rest : ∀ names, (∀ file ∈ files, names ∉ file.ways ∧ names ≠ file.names) →
    saved.entry? names = tree.entry? names

variable {tree saved : FileTree} {files others : List OutputFile} {file : OutputFile}

theorem Savable.mono (h : tree.Savable files) (less : others ⊆ files) : tree.Savable others where
  followable file hfile := h.followable file (less hfile)
  isFree file hfile := h.isFree file (less hfile)
  noDirectory file hfile := h.noDirectory file (less hfile)
  apart file hfile other hother := h.apart file (less hfile) other (less hother)

/-- It makes no difference in which order files are saved, nor how often. -/
theorem Saved.entry?_eq {further : FileTree} (h : tree.Saved files saved)
    (more : tree.Saved others further) (same : ∀ file, file ∈ others ↔ file ∈ files)
    (names : List String) : further.entry? names = saved.entry? names := by
  by_cases onWay : ∃ file ∈ files, names ∈ file.ways
  · obtain ⟨file, hfile, hway⟩ := onWay
    rw [h.directories file hfile names hway,
      more.directories file ((same file).2 hfile) names hway]
  by_cases ofFile : ∃ file ∈ files, names = file.names
  · obtain ⟨file, hfile, rfl⟩ := ofFile
    rw [h.contents file hfile, more.contents file ((same file).2 hfile)]
  · push Not at onWay ofFile
    rw [h.rest names fun file hfile => ⟨onWay file hfile, ofFile file hfile⟩]
    exact more.rest names fun file hfile =>
      ⟨onWay file ((same file).1 hfile), ofFile file ((same file).1 hfile)⟩

/-! One file is saved, and then more of them in the tree that has it. All of that tree is as before
but for the way to the file, and its own names. -/

section Cons

variable {further : FileTree} (first : tree.Savable [file]) (h : tree.Saved [file] saved)

include h

theorem Saved.of_way {way : List String} (onWay : way ∈ file.ways) :
    saved.entry? way = some .directory :=
  h.directories file (List.mem_singleton_self file) way onWay

theorem Saved.of_names : saved.entry? file.names =
    if tree.entry? file.names = some .sink then some .sink else some (.file file.contents) :=
  h.contents file (List.mem_singleton_self file)

theorem Saved.of_ne {names : List String} (offWay : names ∉ file.ways) (ne : names ≠ file.names) :
    saved.entry? names = tree.entry? names :=
  h.rest names (by simpa using ⟨offWay, ne⟩)

theorem Saved.not_isFree : ¬ saved.IsFree file.names := by
  rw [IsFree, h.of_names]
  split_ifs <;> simp

/-- What can be saved together with a file can be saved behind it. -/
theorem Savable.behind (all : tree.Savable (file :: files)) : saved.Savable files := by
  have later {other : OutputFile} (hother : other ∈ files) : other ∈ file :: files :=
    List.mem_cons_of_mem file hother
  refine ⟨fun other hother => all.followable other (later hother), ?_, ?_,
    fun other hother third hthird => all.apart other (later hother) third (later hthird)⟩
  · intro other hother way hway
    by_cases onWay : way ∈ file.ways
    · exact .inr (h.of_way onWay)
    · have ne : way ≠ file.names := by
        rintro rfl
        exact all.apart file List.mem_cons_self other (later hother) hway
      rw [IsFree, h.of_ne onWay ne]
      exact all.isFree other (later hother) way hway
  · intro other hother
    by_cases same : other.names = file.names
    · rw [same, h.of_names]
      split_ifs <;> simp
    · have offWay := all.apart other (later hother) file List.mem_cons_self
      rw [h.of_ne offWay same]
      exact all.noDirectory other (later hother)

include first

/-- What can be saved behind a file can be saved together with it: the file is in the way of
whatever could not. -/
theorem Savable.cons (more : saved.Savable files) : tree.Savable (file :: files) := by
  have self : file ∈ [file] := List.mem_singleton_self file
  have offWay : ∀ other ∈ files, other.names ∉ file.ways := fun other hother hway =>
    more.noDirectory other hother (h.of_way hway)
  refine ⟨?_, ?_, ?_, ?_⟩
  · exact List.forall_mem_cons.2 ⟨first.followable file self, more.followable⟩
  · refine List.forall_mem_cons.2 ⟨first.isFree file self, fun other hother way hway => ?_⟩
    have free := more.isFree other hother way hway
    by_cases onWay : way ∈ file.ways
    · exact first.isFree file self way onWay
    · have ne : way ≠ file.names := by
        rintro rfl
        exact h.not_isFree free
      rwa [IsFree, h.of_ne onWay ne] at free
  · refine List.forall_mem_cons.2 ⟨first.noDirectory file self, fun other hother => ?_⟩
    by_cases same : other.names = file.names
    · rw [same]
      exact first.noDirectory file self
    · rw [← h.of_ne (offWay other hother) same]
      exact more.noDirectory other hother
  · refine List.forall_mem_cons.2 ⟨List.forall_mem_cons.2 ⟨first.apart file self file self, ?_⟩,
      fun other hother => List.forall_mem_cons.2 ⟨offWay other hother, more.apart other hother⟩⟩
    exact fun other hother hway => h.not_isFree (more.isFree other hother _ hway)

theorem savable_cons_iff : tree.Savable (file :: files) ↔ saved.Savable files :=
  ⟨fun all => all.behind h, fun more => first.cons h more⟩

theorem Saved.cons (more : saved.Savable files) (rest : saved.Saved files further)
    (once : OutputFile.Consistent (file :: files)) : tree.Saved (file :: files) further := by
  have all : tree.Savable (file :: files) := first.cons h more
  have self : file ∈ file :: files := List.mem_cons_self
  have later {other : OutputFile} (hother : other ∈ files) : other ∈ file :: files :=
    List.mem_cons_of_mem file hother
  have sinks :
      (saved.entry? file.names = some .sink) = (tree.entry? file.names = some .sink) := by
    rw [h.of_names]
    split_ifs with sink <;> simp [sink]
  refine ⟨?_, ?_, ?_⟩
  · refine List.forall_mem_cons.2 ⟨fun way hway => ?_, rest.directories⟩
    by_cases onWay : ∃ other ∈ files, way ∈ other.ways
    · obtain ⟨other, hother, hway⟩ := onWay
      exact rest.directories other hother way hway
    · push Not at onWay
      rw [rest.rest way fun other hother => ⟨onWay other hother, ?_⟩, h.of_way hway]
      rintro rfl
      exact all.apart other (later hother) file self hway
  · refine List.forall_mem_cons.2 ⟨?_, fun other hother => ?_⟩
    · by_cases again : ∃ other ∈ files, other.names = file.names
      · obtain ⟨other, hother, same⟩ := again
        have written := rest.contents other hother
        rw [same, once file self other (later hother) same] at written
        rw [written]
        simp only [sinks]
      · push Not at again
        rw [rest.rest _ fun other hother =>
          ⟨all.apart file self other (later hother), (again other hother).symm⟩, h.of_names]
    · rw [rest.contents other hother]
      by_cases same : other.names = file.names
      · simp only [same, sinks]
      · rw [h.of_ne (all.apart other (later hother) file self) same]
  · intro names off
    rw [rest.rest names fun other hother => off other (later hother),
      h.of_ne (off file self).1 (off file self).2]

end Cons

/-! One file is saved where there are directories on the way to it. -/

section One

variable {above name : String} (parent : Path.parent? file.path = some above)
  (last : component? (lastPart file.path.toList) = some (.named name))

include parent last

theorem ways_eq : file.ways = passed above := by
  have ends : (component? (lastPart file.path.toList)).isSome := by rw [last, Option.isSome_some]
  rw [OutputFile.ways, passed_eq parent ends, List.dropLast_concat]

theorem savable_singleton_iff :
    tree.Savable [file] ↔ tree.Pavable above ∧ Followable file.path ∧
      file.names ∉ file.ways ∧ tree.entry? file.names ≠ some .directory := by
  have ends : (component? (lastPart file.path.toList)).isSome := by rw [last, Option.isSome_some]
  constructor
  · intro h
    have self : file ∈ [file] := List.mem_singleton_self file
    have followable := h.followable file self
    refine ⟨⟨followable_above parent ends followable, ?_⟩, followable, h.apart file self file self,
      h.noDirectory file self⟩
    exact ways_eq parent last ▸ h.isFree file self
  · rintro ⟨⟨-, free⟩, followable, apart, noDirectory⟩
    rw [← ways_eq parent last] at free
    exact ⟨by simpa using followable, by simpa using free, by simpa using noDirectory,
      by simpa using apart⟩

theorem saved_of_writeText {paved : FileTree} (h : tree.Paved (passed above) paved)
    (apart : file.names ∉ file.ways) (noDirectory : tree.entry? file.names ≠ some .directory)
    (written : paved.writeText file.path file.contents = .ok saved) :
    tree.Saved [file] saved := by
  obtain ⟨-, result⟩ := (writeText_eq_ok_iff parent last).1 written
  rw [← OutputFile.names] at result
  rw [← ways_eq parent last] at h
  have here : paved.entry? file.names = tree.entry? file.names := by rw [h, if_neg apart]
  rw [here] at result
  by_cases sink : tree.entry? file.names = some .sink
  · rw [if_pos sink] at result
    subst result
    refine ⟨?_, ?_, ?_⟩
    · simpa using fun way onWay => (h way).trans (if_pos onWay)
    · simpa [sink] using here.trans sink
    · simpa using fun names offWay _ => (h names).trans (if_neg offWay)
  · rw [if_neg sink] at result
    subst result
    have new : surroundings? file.names = none :=
      surroundings?_eq_none noDirectory sink
    refine ⟨?_, ?_, ?_⟩
    · simp only [List.forall_mem_singleton, entry?_insert new]
      intro way onWay
      rw [if_neg (ne_of_mem_of_not_mem onWay apart), h way, if_pos onWay]
    · simp [entry?_insert new, sink]
    · simp only [List.forall_mem_singleton, entry?_insert new]
      intro names ⟨offWay, ne⟩
      rw [if_neg ne, h names, if_neg offWay]

end One

end FileTree

/-! ### Saving -/

namespace Tool

variable {tree : FileTree} {can further : Prop} {leads ends : FileTree → Prop}

theorem run_bind {α β : Type} (first : Run (StateM Recorded) α)
    (second : α → Run (StateM Recorded) β) (s : Recorded) :
    (first >>= second).run.run s =
      match first.run.run s with
      | (.ok value, changed) => (second value).run.run changed
      | (.error cause, changed) => (.error cause, changed) := by
  rw [ExceptT.run_bind, StateT.run_bind]
  rcases first.run.run s with ⟨_ | _, changed⟩ <;> rfl

theorem Changes.bind {first second : Run (StateM Recorded) Unit}
    (h : Changes first.run tree can leads)
    (more : can → ∀ changed, leads changed → Changes second.run changed further ends) :
    Changes (first >>= fun _ => second).run tree (can ∧ further) ends := by
  rintro s rfl
  obtain ⟨done, led⟩ := h s rfl
  rw [run_bind]
  rcases run : first.run.run s with ⟨cause | _, changed⟩ <;> rw [run] at done led
  · have cannot : ¬ can := fun h => by cases done.2 h
    exact ⟨iff_of_false (by rintro ⟨⟩) fun h => cannot h.1, fun h => (cannot h.1).elim⟩
  · have h : can := done.1 rfl
    obtain ⟨ended, leaves⟩ := more h changed.tree (led h) changed rfl
    exact ⟨ended.trans (and_iff_right h).symm, fun both => leaves both.2⟩

theorem run_attempt {α : Type} (context : String) (operation : StateM Recorded (Except FileError α))
    (s : Recorded) :
    (attempt context operation).run.run s =
      match operation.run s with
      | (.ok value, changed) => (.ok value, changed)
      | (.error cause, changed) =>
        (.error (context ++ ": " ++ cause.message ++ "\n"), changed) := by
  have lifted : (liftM operation : Run (StateM Recorded) _).run = Except.ok <$> operation := rfl
  rw [attempt, ExceptT.run_bind, lifted, bind_map_left, StateT.run_bind]
  rcases operation.run s with ⟨_ | _, changed⟩ <;> rfl

theorem Changes.attempt {operation : StateM Recorded (Except FileError Unit)}
    (h : Changes operation tree can leads) (context : String) :
    Changes (attempt context operation).run tree can leads := by
  rintro s rfl
  obtain ⟨done, led⟩ := h s rfl
  rw [run_attempt]
  rcases run : operation.run s with ⟨cause | _, changed⟩ <;> rw [run] at done led
  · exact ⟨iff_of_false (by rintro ⟨⟩) (by simpa using done), led⟩
  · exact ⟨by simpa using done, led⟩

theorem changes_update (change : FileTree → Except FileError FileTree) (tree : FileTree) :
    Changes (Recorded.update change) tree (∃ changed, change tree = .ok changed)
      (change tree = .ok ·) := by
  rintro s rfl
  rw [run_update]
  cases change s.tree <;> simp

theorem changes_print (text : String) (h : leads tree) :
    Changes (ExceptT.run (liftM (Host.recorded.print text) : Run (StateM Recorded) Unit)) tree True
      leads := by
  rintro s rfl
  exact ⟨iff_of_true rfl trivial, fun _ => h⟩

/-- **The saving of a file** succeeds exactly if it can be saved. -/
theorem changes_saveFile {file : OutputFile} (named : file.IsNamed) (tree : FileTree) :
    Changes (saveFile Host.recorded file).run tree (tree.Savable [file]) (tree.Saved [file]) := by
  obtain ⟨name, last⟩ := named
  have ends : (component? (lastPart file.path.toList)).isSome := by rw [last, Option.isSome_some]
  have steps := FileTree.stepsOf_ne_nil ends
  obtain ⟨above, parent⟩ : ∃ above, Path.parent? file.path = some above :=
    Option.ne_none_iff_exists'.1 fun none => steps (Path.stepsOf_eq_nil_of_parent? none)
  have higher := (Path.parent?_spec parent steps).2.2.2.2
  have write (paved : FileTree) (h : tree.Paved (passed above) paved) :
      Changes (writeText Host.recorded file.path file.contents).run paved
        (Followable file.path ∧ file.names ∉ file.ways ∧ tree.entry? file.names ≠ some .directory)
        (tree.Saved [file]) := by
    have can : (∃ saved, paved.writeText file.path file.contents = .ok saved) ↔
        Followable file.path ∧ file.names ∉ file.ways ∧
          tree.entry? file.names ≠ some .directory := by
      have ways : ∀ way ∈ passed above, paved.entry? way = some .directory := fun way onWay =>
        (h way).trans (if_pos onWay)
      have here : paved.entry? file.names ≠ some .directory ↔
          file.names ∉ file.ways ∧ tree.entry? file.names ≠ some .directory := by
        rw [h, ← FileTree.ways_eq parent last]
        split_ifs with onWay <;> simp [onWay]
      simp only [FileTree.writeText_eq_ok_iff parent last, exists_and_left, exists_eq', and_true,
        ← here, and_iff_right ways]
      rfl
    refine ((changes_update (·.writeText file.path file.contents) paved).attempt _).congr can ?_
    intro some saved written
    obtain ⟨-, apart, noDirectory⟩ := can.1 some
    exact FileTree.saved_of_writeText parent last h apart noDirectory written
  rw [saveFile, parent]
  have made := (changes_makeDirectories (Nat.lt_succ_self _) higher tree).attempt
    ("Error creating directory '" ++ above ++ "'")
  refine (made.bind fun pavable paved h => (write paved h).bind fun _ saved hsaved =>
    changes_print _ hsaved).congr ?_ fun _ _ => id
  rw [FileTree.savable_singleton_iff parent last, and_true]

/-- **The saving of files** one after the other succeeds exactly if they can be saved, and leaves
them saved, if those of one name have the same contents. -/
theorem changes_saveFiles {files : List OutputFile} (named : ∀ file ∈ files, file.IsNamed)
    (once : OutputFile.Consistent files) (tree : FileTree) :
    Changes (files.forM (saveFile Host.recorded)).run tree (tree.Savable files)
      (tree.Saved files) := by
  induction files generalizing tree with
  | nil =>
    rintro s rfl
    have savable : s.tree.Savable [] := by constructor <;> simp
    have saved : s.tree.Saved [] s.tree := by constructor <;> simp
    exact ⟨iff_of_true rfl savable, fun _ => saved⟩
  | cons file files ih =>
    obtain ⟨here, later⟩ := List.forall_mem_cons.1 named
    have behind (first : tree.Savable [file]) (mid : FileTree) (saved : tree.Saved [file] mid) :
        Changes (files.forM (saveFile Host.recorded)).run mid (tree.Savable (file :: files))
          (tree.Saved (file :: files)) :=
      (ih later (once.mono (List.subset_cons_self file files)) mid).congr
        (FileTree.savable_cons_iff first saved).symm
        fun more _ rest => saved.cons first more rest once
    rw [List.forM]
    refine ((changes_saveFile here tree).bind behind).congr ?_ fun _ _ => id
    exact and_iff_right_of_imp fun all => all.mono (by simp)

end Tool
end DesignTokens

import DesignTokens.Command.FileTree
import DesignTokens.Proofs.Path

/-!
# What a path passes in a tree of files

Whether a path leads anywhere depends on the tree, but not where it would lead: `passed` are the
names of all places on the way, from where the path starts to its end, and `reached` those of its
end. A path can be followed exactly if its text is one that a system takes (`Followable`) and there
are directories everywhere on the way to its end (`follow_parts_eq_ok_iff`). If some of them are
missing and nothing else is in the way, the answer is that there is nothing of that name
(`follow_parts_of_missing`).

The path above another one passes the same places but for the end (`passed_eq`). So all statements
about a path that ends in a step are made in terms of the path above it, as the making of missing
directories goes up by `Path.parent?`.
-/

namespace DesignTokens.FileTree

open DesignTokens.Path (component? stepsOf lastPart)

/-! ### Names on the way -/

def next (names : List String) : Path.Component → List String
  | .root | .here => names
  | .up => above names
  | .named name => names ++ [name]

def origin (path : String) : List String :=
  if Path.isAbsolute path then ["/"] else []

/-- The names that a path passes, those at its end included. -/
def passed (path : String) : List (List String) :=
  (stepsOf path.toList).scanl next (origin path)

def reached (path : String) : List String :=
  (stepsOf path.toList).foldl next (origin path)

/-- The names that a part of a path leads to. A part that is no step leads nowhere else. -/
def onward (names : List String) (part : List Char) : List String :=
  (component? part).toList.foldl next names

/-- Whether a step has no name that is too long. -/
def isShort : Path.Component → Bool
  | .named name => name.utf8ByteSize ≤ longestName
  | _ => true

/-- There is a directory at the end of names, or there could be one. -/
def IsFree (tree : FileTree) (names : List String) : Prop :=
  tree.entry? names = none ∨ tree.entry? names = some .directory

/-- A path whose text a system takes. -/
structure Followable (path : String) : Prop where
  plain : '\x00' ∉ path.toList
  short : path.utf8ByteSize ≤ longestPath
  names : (stepsOf path.toList).all isShort = true

/-- There are directories all along a path, or there could be. -/
def Pavable (tree : FileTree) (path : String) : Prop :=
  Followable path ∧ ∀ way ∈ passed path, tree.IsFree way

/-! Part by part, the places on the way are those of the steps. Empty parts and dots do not show in
the steps, but a walk enters the directory in front of them as well, for a second time. -/

theorem foldl_onward (names : List String) (part : List Char) (rest : List (List Char)) :
    ((part :: rest).filterMap component?).foldl next names =
      (rest.filterMap component?).foldl next (onward names part) := by
  unfold onward
  cases h : component? part <;> simp [h]

theorem mem_scanl_onward {names way : List String} {part : List Char}
    {rest : List (List Char)} :
    way ∈ ((part :: rest).filterMap component?).scanl next names ↔
      way = names ∨ way ∈ (rest.filterMap component?).scanl next (onward names part) := by
  unfold onward
  cases h : component? part with
  | some step => simp [h]
  | none =>
    have start : names ∈ (rest.filterMap component?).scanl next names :=
      List.mem_of_head? List.head?_scanl
    rw [List.filterMap_cons_none h, Option.toList_none, List.foldl_nil, or_iff_right_of_imp]
    rintro rfl
    exact start

theorem all_isShort_cons (part : List Char) (rest : List (List Char)) :
    ((part :: rest).filterMap component?).all isShort =
      ((component? part).all isShort && (rest.filterMap component?).all isShort) := by
  cases h : component? part <;> simp only [List.filterMap_cons, h] <;> simp

/-! ### Walking -/

section Walk

variable {tree : FileTree} {names reached : List String} {part last : List Char}
  {rest init : List (List Char)}

theorem walk_cons (tree : FileTree) (names : List String) (part : List Char)
    (rest : List (List Char)) :
    tree.walk names (part :: rest) = (do
      tree.enter names
      if (component? part).all isShort then tree.walk (onward names part) rest
      else .error .nameTooLong) := by
  fun_cases component? part with
  | case1 | case2 | case3 => simp [walk, onward, isShort, next, component?]
  | case4 empty here up =>
    have named : component? part = some (.named (String.ofList part)) := by
      unfold component?
      split <;> simp_all
    by_cases long : longestName < (String.ofList part).utf8ByteSize
    · simp_all [walk, isShort, Nat.not_le.2 long]
    · simp_all [walk, onward, isShort, next, if_neg long, Nat.not_lt.1 long]

theorem walk_cons_of_missing (missing : tree.entry? names = none) :
    tree.walk names (part :: rest) = .error .notFound := by
  rw [walk_cons, enter, missing]
  rfl

theorem walk_cons_eq_ok_iff :
    tree.walk names (part :: rest) = .ok reached ↔
      tree.entry? names = some .directory ∧ (component? part).all isShort = true ∧
        tree.walk (onward names part) rest = .ok reached := by
  rw [walk_cons, enter]
  cases found : tree.entry? names with
  | none => simp [bind, Except.bind]
  | some entry => cases entry <;> simp [bind, Except.bind, ite_eq_iff]

/-- **A walk succeeds** exactly if it passes nothing but directories before its last part, and no
name is too long. -/
theorem walk_concat_eq_ok_iff :
    tree.walk names (init ++ [last]) = .ok reached ↔
      (∀ way ∈ (init.filterMap component?).scanl next names,
        tree.entry? way = some .directory) ∧
      ((init ++ [last]).filterMap component?).all isShort = true ∧
      ((init ++ [last]).filterMap component?).foldl next names = reached := by
  induction init generalizing names with
  | nil =>
    rw [List.nil_append, walk_cons_eq_ok_iff, foldl_onward, all_isShort_cons]
    simp [walk]
  | cons part init ih =>
    rw [List.cons_append, walk_cons_eq_ok_iff, ih, foldl_onward, all_isShort_cons,
      Bool.and_eq_true]
    simp only [mem_scanl_onward, forall_eq_or_imp]
    tauto

/-- A walk ends where it is to enter what is missing, if nothing else is in its way before. -/
theorem walk_concat_of_missing
    (short : ((init ++ [last]).filterMap component?).all isShort = true)
    (free : ∀ way ∈ (init.filterMap component?).scanl next names, tree.IsFree way)
    (missing : ∃ way ∈ (init.filterMap component?).scanl next names,
      tree.entry? way = none) :
    tree.walk names (init ++ [last]) = .error .notFound := by
  induction init generalizing names with
  | nil =>
    obtain ⟨way, h, none⟩ := missing
    obtain rfl : way = names := by simpa using h
    exact walk_cons_of_missing none
  | cons part init ih =>
    simp only [mem_scanl_onward, forall_eq_or_imp, exists_eq_or_imp] at free missing
    rw [List.cons_append, all_isShort_cons, Bool.and_eq_true] at short
    rcases free.1 with none | there
    · exact walk_cons_of_missing none
    · have missing := missing.resolve_left (by simp [there])
      rw [List.cons_append, walk_cons, enter, there, if_pos short.1, ih short.2 free.2 missing]
      rfl

theorem walk_of_no_steps {parts : List (List Char)} (h : parts.filterMap component? = [])
    (there : tree.entry? names = some .directory) : tree.walk names parts = .ok names := by
  rcases List.eq_nil_or_concat parts with rfl | ⟨init, last, rfl⟩
  · rfl
  · rw [List.concat_eq_append] at h ⊢
    rw [walk_concat_eq_ok_iff, h]
    rw [List.filterMap_append, List.append_eq_nil_iff] at h
    simpa [h.1] using there

end Walk

/-! ### Following -/

section Follow

variable {tree : FileTree} {path above : String} {parts : List (List Char)} {names : List String}

theorem follow_eq_ok_iff :
    tree.follow path parts = .ok names ↔
      '\x00' ∉ path.toList ∧ path ≠ "" ∧ path.utf8ByteSize ≤ longestPath ∧
        tree.walk (origin path) parts = .ok names := by
  unfold follow
  split_ifs <;> simp_all [origin]

theorem entry?_origin (tree : FileTree) (path : String) :
    tree.entry? (origin path) = some .directory := by
  unfold origin
  split <;> rfl

/-- A path that goes down by names alone reaches them. -/
theorem foldl_next_named (start names : List String) :
    (names.map Path.Component.named).foldl next start = start ++ names := by
  induction names generalizing start with
  | nil => simp
  | cons name names ih =>
    rw [List.map_cons, List.foldl_cons, ih, next]
    simp

/-! A path without steps stays where it starts, which is a directory. -/

section NoSteps

variable (named : path ≠ "") (steps : stepsOf path.toList = [])

include steps

theorem passed_of_no_steps : passed path = [origin path] := by
  rw [passed, steps, List.scanl_nil]

theorem solidParts_of_no_steps : (solidParts path).filterMap component? = [] := by
  have front : solidParts path <+: Path.parts path := by
    rw [← List.reverse_suffix, solidParts, List.reverse_reverse]
    exact List.dropWhile_suffix _
  exact List.sublist_nil.1 (steps ▸ front.sublist.filterMap component?)

include named

omit steps in
theorem follow_ne_notFound (h : parts.filterMap component? = []) :
    tree.follow path parts ≠ .error .notFound := by
  unfold follow
  rw [← origin, walk_of_no_steps h (tree.entry?_origin path)]
  split_ifs <;> simp_all

theorem follow_of_no_steps (h : parts.filterMap component? = []) :
    tree.follow path parts = .ok names ↔ Followable path ∧ origin path = names := by
  rw [follow_eq_ok_iff, walk_of_no_steps h (tree.entry?_origin path), Except.ok.injEq]
  exact ⟨fun ⟨plain, _, short, eq⟩ => ⟨⟨plain, short, by rw [steps]; rfl⟩, eq⟩,
    fun ⟨text, eq⟩ => ⟨text.plain, named, text.short, eq⟩⟩

end NoSteps

/-! A path that ends in a step passes what the path above it passes, and then its own end. -/

section Ends

variable (parent : Path.parent? path = some above)
  (ends : (component? (lastPart path.toList)).isSome)

include ends

theorem stepsOf_ne_nil : stepsOf path.toList ≠ [] := by
  obtain ⟨init, found⟩ := Path.exists_partsFrom path.toList
  obtain ⟨step, last⟩ := Option.isSome_iff_exists.1 ends
  rw [stepsOf, found, List.filterMap_append, List.filterMap_cons_some last]
  simp

theorem ne_empty : path ≠ "" := by
  rintro rfl
  exact stepsOf_ne_nil ends rfl

theorem solidParts_of_ends : solidParts path = Path.parts path := by
  obtain ⟨init, found⟩ := Path.exists_partsFrom path.toList
  have named : (lastPart path.toList).isEmpty = false := by
    cases h : lastPart path.toList with
    | nil => simp [h, component?] at ends
    | cons c cs => rfl
  rw [solidParts, Path.parts, found, List.reverse_append, List.reverse_singleton,
    List.singleton_append, List.dropWhile_cons_of_neg (by simp [named])]
  simp

include parent

theorem origin_above : origin above = origin path := by
  rw [origin, origin, (Path.parent?_spec parent (stepsOf_ne_nil ends)).2.2.2.1]

theorem followable_above (text : Followable path) : Followable above := by
  obtain ⟨⟨step, steps⟩, ⟨rest, spelled⟩, -⟩ := Path.parent?_spec parent (stepsOf_ne_nil ends)
  have whole : path = above ++ String.ofList rest := by
    rw [← String.toList_inj, String.toList_append, String.toList_ofList, spelled]
  refine ⟨fun nul => text.plain ?_, ?_, ?_⟩
  · rw [whole, String.toList_append]
    exact List.mem_append_left _ nul
  · have short := text.short
    rw [whole, String.utf8ByteSize_append] at short
    exact (Nat.le_add_right _ _).trans short
  · have names := text.names
    rw [steps, List.all_append, Bool.and_eq_true] at names
    exact names.1

theorem exists_parts_above :
    ∃ init, Path.parts path = init ++ [lastPart path.toList] ∧
      init.filterMap component? = stepsOf above.toList ∧
      (init ++ [lastPart path.toList]).filterMap component? = stepsOf path.toList := by
  obtain ⟨⟨step, steps⟩, -⟩ := Path.parent?_spec parent (stepsOf_ne_nil ends)
  obtain ⟨init, found⟩ := Path.exists_partsFrom path.toList
  obtain ⟨last, hlast⟩ := Option.isSome_iff_exists.1 ends
  refine ⟨init, found, ?_, by rw [← found, stepsOf]⟩
  rw [stepsOf, found, List.filterMap_append, List.filterMap_cons_some hlast,
    List.filterMap_nil] at steps
  exact List.init_eq_of_concat_eq (by simpa using steps)

theorem passed_eq : passed path = passed above ++ [reached path] := by
  obtain ⟨⟨step, steps⟩, -⟩ := Path.parent?_spec parent (stepsOf_ne_nil ends)
  rw [passed, passed, reached, origin_above parent ends, steps, List.scanl_append,
    List.foldl_append]
  rfl

/-- **Following a path** succeeds exactly if its text can be followed and all that it passes above
its end are directories. -/
theorem follow_parts_eq_ok_iff :
    tree.follow path (Path.parts path) = .ok names ↔
      Followable path ∧ (∀ way ∈ passed above, tree.entry? way = some .directory) ∧
        reached path = names := by
  obtain ⟨init, found, steps, all⟩ := exists_parts_above parent ends
  rw [follow_eq_ok_iff, found, walk_concat_eq_ok_iff, all, steps, passed, reached,
    origin_above parent ends]
  exact ⟨fun ⟨plain, _, short, there, names, eq⟩ => ⟨⟨plain, short, names⟩, there, eq⟩,
    fun ⟨text, there, eq⟩ => ⟨text.plain, ne_empty ends, text.short, there, text.names, eq⟩⟩

/-- What is missing on the way is not found, if nothing else is in the way. -/
theorem follow_parts_of_missing (text : Followable path)
    (free : ∀ way ∈ passed above, tree.IsFree way)
    (missing : ∃ way ∈ passed above, tree.entry? way = none) :
    tree.follow path (Path.parts path) = .error .notFound := by
  obtain ⟨init, found, steps, all⟩ := exists_parts_above parent ends
  have walked : tree.walk (origin path) (Path.parts path) = .error .notFound := by
    rw [passed, origin_above parent ends, ← steps] at free missing
    rw [found]
    exact walk_concat_of_missing (all ▸ text.names) free missing
  rw [follow, if_neg (by simpa using text.plain), if_neg (by simpa using ne_empty ends),
    if_neg (Nat.not_lt.2 text.short)]
  exact walked

/-- There can be directories all along a path exactly if there can be all along the one above it,
and at its end. -/
theorem pavable_iff :
    tree.Pavable path ↔ Followable path ∧ tree.Pavable above ∧ tree.IsFree (reached path) := by
  simp only [Pavable, passed_eq parent ends, List.forall_mem_append, List.forall_mem_singleton]
  exact ⟨fun ⟨text, ways, free⟩ => ⟨text, ⟨followable_above parent ends text, ways⟩, free⟩,
    fun ⟨text, ⟨_, ways⟩, free⟩ => ⟨text, ways, free⟩⟩

end Ends

end Follow

/-! ### Operations -/

section Operations

variable {tree changed : FileTree} {path text : String} {entry : FileEntry}

theorem find_eq_ok_iff :
    tree.find path = .ok entry ↔
      ∃ names, tree.resolve path = .ok names ∧ tree.entry? names = some entry := by
  unfold find
  cases tree.resolve path with
  | error cause => simp [bind, Except.bind]
  | ok names => cases h : tree.entry? names <;> simp [bind, Except.bind, pure, Except.pure, h]

theorem isDirectory_iff :
    tree.isDirectory path = true ↔
      ∃ names, tree.resolve path = .ok names ∧ tree.entry? names = some .directory := by
  rw [← find_eq_ok_iff]
  unfold isDirectory
  split <;> simp_all

theorem makeDirectory_eq_ok_iff :
    tree.makeDirectory path = .ok changed ↔
      ∃ names, tree.follow path (solidParts path) = .ok names ∧ tree.entry? names = none ∧
        SortedAssoc.insert names .directory tree = changed := by
  unfold makeDirectory
  cases tree.follow path (solidParts path) with
  | error cause => simp [bind, Except.bind]
  | ok names => cases h : tree.entry? names <;> simp [bind, Except.bind, pure, Except.pure, h]

theorem makeDirectory_eq_notFound_iff :
    tree.makeDirectory path = .error .notFound ↔
      tree.follow path (solidParts path) = .error .notFound := by
  unfold makeDirectory
  cases tree.follow path (solidParts path) with
  | error cause => simp [bind, Except.bind]
  | ok names => cases h : tree.entry? names <;> simp [bind, Except.bind, pure, Except.pure, h]

/-- **Writing a text** succeeds exactly if the path of the file can be followed and does not lead to
a directory. -/
theorem writeText_eq_ok_iff {above name : String} (parent : Path.parent? path = some above)
    (last : component? (lastPart path.toList) = some (.named name)) :
    tree.writeText path text = .ok changed ↔
      (Followable path ∧ (∀ way ∈ passed above, tree.entry? way = some .directory) ∧
        tree.entry? (reached path) ≠ some .directory) ∧
      (if tree.entry? (reached path) = some .sink then tree
        else SortedAssoc.insert (reached path) (.file text) tree) = changed := by
  have ends : (component? (lastPart path.toList)).isSome := by rw [last, Option.isSome_some]
  have noSlash : ¬ path.endsWith "/" = true := by
    rw [String.endsWith_eq_endsWith_toSlice, String.Slice.endsWith_string_iff, String.copy_toSlice]
    rintro ⟨front, spelled⟩
    have blank : lastPart path.toList = [] := by
      rw [← spelled, lastPart]
      simp
    simp [blank, component?] at ends
  have found : (Path.fileName? path).isNone = false := by
    rw [Path.fileName?_eq last, Option.isNone_some]
  have followed (names : List String) := @follow_parts_eq_ok_iff tree path above names parent ends
  rw [writeText, if_neg noSlash, resolve]
  cases h : tree.follow path (Path.parts path) with
  | error cause =>
    have cannot := (followed (reached path)).not.1 (by simp [h])
    exact iff_of_false (by simp [bind, Except.bind]) fun can =>
      cannot ⟨can.1.1, can.1.2.1, rfl⟩
  | ok names =>
    obtain ⟨followable, ways, rfl⟩ := (followed names).1 h
    rcases there : tree.entry? (reached path) with _ | _ | _ | _ <;>
      simp +contextual [bind, Except.bind, pure, Except.pure, there, found, followable, ways]

theorem entry?_insert {names : List String} (new : surroundings? names = none)
    (entry : FileEntry) (others : List String) :
    entry? (SortedAssoc.insert names entry tree) others =
      if others = names then some entry else tree.entry? others := by
  unfold entry?
  rw [SortedAssoc.find?_insert]
  split_ifs with same
  · rw [same, new, Option.none_or]
  · rfl

theorem surroundings?_eq_none {names : List String}
    (noDirectory : tree.entry? names ≠ some .directory) (noSink : tree.entry? names ≠ some .sink) :
    surroundings? names = none := by
  unfold entry? at noDirectory noSink
  cases h : surroundings? names with
  | none => rfl
  | some entry =>
    rw [h, Option.some_or] at noDirectory noSink
    unfold surroundings? at h
    split at h
    · simp_all
    · split_ifs at h
      simp_all
    · split_ifs at h
      simp_all

end Operations

end DesignTokens.FileTree

import DesignTokens.Command.Recorded
import DesignTokens.Command.Run
import DesignTokens.Proofs.Command.Following

/-!
# How directories are made

`Tool.makeDirectories` tries the path as it is, and only when something is missing above it goes up
first (`run_makeDirectories`, `run_makeDirectories_of_missing`). `Tool.Changes` says of such an
operation when it succeeds, and what the tree is like then. The main statement,
`changes_makeDirectories`, is by induction on how far the tool may go up: it succeeds exactly where
everything on the way is a directory or missing, and then paves the way with directories
(`FileTree.Paved`). What a failing one has made before it failed is left open.
-/

namespace DesignTokens

open DesignTokens.Path (component? stepsOf lastPart)
open FileTree (passed reached Followable)

/-- There is a directory at the end of a path, or there could be one in the directories above. -/
def FileTree.Ready (tree : FileTree) (path above : String) : Prop :=
  Followable path ∧ (∀ way ∈ passed above, tree.entry? way = some .directory) ∧
    tree.IsFree (reached path)

/-- The tree with a directory at the end of each of the names. -/
def FileTree.Paved (ways : List (List String)) (tree paved : FileTree) : Prop :=
  ∀ names, paved.entry? names = if names ∈ ways then some .directory else tree.entry? names

namespace FileTree

variable {tree paved : FileTree} {ways others : List (List String)}

theorem Paved.trans {further : FileTree} (h : tree.Paved ways paved)
    (more : paved.Paved others further) : tree.Paved (ways ++ others) further := by
  intro names
  rw [more names, h names]
  by_cases first : names ∈ ways <;> by_cases second : names ∈ others <;> simp [first, second]

theorem paved_self (h : ∀ way ∈ ways, tree.entry? way = some .directory) :
    tree.Paved ways tree := by
  intro names
  split_ifs with there
  · exact h names there
  · rfl

theorem Paved.isFree_iff (h : tree.Paved ways paved) (pavable : ∀ way ∈ ways, tree.IsFree way)
    {names : List String} : paved.IsFree names ↔ tree.IsFree names := by
  rw [IsFree, h names]
  split_ifs with there
  · simpa using pavable names there
  · rfl

end FileTree

namespace Tool

open makeDirectories (settle)

/-- **What an operation does to a tree**: it succeeds exactly if `can` holds, and then it leads to a
tree with the property `leads`. -/
def Changes {ε : Type} (operation : StateM Recorded (Except ε Unit)) (tree : FileTree) (can : Prop)
    (leads : FileTree → Prop) : Prop :=
  ∀ s : Recorded, s.tree = tree →
    ((operation.run s).1 = .ok () ↔ can) ∧ (can → leads (operation.run s).2.tree)

theorem Changes.congr {ε : Type} {operation : StateM Recorded (Except ε Unit)} {tree : FileTree}
    {can further : Prop} {leads ends : FileTree → Prop} (h : Changes operation tree can leads)
    (same : can ↔ further) (more : can → ∀ changed, leads changed → ends changed) :
    Changes operation tree further ends := by
  intro s hs
  obtain ⟨done, led⟩ := h s hs
  exact ⟨done.trans same, fun hfurther => more (same.2 hfurther) _ (led (same.2 hfurther))⟩

/-! ### Single directories -/

theorem run_update (change : FileTree → Except FileError FileTree) (s : Recorded) :
    (Recorded.update change).run s =
      match change s.tree with
      | .ok tree => (.ok (), { s with tree })
      | .error cause => (.error cause, s) := by
  simp only [Recorded.update, StateT.run_bind, StateT.run_get, pure_bind]
  cases change s.tree <;> rfl

theorem run_makeDirectory (path : String) (s : Recorded) :
    (Host.recorded.makeDirectory path).run s =
      match s.tree.makeDirectory path with
      | .ok tree => (.ok (), { s with tree })
      | .error cause => (.error cause, s) :=
  run_update (·.makeDirectory path) s

theorem run_settle (path : String) (result : Except FileError Unit) (s : Recorded) :
    (settle Host.recorded path result).run s =
      (if s.tree.isDirectory path = true then .ok () else result, s) := by
  cases result with
  | ok _ => cases s.tree.isDirectory path <;> rfl
  | error cause => cases h : s.tree.isDirectory path <;> simp [settle, Host.recorded, h] <;> rfl

/-- Makes a directory in those above it, unless it is there. -/
def provide (path : String) : StateM Recorded (Except FileError Unit) := do
  settle Host.recorded path (← Host.recorded.makeDirectory path)

theorem run_provide (path : String) (s : Recorded) :
    (provide path).run s =
      match s.tree.makeDirectory path with
      | .ok tree => (.ok (), { s with tree })
      | .error cause => (if s.tree.isDirectory path = true then .ok () else .error cause, s) := by
  rw [provide, StateT.run_bind, run_makeDirectory]
  cases s.tree.makeDirectory path with
  | ok tree => rfl
  | error cause => exact run_settle path (.error cause) s

/-- If nothing above a directory is missing, it is all that is made. -/
theorem run_makeDirectories {path : String} (named : path ≠ "") (fuel : Nat) {s : Recorded}
    (h : s.tree.makeDirectory path ≠ .error .notFound) :
    (makeDirectories Host.recorded (fuel + 1) path).run s = (provide path).run s := by
  rw [makeDirectories, if_neg (by simpa using named), StateT.run_bind, run_makeDirectory,
    run_provide]
  cases made : s.tree.makeDirectory path with
  | ok tree => rfl
  | error cause => cases cause <;> first | exact (h made).elim | exact run_settle path _ s

/-- What is missing above a directory is made before it. -/
theorem run_makeDirectories_of_missing {path above : String} (named : path ≠ "")
    (parent : Path.parent? path = some above) (fuel : Nat) {s : Recorded}
    (h : s.tree.makeDirectory path = .error .notFound) :
    (makeDirectories Host.recorded (fuel + 1) path).run s =
      match (makeDirectories Host.recorded fuel above).run s with
      | (.ok (), made) => (provide path).run made
      | (.error cause, made) => (.error cause, made) := by
  rw [makeDirectories, if_neg (by simpa using named), StateT.run_bind, run_makeDirectory, h, parent]
  change (makeDirectories Host.recorded fuel above >>= _).run s = _
  rw [StateT.run_bind]
  rcases (makeDirectories Host.recorded fuel above).run s with ⟨_ | _, made⟩ <;> rfl

section Provide

variable {path above : String} (parent : Path.parent? path = some above)
  (ends : (component? (lastPart path.toList)).isSome)

include parent ends

theorem changes_provide (tree : FileTree) :
    Changes (provide path) tree (tree.Ready path above) (tree.Paved [reached path]) := by
  rintro s rfl
  rw [run_provide]
  cases made : s.tree.makeDirectory path with
  | ok tree =>
    obtain ⟨names, followed, none, rfl⟩ := FileTree.makeDirectory_eq_ok_iff.1 made
    rw [FileTree.solidParts_of_ends ends, FileTree.follow_parts_eq_ok_iff parent ends] at followed
    obtain ⟨text, there, rfl⟩ := followed
    refine ⟨iff_of_true rfl ⟨text, there, .inl none⟩, fun _ names => ?_⟩
    have new := @FileTree.surroundings?_eq_none s.tree (reached path) (by simp [none])
      (by simp [none])
    simp [FileTree.entry?_insert new]
  | error cause =>
    cases there : s.tree.isDirectory path with
    | true =>
      obtain ⟨names, followed, directory⟩ := FileTree.isDirectory_iff.1 there
      rw [FileTree.resolve, FileTree.follow_parts_eq_ok_iff parent ends] at followed
      obtain ⟨text, ways, rfl⟩ := followed
      refine ⟨iff_of_true rfl ⟨text, ways, .inr directory⟩, fun _ names => ?_⟩
      by_cases h : names = reached path <;> simp [h, directory]
    | false =>
      have cannot : ¬ s.tree.Ready path above := by
        rintro ⟨text, ways, free⟩
        have followed := (FileTree.follow_parts_eq_ok_iff parent ends).2 ⟨text, ways, rfl⟩
        rcases free with none | directory
        · rw [← FileTree.solidParts_of_ends ends] at followed
          rw [FileTree.makeDirectory_eq_ok_iff.2 ⟨_, followed, none, rfl⟩] at made
          cases made
        · rw [FileTree.isDirectory_iff.2 ⟨_, followed, directory⟩] at there
          cases there
      exact ⟨iff_of_false (by simp) cannot, fun can => (cannot can).elim⟩

/-- Where nothing above is missing, a directory can be made exactly if there can be directories all
along its path: those above are there then. -/
theorem changes_provide_of_found {tree : FileTree}
    (found : tree.makeDirectory path ≠ .error .notFound) :
    Changes (provide path) tree (tree.Pavable path) (tree.Paved (passed path)) := by
  have here : tree.Pavable path → ∀ way ∈ passed above, tree.entry? way = some .directory := by
    intro pavable way onWay
    obtain ⟨text, ⟨-, free⟩, -⟩ := (FileTree.pavable_iff parent ends).1 pavable
    refine (free way onWay).resolve_left fun missing => found ?_
    rw [FileTree.makeDirectory_eq_notFound_iff, FileTree.solidParts_of_ends ends]
    exact FileTree.follow_parts_of_missing parent ends text free ⟨way, onWay, missing⟩
  refine (changes_provide parent ends tree).congr ⟨?_, ?_⟩ ?_
  · rintro ⟨text, ways, free⟩
    refine (FileTree.pavable_iff parent ends).2 ⟨text, ⟨?_, fun way h => .inr (ways way h)⟩, free⟩
    exact FileTree.followable_above parent ends text
  · intro pavable
    obtain ⟨text, -, free⟩ := (FileTree.pavable_iff parent ends).1 pavable
    exact ⟨text, here pavable, free⟩
  · intro ready paved hpaved
    rw [FileTree.passed_eq parent ends]
    exact (FileTree.paved_self ready.2.1).trans hpaved

/-- Where something above is missing, the directories above are made first, and they leave room for
this one just as before. -/
theorem changes_of_missing {tree : FileTree} {fuel : Nat}
    (missing : tree.makeDirectory path = .error .notFound)
    (higher : Changes (makeDirectories Host.recorded fuel above) tree (tree.Pavable above)
      (tree.Paved (passed above))) :
    Changes (makeDirectories Host.recorded (fuel + 1) path) tree (tree.Pavable path)
      (tree.Paved (passed path)) := by
  rintro s rfl
  obtain ⟨done, leads⟩ := higher s rfl
  rw [run_makeDirectories_of_missing (FileTree.ne_empty ends) parent fuel missing,
    FileTree.pavable_iff parent ends]
  rcases run : (makeDirectories Host.recorded fuel above).run s with ⟨cause | _, made⟩ <;>
    rw [run] at done leads
  · have cannot : ¬ s.tree.Pavable above := fun pavable => by cases done.2 pavable
    exact ⟨iff_of_false (by simp) fun can => cannot can.2.1, fun can => (cannot can.2.1).elim⟩
  · have pavable : s.tree.Pavable above := done.1 rfl
    have paved : s.tree.Paved (passed above) made.tree := leads pavable
    obtain ⟨provided, further⟩ := changes_provide parent ends made.tree made rfl
    have can : made.tree.Ready path above ↔
        Followable path ∧ s.tree.Pavable above ∧ s.tree.IsFree (reached path) := by
      rw [FileTree.Ready, paved.isFree_iff pavable.2]
      have ways (way : List String) (onWay : way ∈ passed above) :
          made.tree.entry? way = some .directory := by
        rw [paved way, if_pos onWay]
      exact ⟨fun ⟨text, _, free⟩ => ⟨text, pavable, free⟩,
        fun ⟨text, _, free⟩ => ⟨text, ways, free⟩⟩
    refine ⟨provided.trans can, fun h => ?_⟩
    rw [FileTree.passed_eq parent ends]
    exact paved.trans (further (can.2 h))

end Provide

/-! A path without steps leads to a directory that is there, if its text can be followed. -/

section NoSteps

variable {path : String} (steps : stepsOf path.toList = [])

include steps

theorem pavable_of_no_steps (tree : FileTree) : tree.Pavable path ↔ Followable path := by
  rw [FileTree.Pavable, FileTree.passed_of_no_steps steps]
  simp [FileTree.IsFree, tree.entry?_origin path]

theorem paved_of_no_steps (tree : FileTree) : tree.Paved (passed path) tree := by
  rw [FileTree.passed_of_no_steps steps]
  exact FileTree.paved_self (by simpa using tree.entry?_origin path)

theorem changes_provide_of_no_steps (named : path ≠ "") (tree : FileTree) :
    Changes (provide path) tree (tree.Pavable path) (tree.Paved (passed path)) := by
  rintro s rfl
  have there := s.tree.entry?_origin path
  have found : s.tree.isDirectory path = true ↔ Followable path := by
    have parts : (Path.parts path).filterMap component? = [] := steps
    rw [FileTree.isDirectory_iff]
    simp only [FileTree.resolve, FileTree.follow_of_no_steps named steps parts]
    simp [there]
  rw [pavable_of_no_steps steps, run_provide]
  cases made : s.tree.makeDirectory path with
  | ok tree =>
    obtain ⟨names, followed, none, -⟩ := FileTree.makeDirectory_eq_ok_iff.1 made
    rw [FileTree.follow_of_no_steps named steps (FileTree.solidParts_of_no_steps steps)] at followed
    rw [← followed.2, there] at none
    cases none
  | error cause =>
    refine ⟨?_, fun _ => paved_of_no_steps steps s.tree⟩
    rw [← found]
    cases s.tree.isDirectory path <;> simp

theorem changes_makeDirectories_of_no_steps (fuel : Nat) (tree : FileTree) :
    Changes (makeDirectories Host.recorded (fuel + 1) path) tree (tree.Pavable path)
      (tree.Paved (passed path)) := by
  rintro s rfl
  by_cases named : path = ""
  · subst named
    have text : Followable "" := ⟨by simp, by decide, rfl⟩
    exact ⟨iff_of_true rfl ((pavable_of_no_steps steps s.tree).2 text),
      fun _ => paved_of_no_steps steps s.tree⟩
  · have found : s.tree.makeDirectory path ≠ .error .notFound := by
      rw [Ne, FileTree.makeDirectory_eq_notFound_iff]
      exact FileTree.follow_ne_notFound named (FileTree.solidParts_of_no_steps steps)
    rw [run_makeDirectories named fuel found]
    exact changes_provide_of_no_steps steps named s.tree s rfl

end NoSteps

/-- **The making of directories** succeeds exactly if there can be one all along the path, and then
there is one all along it and nothing else is changed. -/
theorem changes_makeDirectories {fuel : Nat} {path : String} (enough : path.length < fuel)
    (ends : stepsOf path.toList = [] ∨ (component? (lastPart path.toList)).isSome)
    (tree : FileTree) :
    Changes (makeDirectories Host.recorded fuel path) tree (tree.Pavable path)
      (tree.Paved (passed path)) := by
  -- The path above is shorter, and ends in a step again or has none.
  induction fuel generalizing path tree with
  | zero => exact (Nat.not_lt_zero _ enough).elim
  | succ fuel ih =>
    by_cases steps : stepsOf path.toList = []
    · exact changes_makeDirectories_of_no_steps steps fuel tree
    have ends := ends.resolve_left steps
    obtain ⟨above, parent⟩ : ∃ above, Path.parent? path = some above :=
      Option.ne_none_iff_exists'.1 fun none => steps (Path.stepsOf_eq_nil_of_parent? none)
    obtain ⟨-, -, shorter, -, higher⟩ := Path.parent?_spec parent steps
    by_cases missing : tree.makeDirectory path = .error .notFound
    · have enough : above.length < fuel := by
        rw [← String.length_toList] at enough ⊢
        omega
      exact changes_of_missing parent ends missing (ih enough higher tree)
    · rintro s rfl
      rw [run_makeDirectories (FileTree.ne_empty ends) fuel missing]
      exact changes_provide_of_found parent ends missing s rfl

end Tool
end DesignTokens

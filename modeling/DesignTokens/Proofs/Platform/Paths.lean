import DesignTokens.Proofs.Platform.Places
import Mathlib.Data.List.Forall2

/-!
# The paths of the files of a brand

A path keeps its components without the slashes at its end, unless they are all of it
(`Path.components_withoutTrailingSlashes`). So the path of a file has the components of the build
path, then those of the brand, the platform and the destination, whatever their texts are
(`Plan.paths_outputs`), but for the empty build path, which is taken for the root.
-/

namespace DesignTokens

namespace Path

theorem stepsOf_replicate_slash (n : Nat) : stepsOf (List.replicate n '/') = [] := by
  induction n with
  | zero => rfl
  | succ n ih => simpa [stepsOf, partsFrom, List.replicate_succ, component?] using ih

theorem components_slash {path : String} (h : path ≠ "") :
    components (path ++ "/") = components path := by
  have spelled : path.toList ≠ [] := by simpa using h
  have first : parts path ≠ [] := partsFrom_ne_nil _ _
  have parted := parts_append path ""
  have steps := stepsOf_below path ""
  rw [String.append_empty] at parted steps
  have start : origin (path ++ "/") = origin path := by
    have absolute : isAbsolute (path ++ "/") = isAbsolute path := by
      rw [isAbsolute, isAbsolute, String.toList_append, List.head?_append_of_ne_nil _ spelled]
    rw [origin, origin, absolute, parted, List.head?_append_of_ne_nil _ first]
  rw [components_eq, components_eq, start, steps]
  simp [stepsOf, partsFrom, component?]

/-- What is taken off the end of a path is a run of slashes. -/
theorem exists_eq_withoutTrailingSlashes (path : String) :
    ∃ n, path.toList = (withoutTrailingSlashes path).toList ++ List.replicate n '/' := by
  let slashes := path.toList.reverse.takeWhile (· == '/')
  have run : slashes = List.replicate slashes.length '/' :=
    List.eq_replicate_iff.2 ⟨rfl, fun c hc => by simpa using List.mem_takeWhile_imp hc⟩
  refine ⟨slashes.length, List.reverse_injective ?_⟩
  rw [List.reverse_append, List.reverse_replicate, ← run, withoutTrailingSlashes,
    String.toList_ofList, List.reverse_reverse, List.takeWhile_append_dropWhile]

/-- A path below another one has the components of that one without the slashes at its end, but the
empty path is taken for the root. -/
theorem components_withoutTrailingSlashes (path : String) :
    components (withoutTrailingSlashes path ++ "/") =
      if path = "" then [.root] else components path := by
  obtain ⟨n, whole⟩ := exists_eq_withoutTrailingSlashes path
  generalize withoutTrailingSlashes path = front at whole ⊢
  cases n with
  | zero =>
    obtain rfl : path = front := String.toList_inj.1 (by simpa using whole)
    split
    · next nothing => exact nothing ▸ rfl
    · next named => exact components_slash named
  | succ n =>
    obtain rfl : path = front ++ "/" ++ String.ofList (List.replicate n '/') := by
      rw [← String.toList_inj, whole]
      simp [List.replicate_succ]
    rw [if_neg (by simp), components_append, String.toList_ofList, stepsOf_replicate_slash,
      List.append_nil]

theorem ne_of_mem_stepsOf {path : List Char} {c : Component} (h : c ∈ stepsOf path) :
    c ≠ .root ∧ c ≠ .here := by
  obtain ⟨part, -, counts⟩ := List.mem_filterMap.1 h
  unfold component? at counts
  split at counts <;> simp at counts <;> simp [← counts]

theorem stepsOf_eq_filter (path : String) :
    stepsOf path.toList = (components path).filter fun c => c ≠ .root ∧ c ≠ .here := by
  have start : (origin path).filter (fun c => c ≠ .root ∧ c ≠ .here) = [] := by
    unfold origin
    split
    · rfl
    · split <;> rfl
  rw [components_eq, List.filter_append, start, List.nil_append, List.filter_eq_self.2]
  exact fun c there => decide_eq_true (ne_of_mem_stepsOf there)

theorem isAbsolute_iff (path : String) : isAbsolute path = true ↔ .root ∈ components path := by
  have steps : .root ∉ stepsOf path.toList := fun there => (ne_of_mem_stepsOf there).1 rfl
  rw [components_eq, List.mem_append, or_iff_left steps, origin]
  split
  · next absolute => simp [absolute]
  · next relative => split <;> simp [relative]

end Path

namespace Plan

theorem stepsOf_name (platform : Platform) :
    Path.stepsOf platform.name.toList = [.named platform.name] := by
  cases platform <;> decide

/-- The places of files are no more than their steps. -/
theorem components_destination {platform : Platform} :
    ∀ destination ∈ destinationsOf platform,
      Path.components destination = Path.stepsOf destination.toList := by
  cases platform <;> decide

/-- The components of a file below the build path: those of the brand but for a root or a dot at its
front, the platform, and those of the destination. -/
def componentsBelow (brand : String) (platform : Platform) (destination : String) :
    List Path.Component :=
  (Path.components brand).filter (fun c => c ≠ .root ∧ c ≠ .here) ++
    .named platform.name :: Path.components destination

section Paths

variable {config : BrandBuild} {platform : Platform} {file : PlannedFile}

/-- What is below the build path begins with no root, whatever the brand is. -/
theorem componentsBelow_eq (h : file ∈ filesOf config platform) :
    componentsBelow config.brand platform file.destination =
      Path.stepsOf (config.brand ++ "/" ++ (platform.name ++ "/" ++ file.destination)).toList := by
  have known : file.destination ∈ destinationsOf platform :=
    (map_destination_sublist config platform).subset (List.mem_map_of_mem h)
  rw [Path.stepsOf_below, Path.stepsOf_below, stepsOf_name, Path.stepsOf_eq_filter,
    ← components_destination _ known]
  rfl

theorem components_pathOf (h : file ∈ filesOf config platform) :
    Path.components ((ofPlatform config platform).pathOf file) =
      (if config.buildPath = "" then [.root] else Path.components config.buildPath) ++
        componentsBelow config.brand platform file.destination := by
  have spelled : (ofPlatform config platform).pathOf file =
      Path.withoutTrailingSlashes config.buildPath ++ "/" ++
        (config.brand ++ "/" ++ (platform.name ++ "/" ++ file.destination)) := by
    rw [pathOf_eq h, BrandBuild.home]
    simp only [String.append_assoc]
  rw [spelled, Path.components_append, Path.components_withoutTrailingSlashes, componentsBelow_eq h]

theorem isAbsolute_pathOf (h : file ∈ filesOf config platform) :
    Path.isAbsolute ((ofPlatform config platform).pathOf file) = true ↔
      Path.isAbsolute config.buildPath = true ∨ config.buildPath = "" := by
  have below : .root ∉ componentsBelow config.brand platform file.destination := by
    rw [componentsBelow_eq h]
    exact fun there => (Path.ne_of_mem_stepsOf there).1 rfl
  rw [Path.isAbsolute_iff, components_pathOf h, List.mem_append, or_iff_left below,
    Path.isAbsolute_iff]
  split <;> simp [*]

end Paths

/-- **Paths of files.** The path of each file that is rendered has the components of the build path,
of the brand, of the platform and of the destination, and it is absolute exactly if the build path
is; but an empty build path is taken for the root. -/
theorem paths_outputs (config : BrandBuild) (platform : Platform) (dictionary : Dictionary) :
    List.Forall₂
      (fun file output =>
        (Path.isAbsolute output.path = true ↔
          Path.isAbsolute config.buildPath = true ∨ config.buildPath = "") ∧
        Path.components output.path =
          (if config.buildPath = "" then [.root] else Path.components config.buildPath) ++
            componentsBelow config.brand platform file.destination)
      (filesOf config platform) ((ofPlatform config platform).outputs dictionary) := by
  refine List.forall₂_map_right_iff.2 (List.forall₂_same.2 fun file h => ?_)
  exact ⟨isAbsolute_pathOf h, components_pathOf h⟩

/-- An empty build path is relative and has no components, but the files that are built below it are
built below the root. -/
theorem empty_build_path_is_root :
    Path.isAbsolute "" = false ∧ Path.components "" = [] ∧
    ((ofPlatform { brand := "apollo", buildPath := "" } .debug).outputs (.ofTokens [])).map
      (fun output =>
        (output.path, Path.isAbsolute output.path, Path.components output.path)) =
      [("/apollo/debug/tokens.json", true,
        [.root, .named "apollo", .named "debug", .named "tokens.json"])] := by
  decide

end Plan
end DesignTokens

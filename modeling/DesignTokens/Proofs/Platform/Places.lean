import DesignTokens.Platform.Plan
import DesignTokens.Proofs.Path
import Mathlib.Data.List.Flatten

/-!
# Where the files of a brand go

Which files a platform has depends on the brand, but each of them has one place of a fixed list
below the directory of the brand (`Plan.places`, `Plan.map_path_all_sublist`). No two of these
places are the same, so that no two files have the same path, whatever the directory is
(`Plan.pairwise_components`).
-/

namespace DesignTokens

open DesignTokens.Path (stepsOf)

/-- The directory of all files of the brand. -/
def BrandBuild.home (config : BrandBuild) : String :=
  Path.withoutTrailingSlashes config.buildPath ++ "/" ++ config.brand

namespace Plan

/-! ### Places -/

/-- Where the files of a platform are in its directory, as far as a brand has them. -/
def destinationsOf : Platform → List String
  | .android => ["colors.xml", "values-night/colors.xml", "dimens.xml", "Theme.kt"]
  | .ios => ["StyleDictionaryColor.swift", "StyleDictionaryFont.swift", "Theme.swift"]
  | .css => ["variables.css", "variables-media.css"]
  | .scss => ["_variables.scss", "_variables-media.scss"]
  | .js => ["colors.js", "colors.d.ts", "font.js", "font.d.ts"]
  | .debug => ["tokens.json"]

def places : List String :=
  Platform.all.flatMap fun platform =>
    (destinationsOf platform).map fun destination => platform.name ++ "/" ++ destination

theorem mem_all (platform : Platform) : platform ∈ Platform.all := by
  cases platform <;> decide

theorem nodup_steps : (places.map fun place => stepsOf place.toList).Nodup := by
  decide +kernel

theorem isAbsolute_destination {platform : Platform} :
    ∀ destination ∈ destinationsOf platform, Path.isAbsolute destination = false := by
  cases platform <;> decide +kernel

/-- A brand has no other files than these. -/
theorem map_destination_sublist (config : BrandBuild) (platform : Platform) :
    ((filesOf config platform).map PlannedFile.destination).Sublist (destinationsOf platform) := by
  cases platform with
  | android => unfold filesOf androidFiles; split_ifs <;> simp [destinationsOf]
  | ios => unfold filesOf iosFiles; split_ifs <;> simp [destinationsOf]
  | css | scss => unfold filesOf stylesheetFiles; split_ifs <;> simp [destinationsOf]
  | js => simp [filesOf, scriptFiles, destinationsOf]
  | debug => simp [filesOf, destinationsOf]

/-! ### Paths -/

section Paths

variable {config : BrandBuild} {platform : Platform} {dictionary : Dictionary}

theorem pathOf_eq {file : PlannedFile} (h : file ∈ filesOf config platform) :
    (ofPlatform config platform).pathOf file =
      config.home ++ "/" ++ (platform.name ++ "/" ++ file.destination) := by
  have known : file.destination ∈ destinationsOf platform :=
    (map_destination_sublist config platform).subset (List.mem_map_of_mem h)
  have ends : (config.directory platform).toList.getLast? = some '/' := by
    rw [BrandBuild.directory, String.toList_append]
    exact List.getLast?_concat
  rw [pathOf, Path.join, if_neg (by simp [isAbsolute_destination _ known]),
    if_pos (by simp [ofPlatform, ends])]
  simp [ofPlatform, BrandBuild.directory, BrandBuild.home, String.append_assoc]

theorem map_path_outputs_sublist (config : BrandBuild) (platform : Platform)
    (dictionary : Dictionary) :
    (((ofPlatform config platform).outputs dictionary).map OutputFile.path).Sublist
      ((destinationsOf platform).map fun destination =>
        config.home ++ "/" ++ (platform.name ++ "/" ++ destination)) := by
  have paths : ((ofPlatform config platform).outputs dictionary).map OutputFile.path =
      ((filesOf config platform).map PlannedFile.destination).map fun destination =>
        config.home ++ "/" ++ (platform.name ++ "/" ++ destination) := by
    rw [outputs, List.map_map, List.map_map]
    exact List.map_congr_left fun file h => pathOf_eq h
  rw [paths]
  exact (map_destination_sublist config platform).map _

/-- The paths of all files are those of the places in the directory of the brand. -/
theorem map_path_all_sublist (config : BrandBuild) (dictionary : Dictionary) :
    (((all config).flatMap (·.outputs dictionary)).map OutputFile.path).Sublist
      (places.map fun place => config.home ++ "/" ++ place) := by
  rw [all, List.flatMap_map, List.map_flatMap, places, List.map_flatMap]
  refine List.Sublist.flatMap_right _ fun platform _ => ?_
  rw [List.map_map]
  exact map_path_outputs_sublist config platform dictionary

/-- **Paths of files.** No two of the files for all platforms have the same path. -/
theorem pairwise_components (config : BrandBuild) (dictionary : Dictionary) :
    ((all config).flatMap (·.outputs dictionary)).Pairwise fun file other =>
      Path.components file.path ≠ Path.components other.path := by
  have sublist := (map_path_all_sublist config dictionary).map Path.components
  simp only [List.map_map, Function.comp_def] at sublist
  have nodup := Path.nodup_components_append config.home nodup_steps
  exact List.pairwise_map.1 (nodup.sublist sublist)

end Paths

end Plan
end DesignTokens

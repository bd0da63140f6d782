import DesignTokens.Proofs.Command.Saving
import DesignTokens.Proofs.Platform.Conversion
import DesignTokens.Proofs.Platform.Places

/-!
# What a build leaves for a choice of platforms

The files of all platforms are below the directory of the brand, at places of which no two are the
same (`Plan.places`). What leads to that directory is the same for all of them, whatever the build
path and the brand are, and from there on their paths go down by names alone. So no two of them are
the same file to a tree (`Plan.eq_of_names_eq`), and a build leaves the same for every order and
repetition of the platforms (`Tool.build_congr_platforms`).
-/

namespace DesignTokens

open DesignTokens.Path (component? stepsOf lastPart)
open FileTree (reached namesOf)

namespace Plan

/-! ### Rendering -/

/-- The texts of all files of a plan, in the formats that a registry knows by their names. -/
def render (registry : Registry) (plan : Plan) (dictionary : Dictionary) :
    Except Error (List OutputFile) :=
  let transformed := dictionary.transformed plan.transforms
  plan.files.mapM fun file => do
    let contents ← registry.document (transformed.filter file.filter.holds) file.format.name
      (plan.context file)
    return { path := plan.pathOf file, contents }

/-- The registry of all formats renders every plan. -/
theorem render_standard (plan : Plan) (dictionary : Dictionary) :
    plan.render Registry.standard dictionary = .ok (plan.outputs dictionary) := by
  simp only [render, Registry.document, Registry.get_name]
  exact List.mapM_pure ..

/-! ### Names of the files -/

/-- The way to a place goes down by names alone. -/
theorem namesOf_place : ∀ place ∈ places,
    stepsOf place.toList = (namesOf place).map .named := by
  decide +kernel

theorem lastPart_place : ∀ place ∈ places,
    (Path.fileName? place).isSome ∧
      component? (lastPart place.toList) = (Path.fileName? place).map .named := by
  decide +kernel

variable {config : BrandBuild} {dictionary : Dictionary}

theorem exists_place {file : OutputFile}
    (h : file ∈ (all config).flatMap (·.outputs dictionary)) :
    ∃ place ∈ places, file.path = config.home ++ "/" ++ place := by
  have path := (map_path_all_sublist config dictionary).subset (List.mem_map_of_mem h)
  obtain ⟨place, known, spelled⟩ := List.mem_map.1 path
  exact ⟨place, known, spelled.symm⟩

/-- The files of platforms, in their order. -/
def outputsFor (config : BrandBuild) (dictionary : Dictionary) (platforms : List Platform) :
    List OutputFile :=
  platforms.flatMap fun platform => (ofPlatform config platform).outputs dictionary

theorem mem_outputsFor_iff {platforms others : List Platform} {file : OutputFile}
    (same : ∀ platform, platform ∈ platforms ↔ platform ∈ others) :
    file ∈ outputsFor config dictionary platforms ↔ file ∈ outputsFor config dictionary others := by
  simp [outputsFor, same]

theorem outputsFor_subset (platforms : List Platform) :
    outputsFor config dictionary platforms ⊆ (all config).flatMap (·.outputs dictionary) := by
  intro file h
  obtain ⟨platform, -, hfile⟩ := List.mem_flatMap.1 h
  exact List.mem_flatMap.2 ⟨_, List.mem_map_of_mem (mem_all platform), hfile⟩

variable {file other : OutputFile}

/-- Files of one path are the same file. -/
theorem eq_of_components_eq (h : file ∈ (all config).flatMap (·.outputs dictionary))
    (h' : other ∈ (all config).flatMap (·.outputs dictionary))
    (same : Path.components file.path = Path.components other.path) : file = other := by
  have nodup := List.pairwise_map.2 (pairwise_components config dictionary)
  exact List.inj_on_of_nodup_map nodup h h' same

/-- Files that the tree has under the same names are the same file, since all of them are below the
same directory and go down from it by names alone. -/
theorem eq_of_names_eq (h : file ∈ (all config).flatMap (·.outputs dictionary))
    (h' : other ∈ (all config).flatMap (·.outputs dictionary))
    (same : file.names = other.names) : file = other := by
  obtain ⟨place, known, path⟩ := exists_place h
  obtain ⟨place', known', path'⟩ := exists_place h'
  have names (place : String) (known : place ∈ places) :
      reached (config.home ++ "/" ++ place) =
        (stepsOf config.home.toList).foldl FileTree.next
          (FileTree.origin (config.home ++ "/")) ++ namesOf place := by
    rw [reached, Path.stepsOf_below, List.foldl_append, namesOf_place place known,
      FileTree.foldl_next_named, FileTree.origin, FileTree.origin, Path.isAbsolute_below]
  rw [OutputFile.names, OutputFile.names, path, path', names place known, names place' known',
    List.append_cancel_left_eq] at same
  refine eq_of_components_eq h h' ?_
  have steps : stepsOf place.toList = stepsOf place'.toList := by
    rw [namesOf_place place known, namesOf_place place' known', same]
  rw [path, path', Path.components_append, Path.components_append, steps]

theorem isNamed_of_mem (h : file ∈ (all config).flatMap (·.outputs dictionary)) : file.IsNamed := by
  obtain ⟨place, known, path⟩ := exists_place h
  obtain ⟨some, last⟩ := lastPart_place place known
  obtain ⟨name, found⟩ := Option.isSome_iff_exists.1 some
  exact ⟨name, by rw [path, Path.lastPart_below, last, found, Option.map_some]⟩

end Plan

/-! ### Writing to a map -/

namespace OutputFile

/-- What a map from paths to texts is after files are written to it, one after the other. -/
def written (texts : List Path.Component → Option String) (files : List OutputFile) :
    List Path.Component → Option String :=
  files.foldl (fun texts file =>
    Function.update texts (Path.components file.path) (some file.contents)) texts

variable {texts : List Path.Component → Option String} {files : List OutputFile}

theorem written_of_ne {path : List Path.Component}
    (h : ∀ file ∈ files, Path.components file.path ≠ path) :
    written texts files path = texts path := by
  induction files generalizing texts with
  | nil => rfl
  | cons file files ih =>
    obtain ⟨here, later⟩ := List.forall_mem_cons.1 h
    rw [written, List.foldl_cons, ← written, ih later, Function.update_of_ne here.symm]

theorem written_of_mem {file : OutputFile} (h : file ∈ files)
    (once : ∀ other ∈ files, Path.components other.path = Path.components file.path →
      other = file) :
    written texts files (Path.components file.path) = some file.contents := by
  induction files generalizing texts with
  | nil => simp at h
  | cons first files ih =>
    obtain ⟨here, later⟩ := List.forall_mem_cons.1 once
    rw [written, List.foldl_cons, ← written]
    by_cases again : file ∈ files
    · exact ih again later
    · obtain rfl : file = first := (List.mem_cons.1 h).resolve_right again
      rw [written_of_ne, Function.update_self]
      intro other hother same
      exact again (later other hother same ▸ hother)

/-- It makes no difference in which order files are written, nor how often, if those of one path are
the same. -/
theorem written_congr {others : List OutputFile} (same : ∀ file, file ∈ files ↔ file ∈ others)
    (once : ∀ file ∈ files, ∀ other ∈ files,
      Path.components other.path = Path.components file.path → other = file)
    (texts : List Path.Component → Option String) : written texts files = written texts others := by
  funext path
  by_cases ofFile : ∃ file ∈ files, Path.components file.path = path
  · obtain ⟨file, h, rfl⟩ := ofFile
    rw [written_of_mem h (once file h), written_of_mem ((same file).1 h)]
    exact fun other hother => once file h other ((same other).2 hother)
  · push Not at ofFile
    rw [written_of_ne ofFile, written_of_ne]
    exact fun file h => ofFile file ((same file).2 h)

end OutputFile

/-! ### Builds -/

namespace Tool

section Loops

variable {m : Type → Type} [Monad m] [LawfulMonad m]

/-- What a build finds out before it saves files: what the brand is configured with, and the
dictionary. -/
def prepare (host : Host m) (settings : Settings) (arguments : BuildArguments) :
    Run m (BrandBuild × Dictionary) := do
  let dictionary ← loadDictionary host arguments.input
  let tokensDir := arguments.tokensDir.getD settings.build.tokensDir
  let (modes, _) ← (Detector.empty.detect host.isDirectory arguments.brand tokensDir : m _)
  let config := settings.forBrand arguments.brand modes
  return ({ config with buildPath := arguments.out.getD config.buildPath }, dictionary)

theorem forIn_eq_forM {α : Type} (items : List α) (action : α → Run m Unit) :
    (forIn items PUnit.unit fun item _ => do
      action item
      pure (.yield PUnit.unit)) = items.forM action := by
  induction items with
  | nil => rfl
  | cons item items ih =>
    simp only [List.forIn_cons, bind_assoc, pure_bind, ih]
    rfl

theorem forM_flatMap {α β : Type} (items : List α) (parts : α → List β) (action : β → Run m Unit) :
    (items.forM fun item => (parts item).forM action) = (items.flatMap parts).forM action := by
  induction items with
  | nil => rfl
  | cons item items ih =>
    rw [List.flatMap_cons, List.forM, ih]
    exact List.forM_append.symm

theorem build_eq (host : Host m) (settings : Settings) (arguments : BuildArguments) :
    build host settings arguments = (do
      let (config, dictionary) ← prepare host settings arguments
      (Plan.outputsFor config dictionary (arguments.platforms.getD Platform.all)).forM
        (saveFile host)) := by
  unfold build prepare Plan.outputsFor
  simp only [forIn_eq_forM, forM_flatMap, bind_assoc, pure_bind, bind_pure_unit]

end Loops

/-- The files for platforms can be saved one after the other: those of the same names are the same
file, as a platform that is there twice gives them twice. -/
theorem changes_outputsFor (config : BrandBuild) (dictionary : Dictionary)
    (platforms : List Platform) (tree : FileTree) :
    Changes ((Plan.outputsFor config dictionary platforms).forM (saveFile Host.recorded)).run tree
      (tree.Savable (Plan.outputsFor config dictionary platforms))
      (tree.Saved (Plan.outputsFor config dictionary platforms)) := by
  have known := @Plan.outputsFor_subset config dictionary platforms
  refine changes_saveFiles (fun file h => Plan.isNamed_of_mem (known h)) ?_ tree
  intro file h other h' same
  rw [Plan.eq_of_names_eq (known h') (known h) same]

/-- A build for the same platforms, in another order or repeated, does the same to a tree. What it
finds out before it saves files does not depend on the platforms. -/
theorem build_same {platforms others : List Platform}
    (same : ∀ platform, platform ∈ platforms ↔ platform ∈ others)
    (settings : Settings) (arguments : BuildArguments) (s : Recorded) :
    let run (platforms : List Platform) : Except String Unit × Recorded :=
      (build Host.recorded settings { arguments with platforms := some platforms }).run.run s
    ((run platforms).1 = .ok () ↔ (run others).1 = .ok ()) ∧
      ((run platforms).1 = .ok () →
        ∀ names, (run others).2.tree.entry? names = (run platforms).2.tree.entry? names) := by
  intro run
  let save (platforms : List Platform) (found : BrandBuild × Dictionary) :
      Run (StateM Recorded) Unit :=
    (Plan.outputsFor found.1 found.2 platforms).forM (saveFile Host.recorded)
  have split (platforms : List Platform) :
      run platforms =
        (prepare Host.recorded settings arguments >>= save platforms).run.run s := by
    simp only [run, build_eq, Option.getD_some]
    rfl
  rw [split, split, run_bind, run_bind]
  rcases (prepare Host.recorded settings arguments).run.run s with
    ⟨cause | ⟨config, dictionary⟩, next⟩
  · exact ⟨Iff.rfl, fun _ _ => rfl⟩
  · obtain ⟨can, saved⟩ := changes_outputsFor config dictionary platforms next.tree next rfl
    obtain ⟨canToo, savedToo⟩ := changes_outputsFor config dictionary others next.tree next rfl
    have members (file : OutputFile) := @Plan.mem_outputsFor_iff config dictionary _ _ file same
    have savable : next.tree.Savable (Plan.outputsFor config dictionary platforms) ↔
        next.tree.Savable (Plan.outputsFor config dictionary others) :=
      ⟨fun h => h.mono fun file => (members file).2, fun h => h.mono fun file => (members file).1⟩
    refine ⟨can.trans (savable.trans canToo.symm), fun done => ?_⟩
    exact (saved (can.1 done)).entry?_eq (savedToo (savable.1 (can.1 done)))
      fun file => (members file).symm

/-- **Builds for a choice of platforms.** For every brand build and dictionary, the registry of all
formats renders every plan, no two files of the plans have the same path, and writing the files of
platforms to a map from paths to texts leaves the same map for every order and repetition of the
platforms. So does the tool: for every order and repetition of the platforms that it is called with
it succeeds or fails alike, and when it succeeds, it leaves the same under all names. -/
theorem build_congr_platforms {platforms others : List Platform}
    (same : ∀ platform, platform ∈ platforms ↔ platform ∈ others) :
    (∀ (config : BrandBuild) (dictionary : Dictionary),
      (∀ platform, (Plan.ofPlatform config platform).render Registry.standard dictionary =
        .ok ((Plan.ofPlatform config platform).outputs dictionary)) ∧
      ((Plan.all config).flatMap (·.outputs dictionary)).Pairwise (fun file other =>
        Path.components file.path ≠ Path.components other.path) ∧
      ∀ texts, OutputFile.written texts (Plan.outputsFor config dictionary platforms) =
        OutputFile.written texts (Plan.outputsFor config dictionary others)) ∧
    ∀ (settings : Settings) (arguments : BuildArguments) (s : Recorded),
      let run (platforms : List Platform) : Except String Unit × Recorded :=
        (build Host.recorded settings { arguments with platforms := some platforms }).run.run s
      ((run platforms).1 = .ok () ↔ (run others).1 = .ok ()) ∧
        ((run platforms).1 = .ok () →
          ∀ names, (run others).2.tree.entry? names = (run platforms).2.tree.entry? names) := by
  refine ⟨fun config dictionary => ⟨fun platform => ?_, ?_, fun texts => ?_⟩, ?_⟩
  · exact (Plan.ofPlatform config platform).render_standard dictionary
  · exact Plan.pairwise_components config dictionary
  · refine OutputFile.written_congr (fun file => Plan.mem_outputsFor_iff same) ?_ texts
    intro file h other h' same
    exact Plan.eq_of_components_eq (Plan.outputsFor_subset _ h') (Plan.outputsFor_subset _ h) same
  · exact build_same same

/-- Stylesheets and a dump of one color, and the same with the stylesheets again. -/
theorem build_congr_platforms_cssTwice :
    let arguments : BuildArguments := ⟨"tokens.json", "apollo", none, none, none⟩
    let s : Recorded :=
      { tree := [(["tokens.json"], .file
          ("\x7b\"allTokens\": [\x7b\"path\": [\"color\", \"red\"], \"name\": \"red\", " ++
            "\"value\": \"#f00\", \"type\": \"color\"\x7d]\x7d"))] }
    let run (platforms : List Platform) : Except String Unit × Recorded :=
      (build Host.recorded Settings.standard
        { arguments with platforms := some platforms }).run.run s
    (∀ platform : Platform, platform ∈ [.css, .debug] ↔ platform ∈ [.debug, .css, .css]) ∧
      (run [.css, .debug]).1 = .ok () ∧ (run [.debug, .css, .css]).1 = .ok () ∧
      ∀ names, (run [.debug, .css, .css]).2.tree.entry? names =
        (run [.css, .debug]).2.tree.entry? names := by
  intro arguments s run
  have same : ∀ platform : Platform,
      platform ∈ [.css, .debug] ↔ platform ∈ [.debug, .css, .css] := by
    intro platform
    cases platform <;> decide
  have done : (run [.css, .debug]).1 = .ok () := by decide +kernel
  have builds := (build_congr_platforms same).2 Settings.standard arguments s
  exact ⟨same, done, builds.1.1 done, builds.2 done⟩

end Tool

end DesignTokens

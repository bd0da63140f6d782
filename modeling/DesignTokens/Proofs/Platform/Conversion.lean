import DesignTokens.Command.Run
import DesignTokens.Proofs.SortedAssoc
import Mathlib.Data.String.Basic

/-!
# A planned file is what a conversion writes

There are two ways to the document of a file. The plan of a platform has a context ready for it
(`Plan.context`). A conversion knows the file by the name of its format, and reads the context from
parameters: those of the settings, which depend on the family of that name, and extra ones, as they
would stand on a command line. `PlannedFile.params` are the extra ones that say what the plan says.

Every option that a plan sets is read back from its parameters (`Settings.contextFor_params`), and
the convention of a planned file is the one of the family of its format (`Plan.convention_filesOf`).
So the two contexts differ in the stem at most (`Plan.contextFor_filesOf`): the plans of scripts and
dumps have none, a conversion always has one. Their documents do not show it
(`Format.document_stemOption`).
-/

namespace DesignTokens

/-! ### Names of formats -/

/-- The convention for the documents of a format among those of the families. -/
def Format.convention (conventions : FamilyConventions) : Format → Convention
  | stylesheet _ _ => conventions.css
  | resources _ | dimens | composeTheme => conventions.android
  | flatEnum | nestedEnum => conventions.ios
  | scriptModule | declarations => conventions.js
  | treeDump => .standard

theorem FamilyConventions.ofFormat_name (conventions : FamilyConventions) (format : Format) :
    conventions.ofFormat format.name = format.convention conventions := by
  rcases format with ⟨_ | _, _ | _ | _⟩ | (_ | _ | _) | _ | _ | _ | _ | _ | _ | _ <;> cbv

theorem Registry.get_name (format : Format) : standard.get format.name = .ok format := by
  rcases format with ⟨_ | _, _ | _ | _⟩ | (_ | _ | _) | _ | _ | _ | _ | _ | _ | _ <;> cbv

/-! ### Documents without the stem -/

namespace Format

/-- Whether the documents of a format have names that start with the stem. -/
def showsStem : Format → Bool
  | scriptModule | declarations | treeDump => false
  | _ => true

/-- A document without stemmed names is the same for every stem. -/
theorem document_stemOption {format : Format} (h : format.showsStem = false)
    (dictionary : Dictionary) (context : Context) (stem : Option String) :
    format.document dictionary { context with stemOption := stem } =
      format.document dictionary context := by
  cases format with
  | scriptModule | declarations | treeDump => rfl
  | _ => cases h

end Format

/-! ### Parameters of a planned file -/

namespace PlannedFile

/-- The parameters that say of a file what its plan says. -/
def params (file : PlannedFile) : Params :=
  SortedAssoc.ofList
    ([("show-header", Settings.flagText file.showHeader),
      ("output-references", Settings.flagText file.outputReferences)] ++
     (file.className.map ("class-name", ·)).toList ++
     (file.packageName.map ("package-name", ·)).toList)

theorem increasing_params (file : PlannedFile) : SortedAssoc.Increasing file.params :=
  SortedAssoc.Increasing.ofList _

theorem find?_params (file : PlannedFile) (key : String) :
    SortedAssoc.find? key file.params =
      if key = "show-header" then some (Settings.flagText file.showHeader)
      else if key = "output-references" then some (Settings.flagText file.outputReferences)
      else if key = "class-name" then file.className
      else if key = "package-name" then file.packageName
      else none := by
  rw [params, SortedAssoc.find?_ofList]
  rcases file.className with _ | name <;> rcases file.packageName with _ | package
  all_goals split_ifs <;> simp_all [eq_comm]

end PlannedFile

/-! ### The context of a conversion -/

@[simp] theorem Context.readFlag_flagText (key : String) (flag : Bool) :
    Context.readFlag key (Settings.flagText flag) = .ok flag := by
  cases flag <;> rfl

@[simp] theorem Convention.ofName?_name (convention : Convention) :
    Convention.ofName? convention.name = some convention := by
  cases convention <;> rfl

namespace Settings

theorem increasing_paramsFor (s : Settings) (format : String) (extras : Params) :
    SortedAssoc.Increasing (s.paramsFor format extras) :=
  (SortedAssoc.Increasing.ofList _).override extras

theorem find?_paramsFor (s : Settings) (format : String) {extras : Params}
    (h : SortedAssoc.Increasing extras) (key : String) :
    SortedAssoc.find? key (s.paramsFor format extras) =
      (SortedAssoc.find? key extras).or
        (if key = "prefix" then some s.build.stem
         else if key = "output-references" then some (flagText s.build.outputReferences)
         else if key = "mode-convention" then some (s.modes.ofFormat format).name
         else none) := by
  rw [paramsFor, h.find?_override, SortedAssoc.find?_ofList]
  congr 1
  split_ifs <;> simp_all [eq_comm]

/-- A conversion with the parameters of a planned file reads every option back that they say. What
they do not say is what the settings do. -/
theorem contextFor_params (s : Settings) (format destination : String) (file : PlannedFile) :
    s.contextFor format destination file.params = .ok
      { destination
        showHeader := file.showHeader
        headerLines := s.headerLines
        outputReferences := file.outputReferences
        className := file.className
        packageName := file.packageName
        convention := s.modes.ofFormat format
        stemOption := some s.build.stem } := by
  let params := s.paramsFor format file.params
  have found (key : String) := s.find?_paramsFor format file.increasing_params key
  have shown : Context.flagParam params "show-header" true = .ok file.showHeader := by
    simp [Context.flagParam, params, found, PlannedFile.find?_params]
  have references : Context.flagParam params "output-references" false =
      .ok file.outputReferences := by
    simp [Context.flagParam, params, found, PlannedFile.find?_params]
  have convention : Context.conventionParam params = .ok (s.modes.ofFormat format) := by
    simp [Context.conventionParam, params, found, PlannedFile.find?_params]
  simp only [contextFor, Context.ofParams, params] at shown references convention ⊢
  rw [shown, references, convention]
  simp [SortedAssoc.contains, found, PlannedFile.find?_params]
  rfl

/-- The document of a dictionary as a conversion into one format writes it. -/
def documentFor (s : Settings) (format destination : String) (extras : Params)
    (dictionary : Dictionary) : Except Error String := do
  let context ← s.contextFor format destination extras
  Registry.standard.document dictionary format context

theorem documentFor_name {s : Settings} {format : Format} {destination : String} {extras : Params}
    {context : Context} (h : s.contextFor format.name destination extras = .ok context)
    (dictionary : Dictionary) :
    s.documentFor format.name destination extras dictionary =
      .ok (format.document dictionary context) := by
  simp only [documentFor, h, Registry.document, Registry.get_name]
  rfl

/-- On a command line the parameters replace settings first. Of those of a planned file only one
does, and it is not a parameter any more then. -/
theorem overriddenBy_params (s : Settings) (file : PlannedFile) :
    s.overriddenBy file.params = .ok
      ({ s with build.outputReferences := file.outputReferences },
       SortedAssoc.erase "output-references" file.params) := by
  simp [overriddenBy, Extras.take, PlannedFile.find?_params, SortedAssoc.find?_erase]

/-- It makes no difference that they do. -/
theorem documentFor_overriddenBy_params (s : Settings) (format destination : String)
    (file : PlannedFile) (dictionary : Dictionary) :
    (do let (s, extras) ← s.overriddenBy file.params
        s.documentFor format destination extras dictionary) =
      s.documentFor format destination file.params dictionary := by
  let replaced : Settings := { s with build.outputReferences := file.outputReferences }
  let rest := SortedAssoc.erase "output-references" file.params
  have same : replaced.paramsFor format rest = s.paramsFor format file.params := by
    refine SortedAssoc.Increasing.ext (replaced.increasing_paramsFor format rest)
      (s.increasing_paramsFor format file.params) fun key => ?_
    rw [find?_paramsFor _ _ (file.increasing_params.erase _),
      find?_paramsFor _ _ file.increasing_params, SortedAssoc.find?_erase, file.find?_params]
    split_ifs <;> simp_all [replaced]
  rw [overriddenBy_params]
  change replaced.documentFor format destination rest dictionary = _
  rw [documentFor, documentFor, contextFor, contextFor, same]

end Settings

namespace Tool

variable {m : Type → Type} [Monad m] [LawfulMonad m]

theorem require_error_bind {α β : Type} (cause : Error) (next : α → Run m β) :
    require (.error cause) >>= next = throw ("Error: " ++ cause.message ++ "\n") := by
  refine ExceptT.ext ?_
  simp [require]

theorem require_ok_bind {α β : Type} (value : α) (next : α → Run m β) :
    require (.ok value) >>= next = next value :=
  pure_bind value next

theorem require_bind {α β : Type} (first : Except Error α) (next : α → Except Error β) :
    (require (first >>= next) : Run m β) = require first >>= fun value => require (next value) := by
  cases first with
  | error cause => exact (require_error_bind cause _).symm
  | ok value =>
    rw [require_ok_bind]
    rfl

/-- What a conversion prints or writes is `Settings.documentFor`. -/
theorem convert_eq (host : Host m) (s : Settings) (extras : Params) (arguments : ConvertArguments) :
    convert host s extras arguments = (do
      let name ← formatName arguments
      let _ ← require (Registry.standard.get name)
      let dictionary ← loadDictionary host arguments.input
      let text ← require (s.documentFor name (destinationOf arguments name) extras dictionary)
      match arguments.output with
      | some path => writeText host path text
      | none => (host.print text : m Unit)) := by
  unfold convert
  refine bind_congr fun name => ?_
  cases known : Registry.standard.get name with
  | error cause => rw [require_error_bind, require_error_bind]
  | ok format =>
    rw [require_ok_bind, require_ok_bind]
    refine bind_congr fun dictionary => ?_
    rw [Settings.documentFor, require_bind, bind_assoc]
    refine bind_congr fun context => ?_
    have written : Registry.standard.document dictionary name context =
        .ok (format.document dictionary context) := by
      rw [Registry.document, known]
      rfl
    symm
    rw [written]
    exact require_ok_bind _ _

end Tool

/-! ### The files of a plan -/

namespace Plan

variable {config : BrandBuild} {platform : Platform}

/-- The convention of a planned file is the one for its format. -/
theorem convention_filesOf :
    ∀ file ∈ filesOf config platform,
      file.convention = file.format.convention config.conventions := by
  cases platform with
  | android => unfold filesOf androidFiles; split_ifs <;> simp [Format.convention]
  | ios => unfold filesOf iosFiles; split_ifs <;> simp [Format.convention]
  | css | scss => unfold filesOf stylesheetFiles; split_ifs <;> simp [Format.convention]
  | js => simp [filesOf, scriptFiles, Format.convention]
  | debug => simp [filesOf, Format.convention]

/-- A plan whose documents show a stem has the one of the build. -/
theorem stemOf_filesOf :
    ∀ file ∈ filesOf config platform,
      file.format.showsStem = true → stemOf config platform = some config.stem := by
  cases platform with
  | js => simp [filesOf, scriptFiles, Format.showsStem]
  | debug => simp [filesOf, Format.showsStem]
  | android | ios | css | scss => exact fun _ _ _ => rfl

/-- A conversion of a planned file has the context of the plan, but for the stem. -/
theorem contextFor_filesOf (s : Settings) (brand : String) (modes : BrandModes)
    (platform : Platform) :
    ∀ file ∈ filesOf (s.forBrand brand modes) platform,
      s.contextFor file.format.name file.destination file.params = .ok
        { (ofPlatform (s.forBrand brand modes) platform).context file with
          stemOption := some s.build.stem } := by
  intro file h
  rw [s.contextFor_params, FamilyConventions.ofFormat_name, context, convention_filesOf file h]
  rfl

/-- The document of a planned file is the same with the stem of its plan and with the one of the
build. -/
theorem document_filesOf (dictionary : Dictionary) :
    ∀ file ∈ filesOf config platform,
      file.format.document dictionary
          { (ofPlatform config platform).context file with stemOption := some config.stem } =
        file.format.document dictionary ((ofPlatform config platform).context file) := by
  intro file h
  cases shown : file.format.showsStem with
  | true => rw [context, ofPlatform, stemOf_filesOf file h shown]
  | false => rw [Format.document_stemOption shown]

/-- For all settings, and every brand and platform, a conversion of what a planned file is made
from, with the parameters that say what the plan says, writes the contents that a build writes;
whether the parameters are taken as they are, or replace settings first. -/
theorem conversion_writes_outputs (s : Settings) (brand : String) (modes : BrandModes)
    (platform : Platform) (dictionary : Dictionary) :
    let plan := ofPlatform (s.forBrand brand modes) platform
    let narrowed (file : PlannedFile) : Dictionary :=
      (dictionary.transformed plan.transforms).filter file.filter.holds
    let contents := (plan.outputs dictionary).map OutputFile.contents
    (plan.files.map fun file =>
        s.documentFor file.format.name file.destination file.params (narrowed file)) =
      contents.map .ok ∧
    (plan.files.map fun file => do
        let (s, extras) ← s.overriddenBy file.params
        s.documentFor file.format.name file.destination extras (narrowed file)) =
      contents.map .ok := by
  intro plan narrowed contents
  have direct : (plan.files.map fun file =>
      s.documentFor file.format.name file.destination file.params (narrowed file)) =
        contents.map .ok := by
    simp only [contents, outputs, List.map_map]
    refine List.map_congr_left fun file h => ?_
    calc s.documentFor file.format.name file.destination file.params (narrowed file)
      _ = .ok (file.format.document (narrowed file)
            { plan.context file with stemOption := some s.build.stem }) :=
        Settings.documentFor_name (contextFor_filesOf s brand modes platform file h) _
      _ = .ok (file.format.document (narrowed file) (plan.context file)) :=
        congrArg _ (document_filesOf (narrowed file) file h)
  exact ⟨direct, by simpa only [Settings.documentFor_overriddenBy_params] using direct⟩

end Plan

end DesignTokens

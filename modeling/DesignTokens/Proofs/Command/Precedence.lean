import DesignTokens.Proofs.Platform.Conversion

/-!
# Which option wins

The options of a conversion come from three places: extra parameters that replace settings
(`Settings.overriddenBy`), the settings, and the extra parameters that are left, which are read
together with what the settings say (`Settings.contextFor`). `Settings.layered` is the outcome,
option by option.

The maps of parameters have no order of their own. `Settings.contextAlong` reads them entry by
entry, each in an order of its own, with `Context.assign` for one entry. What one entry does to a
context (`Context.follows_cons_iff`) gives what a walk does (`Context.foldlM_assign_eq_ok_iff`), and
`Settings.conversion_layers` says that all walks end in the layered context, or fail where it does.
-/

namespace DesignTokens

open SortedAssoc (find? Increasing)

/-! ### Texts that are read -/

/-- The value of a text, `standing` without one. -/
def readOr {α : Type} (read : String → Except Error α) (standing : α) :
    Option String → Except Error α
  | some text => read text
  | none => .ok standing

section ReadOr

variable {α : Type} {read : String → Except Error α} {standing : α}

@[simp] theorem readOr_none : readOr read standing none = .ok standing :=
  rfl

@[simp] theorem readOr_some (text : String) : readOr read standing (some text) = read text :=
  rfl

theorem readOr_eq_read {fallback : String} (h : read fallback = .ok standing)
    (text : Option String) : readOr read standing text = read (text.getD fallback) := by
  cases text <;> simp [h]

theorem exists_readOr_eq_error_iff {text : Option String} :
    (∃ cause, readOr read standing text = .error cause) ↔
      ∃ given ∈ text, ∃ cause, read given = .error cause := by
  cases text <;> simp

end ReadOr

theorem Convention.ofName?_eq_some_iff {text : String} {convention : Convention} :
    Convention.ofName? text = some convention ↔ convention.name = text := by
  refine ⟨fun named => ?_, fun same => same ▸ Convention.ofName?_name convention⟩
  unfold ofName? at named
  split at named <;> cases named <;> rfl

theorem bind_eq_ok_iff {ε α β : Type} {first : Except ε α} {next : α → Except ε β} {b : β} :
    first >>= next = .ok b ↔ ∃ a, first = .ok a ∧ next a = .ok b := by
  cases first <;> simp [bind, Except.bind]

theorem exists_eq_error_iff {ε α : Type} {outcome : Except ε α} :
    (∃ cause, outcome = .error cause) ↔ ∀ a, outcome ≠ .ok a := by
  cases outcome <;> simp

namespace Context

/-- A text that stands for a truth value, up to the case of its ASCII letters. -/
def IsFlag (text : String) : Prop :=
  String.ofList (text.toList.map Char.toLower) ∈
    ["true", "1", "yes", "on", "false", "0", "no", "off"]

theorem readFlag_eq_error_iff {key text : String} :
    (∃ cause, readFlag key text = .error cause) ↔ ¬ IsFlag text := by
  unfold readFlag IsFlag
  split <;> simp_all

/-- The convention that a text names. -/
def readConvention (name : String) : Except Error Convention :=
  match Convention.ofName? name with
  | some convention => .ok convention
  | none => .error (.unknownConvention name)

theorem readConvention_name (convention : Convention) :
    readConvention convention.name = .ok convention := by
  rw [readConvention, Convention.ofName?_name]

theorem readConvention_eq_error_iff {text : String} :
    (∃ cause, readConvention text = .error cause) ↔
      ∀ convention : Convention, convention.name ≠ text := by
  rw [← not_exists_not]
  simp only [not_not, ← Convention.ofName?_eq_some_iff]
  unfold readConvention
  cases Convention.ofName? text <;> simp

theorem flagParam_eq (params : Params) (key : String) (default : Bool) :
    flagParam params key default = readOr (readFlag key) default (find? key params) := by
  unfold flagParam readOr
  cases find? key params <;> rfl

theorem conventionParam_eq (params : Params) :
    conventionParam params =
      readOr readConvention .standard (find? "mode-convention" params) := by
  unfold conventionParam readOr readConvention
  cases find? "mode-convention" params <;> rfl

/-! ### One parameter after the other -/

/-- A context after one more parameter. -/
def assign (context : Context) (parameter : String × String) : Except Error Context :=
  match parameter.1 with
  | "output-references" => do
    return { context with outputReferences := ← readFlag parameter.1 parameter.2 }
  | "show-header" => do return { context with showHeader := ← readFlag parameter.1 parameter.2 }
  | "mode-convention" => do return { context with convention := ← readConvention parameter.2 }
  | "class-name" => .ok { context with className := some parameter.2 }
  | "package-name" => .ok { context with packageName := some parameter.2 }
  | "prefix" => .ok { context with stemOption := some parameter.2 }
  | "header" => .ok { context with headerLines := [parameter.2] }
  | _ => .ok context

/-- Each option is what the parameter of its name says, and without one that of another context. -/
@[mk_iff] structure Follows (param : String → Option String) (base context : Context) : Prop where
  destination : context.destination = base.destination
  showHeader : readOr (readFlag "show-header") base.showHeader (param "show-header") =
    .ok context.showHeader
  headerLines : context.headerLines = ((param "header").map ([·])).getD base.headerLines
  outputReferences : readOr (readFlag "output-references") base.outputReferences
    (param "output-references") = .ok context.outputReferences
  className : context.className = (param "class-name").or base.className
  packageName : context.packageName = (param "package-name").or base.packageName
  convention : readOr readConvention base.convention (param "mode-convention") =
    .ok context.convention
  stemOption : context.stemOption = (param "prefix").or base.stemOption

theorem follows_none_iff {base context : Context} :
    Follows (fun _ => none) base context ↔ context = base := by
  obtain ⟨_, _, _, _, _, _, _, _⟩ := base
  obtain ⟨_, _, _, _, _, _, _, _⟩ := context
  simp [follows_iff, readOr, eq_comm]

/-- **One step.** To follow one more parameter is to change the context for it, and to follow the
others. -/
theorem follows_cons_iff {param : String → Option String} {key value : String}
    (fresh : param key = none) {base context : Context} :
    Follows (fun other => if other = key then some value else param other) base context ↔
      ∃ changed, assign base (key, value) = .ok changed ∧ Follows param changed context := by
  -- a case for each parameter that is read; the last one is for those that are not
  unfold assign
  split
  · next same =>
    cases same
    cases read : readFlag "output-references" value <;> simp [follows_iff, fresh, read]
  · next same =>
    cases same
    cases read : readFlag "show-header" value <;> simp [follows_iff, fresh, read]
  · next same =>
    cases same
    cases read : readConvention value <;> simp [follows_iff, fresh, read]
  · next same =>
    cases same
    simp [follows_iff, fresh]
  · next same =>
    cases same
    simp [follows_iff, fresh]
  · next same =>
    cases same
    simp [follows_iff, fresh]
  · next same =>
    cases same
    simp [follows_iff, fresh]
  · simp_all [follows_iff, eq_comm]

/-- **A whole walk.** Parameters of different names, one after the other, change a context into the
one that follows all of them. -/
theorem foldlM_assign_eq_ok_iff {walk : Params} (nodup : (walk.map Prod.fst).Nodup)
    {base context : Context} :
    walk.foldlM assign base = .ok context ↔ Follows (find? · walk) base context := by
  induction walk generalizing base with
  | nil =>
    calc List.foldlM assign base [] = .ok context
      _ ↔ context = base := by simp [pure, Except.pure, eq_comm]
      _ ↔ Follows (fun _ => none) base context := follows_none_iff.symm
  | cons parameter rest ih =>
    obtain ⟨key, value⟩ := parameter
    obtain ⟨fresh, nodup⟩ := List.nodup_cons.1 nodup
    have absent : find? key rest = none := SortedAssoc.find?_eq_none_iff.2 fresh
    refine Iff.trans ?_ (@follows_cons_iff (find? · rest) key value absent base context).symm
    rw [List.foldlM_cons, bind_eq_ok_iff]
    simp only [ih nodup]

theorem ofParams_eq_ok_iff {destination : String} {params : Params} {context : Context} :
    ofParams destination params = .ok context ↔
      Follows (find? · params) { destination } context := by
  have lines (text : Option String) : text.toList = (text.map ([·])).getD [] := by
    cases text <;> rfl
  rw [ofParams, flagParam_eq, flagParam_eq, conventionParam_eq, follows_iff]
  obtain ⟨_, _, _, _, _, _, _, _⟩ := context
  cases readOr (readFlag "show-header") true (find? "show-header" params) with
  | error cause => simp [bind, Except.bind]
  | ok showHeader =>
    cases readOr (readFlag "output-references") false (find? "output-references" params) with
    | error cause => simp [bind, Except.bind]
    | ok outputReferences =>
      cases readOr readConvention .standard (find? "mode-convention" params) with
      | error cause => simp [bind, Except.bind]
      | ok convention => simp [bind, Except.bind, pure, Except.pure, lines, eq_comm]

theorem foldlM_assign_eq_ok_iff_of_perm {walk params : Params} (perm : walk.Perm params)
    (h : Increasing params) {destination : String} {context : Context} :
    walk.foldlM assign { destination } = .ok context ↔
      ofParams destination params = .ok context := by
  have nodup : (walk.map Prod.fst).Nodup := (perm.map Prod.fst).nodup_iff.2 h.nodup
  rw [foldlM_assign_eq_ok_iff nodup, ofParams_eq_ok_iff]
  simp only [SortedAssoc.find?_perm perm h.nodup]

end Context

/-! ### Parameters that replace settings -/

namespace Extras

variable {params : Params} {key : String} {keys : List String}

theorem take_cons_fst :
    (take params (key :: keys)).1 = (find? key params).or (take params keys).1 := by
  rw [take]
  cases find? key params <;> rfl

theorem find?_take_of_notMem (h : key ∉ keys) :
    find? key (take params keys).2 = find? key params := by
  induction keys with
  | nil => rfl
  | cons first keys ih =>
    obtain ⟨differs, h⟩ := List.ne_and_not_mem_of_not_mem_cons h
    rw [take]
    cases find? first params with
    | none => exact ih h
    | some value => exact (SortedAssoc.find?_erase ..).trans (if_neg differs)

theorem find?_take_head (h : key ∉ keys) : find? key (take params (key :: keys)).2 = none := by
  rw [take]
  cases found : find? key params with
  | none => exact (find?_take_of_notMem h).trans found
  | some value => exact (SortedAssoc.find?_erase ..).trans (if_pos rfl)

theorem increasing_take (h : Increasing params) : Increasing (take params keys).2 := by
  induction keys with
  | nil => exact h
  | cons key keys ih =>
    rw [take]
    cases find? key params with
    | none => exact ih
    | some value => exact h.erase key

/-- The keys of the parameters that replace settings, each with its other names. -/
def settingKeys : List (List String) :=
  [["prefix"], ["output-references", "output-refs"], ["header"], ["legacy-brands"]]

/-- The parameters that do not replace settings. -/
def left (params : Params) : Params :=
  settingKeys.foldl (fun left keys => (take left keys).2) params

theorem increasing_left (h : Increasing params) : Increasing (left params) := by
  rw [left, settingKeys]
  exact increasing_take (increasing_take (increasing_take (increasing_take h)))

theorem find?_left_of_notMem (h : key ∉ settingKeys.flatten) :
    find? key (left params) = find? key params := by
  simp only [settingKeys, List.flatten_cons, List.flatten_nil, List.mem_append, not_or] at h
  simp only [left, settingKeys, List.foldl_cons, List.foldl_nil]
  rw [find?_take_of_notMem h.2.2.2.1, find?_take_of_notMem h.2.2.1, find?_take_of_notMem h.2.1,
    find?_take_of_notMem h.1]

theorem find?_left_of_head (h : key ∈ settingKeys.filterMap List.head?) :
    find? key (left params) = none := by
  simp only [settingKeys, List.filterMap_cons, List.head?_cons, List.filterMap_nil, List.mem_cons,
    List.not_mem_nil, or_false] at h
  rcases h with rfl | rfl | rfl | rfl <;>
    simp [left, settingKeys, find?_take_of_notMem, find?_take_head]

end Extras

namespace Settings

/-- The text that says whether references are shown, under the first of its names. -/
def referencesText (extra : String → Option String) : Option String :=
  (extra "output-references").or (extra "output-refs")

/-- The settings with those replaced that extra parameters name. -/
def replaced (s : Settings) (extra : String → Option String) (outputReferences : Bool) : Settings :=
  { s with
    build.stem := (extra "prefix").getD s.build.stem
    build.outputReferences := outputReferences
    build.legacyBrands := ((extra "legacy-brands").map Extras.names).getD s.build.legacyBrands
    headerLines := ((extra "header").map ([·])).getD s.headerLines }

theorem overriddenBy_eq (s : Settings) (extras : Params) :
    s.overriddenBy extras =
      (readOr (Context.readFlag "output-references") s.build.outputReferences
        (referencesText (find? · extras))).map fun flag =>
          (s.replaced (find? · extras) flag, Extras.left extras) := by
  have none_fst (params : Params) : (Extras.take params []).1 = none := rfl
  -- what was taken before does not change what is found of the others
  have header : find? "header"
      (Extras.take (Extras.take extras ["prefix"]).2 ["output-references", "output-refs"]).2 =
        find? "header" extras := by
    simp [Extras.find?_take_of_notMem]
  have brands : find? "legacy-brands"
      (Extras.take (Extras.take (Extras.take extras ["prefix"]).2
        ["output-references", "output-refs"]).2 ["header"]).2 = find? "legacy-brands" extras := by
    simp [Extras.find?_take_of_notMem]
  unfold overriddenBy referencesText
  simp only [Extras.take_cons_fst, none_fst, Option.or_none]
  rw [Extras.find?_take_of_notMem (by decide), Extras.find?_take_of_notMem (by decide), header,
    brands]
  cases (find? "output-references" extras).or (find? "output-refs" extras) with
  | none => rfl
  | some text =>
    simp only [readOr_some]
    cases Context.readFlag "output-references" text <;> rfl

/-- A context for a document reads the extra parameters over the settings. -/
theorem contextFor_eq (s : Settings) (format destination : String) {extras : Params}
    (h : Increasing extras) :
    s.contextFor format destination extras = do
      let showHeader ← readOr (Context.readFlag "show-header") true (find? "show-header" extras)
      let outputReferences ← readOr (Context.readFlag "output-references")
        s.build.outputReferences (find? "output-references" extras)
      let convention ← readOr Context.readConvention (s.modes.ofFormat format)
        (find? "mode-convention" extras)
      return {
        destination
        showHeader
        headerLines := ((find? "header" extras).map ([·])).getD s.headerLines
        outputReferences
        className := find? "class-name" extras
        packageName := find? "package-name" extras
        convention
        stemOption := some ((find? "prefix" extras).getD s.build.stem) } := by
  have found (key : String) := s.find?_paramsFor format h key
  have references := readOr_eq_read
    (Context.readFlag_flagText "output-references" s.build.outputReferences)
  have convention := readOr_eq_read (Context.readConvention_name (s.modes.ofFormat format))
  rw [contextFor, Context.ofParams, Context.flagParam_eq, Context.flagParam_eq,
    Context.conventionParam_eq]
  simp only [SortedAssoc.contains, found]
  cases find? "header" extras <;> simp [references, convention]

/-! ### The layers -/

/-- The context of a conversion: extra parameters replace settings, the others are read. -/
def conversionContext (s : Settings) (format destination : String) (extras : Params) :
    Except Error Context := do
  let (s, extras) ← s.overriddenBy extras
  s.contextFor format destination extras

/-- The context of a conversion where the parameters that are left are walked in the order `first`,
and the map of all parameters in the order `second`. -/
def contextAlong (s : Settings) (first second : Params → Params) (format destination : String)
    (extras : Params) : Except Error Context := do
  let (s, extras) ← s.overriddenBy extras
  let params := s.paramsFor format (first extras)
  let context ← (second params).foldlM Context.assign { destination }
  return if SortedAssoc.contains "header" params then context
    else { context with headerLines := s.headerLines }

/-- Option by option, what wins: extra parameters over settings, and settings over defaults. -/
def layered (s : Settings) (format destination : String) (extra : String → Option String) :
    Except Error Context := do
  let outputReferences ← readOr (Context.readFlag "output-references") s.build.outputReferences
    (referencesText extra)
  let showHeader ← readOr (Context.readFlag "show-header") true (extra "show-header")
  let convention ← readOr Context.readConvention (s.modes.ofFormat format)
    (extra "mode-convention")
  return {
    destination
    showHeader
    headerLines := ((extra "header").map ([·])).getD s.headerLines
    outputReferences
    className := extra "class-name"
    packageName := extra "package-name"
    convention
    stemOption := some ((extra "prefix").getD s.build.stem) }

/-- The keys of the parameters that a conversion reads. -/
def optionKeys : List String :=
  ["prefix", "output-references", "output-refs", "mode-convention", "header", "show-header",
    "class-name", "package-name"]

/-- Some text that a conversion reads has no meaning. -/
def Unreadable (extra : String → Option String) : Prop :=
  (∃ text ∈ referencesText extra, ¬ Context.IsFlag text) ∨
  (∃ text ∈ extra "show-header", ¬ Context.IsFlag text) ∨
  ∃ text ∈ extra "mode-convention", ∀ convention : Convention, convention.name ≠ text

theorem conversionContext_eq (s : Settings) (format destination : String) {extras : Params}
    (h : Increasing extras) :
    s.conversionContext format destination extras =
      s.layered format destination (find? · extras) := by
  rw [conversionContext, overriddenBy_eq, layered]
  cases readOr (Context.readFlag "output-references") s.build.outputReferences
    (referencesText (find? · extras)) with
  | error cause => rfl
  | ok flag =>
    change (s.replaced (find? · extras) flag).contextFor format destination (Extras.left extras) = _
    rw [contextFor_eq _ _ _ (Extras.increasing_left h)]
    simp [Extras.find?_left_of_head, Extras.find?_left_of_notMem, Extras.settingKeys, replaced]
    rfl

/-- What the extra parameters add to the settings does not depend on the order of a walk. -/
theorem paramsFor_perm (s : Settings) (format : String) {walk extras : Params}
    (h : Increasing extras) (perm : walk.Perm extras) :
    s.paramsFor format walk = s.paramsFor format extras := by
  have nodup : (walk.map Prod.fst).Nodup := (perm.map Prod.fst).nodup_iff.2 h.nodup
  refine Increasing.ext (s.increasing_paramsFor format walk) (s.increasing_paramsFor format extras)
    fun key => ?_
  rw [paramsFor, paramsFor, SortedAssoc.find?_override_of_nodup nodup, h.find?_override,
    SortedAssoc.find?_perm perm h.nodup]

/-- Every walk ends in the same context. -/
theorem contextAlong_eq_ok_iff (s : Settings) {first second : Params → Params}
    (hfirst : ∀ params, (first params).Perm params)
    (hsecond : ∀ params, (second params).Perm params) (format destination : String)
    {extras : Params} (h : Increasing extras) {context : Context} :
    s.contextAlong first second format destination extras = .ok context ↔
      s.conversionContext format destination extras = .ok context := by
  rw [contextAlong, conversionContext, overriddenBy_eq, bind_eq_ok_iff, bind_eq_ok_iff]
  cases readOr (Context.readFlag "output-references") s.build.outputReferences
    (referencesText (find? · extras)) with
  | error cause => simp [Except.map]
  | ok flag =>
    have sorted := Extras.increasing_left h
    simp only [Except.map, Except.ok.injEq, exists_eq_left', contextFor]
    rw [paramsFor_perm _ format sorted (hfirst _), bind_eq_ok_iff, bind_eq_ok_iff]
    simp only [Context.foldlM_assign_eq_ok_iff_of_perm (hsecond _) (increasing_paramsFor ..)]

/-- Nothing but a text without meaning makes the layers fail. -/
theorem exists_layered_eq_error_iff (s : Settings) (format destination : String)
    (extra : String → Option String) :
    (∃ cause, s.layered format destination extra = .error cause) ↔ Unreadable extra := by
  have references := @exists_readOr_eq_error_iff _ (Context.readFlag "output-references")
    s.build.outputReferences (referencesText extra)
  have showHeader := @exists_readOr_eq_error_iff _ (Context.readFlag "show-header") true
    (extra "show-header")
  have convention := @exists_readOr_eq_error_iff _ Context.readConvention
    (s.modes.ofFormat format) (extra "mode-convention")
  simp only [Context.readFlag_eq_error_iff, Context.readConvention_eq_error_iff]
    at references showHeader convention
  rw [Unreadable, ← references, ← showHeader, ← convention, layered]
  cases readOr (Context.readFlag "output-references") s.build.outputReferences
    (referencesText extra) with
  | error cause => simp [bind, Except.bind]
  | ok flag =>
    cases readOr (Context.readFlag "show-header") true (extra "show-header") with
    | error cause => simp [bind, Except.bind]
    | ok shown =>
      cases readOr Context.readConvention (s.modes.ofFormat format) (extra "mode-convention") <;>
        simp [bind, Except.bind, pure, Except.pure]

/-- Options of other keys have no effect. -/
theorem layered_congr {extra other : String → Option String}
    (same : ∀ key ∈ optionKeys, extra key = other key) (s : Settings)
    (format destination : String) :
    s.layered format destination extra = s.layered format destination other := by
  simp only [optionKeys, List.forall_mem_cons] at same
  simp only [layered, referencesText, same]

/-- For all settings, extra parameters, formats and destinations, a conversion has the layered
context, whatever the order in which the maps of parameters are walked. It fails where a text that
it reads has no meaning, and only there; if there are several such texts, the order of the walk
decides which one the message is about. Parameters that are no options have no effect. -/
theorem conversion_layers (s : Settings) (format destination : String) {extras : Params}
    (h : Increasing extras) {first second : Params → Params}
    (hfirst : ∀ params, (first params).Perm params)
    (hsecond : ∀ params, (second params).Perm params) :
    let layered := s.layered format destination (find? · extras)
    s.conversionContext format destination extras = layered ∧
    (∀ context, s.contextAlong first second format destination extras = .ok context ↔
      layered = .ok context) ∧
    ((∃ cause, s.contextAlong first second format destination extras = .error cause) ↔
      Unreadable (find? · extras)) ∧
    ∀ key ∉ optionKeys, ∀ value,
      s.conversionContext format destination (SortedAssoc.insert key value extras) = layered := by
  intro layered
  have direct := s.conversionContext_eq format destination h
  have along (context : Context) :
      s.contextAlong first second format destination extras = .ok context ↔
        layered = .ok context := by
    rw [s.contextAlong_eq_ok_iff hfirst hsecond format destination h, direct]
  refine ⟨direct, along, ?_, fun key other value => ?_⟩
  · calc (∃ cause, s.contextAlong first second format destination extras = .error cause)
      _ ↔ ∀ context, s.contextAlong first second format destination extras ≠ .ok context :=
        exists_eq_error_iff
      _ ↔ ∀ context, layered ≠ .ok context := forall_congr' fun context => (along context).not
      _ ↔ ∃ cause, layered = .error cause := exists_eq_error_iff.symm
      _ ↔ Unreadable (find? · extras) := s.exists_layered_eq_error_iff format destination _
  · have sorted : Increasing (SortedAssoc.insert key value extras) := h.upsert key _
    rw [s.conversionContext_eq format destination sorted]
    refine layered_congr (fun option known => ?_) s format destination
    exact (SortedAssoc.find?_insert ..).trans (if_neg (ne_of_mem_of_not_mem known other))

/-- Parameters of a conversion, two of which have names of the same option, one of which only a
build reads, and one of which nothing reads. -/
def crowded : Params :=
  [("colour", "blue"), ("header", "By hand"), ("legacy-brands", "apollo, artemis"),
    ("mode-convention", "penultimate"), ("output-references", "Off"), ("output-refs", "perhaps"),
    ("prefix", "acme"), ("show-header", "YES")]

theorem conversion_layers_crowded :
    let context : Context :=
      { destination := "tokens.css"
        showHeader := true
        headerLines := ["By hand"]
        outputReferences := false
        className := none
        packageName := none
        convention := .penultimate
        stemOption := some "acme" }
    "color-space" ∉ optionKeys ∧
    standard.contextAlong List.reverse List.reverse "css/variables" "tokens.css" crowded =
      .ok context ∧
    standard.conversionContext "css/variables" "tokens.css"
      (SortedAssoc.insert "color-space" "p3" crowded) = .ok context ∧
    ¬ Unreadable (find? · crowded) := by
  intro context
  have sorted : Increasing crowded := by
    unfold Increasing crowded
    decide
  obtain ⟨-, along, fails, others⟩ := standard.conversion_layers "css/variables" "tokens.css" sorted
    List.reverse_perm List.reverse_perm
  have other : "color-space" ∉ optionKeys := by decide
  have walked := (along context).2 rfl
  refine ⟨other, walked, (others "color-space" other "p3").trans rfl, fun unreadable => ?_⟩
  obtain ⟨cause, failed⟩ := fails.2 unreadable
  rw [walked] at failed
  cases failed

/-- Of two texts without meaning, the order of the walk decides which one is complained about. -/
example :
    standard.contextAlong id id "css/variables" "tokens.css"
        [("mode-convention", "none"), ("show-header", "maybe")] =
      .error (.unknownConvention "none") ∧
    standard.contextAlong id List.reverse "css/variables" "tokens.css"
        [("mode-convention", "none"), ("show-header", "maybe")] =
      .error (.invalidFlag "show-header" "maybe") := by
  constructor <;> rfl

end Settings

end DesignTokens

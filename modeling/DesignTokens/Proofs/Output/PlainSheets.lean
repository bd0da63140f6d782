import DesignTokens.Format
import DesignTokens.Proofs.Mode.Counterpart
import DesignTokens.Proofs.Output.SheetNames

/-!
# Plain stylesheets

A plain stylesheet is for brands without modes: it has one line for each token, in the order of the
list (`text_ofTokens`). SCSS declares every token under its own name. CSS declares a dark variant
under the name that it would have in a dark rule, which here is the name of another line: of two
lines of one name only the last one counts (`effective?`), so that the light value is lost
(`plain_sheet_declares_twice`). Both dialects keep every token under one and the same name exactly
if each dark variant has its own name in a dark rule too (`plain_sheets_keep_all_iff`).
-/

namespace DesignTokens.Stylesheet

/-! ### Lines -/

def plainOpening : Dialect → String
  | .css => ":root \x7b\n"
  | .scss => ""

def plainClosing : Dialect → String
  | .css => "\n\x7d\n"
  | .scss => "\n"

/-- The line of a declaration in a plain stylesheet. -/
def plainLine (d : Declaration) : Dialect → String
  | .css => propertyText "  " d
  | .scss => variableLine d

/-- The line of a retired name in a plain stylesheet. -/
def plainRetiredLine (retired : Alias) : Dialect → String
  | .css => retiredPropertyText "  " retired
  | .scss => aliasLine retired

theorem text_plain (dialect : Dialect) {declarations : List Declaration} {aliases : List Alias}
    (replaced : declarations = [] → aliases = []) :
    (plain dialect declarations aliases).text =
      plainOpening dialect ++
        "\n".intercalate (declarations.map (plainLine · dialect) ++
          aliases.map (plainRetiredLine · dialect)) ++ plainClosing dialect := by
  cases dialect with
  | css =>
    rw [intercalate_append_breaks _ _ (by simpa using replaced), text, rootBlock, propertiesText,
      aliasProperties_eq]
    simp only [plainOpening, plainClosing, plainLine, plainRetiredLine, String.append_assoc]
  | scss => simp [text, plainOpening, plainClosing, plainLine, plainRetiredLine]

section Declared

variable (dictionary : Dictionary) (context : Context)

def plainDeclaration (t : Token) : Dialect → Declaration
  | .css => property dictionary context t
  | .scss => variableOf dictionary context t

def plainDeclarations (dialect : Dialect) : List Declaration :=
  dictionary.tokens.map fun t => plainDeclaration dictionary context t dialect

/-- The names that a plain stylesheet declares for tokens, in order. -/
def plainNames (dialect : Dialect) : List String :=
  (plainDeclarations dictionary context dialect).map Declaration.name

theorem ofTokens_eq (dialect : Dialect) :
    ofTokens dialect dictionary context =
      plain dialect (plainDeclarations dictionary context dialect)
        (aliasesFor dictionary.tokens) := by
  cases dialect <;> rfl

/-- A plain stylesheet is one line for each token, and those of retired names. -/
theorem text_ofTokens (dialect : Dialect) :
    (ofTokens dialect dictionary context).text =
      plainOpening dialect ++
        "\n".intercalate
          (dictionary.tokens.map
              (fun t => plainLine (plainDeclaration dictionary context t dialect) dialect) ++
            (aliasesFor dictionary.tokens).map (plainRetiredLine · dialect)) ++
        plainClosing dialect := by
  rw [ofTokens_eq, text_plain, plainDeclarations, List.map_map]
  · rfl
  · intro none
    have : dictionary.tokens = [] := by simpa [plainDeclarations] using none
    rw [this, aliasesFor_nil]

theorem plainNames_css :
    plainNames dictionary context .css = dictionary.tokens.map (propertyName dictionary context) :=
  List.map_map

theorem plainNames_scss : plainNames dictionary context .scss = dictionary.tokens.map Token.name :=
  List.map_map

end Declared

/-! ### The names that are read -/

/-- The name that a plain stylesheet of the dialect declares. -/
def plainName (name : String) : Dialect → Name
  | .css => .property name
  | .scss => .scss name

theorem assigns_plainLine (d : Declaration) (dialect : Dialect) :
    Assigns (plainLine d dialect) (plainName d.name dialect) d.value := by
  cases dialect with
  | css => exact assigns_propertyText rfl d
  | scss => exact assigns_variableLine d

theorem declares_plainRetiredLine (retired : Alias) (dialect : Dialect) :
    Declares (plainRetiredLine retired dialect) (plainName retired.legacy dialect) := by
  cases dialect with
  | css => exact ⟨_, assigns_retiredPropertyText rfl retired⟩
  | scss => exact ⟨_, assigns_aliasLine retired⟩

theorem colon_not_mem_text_plainName {name : String} (plain : ':' ∉ name.toList)
    (dialect : Dialect) : ':' ∉ (plainName name dialect).text.toList := by
  cases dialect <;> simpa [plainName, Name.text] using plain

theorem namesIn_plainRetiredLine {retired : Alias} (h : retired ∈ Alias.table) (dialect : Dialect) :
    namesIn (plainRetiredLine retired dialect) = [plainName retired.legacy dialect] := by
  have plain : ∀ other ∈ Alias.table, ':' ∉ other.legacy.toList ∧
      '\n' ∉ (plainRetiredLine other dialect).toList := by
    cases dialect <;> decide +kernel
  obtain ⟨colon, single⟩ := plain retired h
  exact namesIn_of_declares (declares_plainRetiredLine retired dialect)
    (colon_not_mem_text_plainName colon dialect) single

theorem namesIn_frames (dialect : Dialect) (lines : String) :
    namesIn (plainOpening dialect ++ lines ++ plainClosing dialect) = namesIn lines := by
  have nothing : ∀ frame ∈ [":root \x7b", "\x7d", ""], namesIn frame = [] := by decide
  simp only [List.forall_mem_cons] at nothing
  cases dialect with
  | css =>
    have rows : plainOpening .css ++ lines ++ plainClosing .css =
        "\n".intercalate [":root \x7b", lines, "\x7d", ""] :=
      String.toList_injective (by simp [plainOpening, plainClosing])
    rw [rows, namesIn_intercalate]
    simp [nothing]
  | scss =>
    have rows : plainOpening .scss ++ lines ++ plainClosing .scss = lines ++ "\n" ++ "" := by
      simp [plainOpening, plainClosing]
    rw [rows, namesIn_append_break, nothing.2.2.1, List.append_nil]

/-- A reader finds the names of a plain stylesheet if no break spoils a line and no colon a name. -/
theorem namesIn_text_ofTokens {dictionary : Dictionary} {context : Context} {dialect : Dialect}
    (plain : ∀ t ∈ dictionary.tokens,
      '\n' ∉ (plainLine (plainDeclaration dictionary context t dialect) dialect).toList ∧
      ':' ∉ (plainDeclaration dictionary context t dialect).name.toList) :
    namesIn (ofTokens dialect dictionary context).text =
      (plainNames dictionary context dialect).map (plainName · dialect) ++
        (aliasesFor dictionary.tokens).map (plainName ·.legacy dialect) := by
  rw [text_ofTokens, namesIn_frames, namesIn_intercalate, List.flatMap_append, plainNames,
    plainDeclarations, List.map_map, List.map_map]
  congr 1
  · rw [List.flatMap_map, List.map_eq_flatMap]
    refine List.flatMap_congr fun t ht => ?_
    obtain ⟨single, colon⟩ := plain t ht
    exact namesIn_of_declares ⟨_, assigns_plainLine _ dialect⟩
      (colon_not_mem_text_plainName colon dialect) single
  · rw [List.flatMap_map, List.map_eq_flatMap]
    exact List.flatMap_congr fun retired h =>
      namesIn_plainRetiredLine (List.mem_of_mem_filter h) dialect

/-! ### The declaration that counts -/

/-- The declaration that counts for a name: the last one that has it. -/
def effective? (declarations : List Declaration) (name : String) : Option Declaration :=
  declarations.reverse.find? fun d => d.name = name

theorem effective?_of_nodup {declarations : List Declaration}
    (distinct : (declarations.map Declaration.name).Nodup) {d : Declaration}
    (h : d ∈ declarations) : effective? declarations d.name = some d := by
  cases found : effective? declarations d.name with
  | none => simpa using List.find?_eq_none.1 found d (List.mem_reverse.2 h)
  | some other =>
    have listed := List.mem_reverse.1 (List.mem_of_find?_eq_some found)
    have name : other.name = d.name := by simpa using List.find?_some found
    rw [List.inj_on_of_nodup_map distinct listed h name]

/-! ### Names in both dialects -/

section Names

variable {dictionary : Dictionary} {context : Context}

/-- The dialects name all tokens alike exactly if each dark variant goes by its own name. -/
theorem plainNames_eq_iff :
    plainNames dictionary context .css = plainNames dictionary context .scss ↔
      ∀ t ∈ dictionary.tokens, t.isDark context.convention →
        propertyName dictionary context t = t.name := by
  rw [plainNames_css, plainNames_scss, List.map_inj_left]
  refine forall₂_congr fun t _ => ⟨fun same _ => same, fun own => ?_⟩
  by_cases dark : t.isDark context.convention
  · exact own dark
  · exact propertyName_of_light (by simpa using dark)

/-- The names of CSS differ exactly if no other token goes by the name of a dark variant. -/
theorem nodup_plainNames_css_iff (distinct : (dictionary.tokens.map Token.name).Nodup) :
    (plainNames dictionary context .css).Nodup ↔
      ∀ t ∈ dictionary.tokens, t.isDark context.convention → ∀ u ∈ dictionary.tokens,
        propertyName dictionary context u = propertyName dictionary context t → u = t := by
  rw [plainNames_css, List.nodup_map_iff_inj_on (List.Nodup.of_map _ distinct)]
  constructor
  · intro injective t ht _ u hu same
    exact injective u hu t ht same
  · intro alone t ht u hu same
    by_cases dark : u.isDark context.convention
    · exact alone u hu dark t ht same
    by_cases other : t.isDark context.convention
    · exact (alone t ht other u hu same.symm).symm
    -- Two light tokens go by their own names.
    rw [propertyName_of_light (by simpa using other), propertyName_of_light (by simpa using dark)]
      at same
    exact List.inj_on_of_nodup_map distinct ht hu same

/-- A dark variant and its light counterpart are declared under one name in CSS. -/
theorem not_nodup_of_counterpart {t l : Token} (ht : t ∈ dictionary.tokens)
    (hl : l ∈ dictionary.tokens) (dark : t.isDark context.convention)
    (found : dictionary.counterpart? context.convention (t.canonicalPath context.convention) =
      some l) : ¬ (plainNames dictionary context .css).Nodup := by
  have light : l.isDark context.convention = false := by
    simpa using (Option.filter_eq_some_iff.1 found).2
  have same : propertyName dictionary context t = propertyName dictionary context l := by
    rw [(namedAfter_counterpart? dark).1, found, propertyName_of_light light]
    rfl
  intro distinct
  rw [plainNames_css] at distinct
  obtain rfl := List.inj_on_of_nodup_map distinct ht hl same
  rw [light] at dark
  exact Bool.false_ne_true dark

end Names

/-- **What plain stylesheets keep.** If all tokens have different names, a plain stylesheet of
either dialect is one line for each token, in order, and in SCSS each under its own name. CSS
declares the same names exactly if every dark variant goes by its own; its names differ exactly if
no other token goes by the name of a dark variant, which is not so where a dark variant stands
beside its counterpart. Where the names of a dialect differ, the declaration of each token counts
for its name. These names are the ones that the lines declare, and a reader finds them, followed by
the retired ones, if no break spoils a line and no colon a name. -/
theorem plain_sheets_keep_all_iff (dictionary : Dictionary) (context : Context)
    (distinct : (dictionary.tokens.map Token.name).Nodup) :
    (∀ dialect, Format.document dictionary context (.stylesheet dialect none) =
      context.header ++ (plainOpening dialect ++
        "\n".intercalate
          (dictionary.tokens.map
              (fun t => plainLine (plainDeclaration dictionary context t dialect) dialect) ++
            (aliasesFor dictionary.tokens).map (plainRetiredLine · dialect)) ++
        plainClosing dialect)) ∧
    plainNames dictionary context .scss = dictionary.tokens.map Token.name ∧
    (plainNames dictionary context .css = plainNames dictionary context .scss ↔
      ∀ t ∈ dictionary.tokens, t.isDark context.convention →
        propertyName dictionary context t = t.name) ∧
    ((plainNames dictionary context .css).Nodup ↔
      ∀ t ∈ dictionary.tokens, t.isDark context.convention → ∀ u ∈ dictionary.tokens,
        propertyName dictionary context u = propertyName dictionary context t → u = t) ∧
    (∀ t ∈ dictionary.tokens, ∀ l ∈ dictionary.tokens, t.isDark context.convention →
      dictionary.counterpart? context.convention (t.canonicalPath context.convention) = some l →
        ¬ (plainNames dictionary context .css).Nodup) ∧
    (∀ dialect, (plainNames dictionary context dialect).Nodup → ∀ t ∈ dictionary.tokens,
      effective? (plainDeclarations dictionary context dialect)
          (plainDeclaration dictionary context t dialect).name =
        some (plainDeclaration dictionary context t dialect)) ∧
    (∀ dialect, ∀ t ∈ dictionary.tokens,
      Assigns (plainLine (plainDeclaration dictionary context t dialect) dialect)
        (plainName (plainDeclaration dictionary context t dialect).name dialect)
        (plainDeclaration dictionary context t dialect).value) ∧
    ∀ dialect, (∀ t ∈ dictionary.tokens,
        '\n' ∉ (plainLine (plainDeclaration dictionary context t dialect) dialect).toList ∧
        ':' ∉ (plainDeclaration dictionary context t dialect).name.toList) →
      namesIn (ofTokens dialect dictionary context).text =
        (plainNames dictionary context dialect).map (plainName · dialect) ++
          (aliasesFor dictionary.tokens).map (plainName ·.legacy dialect) := by
  refine ⟨fun dialect => ?_, plainNames_scss dictionary context, plainNames_eq_iff,
    nodup_plainNames_css_iff distinct,
    fun t ht l hl dark found => not_nodup_of_counterpart ht hl dark found,
    fun dialect differ t ht => effective?_of_nodup differ (List.mem_map_of_mem ht),
    fun dialect t _ => assigns_plainLine _ dialect, fun dialect => namesIn_text_ofTokens⟩
  rw [← text_ofTokens]
  rfl

/-- A light token, and a dark variant without a counterpart that has the derived name. -/
def nightOnly : Dictionary :=
  .ofTokens [.ofValue ["color", "page"] "page" (.string "#fff"),
    .ofValue ["color", "dark", "glow"] "xpl-color-glow" (.string "#000")]

theorem plain_sheets_keep_all_iff_nightOnly :
    (nightOnly.tokens.map Token.name).Nodup ∧
      (∃ t ∈ nightOnly.tokens, t.isDark .standard) ∧
      plainNames nightOnly { destination := "" } .css = ["page", "xpl-color-glow"] ∧
      plainNames nightOnly { destination := "" } .css =
        plainNames nightOnly { destination := "" } .scss ∧
      (plainNames nightOnly { destination := "" } .css).Nodup := by
  have distinct : (nightOnly.tokens.map Token.name).Nodup := by decide +kernel
  obtain ⟨-, -, alike, -⟩ := plain_sheets_keep_all_iff nightOnly { destination := "" } distinct
  have same := alike.2 (by decide +kernel)
  exact ⟨distinct, by decide +kernel, by decide +kernel, same, by rw [same]; exact distinct⟩

/-- A light token and its dark variant. -/
def dayAndNight : Dictionary :=
  .ofTokens [.ofValue ["color", "page"] "page" (.string "#fff"),
    .ofValue ["color", "dark", "page"] "dark-page" (.string "#000")]

/-- In CSS both are declared under the name of the light token, whose value does not count; in SCSS
each has its own name. -/
theorem plain_sheet_declares_twice :
    (dayAndNight.tokens.map Token.name).Nodup ∧
      plainNames dayAndNight { destination := "" } .css = ["page", "page"] ∧
      plainNames dayAndNight { destination := "" } .scss = ["page", "dark-page"] ∧
      ¬ (plainNames dayAndNight { destination := "" } .css).Nodup ∧
      plainNames dayAndNight { destination := "" } .css ≠
        plainNames dayAndNight { destination := "" } .scss ∧
      (effective? (plainDeclarations dayAndNight { destination := "" } .css) "page").map
        Declaration.value = some "#000" := by
  decide +kernel

end DesignTokens.Stylesheet

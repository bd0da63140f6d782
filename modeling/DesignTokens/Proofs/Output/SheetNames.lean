import DesignTokens.Format
import DesignTokens.Proofs.Output.SheetLines
import DesignTokens.Proofs.Reference.Emitted

/-!
# Names in moded stylesheets

A moded stylesheet is lines in frames: those of the root, those of the dark rule and, in SCSS, the
global ones (`Sheet.text`). Every token has a property line, so that what a value refers to is
declared by a line; every other line stands for a name that a line declares (`names_declared`). A
reader of the text finds the names line by line (`namesIn_text`).
-/

namespace DesignTokens.Stylesheet

open Reference (emitted mem_tokens_of_mem_emitted)

/-- The lines of a moded stylesheet. -/
structure Sheet where
  root : List String
  dark : List String
  globals : List String

namespace Sheet

def lines (sheet : Sheet) : List String :=
  sheet.root ++ sheet.dark ++ sheet.globals

def darkRows (dark : String) : DarkRule → List String
  | .darkClass => [".dark \x7b", dark, "\x7d"]
  | .darkMedia =>
    ["@media (prefers-color-scheme: dark) \x7b", "  :root \x7b", dark, "  \x7d", "\x7d"]

/-- What follows the dark rule. -/
def lastRows (globals : String) : Dialect → DarkRule → List String
  | .css, .darkClass => []
  | .css, .darkMedia => [""]
  | .scss, _ => ["", globals, ""]

/-- The text of a stylesheet: its lines in the frames of the root and of the dark rule. -/
def text (dialect : Dialect) (rule : DarkRule) (sheet : Sheet) : String :=
  "\n".intercalate
    ([":root \x7b", "\n".intercalate sheet.root, "\x7d", ""] ++
      darkRows ("\n".intercalate sheet.dark) rule ++
      lastRows ("\n".intercalate sheet.globals) dialect rule)

theorem namesIn_text {dialect : Dialect} (rule : DarkRule) {sheet : Sheet}
    (globals : dialect = .css → sheet.globals = []) :
    namesIn (sheet.text dialect rule) = sheet.lines.flatMap namesIn := by
  have frames : ∀ frame ∈ [":root \x7b", "\x7d", "", ".dark \x7b", "  :root \x7b", "  \x7d",
      "@media (prefers-color-scheme: dark) \x7b"], namesIn frame = [] := by
    decide
  simp only [List.forall_mem_cons] at frames
  rw [text, namesIn_intercalate]
  cases dialect <;> cases rule <;>
    simp [lines, darkRows, lastRows, namesIn_intercalate, frames, globals]

end Sheet

/-! ### The lines of a dictionary -/

section Lines

variable (dictionary : Dictionary) (context : Context)

def lightTokens : List Token :=
  dictionary.tokens.filter fun t => !t.isDark context.convention

def darkTokens : List Token :=
  dictionary.tokens.filter fun t => t.isDark context.convention

/-- How far the lines of a dark rule are indented. -/
def darkIndent : DarkRule → String
  | .darkClass => "  "
  | .darkMedia => "    "

def sheet (dialect : Dialect) (rule : DarkRule) : Sheet :=
  let light := lightTokens dictionary context
  { root := light.map (fun t => propertyText "  " (property dictionary context t)) ++
      (aliasesFor light).map (retiredPropertyText "  ")
    dark := (darkTokens dictionary context).map fun t =>
      propertyText (darkIndent rule) (property dictionary context t)
    globals :=
      match dialect with
      | .css => []
      | .scss =>
        light.map (fun t => globalLine (property dictionary context t)) ++
          (aliasesFor light).map aliasLine }

end Lines

theorem aliasesFor_nil : aliasesFor [] = [] := by
  simp [aliasesFor]

theorem intercalate_append_breaks (front behind : List String) (h : front = [] → behind = []) :
    "\n".intercalate (front ++ behind) =
      "\n".intercalate front ++ String.join (behind.map ("\n" ++ ·)) := by
  induction behind generalizing front with
  | nil => simp
  | cons line behind ih =>
    have some_line : front ≠ [] := fun none => by simpa using h none
    rw [← List.singleton_append, ← List.append_assoc, ih _ (by simp),
      String.intercalate_append_of_ne_nil some_line (by simp)]
    simp [String.append_assoc]

theorem aliasProperties_eq (indent : String) (aliases : List Alias) :
    aliasProperties indent aliases =
      String.join ((aliases.map (retiredPropertyText indent)).map ("\n" ++ ·)) := by
  simp [aliasProperties, retiredPropertyText, Function.comp_def, String.append_assoc]

theorem text_moded (dialect : Dialect) (rule : DarkRule) (light dark : List Declaration)
    (aliases : List Alias) :
    (moded dialect rule light dark aliases).text =
      "\n".intercalate
        ([":root \x7b", propertiesText "  " light ++ aliasProperties "  " aliases, "\x7d", ""] ++
          Sheet.darkRows (propertiesText (darkIndent rule) dark) rule ++
          Sheet.lastRows ("\n".intercalate (light.map globalLine ++ aliases.map aliasLine))
            dialect rule) := by
  refine String.toList_injective ?_
  cases dialect <;> cases rule <;>
    simp [text, rootBlock, darkBlock.eq_def, darkEnd, darkIndent, Sheet.darkRows, Sheet.lastRows]

/-- A moded stylesheet is its lines in their frames. -/
theorem text_ofVariants (dialect : Dialect) (rule : DarkRule) (dictionary : Dictionary)
    (context : Context) :
    (ofVariants dialect rule dictionary context).text =
      (sheet dictionary context dialect rule).text dialect rule := by
  have root : "\n".intercalate (sheet dictionary context dialect rule).root =
      propertiesText "  " ((lightTokens dictionary context).map (property dictionary context)) ++
        aliasProperties "  " (aliasesFor (lightTokens dictionary context)) := by
    rw [propertiesText, aliasProperties_eq, List.map_map, sheet.eq_def, intercalate_append_breaks]
    · rfl
    · intro none
      have : lightTokens dictionary context = [] := by simpa using none
      rw [this, aliasesFor_nil, List.map_nil]
  have dark : "\n".intercalate (sheet dictionary context dialect rule).dark =
      propertiesText (darkIndent rule)
        ((darkTokens dictionary context).map (property dictionary context)) := by
    rw [propertiesText, List.map_map, sheet.eq_def]
    rfl
  rw [ofVariants, text_moded, ← lightTokens, ← darkTokens, ← root, ← dark, Sheet.text, List.map_map]
  cases dialect with
  | css => cases rule <;> rfl
  | scss => rfl

/-! ### What is declared -/

section Declared

variable {dictionary : Dictionary} {context : Context}

variable (dictionary context) in
/-- The line is the property line of a token. Its value is what is emitted for the token, and in it
other tokens are referred to by their properties. -/
def IsProperty (t : Token) (line : String) : Prop :=
  ∃ value, Assigns line (.property (propertyName dictionary context t)) value ∧
    ∀ format : Token → String,
      (∀ r ∈ emitted dictionary context.outputReferences t,
        format r = (Name.property (propertyName dictionary context r)).reference) →
      value = Reference.emit dictionary context.outputReferences format t

theorem IsProperty.declares {t : Token} {line : String} (h : IsProperty dictionary context t line) :
    Declares line (.property (propertyName dictionary context t)) := by
  obtain ⟨value, assigns, -⟩ := h
  exact ⟨value, assigns⟩

theorem isProperty_propertyText {indent : String} (blank : indent.toList.all Char.isWhitespace)
    (t : Token) :
    IsProperty dictionary context t (propertyText indent (property dictionary context t)) :=
  ⟨_, assigns_propertyText blank _, fun _ same =>
    Reference.emit_congr fun r hr => (same r hr).symm⟩

theorem blank_darkIndent (rule : DarkRule) : (darkIndent rule).toList.all Char.isWhitespace := by
  cases rule <;> decide

theorem mem_lightTokens {t : Token} :
    t ∈ lightTokens dictionary context ↔
      t ∈ dictionary.tokens ∧ t.isDark context.convention = false := by
  simp [lightTokens]

theorem mem_darkTokens {t : Token} :
    t ∈ darkTokens dictionary context ↔
      t ∈ dictionary.tokens ∧ t.isDark context.convention := by
  simp [darkTokens]

theorem propertyName_of_light {t : Token} (light : t.isDark context.convention = false) :
    propertyName dictionary context t = t.name := by
  simp [propertyName, Token.sharedName, light]

theorem name_property_of_light {t : Token} (light : t.isDark context.convention = false) :
    (property dictionary context t).name = t.name :=
  propertyName_of_light light

variable (dialect : Dialect) (rule : DarkRule)

theorem exists_root_of_light {t : Token} (ht : t ∈ dictionary.tokens)
    (light : t.isDark context.convention = false) :
    ∃ line ∈ (sheet dictionary context dialect rule).root, IsProperty dictionary context t line :=
  ⟨_, List.mem_append_left _ (List.mem_map_of_mem (mem_lightTokens.2 ⟨ht, light⟩)),
    isProperty_propertyText rfl t⟩

theorem exists_dark_of_isDark {t : Token} (ht : t ∈ dictionary.tokens)
    (dark : t.isDark context.convention) :
    ∃ line ∈ (sheet dictionary context dialect rule).dark, IsProperty dictionary context t line :=
  ⟨_, List.mem_map_of_mem (mem_darkTokens.2 ⟨ht, dark⟩),
    isProperty_propertyText (blank_darkIndent rule) t⟩

theorem exists_property {t : Token} (ht : t ∈ dictionary.tokens) :
    ∃ line ∈ (sheet dictionary context dialect rule).root ++
        (sheet dictionary context dialect rule).dark,
      IsProperty dictionary context t line ∧
      (t.isDark context.convention = false →
        line ∈ (sheet dictionary context dialect rule).root) := by
  cases light : t.isDark context.convention with
  | false =>
    obtain ⟨line, hline, own⟩ := exists_root_of_light dialect rule ht light
    exact ⟨line, List.mem_append_left _ hline, own, fun _ => hline⟩
  | true =>
    obtain ⟨line, hline, own⟩ := exists_dark_of_isDark dialect rule ht light
    exact ⟨line, List.mem_append_right _ hline, own, nofun⟩

theorem exists_global_of_light {t : Token} (ht : t ∈ dictionary.tokens)
    (light : t.isDark context.convention = false) :
    ∃ line ∈ (sheet dictionary context .scss rule).globals,
      Assigns line (.scss t.name) (Name.property t.name).reference := by
  refine ⟨_, List.mem_append_left _ (List.mem_map_of_mem (mem_lightTokens.2 ⟨ht, light⟩)), ?_⟩
  have assigns := assigns_globalLine (property dictionary context t)
  rwa [name_property_of_light light] at assigns

theorem exists_of_mem_aliasesFor {retired : Alias}
    (h : retired ∈ aliasesFor (lightTokens dictionary context)) :
    ∃ t ∈ dictionary.tokens, t.isDark context.convention = false ∧ t.name = retired.current := by
  simp only [aliasesFor, List.mem_filter, List.any_eq_true, beq_iff_eq] at h
  obtain ⟨-, t, ht, name⟩ := h
  obtain ⟨listed, light⟩ := mem_lightTokens.1 ht
  exact ⟨t, listed, light, name⟩

/-- A line gives another name to what a line of the sheet declares. -/
def StandsFor (sheet : Sheet) (line : String) : Prop :=
  ∃ name other : Name, Assigns line name other.reference ∧
    ∃ declaring ∈ sheet.lines, Declares declaring other

/-- Every line is the property line of a token, or gives another name to what a line declares. -/
theorem isProperty_or_standsFor {line : String}
    (hline : line ∈ (sheet dictionary context dialect rule).lines) :
    (∃ t ∈ dictionary.tokens, IsProperty dictionary context t line) ∨
      StandsFor (sheet dictionary context dialect rule) line := by
  have declared : ∀ {t : Token}, t ∈ dictionary.tokens → t.isDark context.convention = false →
      ∃ declaring ∈ (sheet dictionary context dialect rule).lines,
        Declares declaring (.property t.name) := by
    intro t ht light
    obtain ⟨declaring, hdeclaring, own⟩ := exists_root_of_light dialect rule ht light
    refine ⟨declaring, List.mem_append_left _ (List.mem_append_left _ hdeclaring), ?_⟩
    have declares := own.declares
    rwa [propertyName_of_light light] at declares
  rcases List.mem_append.1 hline with hblock | hglobal
  · rcases List.mem_append.1 hblock with hroot | hdark
    · rcases List.mem_append.1 hroot with hlight | hretired
      · obtain ⟨t, ht, rfl⟩ := List.mem_map.1 hlight
        exact .inl ⟨t, (mem_lightTokens.1 ht).1, isProperty_propertyText rfl t⟩
      · obtain ⟨retired, hmem, rfl⟩ := List.mem_map.1 hretired
        obtain ⟨t, ht, light, current⟩ := exists_of_mem_aliasesFor hmem
        exact .inr ⟨_, _, assigns_retiredPropertyText rfl retired, current ▸ declared ht light⟩
    · obtain ⟨t, ht, rfl⟩ := List.mem_map.1 hdark
      exact .inl ⟨t, (mem_darkTokens.1 ht).1, isProperty_propertyText (blank_darkIndent rule) t⟩
  · cases dialect with
    | css => exact absurd hglobal List.not_mem_nil
    | scss =>
      rcases List.mem_append.1 hglobal with hlight | hretired
      · obtain ⟨t, ht, rfl⟩ := List.mem_map.1 hlight
        obtain ⟨listed, light⟩ := mem_lightTokens.1 ht
        refine .inr ⟨_, _, assigns_globalLine _, ?_⟩
        rw [name_property_of_light light]
        exact declared listed light
      · obtain ⟨retired, hmem, rfl⟩ := List.mem_map.1 hretired
        obtain ⟨t, ht, light, current⟩ := exists_of_mem_aliasesFor hmem
        obtain ⟨line, hline, assigns⟩ := exists_global_of_light rule ht light
        refine .inr ⟨_, _, assigns_aliasLine retired, line, List.mem_append_right _ hline, ?_⟩
        exact current ▸ ⟨_, assigns⟩

/-- **No name is dangling.** The document of a moded stylesheet is lines in frames. Every token has
a property line, a light one in the root and under its own name, and in SCSS also a global variable
that stands for it. What is emitted for a token refers to names that property lines declare, in the
root if the token that is referred to is a light one; every other line stands for a name that a line
declares. A reader finds the names in the lines, one by one, and so the name that a line declares if
no break spoils the line and no colon the name. -/
theorem names_declared (dictionary : Dictionary) (context : Context)
    (own : dictionary.referents = dictionary.tokens) (dialect : Dialect) (rule : DarkRule) :
    ∃ sheet : Sheet,
      Format.document dictionary context (.stylesheet dialect (some rule)) =
        context.header ++ sheet.text dialect rule ∧
      (∀ t ∈ dictionary.tokens, t.isDark context.convention = false →
        propertyName dictionary context t = t.name ∧
        (∃ line ∈ sheet.root, IsProperty dictionary context t line) ∧
        (dialect = .scss → ∃ line ∈ sheet.globals,
          Assigns line (.scss t.name) (Name.property t.name).reference)) ∧
      (∀ t ∈ dictionary.tokens, t.isDark context.convention →
        ∃ line ∈ sheet.dark, IsProperty dictionary context t line) ∧
      (∀ t ∈ dictionary.tokens, ∀ r ∈ emitted dictionary context.outputReferences t,
        ∃ line ∈ sheet.root ++ sheet.dark,
          Declares line (.property (propertyName dictionary context r)) ∧
          (r.isDark context.convention = false → line ∈ sheet.root)) ∧
      (∀ line ∈ sheet.lines, (∃ t ∈ dictionary.tokens, IsProperty dictionary context t line) ∨
        StandsFor sheet line) ∧
      namesIn (sheet.text dialect rule) = sheet.lines.flatMap namesIn ∧
      ∀ line ∈ sheet.lines, '\n' ∉ line.toList → ∀ name, Declares line name →
        ':' ∉ name.text.toList → name ∈ namesIn (sheet.text dialect rule) := by
  have read : namesIn ((sheet dictionary context dialect rule).text dialect rule) =
      (sheet dictionary context dialect rule).lines.flatMap namesIn :=
    Sheet.namesIn_text rule (by rintro rfl; rfl)
  refine ⟨sheet dictionary context dialect rule, ?_, fun t ht light => ⟨propertyName_of_light light,
    exists_root_of_light dialect rule ht light, ?_⟩, fun t => exists_dark_of_isDark dialect rule,
    fun t _ r hr => ?_, fun line => isProperty_or_standsFor dialect rule, read,
    fun line hline single name declares plain => ?_⟩
  · rw [← text_ofVariants]
    rfl
  · rintro rfl
    exact exists_global_of_light rule ht light
  · obtain ⟨line, hline, property, light⟩ :=
      exists_property dialect rule (mem_tokens_of_mem_emitted own hr)
    exact ⟨line, hline, property.declares, light⟩
  · rw [read]
    refine List.mem_flatMap.2 ⟨line, hline, ?_⟩
    simp [namesIn_of_declares declares plain single]

end Declared

/-- A dark variant without a counterpart, a reference to it, and the name of a replacement. -/
def shadowOnly : Dictionary :=
  .ofTokens [.ofValue ["color", "dark", "shadow"] "dark-shadow" (.string "#000"),
    (Token.ofValue ["size", "glow"] "glow" (.string "0 0 #000")).writtenAs
      "0 0 \x7bcolor.dark.shadow\x7d",
    .ofValue ["color", "clear"] "xpl-color-transparent-0" (.string "#0000")]

theorem names_declared_shadowOnly :
    let context : Context :=
      { destination := "colors.scss", outputReferences := true, showHeader := false }
    let document := Format.document shadowOnly context (.stylesheet .scss (some .darkMedia))
    shadowOnly.referents = shadowOnly.tokens ∧
    namesIn document =
      [.property "glow", .property "xpl-color-transparent-0", .property "xpl-color-transparent",
        .property "xpl-color-shadow", .scss "glow", .scss "xpl-color-transparent-0",
        .scss "xpl-color-transparent"] ∧
    ∃ sheet : Sheet, document = context.header ++ sheet.text .scss .darkMedia ∧
      ∀ t ∈ shadowOnly.tokens, ∀ r ∈ emitted shadowOnly true t, ∃ line ∈ sheet.root ++ sheet.dark,
        Declares line (.property (propertyName shadowOnly context r)) := by
  intro context document
  obtain ⟨written, text, -, -, references, -⟩ :=
    names_declared shadowOnly context rfl .scss .darkMedia
  have bare : document = (sheet shadowOnly context .scss .darkMedia).text .scss .darkMedia := by
    have whole : document = "" ++ (ofVariants .scss .darkMedia shadowOnly context).text := rfl
    rw [whole, String.empty_append, text_ofVariants]
  refine ⟨rfl, ?_, written, text, fun t ht r hr => ?_⟩
  · have lines : namesIn ((sheet shadowOnly context .scss .darkMedia).text .scss .darkMedia) = _ :=
      Sheet.namesIn_text .darkMedia (by rintro ⟨⟩)
    rw [bare, lines]
    decide +kernel
  · obtain ⟨line, hline, declares, -⟩ := references t ht r hr
    exact ⟨line, hline, declares⟩

end DesignTokens.Stylesheet

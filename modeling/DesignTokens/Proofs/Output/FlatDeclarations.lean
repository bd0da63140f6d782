import DesignTokens.Format
import DesignTokens.Proofs.Identifier.EarlierNames
import DesignTokens.Proofs.Mode.Grouping
import DesignTokens.Proofs.Output.SourceLines
import Mathlib.Data.List.Pairwise

/-!
# What a flat Swift enum declares

The text of a flat enum is made of two scopes (`FlatEnum.text_eq`), that of the enum and, for
colors, that of the extension of `Color`, and both declare the members of the canonical paths and
their earlier names. The earlier names are made one member at a time, so a scope declares every name
once exactly if the names of the members are `FlatEnum.NamesApart` (`FlatEnum.declares_once_iff`):
the earlier name of one member can be the current name of another one (`FlatEnum.declares_twice`).
-/

namespace DesignTokens

theorem Context.stem_ne_empty (context : Context) : context.stem ≠ "" := by
  unfold stem
  cases found : context.stemOption.filter (!·.isEmpty) with
  | none => decide
  | some text =>
    have named := (Option.filter_eq_some_iff.1 found).2
    simpa using named

namespace FlatEnum

/-! ### Scopes -/

/-- A declaration with what stands in front of it. -/
structure Declared where
  lead : String
  name : String
  body : SwiftMember.Body

def Declared.text (d : Declared) : String :=
  d.lead ++ SwiftMember.declarationText "    " d.name d.body ++ "\n"

/-- Declarations side by side: the members, and behind a note their earlier names. -/
structure Scope where
  members : List Declared
  note : String
  earlier : List Declared

/-- The lines of a scope; without earlier names there is no note. -/
def Scope.text (s : Scope) : String :=
  String.join (s.members.map Declared.text) ++
    if s.earlier.isEmpty then "" else s.note ++ String.join (s.earlier.map Declared.text)

def Scope.names (s : Scope) : List String :=
  (s.members ++ s.earlier).map Declared.name

def enumScope (e : FlatEnum) : Scope :=
  { members := e.members.map fun m =>
      ⟨SwiftMember.attributeText "    " m.deprecation, Identifier.swift m.name, m.body⟩
    note := aliasMark ++
      "    // These aliases maintain compatibility with older token names.\n" ++
      "    // They will be removed in a future major version.\n\n"
    earlier := e.aliases.map fun a =>
      ⟨renamedAttribute a, Identifier.swift a.legacy, .fixed (Identifier.swift a.current)⟩ }

/-- A member of the enum as a member of `Color`. -/
def asColor (e : FlatEnum) (lead name : String) : Declared :=
  ⟨lead, Identifier.swift name,
    .fixed ("Color(" ++ e.className ++ "." ++ Identifier.swift name ++ ")")⟩

def colorScope (e : FlatEnum) : Scope :=
  { members := e.members.map fun m =>
      e.asColor (SwiftMember.attributeText "    " m.deprecation) m.name
    note := aliasMark ++ "\n"
    earlier := e.aliases.map fun a => e.asColor (renamedAttribute a) a.legacy }

theorem text_enumScope (e : FlatEnum) :
    e.enumScope.text = String.join (e.members.map memberText) ++ aliasesText e.aliases := by
  have members : e.enumScope.members.map Declared.text = e.members.map memberText := by
    rw [enumScope, List.map_map]
    exact List.map_congr_left fun m _ => rfl
  have earlier : e.enumScope.earlier.map Declared.text = e.aliases.map aliasText := by
    rw [enumScope, List.map_map]
    exact List.map_congr_left fun a _ => by
      simp only [Function.comp_apply, Declared.text, aliasText, String.append_assoc]
  rw [Scope.text, members, earlier, aliasesText]
  simp [enumScope]

theorem text_asColor (e : FlatEnum) (lead name : String) :
    (e.asColor lead name).text = lead ++ extensionLine e.className name := by
  simp only [asColor, Declared.text, extensionLine, String.append_assoc]

theorem text_colorScope (e : FlatEnum) :
    "extension Color \x7b\n" ++ e.colorScope.text ++ "\x7d\n" = extensionText e := by
  have members : e.colorScope.members.map Declared.text = e.members.map fun m =>
      SwiftMember.attributeText "    " m.deprecation ++ extensionLine e.className m.name := by
    simp only [colorScope, List.map_map, Function.comp_def, text_asColor]
  have earlier : e.colorScope.earlier.map Declared.text = e.aliases.map fun a =>
      renamedAttribute a ++ extensionLine e.className a.legacy := by
    simp only [colorScope, List.map_map, Function.comp_def, text_asColor]
  unfold Scope.text extensionText
  rw [members, earlier, colorScope, List.isEmpty_map]
  simp only [String.append_assoc]

/-- The text of a flat enum: its scope, and for colors that of the extension. -/
theorem text_eq (e : FlatEnum) :
    e.text = SwiftMember.importLines ++ "public enum " ++ e.className ++ " \x7b\n" ++
      e.enumScope.text ++ "\x7d\n\n" ++
      if e.legacyWord = .color then "extension Color \x7b\n" ++ e.colorScope.text ++ "\x7d\n"
      else "" := by
  rw [text, text_enumScope, text_colorScope]
  simp only [String.append_assoc]

/-! ### Names -/

/-- The names of the members, one for each canonical path. -/
def memberNames (dictionary : Dictionary) (context : Context) : List String :=
  (Groups.ofTokens context.convention dictionary.tokens).map fun group =>
    pairName dictionary context group.2

/-- The identifiers of names, and those of the earlier names of each. -/
def identifiers (word : LegacyWord) (stem : String) (names : List String) : List String :=
  names.map Identifier.swift ++
    names.flatMap fun name => (word.earlierNames stem name).map Identifier.swift

theorem names_enumScope (dictionary : Dictionary) (context : Context) :
    (ofDictionary dictionary context).enumScope.names =
      identifiers (.ofClassName (context.rootName defaultRoot)) context.stem
        (memberNames dictionary context) := by
  simp only [Scope.names, enumScope, ofDictionary, identifiers, memberNames, member, aliasesOf,
    List.map_append, List.map_map, List.map_flatMap, List.flatMap_map, Function.comp_def]

theorem names_colorScope (e : FlatEnum) : e.colorScope.names = e.enumScope.names := by
  simp only [Scope.names, enumScope, colorScope, asColor, List.map_append, List.map_map,
    Function.comp_def]

/-- Names that differ from each other and from the earlier names, as identifiers, and of which no
two share an earlier name. -/
structure NamesApart (word : LegacyWord) (stem : String) (names : List String) : Prop where
  /-- No name is a reserved word beside the same word in backticks. -/
  current : ∀ name ∈ names, name ∈ Identifier.swiftReserved → Identifier.backticked name ∉ names
  /-- No name is the earlier name of one. -/
  earlier : ∀ name ∈ names, ∀ old ∈ word.earlierNames stem name, ∀ other ∈ names,
    Identifier.swift other ≠ Identifier.swift old
  /-- No two names have had the same one. -/
  shared : ∀ name ∈ names, ∀ other ∈ names, name ≠ other →
    ∀ old ∈ word.earlierNames stem name, old ∉ word.earlierNames stem other

/-- Earlier names all start as the stem does, so none is another one in backticks. -/
theorem swift_inj_of_earlier {word : LegacyWord} {stem name other old old' : String}
    (named : stem ≠ "") (h : old ∈ word.earlierNames stem name)
    (h' : old' ∈ word.earlierNames stem other) :
    Identifier.swift old = Identifier.swift old' ↔ old = old' := by
  have heads : old.toList.head?.map Text.fold = old'.toList.head?.map Text.fold :=
    (LegacyWord.head?_of_mem_earlierNames named h).trans
      (LegacyWord.head?_of_mem_earlierNames named h').symm
  have apart : ∀ w ∈ Identifier.swiftReserved,
      w.toList.head?.map Text.fold ≠ some (Text.fold '\x60') := by decide +kernel
  have quoted : ∀ w, (Identifier.backticked w).toList.head?.map Text.fold =
      some (Text.fold '\x60') := fun w => by simp [Identifier.backticked]
  rw [Identifier.swift_eq_iff]
  refine ⟨?_, .inl⟩
  rintro (same | ⟨reserved, rfl⟩ | ⟨reserved, rfl⟩)
  · exact same
  · exact absurd (heads.trans (quoted old)) (apart old reserved)
  · exact absurd (heads.symm.trans (quoted old')) (apart old' reserved)

/-- The earlier names of two names share an identifier only if they share a name. -/
theorem disjoint_earlierNames_iff {word : LegacyWord} {stem name other : String}
    (named : stem ≠ "") :
    List.Disjoint ((word.earlierNames stem name).map Identifier.swift)
      ((word.earlierNames stem other).map Identifier.swift) ↔
      ∀ old ∈ word.earlierNames stem name, old ∉ word.earlierNames stem other := by
  simp only [List.disjoint_left, List.forall_mem_map]
  refine forall₂_congr fun old hold => not_congr ?_
  rw [List.mem_map]
  constructor
  · rintro ⟨old', hold', same⟩
    exact (swift_inj_of_earlier named hold' hold).1 same ▸ hold'
  · exact fun hother => ⟨old, hother, rfl⟩

/-- Of names without repetition, what each stands for repeats nowhere if it does not within one name
and no two names share any. -/
theorem nodup_flatMap_iff {α β : Type} {l : List α} (distinct : l.Nodup) {f : α → List β} :
    (l.flatMap f).Nodup ↔
      (∀ a ∈ l, (f a).Nodup) ∧ ∀ a ∈ l, ∀ b ∈ l, a ≠ b → List.Disjoint (f a) (f b) := by
  rw [List.nodup_flatMap]
  have symmetric : Std.Symm (Function.onFun List.Disjoint f) := ⟨fun _ _ apart => apart.symm⟩
  exact and_congr_right fun _ =>
    ⟨fun apart a ha b hb ne => apart.forall ha hb ne, distinct.pairwise_of_forall_ne⟩

/-- Identifiers of distinct names repeat where one name is another one in backticks. -/
theorem nodup_map_swift_iff {names : List String} (distinct : names.Nodup) :
    (names.map Identifier.swift).Nodup ↔
      ∀ name ∈ names, name ∈ Identifier.swiftReserved → Identifier.backticked name ∉ names := by
  rw [List.nodup_map_iff_inj_on distinct]
  constructor
  · intro apart name hname reserved hquoted
    have same :=
      apart name hname _ hquoted (Identifier.swift_eq_iff.2 (.inr (.inl ⟨reserved, rfl⟩)))
    exact Identifier.backticked_ne name same.symm
  · intro apart name hname other hother same
    rcases Identifier.swift_eq_iff.1 same with same | ⟨reserved, rfl⟩ | ⟨reserved, rfl⟩
    · exact same
    · exact absurd hother (apart name hname reserved)
    · exact absurd hname (apart other hother reserved)

/-- **Distinct names** have distinct identifiers, together with their earlier names, exactly if they
are apart. -/
theorem nodup_identifiers_iff {word : LegacyWord} {stem : String} {names : List String}
    (named : stem ≠ "") (distinct : names.Nodup) :
    (identifiers word stem names).Nodup ↔ NamesApart word stem names := by
  have own : ∀ name, ((word.earlierNames stem name).map Identifier.swift).Nodup := fun name =>
    (List.nodup_map_iff_inj_on (LegacyWord.nodup_earlierNames word stem name)).2
      fun _ h _ h' => (swift_inj_of_earlier named h h').1
  rw [identifiers, List.nodup_append, nodup_map_swift_iff distinct, nodup_flatMap_iff distinct]
  simp only [own, disjoint_earlierNames_iff named, List.forall_mem_map, List.mem_flatMap]
  constructor
  · rintro ⟨current, ⟨-, shared⟩, earlier⟩
    refine ⟨current, fun name hname old hold other hother => ?_, shared⟩
    exact earlier other hother _ ⟨name, hname, List.mem_map_of_mem hold⟩
  · rintro ⟨current, earlier, shared⟩
    refine ⟨current, ⟨fun _ _ => trivial, shared⟩, ?_⟩
    rintro other hother legacy ⟨name, hname, hlegacy⟩
    obtain ⟨old, hold, rfl⟩ := List.mem_map.1 hlegacy
    exact earlier name hname old hold other hother

/-! ### What is read -/

open Container (indentation)
open Outline (Language Reading Reads isNameChar break_not_mem_of_isNameChar)

/-- The declaration is on lines of its own, behind lines that declare nothing. -/
structure Declared.IsLegible (d : Declared) : Prop where
  lead : ∀ r : Reading, r.depth = 1 → Reads .swift r d.lead r
  name : d.name.toList.all isNameChar
  body : ∀ text ∈ d.body.texts, '\n' ∉ text.toList

theorem reads_declared {declared : List Declared} (each : ∀ d ∈ declared, d.IsLegible) {r : Reading}
    (depth : r.depth = 1) :
    Reads .swift r (String.join (declared.map Declared.text))
      (r.add [] (declared.map Declared.name)) := by
  induction declared generalizing r with
  | nil => simpa [Reading.add_nil] using Outline.reads_empty
  | cons d declared ih =>
    rw [List.forall_mem_cons] at each
    obtain ⟨⟨lead, plain, single⟩, rest⟩ := each
    have line := SwiftMember.reads_declarationText "" (r := r) plain single (by simp)
    have behind := ih rest (r := r.add [] [d.name]) depth
    rw [depth, String.append_empty] at line
    rw [Reading.add_add] at behind
    have lines := ((lead r depth).append line).append behind
    simpa [Declared.text, indentation, Container.deeper, String.append_assoc] using lines

theorem reads_scope {s : Scope} (note : ∀ r : Reading, r.depth = 1 → Reads .swift r s.note r)
    (members : ∀ d ∈ s.members, d.IsLegible) (earlier : ∀ d ∈ s.earlier, d.IsLegible) {r : Reading}
    (depth : r.depth = 1) : Reads .swift r s.text (r.add [] s.names) := by
  have current := reads_declared members depth
  rw [Scope.text]
  split
  · next none =>
    rw [List.isEmpty_iff] at none
    simpa [Scope.names, none] using current
  · have later := reads_declared earlier (r := r.add [] (s.members.map Declared.name)) depth
    have lines := current.append ((note (r.add [] _) depth).append later)
    rw [Reading.add_add] at lines
    simpa [Scope.names] using lines

theorem reads_comment {comment : String} (single : '\n' ∉ comment.toList) {r : Reading}
    (depth : r.depth = 1) : Reads .swift r (indentation 1 ++ ("// " ++ comment) ++ "\n") r := by
  have line := Outline.reads_nothing .swift r ("// " ++ comment)
    (by simpa using single)
    (by simpa using Language.indentedEvent_swift_of_head (by decide) (by decide) _)
  rwa [depth] at line

theorem reads_aliasMark {r : Reading} (depth : r.depth = 1) : Reads .swift r aliasMark r := by
  have text : aliasMark =
      "\n" ++ (indentation 1 ++ ("// " ++ "MARK: - Backwards Compatibility Aliases") ++ "\n") := by
    decide +kernel
  rw [text]
  exact (Outline.reads_blank rfl).append (reads_comment (by decide) depth)

theorem reads_note_enumScope (e : FlatEnum) {r : Reading} (depth : r.depth = 1) :
    Reads .swift r e.enumScope.note r := by
  let first := "These aliases maintain compatibility with older token names."
  let second := "They will be removed in a future major version."
  have text : e.enumScope.note = aliasMark ++ (indentation 1 ++ ("// " ++ first) ++ "\n") ++
      (indentation 1 ++ ("// " ++ second) ++ "\n" ++ "\n") :=
    congrArg₂ (fun first second => aliasMark ++ first ++ second)
      (show "    // These aliases maintain compatibility with older token names.\n" = _ by
        decide +kernel)
      (show "    // They will be removed in a future major version.\n\n" = _ by decide +kernel)
  rw [text]
  exact ((reads_aliasMark depth).append (reads_comment (by decide) depth)).append
    ((reads_comment (by decide) depth).append (Outline.reads_blank rfl))

theorem reads_note_colorScope (e : FlatEnum) {r : Reading} (depth : r.depth = 1) :
    Reads .swift r e.colorScope.note r :=
  (reads_aliasMark depth).append (Outline.reads_blank rfl)

/-- No break is in what is written as it is, and the names of the members end where they should. -/
structure IsLegible (e : FlatEnum) : Prop where
  className : '\n' ∉ e.className.toList
  names : ∀ m ∈ e.members, m.name.toList.all isNameChar
  bodies : ∀ m ∈ e.members, ∀ text ∈ m.body.texts, '\n' ∉ text.toList

theorem isNameChar_swift {name : String} (h : name.toList.all isNameChar) :
    (Identifier.swift name).toList.all isNameChar := by
  unfold Identifier.swift Identifier.guardReserved
  split
  · simpa [isNameChar] using h
  · exact h

theorem isNameChar_of_mem_earlierNames {word : LegacyWord} {stem name old : String}
    (h : old ∈ word.earlierNames stem name) (plain : name.toList.all isNameChar) :
    old.toList.all isNameChar := by
  have dropped : ∀ {old : String}, word.Drops stem name old → old.toList.all isNameChar := by
    rintro old ⟨front, middle, rest, whole, earlier, -⟩
    rw [whole, List.all_append, List.all_append] at plain
    rw [earlier, List.all_append]
    simp only [Bool.and_eq_true] at plain ⊢
    exact ⟨plain.1.1, plain.2⟩
  rcases LegacyWord.mem_earlierNames_iff.1 h with drops | ⟨drops, rfl⟩
  · exact dropped drops
  · have stems := dropped drops
    rw [String.toList_append, List.all_append, Bool.and_eq_true] at stems
    rw [String.toList_append, List.all_append, stems.1]
    decide

theorem reads_renamedAttribute {a : FlatAlias} (plain : a.current.toList.all isNameChar)
    {r : Reading} (depth : r.depth = 1) : Reads .swift r (renamedAttribute a) r := by
  have line := Outline.reads_nothing .swift r
    ("@available(*, deprecated, renamed: \"" ++ a.current ++ "\")")
    (by simpa using break_not_mem_of_isNameChar plain)
    (by simpa using Language.indentedEvent_swift_of_head (by decide) (by decide) _)
  rw [depth] at line
  have front : "    @available(*, deprecated, renamed: \"" =
      indentation 1 ++ "@available(*, deprecated, renamed: \"" := rfl
  have back : "\")\n" = "\")" ++ "\n" := rfl
  have text : renamedAttribute a = indentation 1 ++ "@available(*, deprecated, renamed: \"" ++
      a.current ++ ("\")" ++ "\n") :=
    congrArg₂ (fun front back => front ++ a.current ++ back) front back
  simp only [String.append_assoc] at line text
  rwa [text]

theorem isLegible_of_mem_members {e : FlatEnum} (h : e.IsLegible) :
    ∀ d ∈ e.enumScope.members ++ e.colorScope.members, d.IsLegible := by
  have lead : ∀ (m : FlatMember) (r : Reading), r.depth = 1 →
      Reads .swift r (SwiftMember.attributeText "    " m.deprecation) r := fun m r depth => by
    have reads := SwiftMember.reads_attributeText m.deprecation r
    rwa [depth] at reads
  rw [List.forall_mem_append, enumScope, colorScope, List.forall_mem_map, List.forall_mem_map]
  refine ⟨fun m hm => ⟨lead m, isNameChar_swift (h.names m hm), h.bodies m hm⟩,
    fun m hm => ⟨lead m, isNameChar_swift (h.names m hm), ?_⟩⟩
  have own := break_not_mem_of_isNameChar (isNameChar_swift (h.names m hm))
  simpa [asColor, SwiftMember.Body.texts, h.className] using own

theorem isNameChar_of_mem_aliases {dictionary : Dictionary} {context : Context}
    (h : (ofDictionary dictionary context).IsLegible) :
    ∀ a ∈ (ofDictionary dictionary context).aliases,
      a.current.toList.all isNameChar ∧ a.legacy.toList.all isNameChar := by
  intro a ha
  obtain ⟨m, hm, hmem⟩ := List.mem_flatMap.1 ha
  obtain ⟨legacy, earlier, rfl⟩ := List.mem_map.1 hmem
  exact ⟨h.names m hm, isNameChar_of_mem_earlierNames earlier (h.names m hm)⟩

theorem isLegible_of_mem_earlier {dictionary : Dictionary} {context : Context}
    (h : (ofDictionary dictionary context).IsLegible) :
    let e := ofDictionary dictionary context
    ∀ d ∈ e.enumScope.earlier ++ e.colorScope.earlier, d.IsLegible := by
  intro e
  have plain := isNameChar_of_mem_aliases h
  rw [List.forall_mem_append, enumScope, colorScope, List.forall_mem_map, List.forall_mem_map]
  refine ⟨fun a ha =>
      ⟨fun r => reads_renamedAttribute (plain a ha).1, isNameChar_swift (plain a ha).2, ?_⟩,
    fun a ha =>
      ⟨fun r => reads_renamedAttribute (plain a ha).1, isNameChar_swift (plain a ha).2, ?_⟩⟩
  · simpa [SwiftMember.Body.texts] using
      break_not_mem_of_isNameChar (isNameChar_swift (plain a ha).1)
  · have own := break_not_mem_of_isNameChar (isNameChar_swift (plain a ha).2)
    simpa [asColor, SwiftMember.Body.texts, h.className, e] using own

/-- A scope in braces, read where nothing is open. -/
theorem reads_braces {keyword name : String} {s : Scope} {r : Reading}
    (opens : Language.swift.Opens keyword) (single : '\n' ∉ name.toList) (outermost : r.depth = 0)
    (note : ∀ r : Reading, r.depth = 1 → Reads .swift r s.note r)
    (members : ∀ d ∈ s.members, d.IsLegible) (earlier : ∀ d ∈ s.earlier, d.IsLegible) :
    Reads .swift r (keyword ++ " " ++ name ++ " \x7b\n" ++ s.text ++ "\x7d\n")
      (r.add [.mk name [] s.names] []) := by
  have front := Outline.reads_opening (r := r) opens single
  have scope : Reads .swift ⟨.mk name [] [], r.inner :: r.outer⟩ s.text
      ⟨.mk name [] s.names, r.inner :: r.outer⟩ :=
    reads_scope note members earlier (congrArg (· + 1) outermost)
  have back := Outline.reads_closing .swift r (.mk name [] s.names)
  rw [outermost] at front back
  have lines := (front.append scope).append back
  simpa [indentation, String.append_assoc] using lines

theorem text_eq_braces (e : FlatEnum) :
    e.text = SwiftMember.importLines ++
      ("public enum" ++ " " ++ e.className ++ " \x7b\n" ++ e.enumScope.text ++ "\x7d\n" ++ "\n" ++
        if e.legacyWord = .color then
          "extension" ++ " " ++ "Color" ++ " \x7b\n" ++ e.colorScope.text ++ "\x7d\n"
        else "") := by
  rw [text_eq]
  refine String.toList_injective ?_
  split <;> simp

/-- **The names of both scopes** are read from the text of a legible enum. -/
theorem read?_braces {dictionary : Dictionary} {context : Context}
    (h : (ofDictionary dictionary context).IsLegible) :
    let e := ofDictionary dictionary context
    Language.swift.read? ("public enum" ++ " " ++ e.className ++ " \x7b\n" ++ e.enumScope.text ++
        "\x7d\n" ++ "\n" ++
        if e.legacyWord = .color then
          "extension" ++ " " ++ "Color" ++ " \x7b\n" ++ e.colorScope.text ++ "\x7d\n"
        else "") =
      some ([.mk e.className [] e.enumScope.names] ++
        if e.legacyWord = .color then [.mk "Color" [] e.colorScope.names] else []) := by
  intro e
  obtain ⟨members, colors⟩ := List.forall_mem_append.1 (isLegible_of_mem_members h)
  obtain ⟨earlier, retired⟩ := List.forall_mem_append.1 (isLegible_of_mem_earlier h)
  have enum := (reads_braces (r := ⟨.mk "" [] [], []⟩) Language.opens_enum h.className rfl
    (fun r => reads_note_enumScope e) members earlier).append (Outline.reads_blank rfl)
  refine Outline.Reads.read?_eq (enum.append ?_) rfl
  split
  · exact reads_braces Language.opens_extension (by decide) rfl (fun r => reads_note_colorScope e)
      colors retired
  · exact Outline.reads_empty

/-! ### Main statement -/

/-- **A flat enum declares each name once,** and so does the extension of `Color`, exactly if the
names of its members are apart. Its text is made of the declarations of the two, and their names are
what is read from the document if it is legible. -/
theorem declares_once_iff (dictionary : Dictionary) (context : Context)
    (distinct : (memberNames dictionary context).Nodup) :
    let e := ofDictionary dictionary context
    let apart := NamesApart e.legacyWord context.stem (memberNames dictionary context)
    (e.enumScope.names.Nodup ↔ apart) ∧ (e.colorScope.names.Nodup ↔ apart) ∧
    e.text = SwiftMember.importLines ++ "public enum " ++ e.className ++ " \x7b\n" ++
      e.enumScope.text ++ "\x7d\n\n" ++
      (if e.legacyWord = .color then "extension Color \x7b\n" ++ e.colorScope.text ++ "\x7d\n"
      else "") ∧
    ∃ body, Format.document dictionary context .flatEnum =
        context.header ++ SwiftMember.importLines ++ body ∧
      (e.IsLegible → Language.swift.read? body =
        some ([.mk e.className [] e.enumScope.names] ++
          if e.legacyWord = .color then [.mk "Color" [] e.colorScope.names] else [])) := by
  intro e apart
  have scope : e.enumScope.names.Nodup ↔ apart := by
    rw [names_enumScope]
    exact nodup_identifiers_iff context.stem_ne_empty distinct
  refine ⟨scope, by rw [names_colorScope, scope], e.text_eq, _, ?_, read?_braces⟩
  rw [Format.document, text_eq_braces]
  exact String.append_assoc.symm

/-- A red color and the transparent one. -/
def clearAndRed : Dictionary :=
  .ofTokens [.ofValue ["color", "red"] "xplColorRed" (.string "UIColor.red"),
    .ofValue ["color", "transparent", "0"] "xplColorTransparent0" (.string "UIColor.clear")]

theorem declares_once_iff_clearAndRed :
    let context : Context := { destination := "" }
    let names := ["xplColorRed", "xplColorTransparent0", "xplRed", "xplTransparent0",
      "xplTransparent"]
    (memberNames clearAndRed context).Nodup ∧
      (ofDictionary clearAndRed context).enumScope.names = names ∧
      NamesApart .color "xpl" (memberNames clearAndRed context) ∧
      ∃ body, Format.document clearAndRed context .flatEnum =
          context.header ++ SwiftMember.importLines ++ body ∧
        Language.swift.read? body =
          some [.mk "StyleDictionaryColor" [] names, .mk "Color" [] names] := by
  intro context names
  have distinct : (memberNames clearAndRed context).Nodup := by decide +kernel
  have scope : (ofDictionary clearAndRed context).enumScope.names = names := by decide +kernel
  have word : (ofDictionary clearAndRed context).legacyWord = .color := by decide +kernel
  obtain ⟨enum, -, -, body, document, read⟩ := declares_once_iff clearAndRed context distinct
  rw [scope, word] at enum
  refine ⟨distinct, scope, enum.1 (by decide), body, document, ?_⟩
  have legible : (ofDictionary clearAndRed context).IsLegible :=
    ⟨by decide +kernel, by decide +kernel, by decide +kernel⟩
  have found := read legible
  rwa [names_colorScope, scope, word] at found

/-- A color beside one whose earlier name it has. -/
def redTwice : Dictionary :=
  .ofTokens [.ofValue ["color", "red"] "xplColorRed" (.string "UIColor.red"),
    .ofValue ["red"] "xplRed" (.string "UIColor.systemRed")]

/-- A color beside one whose bare name it has had. -/
def clearTwice : Dictionary :=
  .ofTokens [.ofValue ["color", "transparent"] "xplColorTransparent" (.string "UIColor.clear"),
    .ofValue ["color", "transparent", "0"] "xplColorTransparent0" (.string "UIColor.clear")]

/-- The names of the members differ, and yet the enum and the extension declare `xplRed` as a member
and as the earlier name of another one, or `xplTransparent` as the earlier name of two. -/
theorem declares_twice :
    ((memberNames redTwice { destination := "" }).Nodup ∧
      (ofDictionary redTwice { destination := "" }).enumScope.names =
        ["xplColorRed", "xplRed", "xplRed"] ∧
      ¬ (ofDictionary redTwice { destination := "" }).enumScope.names.Nodup ∧
      ¬ (ofDictionary redTwice { destination := "" }).colorScope.names.Nodup) ∧
    ((memberNames clearTwice { destination := "" }).Nodup ∧
      (ofDictionary clearTwice { destination := "" }).enumScope.names =
        ["xplColorTransparent", "xplColorTransparent0", "xplTransparent", "xplTransparent0",
          "xplTransparent"] ∧
      ¬ (ofDictionary clearTwice { destination := "" }).enumScope.names.Nodup ∧
      ¬ (ofDictionary clearTwice { destination := "" }).colorScope.names.Nodup) := by
  decide +kernel

end FlatEnum
end DesignTokens

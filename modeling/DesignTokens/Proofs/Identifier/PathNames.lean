import DesignTokens.Proofs.Identifier.SegmentNames
import DesignTokens.Proofs.Mode.Counterpart

/-!
# The names of a path

A path is named by its pieces, small letters and digits (`IsPiece`), which together are the letters
and digits of the path (`flatten_lowerHumps`). The hyphenated name joins them by hyphens, the flat
name by capitals. The hyphenated name, taken for a segment, has the same pieces again
(`lowerHumps_hyphenatedName`). So it is its own hyphenated name, and it decides the flat name
(`path_names_keep_letters`).

Unlike the names of a segment, the flat name puts no `_` in front of a digit. It is guarded exactly
where the path has a letter before its first digit (`FlatEnum.derived_name_guarded_iff`).
-/

namespace DesignTokens.Identifier

/-! ### Pieces -/

def isSmall (c : Char) : Bool :=
  c.isLower || c.isDigit

theorem isAlphanum_of_isSmall {c : Char} (h : isSmall c) : c.isAlphanum := by
  have letters : (c.isUpper || c.isLower || c.isDigit) = c.isAlphanum := rfl
  rw [isSmall, Bool.or_eq_true] at h
  rcases h with h | h <;> simp [← letters, h]

/-- What holds of each small character of ASCII holds of small letters and digits. -/
theorem of_isSmall {P : Char → Prop}
    (all : ∀ n : Fin 128, isSmall (Char.ofNat n) → P (Char.ofNat n)) {c : Char} (h : isSmall c) :
    P c :=
  of_isAlphanum (P := fun c => isSmall c → P c) all (isAlphanum_of_isSmall h) h

theorem isSmall_toLower {c : Char} (h : c.isAlphanum) : isSmall c.toLower :=
  of_isAlphanum (P := fun c => c.isAlphanum → isSmall c.toLower) (by decide) h h

theorem isDigit_toLower {c : Char} (h : c.isAlphanum) : c.toLower.isDigit = c.isDigit :=
  of_isAlphanum (P := fun c => c.toLower.isDigit = c.isDigit) (by decide) h

/-- A piece of a name: small letters and digits, at least one. -/
structure IsPiece (w : List Char) : Prop where
  ne_nil : w ≠ []
  small : ∀ c ∈ w, isSmall c

namespace IsPiece

variable {w : List Char}

theorem letters (h : IsPiece w) : ∀ c ∈ w, c.isAlphanum :=
  fun c hc => isAlphanum_of_isSmall (h.small c hc)

theorem lower_eq (h : IsPiece w) : lower w = w := by
  refine (List.map_congr_left fun c hc => ?_).trans (List.map_id w)
  exact of_isSmall (P := fun c => c.toLower = c) (by decide) (h.small c hc)

/-- A capital in front is undone by small letters. -/
theorem lower_capitalize (h : IsPiece w) : lower (capitalize w) = w := by
  have small := h.lower_eq
  obtain ⟨c, cs, rfl⟩ := List.exists_cons_of_ne_nil h.ne_nil
  have first : c.toUpper.toLower = c.toLower :=
    of_isSmall (P := fun c => c.toUpper.toLower = c.toLower) (by decide)
      (h.small c List.mem_cons_self)
  exact (congrArg (· :: lower cs) first).trans small

theorem hyphen_not_mem (h : IsPiece w) : '-' ∉ w := fun hyphen => by
  have small := h.small '-' hyphen
  revert small
  decide

end IsPiece

theorem humpsFrom_of_isSmall (current : List Char) {cs : List Char} (small : ∀ c ∈ cs, isSmall c) :
    humpsFrom current cs = consWord (current.reverse ++ cs) [] := by
  induction cs generalizing current with
  | nil => rw [humpsFrom, List.append_nil]
  | cons c cs ih =>
    rw [List.forall_mem_cons] at small
    have noCapital : c.isUpper = false :=
      of_isSmall (P := fun c => c.isUpper = false) (by decide) small.1
    have noHump : current.head?.any (isHump · c) = false := by
      cases current <;> simp [isHump, noCapital]
    rw [humpsFrom, noHump, if_neg Bool.false_ne_true, ih _ small.2]
    simp

theorem IsPiece.humpsFrom_eq {w : List Char} (h : IsPiece w) : humpsFrom [] w = [w] := by
  rw [humpsFrom_of_isSmall [] h.small]
  simp [consWord, h.ne_nil]

theorem ne_nil_of_mem_humpsFrom {v current cs : List Char} (h : v ∈ humpsFrom current cs) :
    v ≠ [] := by
  induction cs generalizing current with
  | nil =>
    rcases mem_consWord.1 h with ⟨rfl, named⟩ | h
    · exact named
    · cases h
  | cons c cs ih =>
    unfold humpsFrom at h
    split at h
    · next hump =>
      rcases List.mem_cons.1 h with rfl | h
      · cases current with
        | nil => simp at hump
        | cons d current => simp
      · exact ih h
    · exact ih h

theorem isPiece_of_mem_lowerHumps {parts : List String} {w : List Char}
    (h : w ∈ lowerHumps parts) : IsPiece w := by
  obtain ⟨v, hv, rfl⟩ := List.mem_map.1 h
  obtain ⟨part, -, hv⟩ := List.mem_flatMap.1 hv
  obtain ⟨u, -, hu⟩ := List.mem_flatMap.1 hv
  have letters : ∀ c ∈ v, c.isAlphanum := fun c hc => by
    have kept : c ∈ (humps part.toList).flatten := List.mem_flatten.2 ⟨v, hv, hc⟩
    rw [flatten_humps] at kept
    exact (List.mem_filter.1 kept).2
  refine ⟨fun bare => ne_nil_of_mem_humpsFrom hu (List.map_eq_nil_iff.1 bare), ?_⟩
  exact List.forall_mem_map.2 fun c hc => isSmall_toLower (letters c hc)

/-! ### Letters -/

/-- The letters and digits of all parts in order, in small letters. -/
def lettersOf (parts : List String) : List Char :=
  lower ((parts.flatMap String.toList).filter Char.isAlphanum)

theorem flatten_lowerHumps (parts : List String) :
    (lowerHumps parts).flatten = lettersOf parts := by
  have kept : (parts.flatMap fun part => humps part.toList).flatten =
      (parts.flatMap String.toList).filter Char.isAlphanum := by
    induction parts with
    | nil => rfl
    | cons part parts ih => simp [flatten_humps, ih]
  rw [lowerHumps, lettersOf, ← kept]
  exact List.map_flatten.symm

theorem lowerHumps_eq_nil_iff {parts : List String} :
    lowerHumps parts = [] ↔ lettersOf parts = [] := by
  rw [← flatten_lowerHumps, List.flatten_eq_nil_iff]
  refine ⟨fun none => by simp [none], fun bare => List.eq_nil_iff_forall_not_mem.2 fun w hw => ?_⟩
  exact (isPiece_of_mem_lowerHumps hw).ne_nil (bare w hw)

/-! ### Hyphenated names -/

theorem toList_hyphenatedName (parts : List String) :
    (hyphenatedName parts).toList = ['-'].intercalate (lowerHumps parts) := by
  rw [hyphenatedName, String.toList_intercalate, List.map_map]
  simp [Function.comp_def]

section Joined

variable {ws : List (List Char)} (pieces : ∀ w ∈ ws, IsPiece w)
include pieces

/-- Pieces are the words of the text that joins them by hyphens. -/
theorem words_intercalate : words (['-'].intercalate ws) = ws := by
  induction ws with
  | nil => rfl
  | cons w ws ih =>
    obtain ⟨piece, rest⟩ := List.forall_mem_cons.1 pieces
    have own : words w = [w] := words_of_letters piece.ne_nil piece.letters
    cases ws with
    | nil => simpa using own
    | cons v ws =>
      rw [List.intercalate_cons_cons, List.append_assoc, List.singleton_append,
        words_append_cons w (by decide), own, ih rest]
      rfl

theorem filter_intercalate : (['-'].intercalate ws).filter (· != '-') = ws.flatten := by
  induction ws with
  | nil => rfl
  | cons w ws ih =>
    obtain ⟨piece, rest⟩ := List.forall_mem_cons.1 pieces
    have own : w.filter (· != '-') = w :=
      List.filter_eq_self.2 fun c hc => by
        simpa using fun same : c = '-' => piece.hyphen_not_mem (same ▸ hc)
    cases ws with
    | nil => simpa using own
    | cons v ws =>
      rw [List.intercalate_cons_cons, List.filter_append, List.filter_append, own, ih rest]
      simp

theorem map_lower_pieces : ws.map lower = ws :=
  (List.map_congr_left fun w hw => (pieces w hw).lower_eq).trans (List.map_id ws)

theorem flatMap_humpsFrom_pieces : ws.flatMap (humpsFrom []) = ws := by
  rw [List.flatMap_congr fun w hw => (pieces w hw).humpsFrom_eq]
  simp

theorem lower_flatMap_capitalize : lower (ws.flatMap capitalize) = ws.flatten := by
  have parted : lower (ws.flatMap capitalize) = (ws.map fun w => lower (capitalize w)).flatten := by
    rw [lower, List.map_flatMap, List.flatMap_def]
    rfl
  rw [parted, List.map_congr_left fun w hw => (pieces w hw).lower_capitalize, List.map_id']

end Joined

/-- **The pieces of a hyphenated name** are those of the path. -/
theorem lowerHumps_hyphenatedName (parts : List String) :
    lowerHumps [hyphenatedName parts] = lowerHumps parts := by
  have pieces : ∀ w ∈ lowerHumps parts, IsPiece w := fun w => isPiece_of_mem_lowerHumps
  rw [lowerHumps, List.flatMap_singleton, humps, toList_hyphenatedName, words_intercalate pieces,
    flatMap_humpsFrom_pieces pieces, map_lower_pieces pieces]

/-- Hyphens stand alone, and neither first nor last. -/
def SingleHyphens (cs : List Char) : Prop :=
  ¬ ['-'] <+: cs ∧ ¬ ['-'] <:+ cs ∧ ¬ ['-', '-'] <:+: cs

theorem singleHyphens_of_splitOn {cs : List Char} (named : [] ∉ cs.splitOn '-') :
    SingleHyphens cs := by
  refine ⟨?_, ?_, ?_⟩
  · rintro ⟨rest, rfl⟩
    refine named ?_
    rw [List.singleton_append, ← List.nil_append ('-' :: rest), List.splitOn_append_cons_self]
    simp
  · rintro ⟨front, rfl⟩
    refine named ?_
    rw [List.splitOn_append_cons_self]
    simp
  · rintro ⟨front, rest, rfl⟩
    refine named ?_
    rw [List.append_assoc, List.cons_append, List.cons_append, List.nil_append,
      List.splitOn_append_cons_self, ← List.nil_append ('-' :: rest), List.splitOn_append_cons_self]
    simp

theorem singleHyphens_hyphenatedName (parts : List String) :
    SingleHyphens (hyphenatedName parts).toList := by
  have pieces : ∀ w ∈ lowerHumps parts, IsPiece w := fun w => isPiece_of_mem_lowerHumps
  rw [toList_hyphenatedName]
  by_cases none : lowerHumps parts = []
  · rw [none]
    simp [SingleHyphens]
  · refine singleHyphens_of_splitOn ?_
    rw [List.splitOn_intercalate '-' (fun w hw => (pieces w hw).hyphen_not_mem) none]
    exact fun bare => (pieces [] bare).ne_nil rfl

/-! ### Flat names -/

theorem flatName_congr {parts others : List String} (same : lowerHumps parts = lowerHumps others) :
    flatName parts = flatName others := by
  rw [flatName, same, flatName]

theorem flatName_of_lettersOf_eq_nil {parts : List String} (none : lettersOf parts = []) :
    flatName parts = "unknown" := by
  rw [flatName, lowerHumps_eq_nil_iff.2 none]

theorem toList_flatName {parts : List String} {first : List Char} {rest : List (List Char)}
    (split : lowerHumps parts = first :: rest) :
    (flatName parts).toList = first ++ rest.flatMap capitalize := by
  rw [flatName, split, String.toList_ofList]

theorem lower_flatName {parts : List String} (named : lettersOf parts ≠ []) :
    lower (flatName parts).toList = lettersOf parts := by
  obtain ⟨first, rest, split⟩ :=
    List.exists_cons_of_ne_nil (mt lowerHumps_eq_nil_iff.1 named)
  have pieces : ∀ w ∈ first :: rest, IsPiece w := fun w hw => isPiece_of_mem_lowerHumps (split ▸ hw)
  obtain ⟨head, tail⟩ := List.forall_mem_cons.1 pieces
  have front := head.lower_eq
  have behind := lower_flatMap_capitalize tail
  rw [lower] at front behind ⊢
  rw [toList_flatName split, List.map_append, front, behind, ← flatten_lowerHumps, split,
    List.flatten_cons]

/-- **The names of a path keep its letters and digits.** The hyphenated name is its own hyphenated
name, and paths with one hyphenated name have one flat name. -/
theorem path_names_keep_letters (parts : List String) :
    (hyphenatedName parts).toList.filter (· != '-') = lettersOf parts ∧
    (lettersOf parts ≠ [] → lower (flatName parts).toList = lettersOf parts) ∧
    (lettersOf parts = [] → flatName parts = "unknown") ∧
    SingleHyphens (hyphenatedName parts).toList ∧
    hyphenatedName [hyphenatedName parts] = hyphenatedName parts ∧
    ∀ others, hyphenatedName parts = hyphenatedName others → flatName parts = flatName others := by
  refine ⟨?_, lower_flatName, flatName_of_lettersOf_eq_nil, singleHyphens_hyphenatedName parts, ?_,
    fun others same => ?_⟩
  · rw [toList_hyphenatedName, filter_intercalate fun w => isPiece_of_mem_lowerHumps,
      flatten_lowerHumps]
  · rw [hyphenatedName, lowerHumps_hyphenatedName, hyphenatedName]
  · have pieces := lowerHumps_hyphenatedName parts
    rw [same, lowerHumps_hyphenatedName] at pieces
    exact flatName_congr pieces.symm

/-- Two ways to spell a path, and one without a letter. -/
theorem path_names_keep_letters_gap :
    lettersOf ["xpl", "sizeGap", "1.5rem"] ≠ [] ∧
    lower (flatName ["xpl", "sizeGap", "1.5rem"]).toList =
      lettersOf ["xpl", "sizeGap", "1.5rem"] ∧
    hyphenatedName ["xpl", "sizeGap", "1.5rem"] = hyphenatedName ["xpl-size", "Gap", "1 5rem"] ∧
    flatName ["xpl", "sizeGap", "1.5rem"] = flatName ["xpl-size", "Gap", "1 5rem"] ∧
    lettersOf ["", "--"] = [] ∧ flatName ["", "--"] = "unknown" := by
  have named : lettersOf ["xpl", "sizeGap", "1.5rem"] ≠ [] := by decide
  have none : lettersOf ["", "--"] = [] := by decide
  have same : hyphenatedName ["xpl", "sizeGap", "1.5rem"] =
      hyphenatedName ["xpl-size", "Gap", "1 5rem"] := by decide
  obtain ⟨-, kept, -, -, -, flat⟩ := path_names_keep_letters ["xpl", "sizeGap", "1.5rem"]
  obtain ⟨-, -, unknown, -⟩ := path_names_keep_letters ["", "--"]
  exact ⟨named, kept named, same, flat _ same, none, unknown none⟩

/-! ### The guard that flat names lack -/

theorem isAlphanum_of_mem_flatName (parts : List String) :
    ∀ c ∈ (flatName parts).toList, c.isAlphanum := by
  have pieces : ∀ w ∈ lowerHumps parts, IsPiece w := fun w => isPiece_of_mem_lowerHumps
  have unknown : ∀ c ∈ "unknown".toList, c.isAlphanum := List.all_eq_true.1 rfl
  cases split : lowerHumps parts with
  | nil => rwa [flatName, split]
  | cons first rest =>
    rw [split, List.forall_mem_cons] at pieces
    rw [toList_flatName split, List.forall_mem_append]
    refine ⟨pieces.1.letters, fun c hc => ?_⟩
    obtain ⟨w, hw, hc⟩ := List.mem_flatMap.1 hc
    have piece := pieces.2 w hw
    exact (isSpelling_capitalize piece.ne_nil piece.letters).forall_mem c hc

/-- The flat name starts with a digit where the letters and digits of the parts do. -/
theorem any_isDigit_head?_flatName (parts : List String) :
    (flatName parts).toList.head?.any Char.isDigit = (lettersOf parts).head?.any Char.isDigit := by
  by_cases none : lettersOf parts = []
  · rw [flatName_of_lettersOf_eq_nil none, none]
    rfl
  · have small := lower_flatName none
    have letters := isAlphanum_of_mem_flatName parts
    rw [← small]
    cases chars : (flatName parts).toList with
    | nil => rfl
    | cons c cs =>
      rw [chars, List.forall_mem_cons] at letters
      simp [lower, isDigit_toLower letters.1]

/-- Letters and digits are guarded if a letter is the first of them. -/
theorem isGuarded_iff_of_letters {cs : List Char} (named : cs ≠ [])
    (letters : ∀ c ∈ cs, c.isAlphanum) : IsGuarded cs ↔ ¬ cs.head?.any Char.isDigit := by
  obtain ⟨c, cs, rfl⟩ := List.exists_cons_of_ne_nil named
  obtain ⟨first, rest⟩ := List.forall_mem_cons.1 letters
  have either : (c.isAlpha || c.isDigit) = true := first
  constructor
  · intro guarded
    cases guarded with
    | letter letter _ =>
      have apart : c.isAlpha → ¬ c.isDigit :=
        of_isAlphanum (P := fun c => c.isAlpha → ¬ c.isDigit) (by decide) first
      exact apart letter
    | digit _ _ => exact absurd first (by decide)
  · intro noDigit
    have noDigit : c.isDigit = false := by simpa using noDigit
    rw [noDigit, Bool.or_false] at either
    exact .letter either rest

theorem flatName_ne_empty (parts : List String) : flatName parts ≠ "" := by
  intro bare
  by_cases none : lettersOf parts = []
  · rw [flatName_of_lettersOf_eq_nil none] at bare
    exact absurd bare (by decide)
  · have small := lower_flatName none
    rw [bare] at small
    exact none small.symm

end DesignTokens.Identifier

namespace DesignTokens.FlatEnum

open Identifier (IsGuarded flatName lettersOf)

/-- **The name of a constant without a light variant** is derived from the stem and the canonical
path. It is made of letters and digits, and can be written in Swift exactly if the first of them in
the stem and the path is a letter. -/
theorem derived_name_guarded_iff (stem : String) {convention : Convention} {t : Token}
    (dark : t.isDark convention) :
    let parts := stem :: t.canonicalPath convention
    flatName parts ≠ "" ∧ (∀ c ∈ (flatName parts).toList, c.isAlphanum) ∧
    (IsGuarded (flatName parts).toList ↔ ¬ (lettersOf parts).head?.any Char.isDigit) ∧
    ∀ (dictionary : Dictionary) (context : Context), context.stem = stem →
      context.convention = convention →
      dictionary.counterpart? convention (t.canonicalPath convention) = none →
      pairName dictionary context (.dark t) = flatName parts := by
  intro parts
  have letters := Identifier.isAlphanum_of_mem_flatName parts
  have named := Identifier.flatName_ne_empty parts
  refine ⟨named, letters, ?_, ?_⟩
  · rw [Identifier.isGuarded_iff_of_letters (mt String.toList_eq_nil_iff.1 named) letters,
      Identifier.any_isDigit_head?_flatName]
  · rintro dictionary context rfl rfl alone
    have name := @Token.sharedName_of_isDark dictionary _
      (fun canonical => flatName (context.stem :: canonical)) t dark
    rw [alone] at name
    exact name

/-- A dark variant without a light one. -/
def shadeOnly : Token := .ofValue ["space", "dark", "gap"] "gap" (.string "4")

/-- A stem without letters, behind which the path comes first. -/
theorem derived_name_guarded_iff_shadeOnly :
    let context : Context := { destination := "", stemOption := some "--" }
    let dictionary := Dictionary.ofTokens [shadeOnly]
    shadeOnly.isDark context.convention ∧
    dictionary.counterpart? context.convention (shadeOnly.canonicalPath context.convention) = none ∧
    pairName dictionary context (.dark shadeOnly) = "spaceGap" ∧
    IsGuarded "spaceGap".toList := by
  intro context dictionary
  have dark : shadeOnly.isDark context.convention := by decide
  have alone : dictionary.counterpart? context.convention
      (shadeOnly.canonicalPath context.convention) = none := by decide +kernel
  have stem : context.stem = "--" := by decide
  obtain ⟨-, -, guarded, name⟩ := derived_name_guarded_iff "--" dark
  have flat : flatName ("--" :: shadeOnly.canonicalPath context.convention) = "spaceGap" := by
    decide +kernel
  rw [flat] at guarded name
  exact ⟨dark, alone, name dictionary context stem rfl alone, guarded.2 (by decide +kernel)⟩

/-- Behind a stem that starts with a digit a constant is declared under a name that does so too. -/
theorem derived_name_starts_with_digit :
    let context : Context := { destination := "", stemOption := some "2go" }
    let dictionary := Dictionary.ofTokens [shadeOnly]
    (Groups.ofTokens context.convention dictionary.tokens).get? ["space", "gap"] =
      some (.dark shadeOnly) ∧
    (ofDictionary dictionary context).members.map FlatMember.name = ["2goSpaceGap"] ∧
    flatName ["2go", "space", "gap"] = "2goSpaceGap" ∧ ¬ IsGuarded "2goSpaceGap".toList := by
  refine ⟨?_, by decide +kernel, by decide +kernel, ?_⟩
  · rfl
  · intro guarded
    have digit : ¬ '2'.isAlpha := by decide
    cases guarded with
    | letter first _ => exact digit first

end DesignTokens.FlatEnum

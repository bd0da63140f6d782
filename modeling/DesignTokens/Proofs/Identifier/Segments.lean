import DesignTokens.Identifier

/-!
# When two segments have one identifier

The identifiers of a segment are made of its spelling, its capitalized words in one (`spelled`), and
the spelling can be read off again: two segments have the same container name, and the same member
name, exactly if their spellings agree (`pascalCase_inj`, `camelCase_inj`). A member can have the
name of a container only where the guard of a digit stands in front of both
(`camelCase_eq_pascalCase_iff`), since a member starts small otherwise. Both names are guarded:
letters and digits behind a letter, or behind `_` and a digit (`IsGuarded`). Backticks around
reserved words keep apart what they are put around (`guardReserved_eq_iff`).
-/

namespace DesignTokens.Identifier

/-! ### Letters and digits -/

theorem toNat_lt_of_isAlphanum {c : Char} (h : c.isAlphanum) : c.toNat < 128 := by
  have compared : (decide ('A'.val ≤ c.val ∧ c.val ≤ 'Z'.val) ||
      (decide ('a'.val ≤ c.val) && decide (c.val ≤ 'z'.val)) ||
      (decide ('0'.val ≤ c.val) && decide (c.val ≤ '9'.val))) = true := h
  have ranges : (65 ≤ c.toNat ∧ c.toNat ≤ 90 ∨ 97 ≤ c.toNat ∧ c.toNat ≤ 122) ∨
      48 ≤ c.toNat ∧ c.toNat ≤ 57 := by
    simpa [UInt32.le_iff_toNat_le, ← Char.toNat_val] using compared
  omega

/-- What holds of each of the 128 characters of ASCII holds of letters and digits. -/
theorem of_isAlphanum {P : Char → Prop} (all : ∀ n : Fin 128, P (Char.ofNat n)) {c : Char}
    (h : c.isAlphanum) : P c := by
  have found := all ⟨c.toNat, toNat_lt_of_isAlphanum h⟩
  rwa [Char.ofNat_toNat] at found

/-- A capital or a digit: what the spelling of a segment starts with. -/
def isInitial (c : Char) : Bool :=
  c.isUpper || c.isDigit

theorem isAlphanum_of_isInitial {c : Char} (h : isInitial c) : c.isAlphanum := by
  have letters : (c.isUpper || c.isLower || c.isDigit) = c.isAlphanum := rfl
  rw [isInitial, Bool.or_eq_true] at h
  rcases h with h | h <;> simp [← letters, h]

theorem not_isLower_of_isInitial {c : Char} (h : isInitial c) : ¬ c.isLower :=
  of_isAlphanum (P := fun c => isInitial c → ¬ c.isLower) (by decide)
    (isAlphanum_of_isInitial h) h

theorem isInitial_toUpper {c : Char} (h : c.isAlphanum) : isInitial c.toUpper :=
  of_isAlphanum (P := fun c => c.isAlphanum → isInitial c.toUpper) (by decide) h h

theorem isAlphanum_toLower {c : Char} (h : c.isAlphanum) : c.toLower.isAlphanum :=
  of_isAlphanum (P := fun c => c.isAlphanum → c.toLower.isAlphanum) (by decide) h h

/-- A capital is small in `toLower`, and comes back in `toUpper`. -/
theorem toLower_of_isUpper {c : Char} (h : c.isUpper) :
    c.toLower.isLower ∧ c.toLower.toUpper = c :=
  of_isAlphanum (P := fun c => c.isUpper → c.toLower.isLower ∧ c.toLower.toUpper = c) (by decide)
    (isAlphanum_of_isInitial (by simp [isInitial, h])) h

/-! ### Words -/

theorem mem_consWord {word w : List Char} {rest : List (List Char)} :
    w ∈ consWord word rest ↔ w = word ∧ word ≠ [] ∨ w ∈ rest := by
  unfold consWord
  split
  · next h => simp [List.isEmpty_iff.1 h]
  · next h =>
    have named : word ≠ [] := fun bare => h (List.isEmpty_iff.2 bare)
    simp [named]

theorem ne_nil_of_mem_wordsFrom {w current cs : List Char} (h : w ∈ wordsFrom current cs) :
    w ≠ [] := by
  induction cs generalizing current with
  | nil =>
    rcases mem_consWord.1 h with ⟨rfl, named⟩ | h
    · exact named
    · cases h
  | cons c cs ih =>
    unfold wordsFrom at h
    split at h
    · exact ih h
    · rcases mem_consWord.1 h with ⟨rfl, named⟩ | h
      · exact named
      · exact ih h

theorem isAlphanum_of_mem_words {segment w : List Char} (h : w ∈ words segment) :
    ∀ c ∈ w, c.isAlphanum := by
  intro c hc
  have kept : c ∈ (words segment).flatten := List.mem_flatten.2 ⟨w, h, hc⟩
  rw [flatten_words] at kept
  exact (List.mem_filter.1 kept).2

/-! ### Spellings -/

/-- Letters and digits of which the first one is a capital or a digit. -/
inductive IsSpelling : List Char → Prop
  | cons {c : Char} {cs : List Char} : isInitial c → (∀ x ∈ cs, x.isAlphanum) → IsSpelling (c :: cs)

def spelled (segment : List Char) : List Char :=
  match (words segment).flatMap capitalize with
  | [] => "Unknown".toList
  | c :: cs => c :: cs

/-- `_` in front of a spelling that starts with a digit. -/
def guardDigit : List Char → List Char
  | [] => []
  | c :: cs => if c.isDigit then '_' :: c :: cs else c :: cs

theorem pascalChars_eq (segment : List Char) :
    pascalChars segment = guardDigit (spelled segment) := by
  unfold pascalChars spelled
  cases (words segment).flatMap capitalize <;> rfl

theorem IsSpelling.forall_mem {cs : List Char} (h : IsSpelling cs) : ∀ c ∈ cs, c.isAlphanum := by
  obtain ⟨initial, letters⟩ := h
  exact List.forall_mem_cons.2 ⟨isAlphanum_of_isInitial initial, letters⟩

theorem IsSpelling.append {cs rest : List Char} (h : IsSpelling cs)
    (letters : ∀ c ∈ rest, c.isAlphanum) : IsSpelling (cs ++ rest) := by
  obtain ⟨initial, own⟩ := h
  exact .cons initial (List.forall_mem_append.2 ⟨own, letters⟩)

theorem isSpelling_capitalize {w : List Char} (named : w ≠ []) (letters : ∀ c ∈ w, c.isAlphanum) :
    IsSpelling (capitalize w) := by
  obtain ⟨c, cs, rfl⟩ := List.exists_cons_of_ne_nil named
  rw [List.forall_mem_cons] at letters
  exact .cons (isInitial_toUpper letters.1) letters.2

theorem isSpelling_spelled (segment : List Char) : IsSpelling (spelled segment) := by
  have each : ∀ w ∈ words segment, IsSpelling (capitalize w) := fun w hw =>
    isSpelling_capitalize (ne_nil_of_mem_wordsFrom hw) (isAlphanum_of_mem_words hw)
  have unknown : IsSpelling ['U', 'n', 'k', 'n', 'o', 'w', 'n'] :=
    .cons (by decide) (List.all_eq_true.1 rfl)
  unfold spelled
  split
  · exact unknown
  · next c cs joined =>
    rw [← joined]
    cases found : words segment with
    | nil => simp [found] at joined
    | cons w ws =>
      rw [found, List.forall_mem_cons] at each
      rw [List.flatMap_cons]
      refine each.1.append fun x hx => ?_
      obtain ⟨v, hv, hx⟩ := List.mem_flatMap.1 hx
      exact (each.2 v hv).forall_mem x hx

/-! ### Reading the spelling off -/

theorem guardDigit_cases {cs : List Char} (h : IsSpelling cs) :
    (∃ c rest, cs = c :: rest ∧ c.isUpper ∧ c.isDigit = false ∧ guardDigit cs = cs) ∨
      ∃ c rest, cs = c :: rest ∧ c.isDigit ∧ guardDigit cs = '_' :: cs := by
  obtain @⟨c, rest, initial, -⟩ := h
  by_cases digit : c.isDigit
  · exact .inr ⟨c, rest, rfl, digit, by simp [guardDigit, digit]⟩
  · refine .inl ⟨c, rest, rfl, ?_, by simpa using digit, by simp [guardDigit, digit]⟩
    simpa [isInitial, digit] using initial

theorem guardDigit_inj {cs ds : List Char} (hc : IsSpelling cs) (hd : IsSpelling ds) :
    guardDigit cs = guardDigit ds ↔ cs = ds := by
  refine ⟨fun same => ?_, congrArg guardDigit⟩
  have underscore : ¬ '_'.isUpper := by decide
  obtain ⟨c, _, rfl, upper, -, eqc⟩ | ⟨_, _, rfl, -, eqc⟩ := guardDigit_cases hc <;>
    obtain ⟨d, _, rfl, upper', -, eqd⟩ | ⟨_, _, rfl, -, eqd⟩ := guardDigit_cases hd <;>
    rw [eqc, eqd] at same
  · exact same
  · exact absurd ((List.cons.inj same).1 ▸ upper) underscore
  · exact absurd ((List.cons.inj same).1 ▸ upper') underscore
  · exact (List.cons.inj same).2

theorem capitalize_uncapitalize_guardDigit {cs : List Char} (h : IsSpelling cs) :
    capitalize (uncapitalize (guardDigit cs)) = guardDigit cs := by
  obtain ⟨c, rest, rfl, upper, -, eqc⟩ | ⟨_, _, rfl, -, eqc⟩ := guardDigit_cases h <;> rw [eqc]
  · exact congrArg (· :: rest) (toLower_of_isUpper upper).2
  · rfl

theorem pascalChars_inj {a b : List Char} :
    pascalChars a = pascalChars b ↔ spelled a = spelled b := by
  rw [pascalChars_eq, pascalChars_eq, guardDigit_inj (isSpelling_spelled a) (isSpelling_spelled b)]

theorem camelChars_inj {a b : List Char} : camelChars a = camelChars b ↔ spelled a = spelled b := by
  rw [← pascalChars_inj]
  refine ⟨fun same => ?_, congrArg uncapitalize⟩
  have back : ∀ segment, capitalize (camelChars segment) = pascalChars segment := fun segment => by
    rw [camelChars, pascalChars_eq]
    exact capitalize_uncapitalize_guardDigit (isSpelling_spelled segment)
  rw [← back a, ← back b, same]

/-- No container name starts small. -/
theorem not_isLower_of_mem_head?_pascalChars {segment : List Char} {c : Char}
    (h : c ∈ (pascalChars segment).head?) : ¬ c.isLower := by
  rw [pascalChars_eq] at h
  obtain ⟨d, rest, eqs, upper, -, eqc⟩ | ⟨d, rest, eqs, -, eqc⟩ :=
    guardDigit_cases (isSpelling_spelled segment)
  · rw [eqc, eqs] at h
    obtain rfl : d = c := Option.some.inj h
    exact not_isLower_of_isInitial (by simp [isInitial, upper])
  · rw [eqc] at h
    obtain rfl : '_' = c := Option.some.inj h
    decide

/-- The name of a member is that of a container only behind `_`: a member starts small otherwise,
and a container does not. -/
theorem camelChars_eq_pascalChars_iff {a b : List Char} :
    camelChars a = pascalChars b ↔ spelled a = spelled b ∧ (spelled a).head?.any Char.isDigit := by
  rw [← pascalChars_inj, camelChars, pascalChars_eq a]
  obtain ⟨c, rest, eqs, upper, letter, eqc⟩ | ⟨c, rest, eqs, digit, eqc⟩ :=
    guardDigit_cases (isSpelling_spelled a) <;> rw [eqc, eqs]
  · refine ⟨fun same => ?_, fun ⟨_, first⟩ => by simp [letter] at first⟩
    have first : c.toLower ∈ (pascalChars b).head? := by
      rw [← same]
      rfl
    exact absurd (toLower_of_isUpper upper).1 (not_isLower_of_mem_head?_pascalChars first)
  · exact ⟨fun same => ⟨same, digit⟩, And.left⟩

/-! ### Names as texts -/

def spelling (segment : String) : String :=
  Text.onChars spelled segment

/-- Whether the spelling of a segment starts with a digit, so that its names start with `_`. -/
def StartsWithDigit (segment : String) : Prop :=
  (spelled segment.toList).head?.any Char.isDigit

instance (segment : String) : Decidable (StartsWithDigit segment) :=
  inferInstanceAs (Decidable ((spelled segment.toList).head?.any Char.isDigit = true))

theorem onChars_eq_onChars_iff {f g : List Char → List Char} {a b : String} :
    Text.onChars f a = Text.onChars g b ↔ f a.toList = g b.toList := by
  rw [← String.toList_inj, Text.toList_onChars, Text.toList_onChars]

theorem pascalCase_inj {a b : String} : pascalCase a = pascalCase b ↔ spelling a = spelling b := by
  rw [pascalCase, pascalCase, spelling, spelling, onChars_eq_onChars_iff, pascalChars_inj,
    onChars_eq_onChars_iff]

theorem camelCase_inj {a b : String} : camelCase a = camelCase b ↔ spelling a = spelling b := by
  rw [camelCase, camelCase, spelling, spelling, onChars_eq_onChars_iff, camelChars_inj,
    onChars_eq_onChars_iff]

theorem camelCase_eq_pascalCase_iff {a b : String} :
    camelCase a = pascalCase b ↔ spelling a = spelling b ∧ StartsWithDigit a := by
  rw [camelCase, pascalCase, spelling, spelling, onChars_eq_onChars_iff,
    camelChars_eq_pascalChars_iff, onChars_eq_onChars_iff, StartsWithDigit]

/-! ### Guarded names -/

/-- Letters and digits behind a letter, or behind `_` and a digit. -/
inductive IsGuarded : List Char → Prop
  | letter {c : Char} {cs : List Char} :
    c.isAlpha → (∀ x ∈ cs, x.isAlphanum) → IsGuarded (c :: cs)
  | digit {c : Char} {cs : List Char} :
    c.isDigit → (∀ x ∈ cs, x.isAlphanum) → IsGuarded ('_' :: c :: cs)

theorem IsGuarded.forall_mem {cs : List Char} (h : IsGuarded cs) :
    ∀ c ∈ cs, c.isAlphanum ∨ c = '_' := by
  cases h with
  | letter first letters =>
    exact List.forall_mem_cons.2
      ⟨.inl (by simp [Char.isAlphanum, first]), fun c hc => .inl (letters c hc)⟩
  | digit first letters =>
    exact List.forall_mem_cons.2 ⟨.inr rfl, List.forall_mem_cons.2
      ⟨.inl (by simp [Char.isAlphanum, first]), fun c hc => .inl (letters c hc)⟩⟩

theorem isGuarded_guardDigit {cs : List Char} (h : IsSpelling cs) : IsGuarded (guardDigit cs) := by
  obtain ⟨c, rest, rfl, upper, -, eqc⟩ | ⟨c, rest, rfl, digit, eqc⟩ := guardDigit_cases h <;>
    rw [eqc]
  · have letter : (c.isUpper || c.isLower) = c.isAlpha := rfl
    exact .letter (by simp [← letter, upper]) (List.forall_mem_cons.1 h.forall_mem).2
  · exact .digit digit (List.forall_mem_cons.1 h.forall_mem).2

theorem IsGuarded.uncapitalize {cs : List Char} (h : IsGuarded cs) :
    IsGuarded (uncapitalize cs) := by
  cases h with
  | letter first letters =>
    refine .letter ?_ letters
    exact of_isAlphanum (P := fun c => c.isAlpha → c.toLower.isAlpha) (by decide)
      (by simp [Char.isAlphanum, first]) first
  | digit first letters => exact .digit first letters

theorem isGuarded_pascalCase (segment : String) : IsGuarded (pascalCase segment).toList := by
  rw [pascalCase, Text.toList_onChars, pascalChars_eq]
  exact isGuarded_guardDigit (isSpelling_spelled segment.toList)

theorem isGuarded_camelCase (segment : String) : IsGuarded (camelCase segment).toList := by
  rw [camelCase, Text.toList_onChars, camelChars, pascalChars_eq]
  exact (isGuarded_guardDigit (isSpelling_spelled segment.toList)).uncapitalize

/-- A name of letters, digits and underscores. -/
def IsPlain (name : String) : Prop :=
  ∀ c ∈ name.toList, c.isAlphanum ∨ c = '_'

theorem isPlain_pascalCase (segment : String) : IsPlain (pascalCase segment) :=
  (isGuarded_pascalCase segment).forall_mem

theorem isPlain_camelCase (segment : String) : IsPlain (camelCase segment) :=
  (isGuarded_camelCase segment).forall_mem

/-! ### Names in backticks -/

def backticked (name : String) : String :=
  "`" ++ name ++ "`"

/-- What holds of letters, digits, the underscore and the backtick holds of a guarded name. -/
theorem forall_mem_guardReserved {P : Char → Prop} (quote : P '\x60') (underscore : P '_')
    (letters : ∀ c : Char, c.isAlphanum → P c) (reserved : List String) {name : String}
    (h : IsPlain name) : ∀ c ∈ (guardReserved reserved name).toList, P c := by
  have plain : ∀ c ∈ name.toList, P c := fun c hc => (h c hc).elim (letters c) (· ▸ underscore)
  unfold guardReserved
  split
  · intro c hc
    have place : c = '\x60' ∨ c ∈ name.toList ∨ c = '\x60' := by simpa using hc
    rcases place with rfl | hc | rfl
    · exact quote
    · exact plain c hc
    · exact quote
  · exact plain

theorem backticked_inj {a b : String} : backticked a = backticked b ↔ a = b := by
  refine ⟨fun same => ?_, congrArg backticked⟩
  rw [← String.toList_inj]
  simpa [backticked] using congrArg String.toList same

theorem backticked_ne (name : String) : backticked name ≠ name := by
  intro same
  have longer : (backticked name).toList.length = name.toList.length + 2 := by simp [backticked]
  rw [same] at longer
  omega

/-- **Reserved words in backticks.** Two names have one identifier if they are the same, or if one
is a reserved word and the other one is that word in backticks. -/
theorem guardReserved_eq_iff {reserved : List String}
    (bare : ∀ w ∈ reserved, backticked w ∉ reserved) {a b : String} :
    guardReserved reserved a = guardReserved reserved b ↔
      a = b ∨ a ∈ reserved ∧ b = backticked a ∨ b ∈ reserved ∧ a = backticked b := by
  have split : ∀ name, guardReserved reserved name =
      if name ∈ reserved then backticked name else name := fun _ => rfl
  rw [split, split]
  by_cases ha : a ∈ reserved <;> by_cases hb : b ∈ reserved
  · rw [if_pos ha, if_pos hb, backticked_inj]
    refine ⟨.inl, ?_⟩
    rintro (same | ⟨-, rfl⟩ | ⟨-, rfl⟩)
    · exact same
    · exact absurd hb (bare a ha)
    · exact absurd ha (bare b hb)
  · rw [if_pos ha, if_neg hb]
    refine ⟨fun same => .inr (.inl ⟨ha, same.symm⟩), ?_⟩
    rintro (rfl | ⟨-, rfl⟩ | ⟨hb', -⟩)
    · exact absurd ha hb
    · rfl
    · exact absurd hb' hb
  · rw [if_neg ha, if_pos hb]
    refine ⟨fun same => .inr (.inr ⟨hb, same⟩), ?_⟩
    rintro (rfl | ⟨ha', -⟩ | ⟨-, rfl⟩)
    · exact absurd hb ha
    · exact absurd ha' ha
    · rfl
  · rw [if_neg ha, if_neg hb]
    simp [ha, hb]

theorem swift_eq_iff {a b : String} :
    swift a = swift b ↔
      a = b ∨ a ∈ swiftReserved ∧ b = backticked a ∨ b ∈ swiftReserved ∧ a = backticked b :=
  guardReserved_eq_iff (by decide)

theorem kotlin_eq_iff {a b : String} :
    kotlin a = kotlin b ↔
      a = b ∨ a ∈ kotlinReserved ∧ b = backticked a ∨ b ∈ kotlinReserved ∧ a = backticked b :=
  guardReserved_eq_iff (by decide)

theorem IsPlain.ne_backticked {a : String} (h : IsPlain a) (b : String) : a ≠ backticked b := by
  rintro rfl
  have quote : ¬ ('\x60'.isAlphanum ∨ '\x60' = '_') := by decide
  exact quote (h '\x60' (by simp [backticked]))

/-- Identifiers keep plain names apart. -/
def KeepsPlain (identifier : String → String) : Prop :=
  ∀ a b, IsPlain a → IsPlain b → (identifier a = identifier b ↔ a = b)

theorem keepsPlain_swift : KeepsPlain swift := fun a b ha hb => by
  simp [swift_eq_iff, ha.ne_backticked, hb.ne_backticked]

theorem keepsPlain_kotlin : KeepsPlain kotlin := fun a b ha hb => by
  simp [kotlin_eq_iff, ha.ne_backticked, hb.ne_backticked]

end DesignTokens.Identifier

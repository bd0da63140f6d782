import DesignTokens.Proofs.Identifier.Segments

/-!
# The names of a segment are identifiers

The names of a segment are letters and digits behind a letter, or behind `_` and a digit
(`IsGuarded`), and in backticks exactly if they are reserved words (`Quoted`). Both hold of every
segment, also of one without a letter.

A name can be taken for a segment again. It has one word, since `_` ends no word and begins none,
and that word is spelled like the segment that was named (`spelled_pascalChars`,
`spelled_camelChars`). As the spelling decides the names, naming a name changes at most the case of
its first letter.
-/

namespace DesignTokens.Identifier

/-! ### Words of a text -/

theorem consWord_append (word : List Char) (rest more : List (List Char)) :
    consWord word (rest ++ more) = consWord word rest ++ more := by
  unfold consWord
  split <;> rfl

theorem wordsFrom_append_cons (current front : List Char) {c : Char} (gap : c.isAlphanum = false)
    (rest : List Char) :
    wordsFrom current (front ++ c :: rest) = wordsFrom current front ++ words rest := by
  induction front generalizing current with
  | nil =>
    have ends : wordsFrom current (c :: rest) = consWord current.reverse (words rest) := by
      simp [wordsFrom, words, gap]
    rw [List.nil_append, ends, wordsFrom, ← consWord_append, List.nil_append]
  | cons d front ih =>
    rw [List.cons_append, wordsFrom, wordsFrom]
    split
    · exact ih _
    · rw [ih, consWord_append]

/-- **Words end** at each character that is neither a letter nor a digit. -/
theorem words_append_cons (front : List Char) {c : Char} (gap : c.isAlphanum = false)
    (rest : List Char) : words (front ++ c :: rest) = words front ++ words rest :=
  wordsFrom_append_cons [] front gap rest

theorem wordsFrom_of_letters (current : List Char) {w : List Char}
    (letters : ∀ c ∈ w, c.isAlphanum) :
    wordsFrom current w = consWord (current.reverse ++ w) [] := by
  induction w generalizing current with
  | nil => rw [wordsFrom, List.append_nil]
  | cons c w ih =>
    rw [List.forall_mem_cons] at letters
    rw [wordsFrom, if_pos letters.1, ih _ letters.2]
    simp

theorem words_of_letters {w : List Char} (named : w ≠ []) (letters : ∀ c ∈ w, c.isAlphanum) :
    words w = [w] := by
  rw [words, wordsFrom_of_letters [] letters]
  simp [consWord, named]

/-! ### The spelling of a name -/

theorem toUpper_of_isInitial {c : Char} (h : isInitial c) : c.toUpper = c :=
  of_isAlphanum (P := fun c => isInitial c → c.toUpper = c) (by decide)
    (isAlphanum_of_isInitial h) h

theorem IsSpelling.ne_nil {cs : List Char} (h : IsSpelling cs) : cs ≠ [] := by
  cases h
  exact List.cons_ne_nil _ _

theorem IsSpelling.capitalize_eq {cs : List Char} (h : IsSpelling cs) : capitalize cs = cs := by
  obtain @⟨c, rest, initial, -⟩ := h
  exact congrArg (· :: rest) (toUpper_of_isInitial initial)

theorem spelled_of_letters {w : List Char} (named : w ≠ []) (letters : ∀ c ∈ w, c.isAlphanum) :
    spelled w = capitalize w := by
  obtain ⟨c, cs, rfl⟩ := List.exists_cons_of_ne_nil named
  simp [spelled, words_of_letters named letters, capitalize]

theorem spelled_underscore (segment : List Char) : spelled ('_' :: segment) = spelled segment := by
  have same : words ('_' :: segment) = words segment := words_append_cons [] (by decide) segment
  rw [spelled, same, spelled]

theorem spelled_guardDigit {cs : List Char} (h : IsSpelling cs) : spelled (guardDigit cs) = cs := by
  have own : spelled cs = cs := (spelled_of_letters h.ne_nil h.forall_mem).trans h.capitalize_eq
  obtain ⟨_, _, -, -, -, eqc⟩ | ⟨_, _, -, -, eqc⟩ := guardDigit_cases h <;> rw [eqc]
  · exact own
  · rw [spelled_underscore, own]

theorem spelled_uncapitalize_guardDigit {cs : List Char} (h : IsSpelling cs) :
    spelled (uncapitalize (guardDigit cs)) = cs := by
  have back := capitalize_uncapitalize_guardDigit h
  obtain ⟨c, rest, rfl, -, -, eqc⟩ | ⟨_, _, -, -, eqc⟩ := guardDigit_cases h
  · have letters := List.forall_mem_cons.1 h.forall_mem
    have small : ∀ x ∈ c.toLower :: rest, x.isAlphanum :=
      List.forall_mem_cons.2 ⟨isAlphanum_toLower letters.1, letters.2⟩
    rw [eqc] at back ⊢
    exact (spelled_of_letters (List.cons_ne_nil _ _) small).trans back
  · have digit := spelled_guardDigit h
    rw [eqc] at digit ⊢
    exact digit

theorem spelled_pascalChars (segment : List Char) :
    spelled (pascalChars segment) = spelled segment := by
  rw [pascalChars_eq, spelled_guardDigit (isSpelling_spelled segment)]

theorem spelled_camelChars (segment : List Char) :
    spelled (camelChars segment) = spelled segment := by
  rw [camelChars, pascalChars_eq, spelled_uncapitalize_guardDigit (isSpelling_spelled segment)]

/-! ### Names as identifiers -/

/-- An identifier is the name, or the name in backticks if it is a reserved word. -/
def Quoted (reserved : List String) (name identifier : String) : Prop :=
  name ∉ reserved ∧ identifier = name ∨ name ∈ reserved ∧ identifier = backticked name

theorem quoted_guardReserved (reserved : List String) (name : String) :
    Quoted reserved name (guardReserved reserved name) := by
  unfold guardReserved
  split
  · next word => exact .inr ⟨word, rfl⟩
  · next free => exact .inl ⟨free, rfl⟩

theorem guardReserved_guardReserved {reserved : List String}
    (bare : ∀ w ∈ reserved, backticked w ∉ reserved) (name : String) :
    guardReserved reserved (guardReserved reserved name) = guardReserved reserved name := by
  obtain ⟨free, same⟩ | ⟨word, quoted⟩ := quoted_guardReserved reserved name
  · rw [same, same]
  · rw [quoted, guardReserved, if_neg (bare name word)]

/-- A name that can stand in a Swift source and in a Kotlin source. -/
structure IsValid (name : String) : Prop where
  guarded : IsGuarded name.toList
  swift : Quoted swiftReserved name (swift name)
  kotlin : Quoted kotlinReserved name (kotlin name)
  swift_swift : Identifier.swift (Identifier.swift name) = Identifier.swift name
  kotlin_kotlin : Identifier.kotlin (Identifier.kotlin name) = Identifier.kotlin name

theorem IsGuarded.isValid {name : String} (h : IsGuarded name.toList) : IsValid name where
  guarded := h
  swift := quoted_guardReserved swiftReserved name
  kotlin := quoted_guardReserved kotlinReserved name
  swift_swift := guardReserved_guardReserved (by decide) name
  kotlin_kotlin := guardReserved_guardReserved (by decide) name

/-- **The names of a segment** are identifiers in both languages, whatever the segment is. Naming a
name again gives the same name, and the member named after a container is the member of its
segment. -/
theorem segment_names_valid (segment : String) :
    IsValid (pascalCase segment) ∧ IsValid (camelCase segment) ∧
    pascalCase (pascalCase segment) = pascalCase segment ∧
    camelCase (camelCase segment) = camelCase segment ∧
    camelCase (pascalCase segment) = camelCase segment := by
  have container_spelled : spelling (pascalCase segment) = spelling segment := by
    rw [spelling, spelling, onChars_eq_onChars_iff, pascalCase, Text.toList_onChars,
      spelled_pascalChars]
  have member_spelled : spelling (camelCase segment) = spelling segment := by
    rw [spelling, spelling, onChars_eq_onChars_iff, camelCase, Text.toList_onChars,
      spelled_camelChars]
  exact ⟨(isGuarded_pascalCase segment).isValid, (isGuarded_camelCase segment).isValid,
    pascalCase_inj.2 container_spelled, camelCase_inj.2 member_spelled,
    camelCase_inj.2 container_spelled⟩

end DesignTokens.Identifier

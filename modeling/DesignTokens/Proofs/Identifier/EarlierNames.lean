import DesignTokens.Alias

/-!
# The earlier names of a member

`LegacyWord.Drops` says what it is for a name to have had another one: it is made of the stem and
the word, each up to case, and of a rest that stays. A name drops to one text only
(`LegacyWord.Drops.unique`), and two names that drop to the same one differ in the case of the word
at most (`LegacyWord.Drops.same_but_word`). The earlier names of a name are what it drops to, and
the bare name of the transparent color (`LegacyWord.mem_earlierNames_iff`).
-/

namespace DesignTokens

/-- What is taken off a text is as long as the pattern and agrees with it up to case. -/
theorem Text.takeFolded?_eq_some_iff {pattern cs met rest : List Char} :
    takeFolded? pattern cs = some (met, rest) ↔
      cs = met ++ rest ∧ pattern.map fold = met.map fold := by
  induction pattern generalizing cs met with
  | nil =>
    rw [takeFolded?, Option.some.injEq, Prod.mk.injEq]
    constructor
    · rintro ⟨rfl, rfl⟩
      exact ⟨rfl, rfl⟩
    · rintro ⟨rfl, bare⟩
      obtain rfl := List.map_eq_nil_iff.1 bare.symm
      exact ⟨rfl, rfl⟩
  | cons p ps ih =>
    cases cs with
    | nil =>
      refine ⟨fun h => by simp [takeFolded?] at h, ?_⟩
      rintro ⟨bare, same⟩
      rw [(List.append_eq_nil_iff.1 bare.symm).1] at same
      simp at same
    | cons c cs =>
      rw [takeFolded?]
      constructor
      · intro h
        split at h
        · next letter =>
          obtain ⟨⟨met', rest'⟩, found, same⟩ := Option.map_eq_some_iff.1 h
          obtain ⟨rfl, rfl⟩ := Prod.mk.inj same
          obtain ⟨rfl, folded⟩ := ih.1 found
          have first : fold p = fold c := beq_iff_eq.1 letter
          exact ⟨rfl, by rw [List.map_cons, List.map_cons, first, folded]⟩
        · cases h
      · rintro ⟨split, folded⟩
        cases met with
        | nil => simp at folded
        | cons d met =>
          rw [List.cons_append] at split
          obtain ⟨rfl, rfl⟩ := List.cons.inj split
          obtain ⟨first, folded⟩ := List.cons.inj folded
          have letter : sameLetter p c := beq_iff_eq.2 first
          rw [if_pos letter, ih.2 ⟨rfl, folded⟩]
          rfl

namespace LegacyWord

/-- A name that once was `old`: the stem and the word, each up to case, stand in front of a rest,
which is not empty and on one line, and the word was missing. -/
def Drops (word : LegacyWord) (stem name old : String) : Prop :=
  ∃ front middle rest : List Char,
    name.toList = front ++ middle ++ rest ∧ old.toList = front ++ rest ∧
    stem.toList.map Text.fold = front.map Text.fold ∧
    word.text.toList.map Text.fold = middle.map Text.fold ∧
    rest ≠ [] ∧ '\n' ∉ rest

variable {word : LegacyWord} {stem name old other : String}

theorem length_of_map_fold {pattern met : List Char}
    (same : pattern.map Text.fold = met.map Text.fold) : met.length = pattern.length := by
  simpa using (congrArg List.length same).symm

theorem Drops.ne (h : Drops word stem name old) : old ≠ name := by
  obtain ⟨front, middle, rest, whole, earlier, -, letters, -, -⟩ := h
  rintro rfl
  have length := congrArg List.length (whole.symm.trans earlier)
  have dropped := length_of_map_fold letters
  simp only [List.length_append] at length
  cases word <;> simp [text] at dropped <;> omega

/-- What is taken for the stem and for the word is as long as these are, so a name drops to one text
only. -/
theorem Drops.unique (h : Drops word stem name old) (h' : Drops word stem name other) :
    old = other := by
  obtain ⟨front, middle, rest, whole, earlier, stems, letters, -, -⟩ := h
  obtain ⟨front', middle', rest', whole', earlier', stems', letters', -, -⟩ := h'
  have taken : (front ++ middle).length = (front' ++ middle').length := by
    rw [List.length_append, List.length_append, length_of_map_fold stems,
      length_of_map_fold stems', length_of_map_fold letters, length_of_map_fold letters']
  obtain ⟨same, rfl⟩ := List.append_inj (whole.symm.trans whole') taken
  obtain ⟨rfl, -⟩ := List.append_inj same
    ((length_of_map_fold stems).trans (length_of_map_fold stems').symm)
  exact String.toList_inj.1 (earlier.trans earlier'.symm)

/-- A name that drops the word has one earlier name, or two where it is the transparent one. -/
theorem earlierNames_of_drops (h : Drops word stem name old) :
    word.earlierNames stem name =
      if old = stem ++ "Transparent0" then [old, stem ++ "Transparent"] else [old] := by
  have apart := h.ne
  obtain ⟨front, middle, rest, whole, earlier, stems, letters, named, line⟩ := h
  have first : Text.takeFolded? stem.toList name.toList = some (front, middle ++ rest) :=
    Text.takeFolded?_eq_some_iff.2 ⟨by rw [whole, List.append_assoc], stems⟩
  have second : Text.takeFolded? word.text.toList (middle ++ rest) = some (middle, rest) :=
    Text.takeFolded?_eq_some_iff.2 ⟨rfl, letters⟩
  have kept : (rest.isEmpty || rest.contains '\n' || old == name) = false := by
    simp [named, line, apart]
  rw [earlierNames, first]
  dsimp only
  rw [second]
  dsimp only
  rw [← earlier, String.ofList_toList, kept]
  simp

theorem earlierNames_of_not_drops (h : ∀ old, ¬ Drops word stem name old) :
    word.earlierNames stem name = [] := by
  unfold earlierNames
  split
  · rfl
  · next front tail first =>
    split
    · rfl
    · next middle rest second =>
      obtain ⟨whole, stems⟩ := Text.takeFolded?_eq_some_iff.1 first
      obtain ⟨rfl, letters⟩ := Text.takeFolded?_eq_some_iff.1 second
      rw [← List.append_assoc] at whole
      by_cases blank : rest.isEmpty || rest.contains '\n'
      · rw [blank]
        rfl
      · rw [Bool.or_eq_true, not_or, List.isEmpty_iff, List.contains_iff_mem] at blank
        exact absurd ⟨front, middle, rest, whole, String.toList_ofList, stems, letters, blank.1,
          blank.2⟩ (h (String.ofList (front ++ rest)))

/-- **Earlier names.** A name has the one that it drops to, and where this is the first transparent
one, the bare one too. -/
theorem mem_earlierNames_iff :
    old ∈ word.earlierNames stem name ↔
      Drops word stem name old ∨
        Drops word stem name (stem ++ "Transparent0") ∧ old = stem ++ "Transparent" := by
  by_cases drops : ∃ met, Drops word stem name met
  · obtain ⟨met, hmet⟩ := drops
    rw [earlierNames_of_drops hmet]
    constructor
    · intro hmem
      split at hmem
      · next transparent =>
        rcases List.mem_cons.1 hmem with rfl | hmem
        · exact .inl hmet
        · exact .inr ⟨transparent ▸ hmet, List.mem_singleton.1 hmem⟩
      · obtain rfl := List.mem_singleton.1 hmem
        exact .inl hmet
    · rintro (hold | ⟨transparent, rfl⟩)
      · rw [hmet.unique hold]
        split <;> exact List.mem_cons_self
      · rw [hmet.unique transparent, if_pos rfl]
        exact List.mem_cons_of_mem _ List.mem_cons_self
  · rw [earlierNames_of_not_drops fun met hmet => drops ⟨met, hmet⟩]
    constructor
    · intro hmem
      cases hmem
    · rintro (hold | ⟨transparent, -⟩)
      · exact absurd ⟨_, hold⟩ drops
      · exact absurd ⟨_, transparent⟩ drops

theorem nodup_earlierNames (word : LegacyWord) (stem name : String) :
    (word.earlierNames stem name).Nodup := by
  by_cases drops : ∃ met, Drops word stem name met
  · obtain ⟨met, hmet⟩ := drops
    rw [earlierNames_of_drops hmet]
    split
    · next transparent =>
      subst transparent
      simp [← String.toList_inj]
    · simp
  · rw [earlierNames_of_not_drops fun met hmet => drops ⟨met, hmet⟩]
    exact .nil

/-- Every earlier name starts as the stem does, up to case. -/
theorem head?_of_mem_earlierNames (named : stem ≠ "") (h : old ∈ word.earlierNames stem name) :
    old.toList.head?.map Text.fold = stem.toList.head?.map Text.fold := by
  obtain ⟨c, cs, chars⟩ := List.exists_cons_of_ne_nil (mt String.toList_eq_nil_iff.1 named)
  rcases mem_earlierNames_iff.1 h with ⟨front, -, rest, -, earlier, stems, -⟩ | ⟨-, rfl⟩
  · rw [chars] at stems ⊢
    cases front with
    | nil => simp at stems
    | cons d front =>
      rw [earlier]
      exact congrArg some (List.cons.inj stems).1.symm
  · rw [String.toList_append, chars]
    rfl

/-- **Two names that drop to the same text** are the same but for the case of the word. -/
theorem Drops.same_but_word (h : Drops word stem name old) (h' : Drops word stem other old) :
    ∃ front middle middle' rest : List Char,
      name.toList = front ++ middle ++ rest ∧ other.toList = front ++ middle' ++ rest ∧
      middle.map Text.fold = middle'.map Text.fold := by
  obtain ⟨front, middle, rest, whole, earlier, stems, letters, -, -⟩ := h
  obtain ⟨front', middle', rest', whole', earlier', stems', letters', -, -⟩ := h'
  obtain ⟨rfl, rfl⟩ := List.append_inj (earlier.symm.trans earlier')
    ((length_of_map_fold stems).trans (length_of_map_fold stems').symm)
  exact ⟨front, middle, middle', rest, whole, whole', letters.symm.trans letters'⟩

end LegacyWord
end DesignTokens

import DesignTokens.Json.Print
import DesignTokens.Json.Written
import Mathlib.Data.List.Basic
import Mathlib.Data.List.TakeWhile
import Mathlib.Tactic.SplitIfs

/-!
# Strings and numbers are read back

A string in quotes is read as the text that it quotes, whatever characters that has
(`Written.string?_quoted`). The reader of numbers goes on as long as it can, so that a number must
be followed by a character by which no number goes on, a `Stops` text; what is read then does not
depend on the text behind it (`Written.number?_append`). An integer that fits a word is read as that
integer (`Json.readsBack_integer`).
-/

namespace DesignTokens

namespace Written

open Json (escape)

/-! ### Strings -/

/-- The part of a string that a character is written as. -/
def partOf (c : Char) : StringPart :=
  if c.toNat < 32 ∧ c ∉ ['\n', '\r', '\t', '\x08', '\x0c'] then .unit c.toNat else .char c

/-- What is read when one more part stands in front. -/
def withPart (part : StringPart) (found : Option (List StringPart × List Char)) :
    Option (List StringPart × List Char) :=
  found.map (Prod.map (part :: ·) id)

theorem stringParts?_short {e c : Char} (hc : simpleEscape? e = some c) (cs : List Char) :
    stringParts? ('\\' :: e :: cs) = withPart (.char c) (stringParts? cs) := by
  have he : e ≠ 'u' := by
    rintro rfl
    simp [simpleEscape?] at hc
  rw [stringParts?.eq_4 _ _ (fun _ _ _ _ _ h => absurd h he), hc]
  cases stringParts? cs <;> rfl

theorem stringParts?_unit {a b c d : Char} {code : Nat}
    (h : Text.hexNumber? [a, b, c, d] = some code) (cs : List Char) :
    stringParts? ('\\' :: 'u' :: a :: b :: c :: d :: cs) =
      withPart (.unit code) (stringParts? cs) := by
  rw [stringParts?, h]
  cases stringParts? cs <;> rfl

theorem stringParts?_plain {c : Char} (quote : c ≠ '"') (backslash : c ≠ '\\')
    (control : ¬ c.toNat < 32) (cs : List Char) :
    stringParts? (c :: cs) = withPart (.char c) (stringParts? cs) := by
  have kept : (c == '\\' || decide (c.toNat < 32)) = false := by simp [backslash, control]
  rw [stringParts?.eq_5 c cs quote (fun _ _ _ _ _ h => absurd h backslash)
    fun _ _ h => absurd h backslash, kept]
  cases stringParts? cs <;> rfl

theorem hexNumber?_control : ∀ n < 32, Text.hexNumber?
    ['0', '0', Text.hexDigit (n / 16), Text.hexDigit (n % 16)] = some n := by
  decide

theorem stringParts?_escape (c : Char) (cs : List Char) :
    stringParts? (escape c ++ cs) = withPart (partOf c) (stringParts? cs) := by
  unfold escape
  split_ifs with quote backslash newline ret tab back feed control
  · rw [eq_of_beq quote]
    exact stringParts?_short rfl cs
  · rw [eq_of_beq backslash]
    exact stringParts?_short rfl cs
  · rw [eq_of_beq newline]
    exact stringParts?_short rfl cs
  · rw [eq_of_beq ret]
    exact stringParts?_short rfl cs
  · rw [eq_of_beq tab]
    exact stringParts?_short rfl cs
  · rw [show c = '\x08' from Char.toNat_inj.1 (eq_of_beq back)]
    exact stringParts?_short rfl cs
  · rw [show c = '\x0c' from Char.toNat_inj.1 (eq_of_beq feed)]
    exact stringParts?_short rfl cs
  · have part : partOf c = .unit c.toNat := by
      refine if_pos ⟨control, fun hmem => ?_⟩
      simp only [List.mem_cons, List.not_mem_nil, or_false] at hmem
      rcases hmem with rfl | rfl | rfl | rfl | rfl <;> contradiction
    rw [part]
    exact stringParts?_unit (hexNumber?_control _ control) cs
  · have part : partOf c = .char c := if_neg fun both => control both.1
    rw [part]
    exact stringParts?_plain (by simpa using quote) (by simpa using backslash) control cs

theorem stringParts?_quoted (text rest : List Char) :
    stringParts? (text.flatMap escape ++ '"' :: rest) = some (text.map partOf, rest) := by
  induction text with
  | nil => rfl
  | cons c text ih =>
    rw [List.flatMap_cons, List.append_assoc, stringParts?_escape, ih]
    rfl

theorem spell?_unit {code : Nat} (first : isLeading code = false) (second : isTrailing code = false)
    (parts : List StringPart) :
    spell? (.unit code :: parts) = (spell? parts).map (Char.ofNat code :: ·) := by
  rcases parts with _ | ⟨_ | _, parts⟩ <;> simp [spell?, first, second]

theorem spell?_map_partOf (text : List Char) : spell? (text.map partOf) = some text := by
  induction text with
  | nil => rfl
  | cons c text ih =>
    rw [List.map_cons, partOf]
    split_ifs with control
    · have whole : ∀ n < 32, isLeading n = false ∧ isTrailing n = false := by decide
      obtain ⟨first, second⟩ := whole _ control.1
      rw [spell?_unit first second, ih, Char.ofNat_toNat]
      rfl
    · rw [spell?, ih]
      rfl

/-- **Strings.** A text in quotes is read as that text. -/
theorem string?_quoted (text : String) (rest : List Char) :
    string? (text.toList.flatMap escape ++ '"' :: rest) = some (some text, rest) := by
  rw [string?, stringParts?_quoted]
  simp [spell?_map_partOf]

/-! ### Where a number ends -/

/-- A character by which a number in front of it goes on. -/
def continues (c : Char) : Bool :=
  c.isDigit || c == '.' || c == 'e' || c == 'E'

/-- A number in front of the text ends there. -/
def Stops (rest : List Char) : Prop :=
  ∀ c ∈ rest.head?, continues c = false

theorem stops_nil : Stops [] := by
  intro c hc
  cases hc

theorem stops_cons {c : Char} (h : continues c = false) (cs : List Char) : Stops (c :: cs) := by
  rintro _ ⟨⟩
  exact h

theorem Stops.ne {rest : List Char} (stops : Stops rest) {c : Char} (hc : c ∈ rest.head?) :
    c.isDigit = false ∧ c ≠ '.' ∧ (c == 'e' || c == 'E') = false := by
  have no := stops c hc
  simp only [continues, Bool.or_eq_false_iff, beq_eq_false_iff_ne] at no ⊢
  exact ⟨no.1.1.1, no.1.1.2, no.1.2, no.2⟩

section Append

variable {rest : List Char} (stops : Stops rest)
include stops

theorem takeDigits_append (cs : List Char) :
    takeDigits (cs ++ rest) = Prod.map id (· ++ rest) (takeDigits cs) := by
  induction cs with
  | nil =>
    rcases rest with _ | ⟨c, rest⟩
    · rfl
    · simp [takeDigits, (stops.ne rfl).1]
  | cons c cs ih =>
    obtain ⟨taken, left⟩ := Prod.mk.inj ih
    by_cases digit : c.isDigit
    · rw [List.cons_append, takeDigits, takeDigits, List.takeWhile_cons_of_pos digit,
        List.dropWhile_cons_of_pos digit, taken, left, List.takeWhile_cons_of_pos digit,
        List.dropWhile_cons_of_pos digit]
      rfl
    · simp [takeDigits, digit]

theorem takeDigits_eq_append {cs digits left : List Char} (h : takeDigits cs = (digits, left)) :
    takeDigits (cs ++ rest) = (digits, left ++ rest) := by
  rw [takeDigits_append stops, h]
  rfl

theorem not_any_isDigit_append {cs : List Char} (h : ¬ cs.head?.any Char.isDigit) :
    ¬ (cs ++ rest).head?.any Char.isDigit := by
  rcases cs with _ | ⟨c, cs⟩
  · rcases rest with _ | ⟨c, rest⟩
    · exact h
    · simp [(stops.ne rfl).1]
  · exact h

theorem whole?_append {cs digits left : List Char} (h : whole? cs = some (digits, left)) :
    whole? (cs ++ rest) = some (digits, left ++ rest) := by
  unfold whole? at h
  split at h
  · next behind =>
    split_ifs at h with more
    cases h
    rw [List.cons_append, whole?, if_neg (not_any_isDigit_append stops more)]
  · next other =>
    split at h
    · cases h
    · next needed =>
      have taken := takeDigits_eq_append stops (Option.some.inj h)
      rcases cs with _ | ⟨c, cs⟩
      · simp_all [takeDigits]
      · rw [List.cons_append, whole?, ← List.cons_append, taken]
        · rcases digits
          · simp_all
          · rfl
        · simp_all

omit stops in
theorem fraction?_of_ne {cs : List Char} (h : ∀ c ∈ cs.head?, c ≠ '.') :
    fraction? cs = some (none, cs) := by
  rcases cs with _ | ⟨c, cs⟩
  · rfl
  · have other := h c rfl
    rw [fraction?]
    simp [other]

theorem fraction?_append {cs left : List Char} {digits : Option (List Char)}
    (h : fraction? cs = some (digits, left)) :
    fraction? (cs ++ rest) = some (digits, left ++ rest) := by
  unfold fraction? at h
  split at h
  · split at h
    · cases h
    · next taken =>
      cases h
      rw [List.cons_append, fraction?, takeDigits_eq_append stops taken]
      split <;> simp_all
  · next other =>
    cases h
    refine fraction?_of_ne ?_
    rcases cs with _ | ⟨c, cs⟩
    · exact fun c hc => (stops.ne hc).2.1
    · rintro _ ⟨⟩ rfl
      exact other cs rfl

omit stops in
theorem takeSign_append {cs : List Char} (h : cs ≠ []) :
    Numeral.takeSign (cs ++ rest) = Prod.map id (· ++ rest) (Numeral.takeSign cs) := by
  rcases cs with _ | ⟨c, cs⟩
  · exact absurd rfl h
  · simp only [List.cons_append, Numeral.takeSign]
    split <;> simp_all

theorem exponent?_append {cs left : List Char} {power : Option Int}
    (h : exponent? cs = some (power, left)) :
    exponent? (cs ++ rest) = some (power, left ++ rest) := by
  rcases cs with _ | ⟨c, cs⟩
  · cases h
    rcases rest with _ | ⟨c, rest⟩
    · rfl
    · rw [List.nil_append, exponent?, (stops.ne rfl).2.2]
      rfl
  · rw [exponent?] at h
    rw [List.cons_append, exponent?]
    split_ifs at h ⊢ with mark
    · rcases cs with _ | ⟨d, cs⟩
      · cases h
      · rw [takeSign_append (List.cons_ne_nil d cs)]
        dsimp only [Prod.map] at h ⊢
        split at h
        · cases h
        · next taken =>
          cases h
          rw [takeDigits_eq_append stops taken]
          split <;> simp_all
    · cases h
      rfl

end Append

/-! ### Numbers -/

/-- Reads a number behind its sign. -/
def magnitude? (negative : Bool) (cs : List Char) : Option (WrittenNumber × List Char) := do
  let (whole, cs) ← whole? cs
  let (fraction, cs) ← fraction? cs
  let (exponent, cs) ← exponent? cs
  let places := fraction.getD []
  return (
    { negative
      digits := Numeral.ofDigits (whole ++ places)
      exponent := exponent.getD 0 - places.length
      integral := fraction.isNone && exponent.isNone },
    cs)

theorem number?_minus (cs : List Char) : number? ('-' :: cs) = magnitude? true cs :=
  rfl

theorem number?_of_ne {c : Char} (h : c ≠ '-') (cs : List Char) :
    number? (c :: cs) = magnitude? false (c :: cs) := by
  unfold number?
  split
  next sign =>
  split at sign
  · simp_all
  · cases sign
    rfl

theorem magnitude?_append {rest : List Char} (stops : Stops rest) {cs left : List Char}
    {negative : Bool} {x : WrittenNumber} (h : magnitude? negative cs = some (x, left)) :
    magnitude? negative (cs ++ rest) = some (x, left ++ rest) := by
  simp only [magnitude?, Option.bind_eq_bind, Option.bind_eq_some_iff] at h ⊢
  obtain ⟨_, hwhole, _, hfraction, _, hexponent, hx⟩ := h
  cases hx
  exact ⟨_, whole?_append stops hwhole, _, fraction?_append stops hfraction, _,
    exponent?_append stops hexponent, rfl⟩

/-- **Numbers.** What is read of a number does not depend on a text behind it that stops it. -/
theorem number?_append {rest : List Char} (stops : Stops rest) {cs left : List Char}
    {x : WrittenNumber} (h : number? cs = some (x, left)) :
    number? (cs ++ rest) = some (x, left ++ rest) := by
  rcases cs with _ | ⟨c, cs⟩
  · cases h
  by_cases minus : c = '-'
  · subst minus
    rw [number?_minus] at h
    exact magnitude?_append stops h
  · rw [number?_of_ne minus] at h
    rw [List.cons_append, number?_of_ne minus, ← List.cons_append]
    exact magnitude?_append stops h

/-- A number begins with its sign or with a digit. -/
theorem exists_head_of_number? {cs left : List Char} {x : WrittenNumber}
    (h : number? cs = some (x, left)) : ∃ c tail, cs = c :: tail ∧ (c = '-' ∨ c.isDigit) := by
  rcases cs with _ | ⟨c, cs⟩
  · cases h
  refine ⟨c, cs, rfl, ?_⟩
  by_cases minus : c = '-'
  · exact .inl minus
  by_cases digit : c.isDigit
  · exact .inr digit
  have nothing : whole? (c :: cs) = none := by
    unfold whole?
    split
    · simp_all
    · simp [takeDigits, digit]
  rw [number?_of_ne minus, magnitude?, nothing] at h
  cases h

end Written

namespace Json

open Numeral Written

/-! ### Integers -/

/-- The text of a number is read as that number. -/
def ReadsBack (x : JsonNumber) : Prop :=
  ∃ w, number? (numberText x).toList = some (w, []) ∧ numberValue? w = some x

theorem isDigit_of_mem_digitsOf {n : Nat} {c : Char} (h : c ∈ digitsOf n) : c.isDigit :=
  Nat.isDigit_of_mem_toDigits (by decide) (by decide) h

/-- The digits of a positive number do not begin with a zero. -/
theorem head?_digitsOf {n : Nat} (h : 0 < n) : (digitsOf n).head? ≠ some '0' := by
  induction n using Nat.strongRecOn with
  | ind n ih =>
    rw [digitsOf, Nat.toDigits_eq_if (by decide)]
    split
    · next small =>
      have nonzero : ∀ d < 10, 0 < d → Nat.digitChar d ≠ '0' := by decide
      simpa using nonzero n small h
    · next large =>
      rw [List.head?_append_of_ne_nil _ Nat.toDigits_ne_nil]
      exact ih (n / 10) (by omega) (by omega)

theorem whole?_digitsOf (n : Nat) : whole? (digitsOf n) = some (digitsOf n, []) := by
  rcases Nat.eq_zero_or_pos n with rfl | positive
  · decide
  have digits : ∀ c ∈ digitsOf n, c.isDigit := fun c => isDigit_of_mem_digitsOf
  have taken : Written.takeDigits (digitsOf n) = (digitsOf n, []) := by
    rw [Written.takeDigits, List.takeWhile_eq_self_iff.2 digits,
      List.dropWhile_eq_nil_iff.2 digits]
  unfold whole?
  split
  · next front => exact absurd (by rw [front]; rfl) (head?_digitsOf positive)
  · rw [taken]
    split
    · next nothing => exact absurd (Prod.mk.inj nothing).1 Nat.toDigits_ne_nil
    · rfl

theorem magnitude?_digitsOf (negative : Bool) (n : Nat) :
    magnitude? negative (digitsOf n) = some (⟨negative, n, 0, true⟩, []) := by
  have value : ofDigits (digitsOf n) = n := Nat.ofDigitChars_ten_toDigits
  rw [magnitude?, whole?_digitsOf]
  simp [fraction?, exponent?, value]

theorem number?_integerText (value : Int) :
    number? (integerText value).toList =
      some (⟨decide (value < 0), value.natAbs, 0, true⟩, []) := by
  rw [integerText, String.toList_ofList]
  split
  · next below => rw [number?_minus, magnitude?_digitsOf, decide_eq_true below]
  · next above =>
    obtain ⟨c, cs, front⟩ : ∃ c cs, digitsOf value.natAbs = c :: cs :=
      List.exists_cons_of_ne_nil Nat.toDigits_ne_nil
    have digit : c.isDigit := isDigit_of_mem_digitsOf (front ▸ List.mem_cons_self)
    have positive : c ≠ '-' := by
      rintro rfl
      cases digit
    rw [front, number?_of_ne positive, ← front, magnitude?_digitsOf, decide_eq_false above]

theorem readsBack_integer {value : Int} (fits : fitsWord value) : ReadsBack (.integer value) := by
  refine ⟨_, number?_integerText value, ?_⟩
  have signed : (if decide (value < 0) then -(value.natAbs : Int) else value.natAbs) = value := by
    split
    · next below =>
      have negative := of_decide_eq_true below
      omega
    · next above =>
      have positive := of_decide_eq_false (Bool.eq_false_iff.2 above)
      omega
  have nonzero : (decide (value < 0) && value.natAbs == 0) = false := by
    rw [Bool.and_eq_false_iff, decide_eq_false_iff_not, beq_eq_false_iff_ne]
    omega
  simp only [numberValue?, signed, fits, nonzero, Bool.not_false, Bool.and_true, ↓reduceIte]

/-! ### The characters of a number -/

/-- A character that a number may have. -/
def IsNumeral (c : Char) : Prop :=
  c.isAlphanum ∨ c ∈ ['-', '+', '.']

instance (c : Char) : Decidable (IsNumeral c) :=
  inferInstanceAs (Decidable (c.isAlphanum ∨ c ∈ ['-', '+', '.']))

theorem isNumeral_digitsOf {n : Nat} {c : Char} (h : c ∈ digitsOf n) : IsNumeral c := by
  have digit := isDigit_of_mem_digitsOf h
  exact .inl (by simp [Char.isAlphanum, digit])

theorem isNumeral_zeros {n : Nat} {c : Char} (h : c ∈ zeros n) : IsNumeral c := by
  rw [List.eq_of_mem_replicate h]
  exact .inl (by decide)

theorem isNumeral_signed {negative : Prop} [Decidable negative] {cs : List Char}
    (h : ∀ c ∈ cs, IsNumeral c) : ∀ c ∈ (if negative then '-' :: cs else cs), IsNumeral c := by
  split
  · exact List.forall_mem_cons.2 ⟨.inr (by decide), h⟩
  · exact h

theorem isNumeral_integerText (value : Int) : ∀ c ∈ (integerText value).toList, IsNumeral c := by
  rw [integerText, String.toList_ofList]
  exact isNumeral_signed fun c => isNumeral_digitsOf

theorem isNumeral_positional (layout : Layout) {digits : List Char} (exponent : Int)
    (h : ∀ c ∈ digits, IsNumeral c) :
    ∀ c ∈ layout.positional digits exponent, IsNumeral c := by
  have dot : IsNumeral '.' := .inr (by decide)
  have zero : IsNumeral '0' := .inl (by decide)
  intro c hc
  unfold Layout.positional at hc
  split at hc
  · rcases List.mem_append.1 hc with hc | hc
    · rcases List.mem_append.1 hc with hc | hc
      · exact h c hc
      · exact isNumeral_zeros hc
    · split at hc
      · simp only [List.mem_cons, List.not_mem_nil, or_false] at hc
        rcases hc with rfl | rfl
        · exact dot
        · exact zero
      · cases hc
  · dsimp only at hc
    split at hc
    · simp only [List.mem_append, List.mem_cons] at hc
      rcases hc with hc | rfl | hc
      · exact h c (List.mem_of_mem_take hc)
      · exact dot
      · exact h c (List.mem_of_mem_drop hc)
    · simp only [List.cons_append, List.mem_append, List.mem_cons] at hc
      rcases hc with rfl | rfl | hc | hc
      · exact zero
      · exact dot
      · exact isNumeral_zeros hc
      · exact h c hc

theorem isNumeral_scientific {digits : List Char} (k : Int) (h : ∀ c ∈ digits, IsNumeral c) :
    ∀ c ∈ Layout.scientific digits k, IsNumeral c := by
  intro c hc
  simp only [Layout.scientific, List.mem_append, List.mem_cons] at hc
  rcases hc with (hc | hc) | rfl | rfl | hc
  · exact h c (List.mem_of_mem_take hc)
  · split at hc
    · cases hc
    · rcases List.mem_cons.1 hc with rfl | hc
      · exact .inr (by decide)
      · exact h c (List.mem_of_mem_drop hc)
  · exact .inl (by decide)
  · split <;> exact .inr (by decide)
  · exact isNumeral_digitsOf hc

theorem isNumeral_magnitude (layout : Layout) (x : Decimal) :
    ∀ c ∈ layout.magnitude x, IsNumeral c := by
  simp only [Layout.magnitude]
  split
  · exact isNumeral_positional layout _ fun c => isNumeral_digitsOf
  · exact isNumeral_scientific _ fun c => isNumeral_digitsOf

theorem isNumeral_write (layout : Layout) (x : Binary64) :
    ∀ c ∈ (layout.write x).toList, IsNumeral c := by
  unfold Layout.write
  rw [String.toList_ofList]
  refine isNumeral_signed ?_
  cases x with
  | finite negative significand exponent => exact isNumeral_magnitude layout _
  | infinite negative =>
    have letters : "inf".toList.all Char.isAlphanum := by decide
    exact fun c hc => .inl (List.all_eq_true.1 letters c hc)

theorem isNumeral_numberText (x : JsonNumber) : ∀ c ∈ (numberText x).toList, IsNumeral c := by
  cases x with
  | integer value => exact isNumeral_integerText value
  | float value => exact isNumeral_write _ value

end Json
end DesignTokens

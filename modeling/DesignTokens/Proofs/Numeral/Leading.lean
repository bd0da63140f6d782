import DesignTokens.Numeral.Leading
import DesignTokens.Proofs.Numeral.Rounding
import Mathlib.Data.List.TakeWhile
import Mathlib.Data.Nat.Find

/-!
# The numeral at the front of a text

A numeral is a sign that may be missing, digits with a point that may be missing, and an exponent
that may be missing but is complete (`Spelling.IsWritten`). What counts as a digit is a parameter:
`leading?` looks for the longest numeral in digits of any script and reads it if all its digits are
ASCII ones. So it gives a number exactly if the longest numeral in ASCII digits is not the beginning
of a longer one in digits of any script, and it is the number that this numeral denotes
(`leading?_eq_some_iff`).

The scanner takes from the front what it can. That nothing longer is a numeral is not read off the
scanner: what stands behind the longest numeral cannot prolong it, and therefore the scanner stops.
-/

namespace DesignTokens.Numeral

/-! ### Numerals -/

section Grammar

variable (digit : Char → Bool)

/-- A sign, or none. -/
inductive IsSign : List Char → Bool → Prop
  | missing : IsSign [] false
  | plus : IsSign ['+'] false
  | minus : IsSign ['-'] true

/-- One digit or more. -/
def IsDigits (cs : List Char) : Prop :=
  cs ≠ [] ∧ ∀ c ∈ cs, digit c

/-- Digits, with a point and further digits that may be missing, or a point and digits. -/
inductive IsMantissa : List Char → List Char → List Char → Prop
  | whole {ds : List Char} : IsDigits digit ds → IsMantissa ds ds []
  | point {ds fs : List Char} :
    IsDigits digit ds → (∀ c ∈ fs, digit c) → IsMantissa (ds ++ '.' :: fs) ds fs
  | bare {fs : List Char} : IsDigits digit fs → IsMantissa ('.' :: fs) [] fs

/-- A letter, a sign and digits, or nothing. -/
inductive IsExponent : List Char → Option Exponent → Prop
  | missing : IsExponent [] none
  | present {letter : Char} {sign ds : List Char} {negative : Bool} :
    letter = 'e' ∨ letter = 'E' → IsSign sign negative → IsDigits digit ds →
      IsExponent (letter :: (sign ++ ds)) (some ⟨negative, ds⟩)

/-- These characters spell the numeral. -/
inductive Spelling.IsWritten : List Char → Spelling → Prop
  | mk {sign mantissa ds fs exponent : List Char} {negative : Bool} {e : Option Exponent} :
    IsSign sign negative → IsMantissa digit mantissa ds fs → IsExponent digit exponent e →
      IsWritten (sign ++ (mantissa ++ exponent)) ⟨negative, ds, fs, e⟩

/-- The longest front of `cs` that spells a numeral spells `x`. -/
structure Spelling.IsLongest (cs front : List Char) (x : Spelling) : Prop where
  written : IsWritten digit front x
  isFront : front <+: cs
  longest (other : List Char) (y : Spelling) :
    IsWritten digit other y → other <+: cs → other.length ≤ front.length

end Grammar

/-- What a numeral denotes, up to its sign: the digits behind the point count by tenths, and the
exponent moves the point. -/
def Spelling.magnitude (x : Spelling) : ℚ :=
  (Nat.ofDigitChars 10 x.whole 0 + Nat.ofDigitChars 10 x.fraction 0 / 10 ^ x.fraction.length) *
    10 ^ x.power

theorem ofDigits_eq (cs : List Char) : ofDigits cs = Nat.ofDigitChars 10 cs 0 :=
  rfl

namespace Spelling

theorem magnitude_eq (x : Spelling) :
    x.magnitude = ofDigits (x.whole ++ x.fraction) * 10 ^ (x.power - x.fraction.length) := by
  have joined : ofDigits (x.whole ++ x.fraction) =
      10 ^ x.fraction.length * Nat.ofDigitChars 10 x.whole 0 +
        Nat.ofDigitChars 10 x.fraction 0 := by
    rw [ofDigits_eq, Nat.ofDigitChars_append, Nat.ofDigitChars_eq_ofDigitChars_zero]
  rw [magnitude, joined, zpow_sub₀ (by norm_num), zpow_natCast]
  push_cast
  field_simp

theorem rounds_value (x : Spelling) : Binary64.Rounds x.negative x.magnitude x.value := by
  rw [magnitude_eq, value]
  exact Binary64.rounds_ofDecimal ..

end Spelling

/-! ### What prolongs a numeral -/

section Longer

variable {digit : Char → Bool} {front : List Char} {x : Spelling}

theorem IsDigits.append {ds more : List Char} (h : IsDigits digit ds)
    (hm : ∀ c ∈ more, digit c) : IsDigits digit (ds ++ more) :=
  ⟨List.append_ne_nil_of_left_ne_nil h.1 _, List.forall_mem_append.2 ⟨h.2, hm⟩⟩

theorem IsMantissa.digit_behind {cs ds fs : List Char} (h : IsMantissa digit cs ds fs) {c : Char}
    (hc : digit c) : ∃ ds' fs', IsMantissa digit (cs ++ [c]) ds' fs' := by
  have one : ∀ d ∈ [c], digit d := by simpa using hc
  cases h with
  | whole hd => exact ⟨_, _, .whole (hd.append one)⟩
  | point hd hf =>
    rw [List.append_assoc, List.cons_append]
    exact ⟨_, _, .point hd (List.forall_mem_append.2 ⟨hf, one⟩)⟩
  | bare hf => exact ⟨_, _, .bare (hf.append one)⟩

theorem IsMantissa.point_behind {cs ds fs : List Char} (h : IsMantissa digit cs ds fs)
    (first : '.' ∉ cs) : ∃ ds' fs', IsMantissa digit (cs ++ ['.']) ds' fs' := by
  cases h with
  | whole hd => exact ⟨_, _, .point hd (by simp)⟩
  | point hd hf => exact (first (by simp)).elim
  | bare hf => exact (first (by simp)).elim

theorem IsExponent.digit_behind {cs : List Char} {e : Exponent}
    (h : IsExponent digit cs (some e)) {c : Char} (hc : digit c) :
    ∃ e', IsExponent digit (cs ++ [c]) (some e') := by
  cases h with
  | present hl hs hd =>
    rw [List.cons_append, List.append_assoc]
    exact ⟨_, .present hl hs (hd.append (by simpa using hc))⟩

theorem Spelling.IsWritten.digit_behind (h : IsWritten digit front x) {c : Char} (hc : digit c) :
    ∃ y, IsWritten digit (front ++ [c]) y := by
  obtain @⟨_, _, _, _, _, _, e, hs, hm, he⟩ := h
  cases e with
  | none =>
    cases he
    obtain ⟨ds, fs, longer⟩ := hm.digit_behind hc
    exact ⟨_, by simpa using IsWritten.mk hs longer .missing⟩
  | some e =>
    obtain ⟨e', longer⟩ := he.digit_behind hc
    exact ⟨_, by simpa using IsWritten.mk hs hm longer⟩

end Longer

namespace Spelling

section Longest

variable {digit : Char → Bool} {x : Spelling}

/-- Nothing that stands behind the longest numeral prolongs it. -/
theorem IsLongest.eq_nil {cs front more : List Char} (h : IsLongest digit cs front x)
    {y : Spelling} (hy : IsWritten digit (front ++ more) y) (hm : front ++ more <+: cs) :
    more = [] := by
  have short := h.longest _ y hy hm
  rw [List.length_append] at short
  exact List.eq_nil_of_length_eq_zero (by omega)

/-- Where one numeral stands at the front, there is a longest one. -/
theorem exists_isLongest {cs front : List Char} (h : IsWritten digit front x) (hf : front <+: cs) :
    ∃ front x, IsLongest digit cs front x := by
  classical
  let P (n : ℕ) : Prop := ∃ y, IsWritten digit (cs.take n) y
  have found : P front.length := ⟨x, by rwa [← List.prefix_iff_eq_take.1 hf]⟩
  obtain ⟨y, hy⟩ := Nat.findGreatest_spec (n := cs.length) hf.length_le found
  refine ⟨_, y, hy, List.take_prefix _ _, fun other z hz ho => ?_⟩
  have bound : other.length ≤ Nat.findGreatest P cs.length :=
    Nat.le_findGreatest ho.length_le ⟨z, by rwa [← List.prefix_iff_eq_take.1 ho]⟩
  rw [List.length_take]
  exact le_min bound ho.length_le

end Longest

end Spelling

/-! ### The digits of a numeral -/

section Digits

variable {digit digit' : Char → Bool} {cs : List Char}

theorem IsMantissa.iff_digits {ds fs : List Char} (h : IsMantissa digit cs ds fs) :
    IsMantissa digit' cs ds fs ↔ ∀ c ∈ ds ++ fs, digit' c := by
  constructor
  · rintro (hd | ⟨hd, hf⟩ | hf)
    · simpa using hd.2
    · exact List.forall_mem_append.2 ⟨hd.2, hf⟩
    · exact hf.2
  · intro all
    obtain ⟨whole, fraction⟩ := List.forall_mem_append.1 all
    cases h with
    | whole hd => exact .whole ⟨hd.1, whole⟩
    | point hd hf => exact .point ⟨hd.1, whole⟩ fraction
    | bare hf => exact .bare ⟨hf.1, fraction⟩

theorem IsExponent.iff_digits {e : Option Exponent} (h : IsExponent digit cs e) :
    IsExponent digit' cs e ↔ ∀ c ∈ (e.map (·.digits)).getD [], digit' c := by
  constructor
  · rintro (_ | ⟨-, -, hd⟩)
    · simp
    · exact hd.2
  · intro all
    cases h with
    | missing => exact .missing
    | present hl hs hd => exact .present hl hs ⟨hd.1, all⟩

/-- A numeral is one in the digits that it has. -/
theorem Spelling.IsWritten.iff_digits {x : Spelling} (h : IsWritten digit cs x) :
    IsWritten digit' cs x ↔ ∀ c ∈ x.digits, digit' c := by
  rw [digits, List.forall_mem_append]
  constructor
  · rintro ⟨-, hm, he⟩
    exact ⟨hm.iff_digits.1 hm, he.iff_digits.1 he⟩
  · rintro ⟨mantissa, exponent⟩
    obtain ⟨hs, hm, he⟩ := h
    exact ⟨hs, hm.iff_digits.2 mantissa, he.iff_digits.2 exponent⟩

end Digits

/-! ### Taking a numeral off the front -/

section Taking

open Text (isDecimalDigit)

variable {cs rest : List Char}

theorem ne_sign_of_isDecimalDigit {c : Char} (h : isDecimalDigit c) : c ≠ '+' ∧ c ≠ '-' := by
  constructor
  all_goals
    rintro rfl
    revert h
    decide

theorem IsMantissa.ne_sign {ds fs : List Char} (h : IsMantissa isDecimalDigit cs ds fs) :
    ∀ c ∈ (cs ++ rest).head?, c ≠ '+' ∧ c ≠ '-' := by
  cases h with
  | whole hd =>
    obtain ⟨d, ds, rfl⟩ := List.exists_cons_of_ne_nil hd.1
    simpa using ne_sign_of_isDecimalDigit (hd.2 d List.mem_cons_self)
  | point hd hf =>
    obtain ⟨d, ds, rfl⟩ := List.exists_cons_of_ne_nil hd.1
    simpa using ne_sign_of_isDecimalDigit (hd.2 d List.mem_cons_self)
  | bare hf => simp

/-- No digit stands at the front. -/
def Stops (cs : List Char) : Prop :=
  ∀ c ∈ cs.head?, isDecimalDigit c = false

theorem takeDigits_append {ds : List Char} (h : ∀ c ∈ ds, isDecimalDigit c) (hr : Stops rest) :
    takeDigits (ds ++ rest) = (ds, rest) := by
  rw [takeDigits, List.takeWhile_append_of_pos h, List.dropWhile_append_of_pos h]
  cases rest with
  | nil => simp
  | cons c cs =>
    have stop : isDecimalDigit c = false := hr c rfl
    simp [stop]

theorem takeSign_append {sign : List Char} {negative : Bool} (h : IsSign sign negative)
    (hr : ∀ c ∈ rest.head?, c ≠ '+' ∧ c ≠ '-') : takeSign (sign ++ rest) = (negative, rest) := by
  cases h with
  | missing =>
    cases rest with
    | nil => rfl
    | cons c cs =>
      obtain ⟨plus, minus⟩ := hr c rfl
      simp [takeSign, plus, minus]
  | plus => rfl
  | minus => rfl

theorem takeExponent?_append {e : Exponent} (h : IsExponent isDecimalDigit cs (some e))
    (hr : Stops rest) : takeExponent? (cs ++ rest) = some e := by
  cases h with
  | @present letter sign ds negative hl hs hd =>
    have marked : (letter == 'e' || letter == 'E') = true := by simpa using hl
    have signed : takeSign (sign ++ (ds ++ rest)) = (negative, ds ++ rest) :=
      takeSign_append hs (IsMantissa.whole hd).ne_sign
    have taken : takeDigits (ds ++ rest) = (ds, rest) := takeDigits_append hd.2 hr
    obtain ⟨d, ds, rfl⟩ := List.exists_cons_of_ne_nil hd.1
    rw [List.cons_append, List.append_assoc, takeExponent?, if_pos marked, signed]
    simp only [taken]

theorem takeSign_spec (cs : List Char) :
    ∃ sign, IsSign sign (takeSign cs).1 ∧ cs = sign ++ (takeSign cs).2 := by
  unfold takeSign
  split
  · exact ⟨_, .minus, rfl⟩
  · exact ⟨_, .plus, rfl⟩
  · exact ⟨_, .missing, rfl⟩

theorem takeDigits_spec {ds : List Char} (h : takeDigits cs = (ds, rest)) :
    (∀ c ∈ ds, isDecimalDigit c) ∧ cs = ds ++ rest := by
  obtain ⟨rfl, rfl⟩ := Prod.mk.inj h
  exact ⟨fun c => List.mem_takeWhile_imp, List.takeWhile_append_dropWhile.symm⟩

theorem isExponent_of_takeExponent? {e : Exponent} (h : takeExponent? cs = some e) :
    ∃ front, IsExponent isDecimalDigit front (some e) ∧ front <+: cs := by
  cases cs with
  | nil => contradiction
  | cons letter cs =>
    rw [takeExponent?] at h
    split at h
    · next marked =>
      obtain ⟨sign, hs, split⟩ := takeSign_spec cs
      rcases taken : takeDigits (takeSign cs).2 with ⟨_ | ⟨d, ds⟩, rest⟩
      · simp [taken] at h
      · simp only [taken, Option.some.injEq] at h
        subst h
        obtain ⟨digits, joined⟩ := takeDigits_spec taken
        refine ⟨_, .present (by simpa using marked) hs ⟨List.cons_ne_nil _ _, digits⟩, rest, ?_⟩
        rw [List.cons_append, List.append_assoc, ← joined, ← split]
    · contradiction

end Taking

/-! ### The longest numeral -/

namespace Spelling

open Text (isDecimalDigit dropBlank)

variable {cs front rest : List Char} {x : Spelling}

/-- A numeral is found where neither a digit stands behind its mantissa, nor a point that would be
its first. -/
theorem scan?_append {sign mantissa ds fs : List Char} {negative : Bool} (hs : IsSign sign negative)
    (hm : IsMantissa isDecimalDigit mantissa ds fs) (hr : Stops rest)
    (first : '.' ∉ mantissa → rest.head? ≠ some '.')
    (hc : dropBlank cs = sign ++ (mantissa ++ rest)) :
    scan? cs = some ⟨negative, ds, fs, takeExponent? rest⟩ := by
  have point : ∀ cs, Stops ('.' :: cs) := by
    rintro cs c ⟨⟩
    decide
  simp only [scan?, hc, takeSign_append hs hm.ne_sign]
  cases hm with
  | whole hd =>
    have only : '.' ∉ mantissa := by
      intro mem
      exact absurd (hd.2 _ mem) (by decide)
    have behind := first only
    rw [takeDigits_append hd.2 hr]
    obtain ⟨d, ds, rfl⟩ := List.exists_cons_of_ne_nil hd.1
    rcases rest with _ | ⟨c, rest⟩
    · rfl
    · simp only [List.head?_cons, ne_eq, Option.some.injEq] at behind
      simp [behind]
  | point hd hf =>
    rw [List.append_assoc, List.cons_append, takeDigits_append hd.2 (point _)]
    obtain ⟨d, ds, rfl⟩ := List.exists_cons_of_ne_nil hd.1
    simp only [takeDigits_append hf hr]
  | bare hf =>
    have nothing : ∀ c ∈ ([] : List Char), isDecimalDigit c := by simp
    have taken : takeDigits ('.' :: (fs ++ rest)) = ([], '.' :: (fs ++ rest)) :=
      takeDigits_append nothing (point (fs ++ rest))
    rw [List.cons_append, taken]
    simp only [takeDigits_append hf.2 hr]
    obtain ⟨d, fs, rfl⟩ := List.exists_cons_of_ne_nil hf.1
    rfl

theorem IsLongest.stops (h : IsLongest isDecimalDigit (front ++ rest) front x) : Stops rest := by
  intro c hc
  obtain ⟨rest, rfl⟩ := List.head?_eq_some_iff.1 hc
  by_contra digit
  obtain ⟨y, longer⟩ := h.written.digit_behind (Bool.eq_true_of_not_eq_false digit)
  exact List.cons_ne_nil _ _ (h.eq_nil longer ⟨rest, by simp⟩)

section Behind

variable {sign mantissa ds fs : List Char} {negative : Bool}

/-- Behind the longest numeral, if it has neither a point nor an exponent, there is no point. -/
theorem IsLongest.head?_ne_point
    (h : IsLongest isDecimalDigit (sign ++ mantissa ++ rest) (sign ++ mantissa)
      ⟨negative, ds, fs, none⟩)
    (hs : IsSign sign negative) (hm : IsMantissa isDecimalDigit mantissa ds fs)
    (first : '.' ∉ mantissa) : rest.head? ≠ some '.' := by
  intro point
  obtain ⟨rest, rfl⟩ := List.head?_eq_some_iff.1 point
  obtain ⟨ds, fs, longer⟩ := hm.point_behind first
  have written := IsWritten.mk hs longer .missing
  rw [List.append_nil, ← List.append_assoc] at written
  exact List.cons_ne_nil _ _ (h.eq_nil written ⟨rest, by simp⟩)

/-- Behind the longest numeral, if it has no exponent, there is none to be taken. -/
theorem IsLongest.takeExponent?_eq_none
    (h : IsLongest isDecimalDigit (sign ++ mantissa ++ rest) (sign ++ mantissa)
      ⟨negative, ds, fs, none⟩)
    (hs : IsSign sign negative) (hm : IsMantissa isDecimalDigit mantissa ds fs) :
    takeExponent? rest = none := by
  by_contra found
  obtain ⟨e, found⟩ := Option.ne_none_iff_exists'.1 found
  obtain ⟨exponent, he, isFront⟩ := isExponent_of_takeExponent? found
  have written := IsWritten.mk hs hm he
  rw [← List.append_assoc] at written
  have nothing := h.eq_nil written ((List.prefix_append_right_inj _).2 isFront)
  subst nothing
  nomatch he

end Behind

/-- An exponent begins with a letter. -/
theorem stops_exponent {exponent : List Char} {e : Exponent}
    (h : IsExponent isDecimalDigit exponent (some e)) (rest : List Char) :
    Stops (exponent ++ rest) ∧ (exponent ++ rest).head? ≠ some '.' := by
  rcases h with _ | ⟨rfl | rfl, -, -⟩
  · exact ⟨by rintro c ⟨⟩; decide, by simp⟩
  · exact ⟨by rintro c ⟨⟩; decide, by simp⟩

/-- **Completeness.** The longest numeral is found. -/
theorem scan?_eq_some_of_isLongest (h : IsLongest isDecimalDigit (dropBlank cs) front x) :
    scan? cs = some x := by
  obtain ⟨rest, hr⟩ := h.isFront
  rw [← hr] at h
  have stops := h.stops
  obtain @⟨sign, mantissa, ds, fs, exponent, negative, e, hs, hm, he⟩ := h.written
  cases e with
  | none =>
    -- The mantissa stands last, and what is behind it prolongs neither it nor the numeral.
    cases he
    rw [List.append_nil] at h hr
    have split : dropBlank cs = sign ++ (mantissa ++ rest) := by rw [← hr, List.append_assoc]
    rw [scan?_append hs hm stops (h.head?_ne_point hs hm) split, h.takeExponent?_eq_none hs hm]
  | some e =>
    have split : dropBlank cs = sign ++ (mantissa ++ (exponent ++ rest)) := by
      rw [← hr]
      simp only [List.append_assoc]
    have letter := stops_exponent he rest
    rw [scan?_append hs hm letter.1 (fun _ => letter.2) split, takeExponent?_append he stops]

theorem exists_isWritten_of_scan? (h : scan? cs = some x) :
    ∃ front y, IsWritten isDecimalDigit front y ∧ front <+: dropBlank cs := by
  obtain ⟨sign, hs, signed⟩ := takeSign_spec (dropBlank cs)
  -- It is enough to find a mantissa behind the sign.
  suffices found : ∃ mantissa ds fs, IsMantissa isDecimalDigit mantissa ds fs ∧
      mantissa <+: (takeSign (dropBlank cs)).2 by
    obtain ⟨mantissa, ds, fs, hm, rest, split⟩ := found
    exact ⟨_, _, .mk hs hm .missing, rest, by rw [signed, ← split]; simp⟩
  rcases whole : takeDigits (takeSign (dropBlank cs)).2 with ⟨_ | ⟨d, ds⟩, rest⟩
  · obtain ⟨-, split⟩ := takeDigits_spec whole
    rw [split]
    simp only [scan?, whole] at h
    split at h
    · next cs joined =>
      obtain ⟨-, rfl⟩ := Prod.mk.inj joined
      rcases fraction : takeDigits cs with ⟨_ | ⟨f, fs⟩, rest⟩
      · simp [fraction] at h
      · obtain ⟨digits, split⟩ := takeDigits_spec fraction
        rw [split]
        exact ⟨_, _, _, .bare ⟨List.cons_ne_nil _ _, digits⟩, rest, rfl⟩
    · contradiction
    · next more joined => exact (more (Prod.mk.inj joined).1.symm).elim
    · next more _ joined => exact (more (Prod.mk.inj joined).1.symm).elim
  · obtain ⟨digits, split⟩ := takeDigits_spec whole
    exact ⟨_, _, _, .whole ⟨List.cons_ne_nil _ _, digits⟩, rest, split.symm⟩

/-- **The scanner** finds the longest numeral. -/
theorem scan?_eq_some_iff :
    scan? cs = some x ↔ ∃ front, IsLongest isDecimalDigit (dropBlank cs) front x := by
  constructor
  · intro h
    obtain ⟨front, y, written, isFront⟩ := exists_isWritten_of_scan? h
    obtain ⟨front, y, longest⟩ := exists_isLongest written isFront
    obtain rfl : x = y := Option.some.inj (h.symm.trans (scan?_eq_some_of_isLongest longest))
    exact ⟨front, longest⟩
  · rintro ⟨front, longest⟩
    exact scan?_eq_some_of_isLongest longest

end Spelling

/-! ### The number at the front -/

section Number

open Text (isDecimalDigit dropBlank)
open Spelling (IsWritten IsLongest)

theorem leading?_eq_some (text : String) (x : Binary64) :
    leading? text = some x ↔
      ∃ n, Spelling.scan? text.toList = some n ∧ (∀ c ∈ n.digits, c.isDigit) ∧ n.value = x := by
  rw [leading?]
  cases Spelling.scan? text.toList with
  | none => simp
  | some n => simp

/-- A numeral in ASCII digits is one in digits of any script. -/
theorem isWritten_of_isDigit {cs : List Char} {x : Spelling} (h : IsWritten Char.isDigit cs x) :
    IsWritten isDecimalDigit cs x :=
  h.iff_digits.2 fun c hc => Text.isDecimalDigit_of_isDigit (h.iff_digits.1 h c hc)

/-- **The number at the front.** A text has a number exactly if it starts, after its blanks, with a
numeral in ASCII digits and with no longer one in digits of any script. The number is the one
nearest to what the longest numeral denotes. -/
theorem leading?_eq_some_iff (text : String) (x : Binary64) :
    leading? text = some x ↔
      ∃ front n, IsLongest Char.isDigit (dropBlank text.toList) front n ∧
        Binary64.Rounds n.negative n.magnitude x ∧
        ∀ other y, IsWritten isDecimalDigit other y → other <+: dropBlank text.toList →
          other.length ≤ front.length := by
  rw [leading?_eq_some]
  constructor
  · rintro ⟨n, found, digits, rfl⟩
    obtain ⟨front, longest⟩ := Spelling.scan?_eq_some_iff.1 found
    refine ⟨front, n, ⟨longest.written.iff_digits.2 digits, longest.isFront, ?_⟩,
      n.rounds_value, longest.longest⟩
    exact fun other y written => longest.longest other y (isWritten_of_isDigit written)
  · rintro ⟨front, n, longest, rounds, wider⟩
    refine ⟨n, Spelling.scan?_eq_some_iff.2 ⟨front, ?_⟩, ?_, n.rounds_value.unique rounds⟩
    · exact ⟨isWritten_of_isDigit longest.written, longest.isFront, wider⟩
    · exact longest.written.iff_digits.1 longest.written

example : leading? " -2.5em" = some (.finite true (5 * 2 ^ 50) (-51)) := by
  decide

/-- The digit of another script belongs to the longest numeral, which then has no value; the one in
front of it is not read alone. -/
theorem foreign_digit_hides_number :
    (∃ front n, IsLongest Char.isDigit (dropBlank "1\u0663px".toList) front n) ∧
      leading? "1\u0663px" = none := by
  have digits : IsDigits Char.isDigit ['1'] :=
    ⟨List.cons_ne_nil _ _, List.forall_mem_singleton.2 (by decide)⟩
  have written : IsWritten Char.isDigit ['1'] ⟨false, ['1'], [], none⟩ :=
    .mk .missing (.whole digits) .missing
  exact ⟨Spelling.exists_isLongest written (by decide), by decide⟩

end Number
end DesignTokens.Numeral

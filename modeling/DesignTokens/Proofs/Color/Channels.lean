import DesignTokens.Color
import Mathlib.Data.List.Basic
import Mathlib.Data.Nat.Notation

/-!
# The channels of a color

A color is `#` and 3, 4, 6 or 8 hexadecimal digits (`Color.IsColor`). Its channels are the bytes
that the digits spell in the order of CSS, where three or four digits are doubled and a missing
alpha channel is full (`Color.channels?`). `Color.parse?` reads these texts and no others
(`Color.parse?_eq_some_iff`).
-/

namespace DesignTokens.Color

/-! ### Hexadecimal digits -/

/-- The hexadecimal digits in small letters, each at the place of its value. -/
def hexDigits : List Char :=
  "0123456789abcdef".toList

/-- A hexadecimal digit in either case. -/
def IsHexDigit (c : Char) : Prop :=
  c.toLower ∈ hexDigits
  deriving Decidable

def digitValue (c : Char) : ℕ :=
  hexDigits.idxOf c.toLower

theorem IsHexDigit.toNat_lt {c : Char} (h : IsHexDigit c) : c.toNat < 128 := by
  by_cases upper : c.val ≥ 'A'.val ∧ c.val ≤ 'Z'.val
  · have := UInt32.le_iff_toNat_le.1 upper.2
    exact Nat.lt_of_le_of_lt this (by decide)
  · have same : c.toLower = c := dif_neg upper
    have all : hexDigits.all fun d => d.toNat < 128 := by decide
    exact of_decide_eq_true (List.all_eq_true.1 all c (same ▸ h))

theorem hexValue?_of_large {c : Char} (h : 128 ≤ c.toNat) : Text.hexValue? c = none := by
  have above : ∀ d : Char, d.toNat < 128 → ¬ c ≤ d := by
    intro d small below
    have := UInt32.le_iff_toNat_le.1 below
    simp only [Char.toNat] at *
    omega
  have digit : ¬ c.isDigit := by
    intro digit
    simp only [Char.isDigit, Bool.and_eq_true, decide_eq_true_eq] at digit
    exact above '9' (by decide) digit.2
  have small := above 'f' (by decide)
  have capital := above 'F' (by decide)
  simp [Text.hexValue?, digit, small, capital]

theorem digitValue_lt {c : Char} (h : IsHexDigit c) : digitValue c < 16 :=
  List.idxOf_lt_length_of_mem h

theorem hexValue?_eq (c : Char) :
    Text.hexValue? c = if IsHexDigit c then some (digitValue c) else none := by
  by_cases ascii : c.toNat < 128
  · have all : ∀ high < 8, ∀ low < 16, Text.hexValue? (.ofNat (16 * high + low)) =
        if IsHexDigit (.ofNat (16 * high + low)) then
          some (digitValue (.ofNat (16 * high + low)))
        else none := by
      decide
    have := all (c.toNat / 16) (by omega) (c.toNat % 16) (by omega)
    rwa [Nat.div_add_mod, Char.ofNat_toNat] at this
  · rw [hexValue?_of_large (Nat.le_of_not_lt ascii), if_neg fun h => ascii h.toNat_lt]

theorem nibbles?_of_hex {digits : List Char} (h : ∀ c ∈ digits, IsHexDigit c) :
    nibbles? digits = some (digits.map digitValue) := by
  induction digits with
  | nil => rfl
  | cons c cs ih =>
    rw [List.forall_mem_cons] at h
    unfold nibbles? at ih ⊢
    rw [List.mapM_cons, ih h.2, hexValue?_eq, if_pos h.1]
    rfl

theorem nibbles?_of_not_hex {digits : List Char} (h : ¬ ∀ c ∈ digits, IsHexDigit c) :
    nibbles? digits = none := by
  induction digits with
  | nil => exact (h (by simp)).elim
  | cons c cs ih =>
    rw [List.forall_mem_cons] at h
    unfold nibbles? at ih ⊢
    rw [List.mapM_cons, hexValue?_eq]
    by_cases first : IsHexDigit c
    · rw [if_pos first, ih fun rest => h ⟨first, rest⟩]
      rfl
    · rw [if_neg first]
      rfl

/-! ### Channels -/

/-- Three, four, six or eight hexadecimal digits, behind the mark of a color. -/
structure IsColor (digits : List Char) : Prop where
  hex : ∀ c ∈ digits, IsHexDigit c
  count : digits.length ∈ [3, 4, 6, 8]

/-- The text of a color with these digits. -/
def spelled (digits : List Char) : String :=
  String.ofList ('#' :: digits)

/-- The bytes that pairs of digits denote. -/
def bytesOf : List Char → List ℕ
  | high :: low :: cs => (16 * digitValue high + digitValue low) :: bytesOf cs
  | _ => []

/-- The color with these channels in the order of CSS, where the alpha channel may be missing. -/
def inCssOrder? : List ℕ → Option Color
  | [r, g, b] => some ⟨r, g, b, 255⟩
  | [r, g, b, a] => some ⟨r, g, b, a⟩
  | _ => none

/-- The color with these channels in the order of Android. -/
def inAndroidOrder? : List ℕ → Option Color
  | [a, r, g, b] => some ⟨r, g, b, a⟩
  | _ => none

/-- The digits with each of three or four doubled. -/
def doubled (digits : List Char) : List Char :=
  if digits.length ≤ 4 then digits.flatMap fun c => [c, c] else digits

/-- The color that digits spell in the order of CSS. -/
def channels? (digits : List Char) : Option Color :=
  inCssOrder? (bytesOf (doubled digits))

theorem ofNibbles?_map (digits : List Char) :
    ofNibbles? (digits.map digitValue) =
      if digits.length ∈ [3, 4, 6, 8] then channels? digits else none := by
  have twice (n : ℕ) : 17 * n = 16 * n + n := by omega
  rcases digits with
    _ | ⟨_, _ | ⟨_, _ | ⟨_, _ | ⟨_, _ | ⟨_, _ | ⟨_, _ | ⟨_, _ | ⟨_, _ | ⟨_, _⟩⟩⟩⟩⟩⟩⟩⟩⟩
  all_goals simp [ofNibbles?, channels?, doubled, bytesOf, inCssOrder?, twice]

theorem parse?_of_hex {digits : List Char} (h : ∀ c ∈ digits, IsHexDigit c) :
    parse? (spelled digits) =
      if digits.length ∈ [3, 4, 6, 8] then channels? digits else none := by
  rw [parse?, spelled, String.toList_ofList]
  simp only [nibbles?_of_hex h, Option.bind_some, ofNibbles?_map]

theorem parse?_of_not_hex {digits : List Char} (h : ¬ ∀ c ∈ digits, IsHexDigit c) :
    parse? (spelled digits) = none := by
  rw [parse?, spelled, String.toList_ofList]
  simp only [nibbles?_of_not_hex h, Option.bind_none]

theorem parse?_of_unmarked {text : String} (h : ∀ digits, text.toList ≠ '#' :: digits) :
    parse? text = none := by
  rw [parse?]
  split
  · next digits split => exact (h digits split).elim
  · rfl

theorem parse?_spelled {digits : List Char} {color : Color} :
    parse? (spelled digits) = some color ↔ IsColor digits ∧ channels? digits = some color := by
  by_cases hex : ∀ c ∈ digits, IsHexDigit c
  · rw [parse?_of_hex hex, Option.ite_none_right_eq_some]
    exact and_congr_left fun _ => ⟨fun count => ⟨hex, count⟩, IsColor.count⟩
  · rw [parse?_of_not_hex hex]
    exact ⟨nofun, fun both => (hex both.1.hex).elim⟩

theorem eq_spelled {text : String} {digits : List Char} (h : text.toList = '#' :: digits) :
    text = spelled digits := by
  rw [spelled, ← h, String.ofList_toList]

theorem parse?_eq_some_iff {text : String} {color : Color} :
    parse? text = some color ↔
      ∃ digits, text = spelled digits ∧ IsColor digits ∧ channels? digits = some color := by
  constructor
  · intro h
    by_cases marked : ∃ digits, text.toList = '#' :: digits
    · obtain ⟨digits, split⟩ := marked
      obtain rfl := eq_spelled split
      exact ⟨digits, rfl, parse?_spelled.1 h⟩
    · rw [parse?_of_unmarked (not_exists.1 marked)] at h
      contradiction
  · rintro ⟨digits, rfl, spells⟩
    exact parse?_spelled.2 spells

structure InBytes (color : Color) : Prop where
  red : color.red < 256
  green : color.green < 256
  blue : color.blue < 256
  alpha : color.alpha < 256

theorem length_bytesOf (cs : List Char) : (bytesOf cs).length = cs.length / 2 := by
  fun_induction bytesOf cs with
  | case1 high low cs ih => simp only [List.length_cons, ih]; omega
  | case2 cs short =>
    rcases cs with _ | ⟨c, _ | ⟨d, cs⟩⟩
    · rfl
    · simp
    · exact (short c d cs rfl).elim

theorem lt_of_mem_bytesOf {cs : List Char} (h : ∀ c ∈ cs, IsHexDigit c) :
    ∀ n ∈ bytesOf cs, n < 256 := by
  fun_induction bytesOf cs with
  | case1 high low cs ih =>
    simp only [List.forall_mem_cons] at h ⊢
    have := digitValue_lt h.1
    have := digitValue_lt h.2.1
    exact ⟨by omega, ih h.2.2⟩
  | case2 => simp

theorem inCssOrder?_spec {bytes : List ℕ} (h : bytes.length = 3 ∨ bytes.length = 4)
    (small : ∀ n ∈ bytes, n < 256) : ∃ color, inCssOrder? bytes = some color ∧ InBytes color := by
  rcases h with three | four
  · obtain ⟨r, g, b, rfl⟩ := List.length_eq_three.1 three
    simp only [List.forall_mem_cons] at small
    exact ⟨_, rfl, small.1, small.2.1, small.2.2.1, Nat.lt_succ_self _⟩
  · obtain ⟨r, g, b, a, rfl⟩ := List.length_eq_four.1 four
    simp only [List.forall_mem_cons] at small
    exact ⟨_, rfl, small.1, small.2.1, small.2.2.1, small.2.2.2.1⟩

theorem isHexDigit_of_mem_doubled {digits : List Char} (h : ∀ c ∈ digits, IsHexDigit c) :
    ∀ c ∈ doubled digits, IsHexDigit c := by
  unfold doubled
  split
  · simpa [List.mem_flatMap] using h
  · exact h

theorem IsColor.length_doubled {digits : List Char} (h : IsColor digits) :
    (doubled digits).length = 6 ∨ (doubled digits).length = 8 := by
  have count := h.count
  simp only [List.mem_cons, List.not_mem_nil, or_false] at count
  unfold doubled
  split
  · have twice : (digits.flatMap fun c => [c, c]).length = digits.length * 2 := by simp
    omega
  · omega

theorem IsColor.channels {digits : List Char} (h : IsColor digits) :
    ∃ color, channels? digits = some color ∧ InBytes color := by
  refine inCssOrder?_spec ?_ (lt_of_mem_bytesOf (isHexDigit_of_mem_doubled h.hex))
  rw [length_bytesOf]
  have := h.length_doubled
  omega

end DesignTokens.Color

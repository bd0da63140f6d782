import DesignTokens.Numeral.Binary64
import Mathlib.Algebra.Order.Field.Power
import Mathlib.Data.Rat.Cast.Order
import Mathlib.Tactic.FieldSimp
import Mathlib.Tactic.Linarith
import Mathlib.Tactic.Positivity
import Mathlib.Tactic.Ring

/-!
# Rounding to double precision

The number nearest to a rational one, among those with 53 bits whose exponent is not too small
(`Binary64.IsNearest`), is the one that no other is nearer than, and of two that are equally near
the one with an even significand. There is at most one (`Binary64.IsNearest.unique`), and
`Binary64.ofRatio` and `Binary64.ofDecimal` find it (`Binary64.rounds_ofDecimal`).

A significand is found by rounding a scaled quotient to an integer. That no number with a smaller
exponent is nearer is due to the quotient having 53 bits in front of its point.
-/

namespace DesignTokens.Numeral

/-! ### Integers near a quotient -/

section Integers

variable {num den : ℕ}

theorem abs_sub_roundHalfEven_le (num : ℕ) (h : 0 < den) :
    |(num / den : ℚ) - roundHalfEven num den| ≤ 1 / 2 := by
  obtain ⟨above, below⟩ := roundHalfEven_near num h
  have positive : (0 : ℚ) < den := by exact_mod_cast h
  have above' : 2 * (roundHalfEven num den * den : ℚ) ≤ 2 * num + den := by exact_mod_cast above
  have below' : 2 * (num : ℚ) ≤ 2 * (roundHalfEven num den * den) + den := by exact_mod_cast below
  rw [abs_le, neg_le_sub_iff_le_add, sub_le_iff_le_add, div_le_iff₀ positive, ← sub_le_iff_le_add,
    le_div_iff₀ positive]
  constructor <;> linarith

/-- A quotient halfway between two integers is rounded to the even one. -/
theorem even_roundHalfEven_of_tie (num : ℕ) (h : 0 < den)
    (tie : |(num / den : ℚ) - roundHalfEven num den| = 1 / 2) :
    roundHalfEven num den % 2 = 0 := by
  have positive : (0 : ℚ) < den := by exact_mod_cast h
  have halfway : 2 * (roundHalfEven num den * den) = 2 * num + den ∨
      2 * num = 2 * (roundHalfEven num den * den) + den := by
    rcases (abs_eq (by norm_num)).1 tie with above | below
    · right
      rw [sub_eq_iff_eq_add, div_eq_iff positive.ne'] at above
      exact_mod_cast (by linarith : 2 * (num : ℚ) = 2 * (roundHalfEven num den * den) + den)
    · left
      rw [sub_eq_iff_eq_add, div_eq_iff positive.ne'] at below
      exact_mod_cast (by linarith : 2 * (roundHalfEven num den * den : ℚ) = 2 * num + den)
  have whole := Nat.div_add_mod num den
  have small := Nat.mod_lt num h
  have next : (num / den + 1) * den = den * (num / den) + den := by ring
  have same : num / den * den = den * (num / den) := Nat.mul_comm ..
  unfold roundHalfEven at halfway ⊢
  simp only at halfway ⊢
  split_ifs at halfway ⊢ <;> omega

/-- No integer is nearer than one that is at most one half away, and one that is as near is the same
or as far away on the other side. -/
theorem abs_sub_le_of_half {t : ℚ} {s : ℕ} (near : |t - s| ≤ 1 / 2) (k : ℕ) :
    |t - s| ≤ |t - k| ∧ (|t - s| = |t - k| → (k : ℚ) = s ∨ |t - s| = 1 / 2) := by
  by_cases same : k = s
  · subst same
    exact ⟨le_rfl, fun _ => .inl rfl⟩
  have apart : (1 : ℚ) ≤ |(k : ℚ) - s| := by
    exact_mod_cast Int.one_le_abs (show (k : ℤ) - s ≠ 0 by omega)
  have sides : |(k : ℚ) - s| ≤ |t - s| + |t - k| := by
    have := abs_sub_le (k : ℚ) t s
    rwa [abs_sub_comm (k : ℚ) t, add_comm] at this
  exact ⟨by linarith, fun equal => .inr (by linarith)⟩

end Integers

namespace Binary64

/-- The number `significand · 2 ^ exponent`. -/
def scaled (significand : ℕ) (exponent : ℤ) : ℚ :=
  significand * 2 ^ exponent

/-- Of the numbers with 53 bits and no exponent below the least one, this one is nearest to `q`, and
of two that are equally near it is the one with an even significand. It is written with all its bits
if the exponent leaves room. -/
structure IsNearest (q : ℚ) (significand : ℕ) (exponent : ℤ) : Prop where
  bits : significand < 2 ^ 53
  least : leastExponent ≤ exponent
  full : leastExponent < exponent → 2 ^ 52 ≤ significand
  nearest (s : ℕ) (e : ℤ) : s < 2 ^ 53 → leastExponent ≤ e →
    |q - scaled significand exponent| ≤ |q - scaled s e|
  even (s : ℕ) (e : ℤ) : s < 2 ^ 53 → leastExponent ≤ e →
    |q - scaled significand exponent| = |q - scaled s e| →
      scaled s e = scaled significand exponent ∨ significand % 2 = 0

/-- The number is what `q` is rounded to: the nearest one, or infinite where that has a larger
exponent than finite numbers have. -/
def Rounds (negative : Bool) (q : ℚ) (x : Binary64) : Prop :=
  ∃ significand exponent, IsNearest q significand exponent ∧
    x = if greatestExponent < exponent then .infinite negative
      else .finite negative significand exponent

/-! ### Finding the nearest number -/

section Half

variable {q : ℚ} {s : ℕ} {e : ℤ}

theorem abs_sub_scaled (q : ℚ) (x : ℚ) (e : ℤ) : |q - x * 2 ^ e| = |q / 2 ^ e - x| * 2 ^ e := by
  have positive : (0 : ℚ) < 2 ^ e := by positivity
  rw [← abs_of_pos positive, ← abs_mul, abs_of_pos positive, sub_mul,
    div_mul_cancel₀ _ positive.ne']

/-- What is at most half a unit away is nearest, where the quotient has all bits in front of its
point. -/
theorem abs_sub_scaled_le (near : |q / 2 ^ e - s| ≤ 1 / 2)
    (full : leastExponent < e → 2 ^ 52 ≤ q / 2 ^ e) {s' : ℕ} {e' : ℤ} (bits : s' < 2 ^ 53)
    (least : leastExponent ≤ e') :
    |q - scaled s e| ≤ |q - scaled s' e'| ∧
      (|q - scaled s e| = |q - scaled s' e'| →
        scaled s' e' = scaled s e ∨ |q / 2 ^ e - s| = 1 / 2) := by
  have positive : (0 : ℚ) < 2 ^ e := by positivity
  have other : scaled s' e' = s' * 2 ^ (e' - e) * 2 ^ e := by
    rw [scaled, mul_assoc, ← zpow_add₀ two_ne_zero, sub_add_cancel]
  rw [other, scaled, abs_sub_scaled, abs_sub_scaled, mul_le_mul_iff_of_pos_right positive,
    mul_left_inj' positive.ne', mul_left_inj' positive.ne']
  rcases le_or_gt e e' with above | below
  · -- On the same grid the other one is an integer.
    obtain ⟨n, shift⟩ := Int.eq_ofNat_of_zero_le (sub_nonneg.2 above)
    have integer : (s' * 2 ^ (e' - e) : ℚ) = (s' * 2 ^ n : ℕ) := by
      rw [shift, zpow_natCast]
      push_cast
      rfl
    rw [integer]
    exact abs_sub_le_of_half near _
  · -- The other one is below `2 ^ 52`, which is on the grid and not above the quotient.
    have bound : (2 : ℚ) ^ 52 ≤ q / 2 ^ e := full (least.trans_lt below)
    have small : (s' * 2 ^ (e' - e) : ℚ) < 2 ^ 52 := by
      have half : (2 : ℚ) ^ (e' - e) ≤ 2 ^ (-1 : ℤ) :=
        zpow_le_zpow_right₀ one_le_two (by omega)
      have digits : (s' : ℚ) ≤ 2 ^ 53 - 1 := le_sub_iff_add_le.2 (by exact_mod_cast bits)
      calc (s' * 2 ^ (e' - e) : ℚ)
        _ ≤ (2 ^ 53 - 1) * 2 ^ (-1 : ℤ) := mul_le_mul digits half (by positivity) (by norm_num)
        _ < 2 ^ 52 := by norm_num
    have grid := (abs_sub_le_of_half near (2 ^ 52)).1
    have farther : |q / 2 ^ e - (2 ^ 52 : ℕ)| < |q / 2 ^ e - s' * 2 ^ (e' - e)| := by
      push_cast
      rw [abs_of_nonneg (by linarith), abs_of_pos (by linarith)]
      linarith
    exact ⟨(grid.trans_lt farther).le, fun equal => ((grid.trans_lt farther).ne equal).elim⟩

/-- What a scaled quotient is rounded to gives the nearest number. -/
theorem isNearest_of_half (bits : s < 2 ^ 53) (least : leastExponent ≤ e)
    (near : |q / 2 ^ e - s| ≤ 1 / 2) (tie : |q / 2 ^ e - s| = 1 / 2 → s % 2 = 0)
    (full : leastExponent < e → 2 ^ 52 ≤ q / 2 ^ e) : IsNearest q s e where
  bits := bits
  least := least
  full room := by
    have := full room
    have close := (abs_le.1 near).2
    have : (2 ^ 52 : ℚ) < s + 1 := by linarith
    exact Nat.le_of_lt_succ (by exact_mod_cast this)
  nearest s' e' bits' least' := (abs_sub_scaled_le near full bits' least').1
  even s' e' bits' least' equal :=
    ((abs_sub_scaled_le near full bits' least').2 equal).imp_right tie

/-- A significand that is rounded up to `2 ^ 53` is halved. -/
theorem isNearest_of_half_carry (least : leastExponent ≤ e)
    (near : |q / 2 ^ e - (2 ^ 53 : ℕ)| ≤ 1 / 2)
    (full : leastExponent < e → 2 ^ 52 ≤ q / 2 ^ e) : IsNearest q (2 ^ 52) (e + 1) := by
  have same : scaled (2 ^ 52) (e + 1) = scaled (2 ^ 53) e := by
    rw [scaled, scaled, zpow_add_one₀ two_ne_zero]
    push_cast
    ring
  refine ⟨by norm_num, by omega, fun _ => le_rfl, fun s' e' bits' least' => ?_,
    fun s' e' bits' least' equal => .inr (by norm_num)⟩
  rw [same]
  exact (abs_sub_scaled_le near full bits' least').1

end Half

/-! ### The nearest number to a quotient -/

section Quotient

variable {num den : ℕ}

theorem scale_snd_pos (num : ℕ) (h : 0 < den) (e : ℤ) : 0 < (scale num den e).2 :=
  Nat.mul_pos h (Nat.pow_pos two_pos)

theorem scale_div (num den : ℕ) (e : ℤ) :
    ((scale num den e).1 : ℚ) / (scale num den e).2 = num / den / 2 ^ e := by
  have split : (2 : ℚ) ^ e = 2 ^ e.toNat / 2 ^ (-e).toNat := by
    rw [← zpow_natCast, ← zpow_natCast, ← zpow_sub₀ two_ne_zero]
    congr 1
    omega
  rw [split]
  simp only [scale, Nat.pow_eq]
  push_cast
  field_simp

/-- The exponent that the search begins with: one that gives the quotient 53 bits or one less, as
far as there is room. -/
def guess (num den : ℕ) : ℤ :=
  max leastExponent ((num.log2 : ℤ) - den.log2 - 52)

/-- The exponent of the nearest number, up to a carry. -/
def exponentOf (num den : ℕ) : ℤ :=
  if (scale num den (guess num den)).1 / (scale num den (guess num den)).2 < 2 ^ 52 then
    max leastExponent (guess num den - 1)
  else guess num den

/-- The significand of the nearest number, up to a carry. -/
def significandOf (num den : ℕ) : ℕ :=
  roundHalfEven (scale num den (exponentOf num den)).1 (scale num den (exponentOf num den)).2

theorem ofRatio_eq (negative : Bool) (h : num ≠ 0) :
    ofRatio negative num den =
      if significandOf num den = 2 ^ 53 then ofScaled negative (2 ^ 52) (exponentOf num den + 1)
      else ofScaled negative (significandOf num den) (exponentOf num den) := by
  rw [ofRatio, if_neg h]
  rfl

/-- A quotient lies between powers of two that the numbers of bits tell. -/
theorem div_lt_of_log2 (h : 0 < den) {e : ℤ} (room : (num.log2 : ℤ) - den.log2 - 52 ≤ e) :
    (num / den / 2 ^ e : ℚ) < 2 ^ 53 := by
  have above : (num : ℚ) < 2 ^ ((num.log2 : ℤ) + 1) := by
    exact_mod_cast (Nat.lt_log2_self : num < _)
  have below : (2 : ℚ) ^ (den.log2 : ℤ) ≤ den := by
    exact_mod_cast Nat.log2_self_le h.ne'
  have positive : (0 : ℚ) < den := by exact_mod_cast h
  rw [div_div, div_lt_iff₀ (by positivity)]
  calc (num : ℚ)
    _ < 2 ^ ((num.log2 : ℤ) + 1) := above
    _ ≤ 2 ^ ((53 : ℤ) + (den.log2 + e)) := zpow_le_zpow_right₀ one_le_two (by omega)
    _ = 2 ^ 53 * (2 ^ (den.log2 : ℤ) * 2 ^ e) := by
      rw [zpow_add₀ two_ne_zero, zpow_add₀ two_ne_zero]
      norm_num
    _ ≤ 2 ^ 53 * (den * 2 ^ e) := by gcongr

theorem le_div_of_log2 (hn : num ≠ 0) (h : 0 < den) {e : ℤ}
    (room : e ≤ (num.log2 : ℤ) - den.log2 - 53) : (2 ^ 52 : ℚ) ≤ num / den / 2 ^ e := by
  have above : (den : ℚ) ≤ 2 ^ ((den.log2 : ℤ) + 1) := by
    exact_mod_cast (Nat.lt_log2_self : den < _).le
  have below : (2 : ℚ) ^ (num.log2 : ℤ) ≤ num := by
    exact_mod_cast Nat.log2_self_le hn
  have positive : (0 : ℚ) < den := by exact_mod_cast h
  rw [div_div, le_div_iff₀ (by positivity)]
  calc (2 ^ 52 * (den * 2 ^ e) : ℚ)
    _ ≤ 2 ^ 52 * (2 ^ ((den.log2 : ℤ) + 1) * 2 ^ e) := by gcongr
    _ = 2 ^ ((52 : ℤ) + ((den.log2 : ℤ) + 1 + e)) := by
      rw [zpow_add₀ two_ne_zero 52, zpow_add₀ two_ne_zero _ e]
      norm_num
    _ ≤ 2 ^ (num.log2 : ℤ) := zpow_le_zpow_right₀ one_le_two (by omega)
    _ ≤ num := below

/-- At its exponent the quotient has 53 bits in front of its point, or as many as there is room
for. -/
theorem exponentOf_spec (hn : num ≠ 0) (h : 0 < den) :
    leastExponent ≤ exponentOf num den ∧
    (num / den / 2 ^ exponentOf num den : ℚ) < 2 ^ 53 ∧
    (leastExponent < exponentOf num den →
      (2 ^ 52 : ℚ) ≤ num / den / 2 ^ exponentOf num den) := by
  have short : (scale num den (guess num den)).1 / (scale num den (guess num den)).2 < 2 ^ 52 ↔
      (num / den / 2 ^ guess num den : ℚ) < 2 ^ 52 := by
    have positive := scale_snd_pos num h (guess num den)
    rw [← scale_div, div_lt_iff₀ (by exact_mod_cast positive), Nat.div_lt_iff_lt_mul positive]
    exact_mod_cast Iff.rfl
  unfold exponentOf
  split
  · next small =>
    have next : guess num den - 1 ≤ max leastExponent (guess num den - 1) := le_max_right _ _
    refine ⟨le_max_left _ _, ?_, fun room => le_div_of_log2 hn h ?_⟩
    · generalize max leastExponent (guess num den - 1) = e at next
      have twice : (2 : ℚ) ^ guess num den ≤ 2 * 2 ^ e := by
        rw [← zpow_one_add₀ two_ne_zero]
        exact zpow_le_zpow_right₀ one_le_two (by omega)
      have shorter := short.1 small
      rw [div_lt_iff₀ (by positivity)] at shorter ⊢
      linarith
    · unfold guess at room ⊢
      omega
  · next large =>
    refine ⟨le_max_left _ _, div_lt_of_log2 h (le_max_right _ _), fun _ => ?_⟩
    exact le_of_not_gt fun small => large (short.2 small)

/-- What is at most half of the least positive number is rounded to zero. -/
theorem rounds_zero (negative : Bool) {q : ℚ} (positive : 0 ≤ q)
    (small : q / 2 ^ leastExponent ≤ 1 / 2) : Rounds negative q (zero negative) := by
  have near : |q / 2 ^ leastExponent - (0 : ℕ)| ≤ 1 / 2 := by
    rwa [Nat.cast_zero, sub_zero, abs_of_nonneg (by positivity)]
  exact ⟨0, leastExponent, isNearest_of_half (by norm_num) le_rfl near (fun _ => rfl)
    fun room => (lt_irrefl _ room).elim, rfl⟩

/-- **Rounding a quotient.** What `ofRatio` gives is the nearest number. -/
theorem rounds_ofRatio (negative : Bool) (num : ℕ) (h : 0 < den) :
    Rounds negative (num / den) (ofRatio negative num den) := by
  by_cases hn : num = 0
  · subst hn
    rw [ofRatio, if_pos rfl]
    exact rounds_zero negative (by simp) (by norm_num)
  obtain ⟨least, bits, full⟩ := exponentOf_spec hn h
  have positive := scale_snd_pos num h (exponentOf num den)
  have near := abs_sub_roundHalfEven_le (scale num den (exponentOf num den)).1 positive
  have tie := even_roundHalfEven_of_tie (scale num den (exponentOf num den)).1 positive
  rw [scale_div, ← significandOf] at near tie
  rw [ofRatio_eq negative hn]
  split
  · next carry =>
    rw [carry] at near
    exact ⟨_, _, isNearest_of_half_carry least near full, rfl⟩
  · next plain =>
    have below : significandOf num den < 2 ^ 53 + 1 := by
      have close := (abs_le.1 near).1
      exact_mod_cast (by linarith : (significandOf num den : ℚ) < 2 ^ 53 + 1)
    exact ⟨_, _, isNearest_of_half (by omega) least near tie full, rfl⟩

end Quotient

/-! ### The nearest number to a decimal -/

section Decimal

variable {digits : ℕ} {exponent : ℤ}

theorem lt_pow_digitCount (n : ℕ) : n < 10 ^ digitCount n :=
  (Nat.length_toDigits_le_iff (by norm_num) Nat.length_toDigits_pos).1 le_rfl

theorem pow_digitCount_le {n : ℕ} (h : n ≠ 0) : 10 ^ (digitCount n - 1) ≤ n := by
  by_contra below
  rcases Nat.eq_zero_or_pos (digitCount n - 1) with one | more
  · rw [one] at below
    omega
  · have shorter := (Nat.length_toDigits_le_iff (by norm_num) more).2 (not_le.1 below)
    unfold digitCount at *
    omega

theorem decimal_eq_div (digits : ℕ) (exponent : ℤ) :
    (digits * 10 ^ exponent : ℚ) =
      (digits * 10 ^ exponent.toNat : ℕ) / (10 ^ (-exponent).toNat : ℕ) := by
  have split : (10 : ℚ) ^ exponent = 10 ^ exponent.toNat / 10 ^ (-exponent).toNat := by
    rw [← zpow_natCast, ← zpow_natCast, ← zpow_sub₀ (by norm_num)]
    congr 1
    omega
  rw [split]
  push_cast
  ring

theorem two_pow_mul_le {m m' n : ℕ} (h : (2 : ℚ) ^ m * 2 ^ m' ≤ 10 ^ n) (k : ℕ) :
    (2 : ℚ) ^ ((m + m') * k) ≤ 10 ^ (n * k) := by
  rw [pow_mul, pow_mul, pow_add]
  exact pow_le_pow_left₀ (by positivity) h k

/-- A decimal with few digits in front of its point is rounded to zero. -/
theorem decimal_small (small : exponent + digitCount digits ≤ -324) :
    (digits * 10 ^ exponent : ℚ) / 2 ^ leastExponent ≤ 1 / 2 := by
  have block : (2 : ℚ) ^ 69 * 2 ^ 200 ≤ 10 ^ 81 := by norm_num
  have powers : (2 : ℚ) ^ 1075 ≤ 10 ^ 324 :=
    (pow_le_pow_right₀ one_le_two (by norm_num)).trans (two_pow_mul_le block 4)
  have below : (digits : ℚ) ≤ 10 ^ (digitCount digits : ℤ) := by
    exact_mod_cast (lt_pow_digitCount digits).le
  have half : (2 ^ 1075 : ℚ)⁻¹ = 1 / 2 * 2 ^ leastExponent := by
    rw [leastExponent, ← zpow_natCast, ← zpow_neg, one_div, ← zpow_neg_one, ← zpow_add₀ two_ne_zero]
    norm_num
  rw [div_le_iff₀ (by positivity)]
  calc (digits * 10 ^ exponent : ℚ)
    _ ≤ 10 ^ (digitCount digits : ℤ) * 10 ^ exponent := by gcongr
    _ = 10 ^ (digitCount digits + exponent) := (zpow_add₀ (by norm_num) _ _).symm
    _ ≤ 10 ^ (-324 : ℤ) := zpow_le_zpow_right₀ (by norm_num) (by omega)
    _ = (10 ^ 324 : ℚ)⁻¹ := by rw [zpow_neg]; rfl
    _ ≤ (2 ^ 1075 : ℚ)⁻¹ := inv_anti₀ (by positivity) powers
    _ = 1 / 2 * 2 ^ leastExponent := half

theorem decimal_large (hd : digits ≠ 0) (large : 309 < exponent + digitCount digits) :
    (2 : ℚ) ^ 1024 ≤ digits * 10 ^ exponent := by
  have block : (2 : ℚ) ^ 142 * 2 ^ 200 ≤ 10 ^ 103 := by norm_num
  have powers : (2 : ℚ) ^ 1024 ≤ 10 ^ 309 :=
    (pow_le_pow_right₀ one_le_two (by norm_num)).trans (two_pow_mul_le block 3)
  have above : (10 : ℚ) ^ ((digitCount digits - 1 : ℕ) : ℤ) ≤ digits := by
    exact_mod_cast pow_digitCount_le hd
  have counted : 0 < digitCount digits := Nat.length_toDigits_pos
  calc (2 : ℚ) ^ 1024
    _ ≤ 10 ^ (309 : ℤ) := powers
    _ ≤ 10 ^ (((digitCount digits - 1 : ℕ) : ℤ) + exponent) :=
      zpow_le_zpow_right₀ (by norm_num) (by omega)
    _ = 10 ^ ((digitCount digits - 1 : ℕ) : ℤ) * 10 ^ exponent := zpow_add₀ (by norm_num) _ _
    _ ≤ digits * 10 ^ exponent := by gcongr

theorem IsNearest.lt_exponent {q : ℚ} {s : ℕ} {e : ℤ} (h : IsNearest q s e)
    (large : (2 : ℚ) ^ 1024 ≤ q) : greatestExponent < e := by
  by_contra finite
  have power : scaled (2 ^ 52) 972 = 2 ^ 1024 := by
    rw [scaled, Nat.cast_pow, Nat.cast_ofNat, ← zpow_natCast, ← zpow_natCast,
      ← zpow_add₀ two_ne_zero, show ((52 : ℕ) : ℤ) + 972 = (1024 : ℕ) from rfl]
  have bound : scaled s e < scaled (2 ^ 52) 972 := by
    have bits : (s : ℚ) < 2 ^ 53 := by exact_mod_cast h.bits
    have room : (2 : ℚ) ^ e ≤ 2 ^ (971 : ℤ) := zpow_le_zpow_right₀ one_le_two (not_lt.1 finite)
    calc scaled s e
      _ < 2 ^ 53 * 2 ^ e := mul_lt_mul_of_pos_right bits (by positivity)
      _ ≤ 2 ^ 53 * 2 ^ (971 : ℤ) := by gcongr
      _ = scaled (2 ^ 52) 972 := by
        rw [scaled, show (972 : ℤ) = 971 + 1 from rfl, zpow_add_one₀ two_ne_zero]
        generalize (2 : ℚ) ^ (971 : ℤ) = unit
        push_cast
        ring
  have near := h.nearest (2 ^ 52) 972 (by norm_num) (by decide)
  rw [← power] at large
  rw [abs_of_pos (by linarith), abs_of_nonneg (by linarith)] at near
  linarith

/-- **Rounding a decimal.** What `ofDecimal` gives is the nearest number. -/
theorem rounds_ofDecimal (negative : Bool) (digits : ℕ) (exponent : ℤ) :
    Rounds negative (digits * 10 ^ exponent) (ofDecimal negative digits exponent) := by
  have ratio := rounds_ofRatio negative (digits * 10 ^ exponent.toNat)
    (Nat.pow_pos (n := (-exponent).toNat) (by norm_num : 0 < 10))
  rw [← decimal_eq_div] at ratio
  simp only [ofDecimal]
  split_ifs with nothing small large
  · subst nothing
    exact rounds_zero negative (by simp) (by norm_num)
  · exact rounds_zero negative (by positivity) (decimal_small small)
  · obtain ⟨s, e, nearest, -⟩ := ratio
    exact ⟨s, e, nearest, (if_pos (nearest.lt_exponent (decimal_large nothing large))).symm⟩
  · exact ratio

end Decimal

/-! ### There is one nearest number -/

section Unique

variable {q : ℚ} {s s' : ℕ} {e e' : ℤ}

theorem scaled_lt_scaled_iff : scaled s e < scaled s' e ↔ s < s' := by
  have positive : (0 : ℚ) < 2 ^ e := by positivity
  rw [scaled, scaled, mul_lt_mul_iff_of_pos_right positive, Nat.cast_lt]

/-- A number that is written with all its bits is larger than those with a smaller exponent. -/
theorem scaled_lt_of_exponent_lt (bits : s < 2 ^ 53) (full : 2 ^ 52 ≤ s') (h : e < e') :
    scaled s e < scaled s' e' := by
  have bits' : (s : ℚ) < 2 ^ 53 := by exact_mod_cast bits
  have full' : (2 : ℚ) ^ 52 ≤ s' := by exact_mod_cast full
  calc scaled s e
    _ < 2 ^ 53 * 2 ^ e := mul_lt_mul_of_pos_right bits' (by positivity)
    _ = 2 ^ 52 * 2 ^ (e + 1) := by
      rw [zpow_add_one₀ two_ne_zero]
      ring
    _ ≤ 2 ^ 52 * 2 ^ e' := by
      gcongr
      · exact one_le_two
      · omega
    _ ≤ scaled s' e' := mul_le_mul_of_nonneg_right full' (by positivity)

/-- Between two numbers with even significands there is another one. -/
theorem exists_between (h : IsNearest q s e) (h' : IsNearest q s' e') (even : s % 2 = 0)
    (even' : s' % 2 = 0) (below : scaled s e < scaled s' e') :
    ∃ m k, m < 2 ^ 53 ∧ leastExponent ≤ k ∧ scaled s e < scaled m k ∧
      scaled m k < scaled s' e' := by
  have bits := h.bits
  have bits' := h'.bits
  have least := h.least
  rcases lt_trichotomy e e' with smaller | same | larger
  · have full' := h'.full (least.trans_lt smaller)
    by_cases power : s' = 2 ^ 52
    · -- Below a power of two the spacing is that of the exponent before.
      refine ⟨2 ^ 53 - 1, e' - 1, by norm_num, by omega, ?_,
        scaled_lt_of_exponent_lt (by norm_num) full' (by omega)⟩
      rcases (Int.le_sub_one_of_lt smaller).lt_or_eq with apart | next
      · exact scaled_lt_of_exponent_lt bits (by norm_num) apart
      · rw [next, scaled_lt_scaled_iff]
        omega
    · exact ⟨s' - 1, e', by omega, h'.least, scaled_lt_of_exponent_lt bits (by omega) smaller,
        scaled_lt_scaled_iff.2 (by omega)⟩
  · subst same
    rw [scaled_lt_scaled_iff] at below
    exact ⟨s + 1, e, by omega, least, scaled_lt_scaled_iff.2 (by omega),
      scaled_lt_scaled_iff.2 (by omega)⟩
  · have full := h.full (h'.least.trans_lt larger)
    exact (below.asymm (scaled_lt_of_exponent_lt bits' full larger)).elim

theorem IsNearest.not_scaled_lt (h : IsNearest q s e) (h' : IsNearest q s' e') :
    ¬ scaled s e < scaled s' e' := by
  intro below
  have equal : |q - scaled s e| = |q - scaled s' e'| :=
    le_antisymm (h.nearest s' e' h'.bits h'.least) (h'.nearest s e h.bits h.least)
  have even := (h.even s' e' h'.bits h'.least equal).resolve_left below.ne'
  have even' := (h'.even s e h.bits h.least equal.symm).resolve_left below.ne
  obtain ⟨m, k, bits, least, above, under⟩ := exists_between h h' even even' below
  -- The one in between is nearer than the one on the other side of the quotient.
  rcases le_or_gt q (scaled m k) with left | right
  · have near := h'.nearest m k bits least
    rw [abs_of_neg (by linarith), abs_of_nonpos (by linarith)] at near
    linarith
  · have near := h.nearest m k bits least
    rw [abs_of_pos (by linarith), abs_of_pos (by linarith)] at near
    linarith

theorem IsNearest.scaled_eq (h : IsNearest q s e) (h' : IsNearest q s' e') :
    scaled s e = scaled s' e' :=
  le_antisymm (not_lt.1 (h'.not_scaled_lt h)) (not_lt.1 (h.not_scaled_lt h'))

/-- **Uniqueness.** There is only one nearest number, and one way to write it. -/
theorem IsNearest.unique (h : IsNearest q s e) (h' : IsNearest q s' e') : s = s' ∧ e = e' := by
  have equal := h.scaled_eq h'
  have same : e = e' := by
    rcases lt_trichotomy e e' with smaller | same | larger
    · have full' := h'.full (h.least.trans_lt smaller)
      exact ((scaled_lt_of_exponent_lt h.bits full' smaller).ne equal).elim
    · exact same
    · have full := h.full (h'.least.trans_lt larger)
      exact ((scaled_lt_of_exponent_lt h'.bits full larger).ne equal.symm).elim
  subst same
  have not_below : ¬ s < s' := fun below => (scaled_lt_scaled_iff.2 below).ne equal
  have not_above : ¬ s' < s := fun above => (scaled_lt_scaled_iff.2 above).ne equal.symm
  exact ⟨by omega, rfl⟩

theorem Rounds.unique {negative : Bool} {x y : Binary64} (hx : Rounds negative q x)
    (hy : Rounds negative q y) : x = y := by
  obtain ⟨s, e, h, rfl⟩ := hx
  obtain ⟨s', e', h', rfl⟩ := hy
  obtain ⟨rfl, rfl⟩ := h.unique h'
  rfl

end Unique

end Binary64
end DesignTokens.Numeral

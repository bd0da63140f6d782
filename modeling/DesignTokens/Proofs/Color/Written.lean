import DesignTokens.Proofs.Color.Channels
import DesignTokens.Proofs.Numeral.Leading
import DesignTokens.Transform

/-!
# Colors as platforms write them

`Transform.hex8Android` spells the channels of a color in the order of Android
(`Color.androidForm_hex8Android`), and `Transform.hex6` drops a full alpha channel or lists the
channels in decimal (`Color.plainForm_hex6`). Both leave every value that is no color, the latter
also a color without eight digits.
-/

namespace DesignTokens.Color

open Numeral (digitsOf Spelling IsDigits)

/-! ### The order of Android -/

theorem hexDigit_spec :
    ∀ n < 16, Text.hexDigit n ∈ hexDigits ∧ digitValue (Text.hexDigit n) = n := by
  decide

theorem hexByte_subset {n : ℕ} (h : n < 256) : ∀ c ∈ hexByte n, c ∈ hexDigits := by
  simp only [hexByte, List.forall_mem_cons, List.not_mem_nil, false_implies, implies_true, and_true]
  exact ⟨(hexDigit_spec _ (by omega)).1, (hexDigit_spec _ (by omega)).1⟩

theorem bytesOf_hexByte_append {n : ℕ} (h : n < 256) (cs : List Char) :
    bytesOf (hexByte n ++ cs) = n :: bytesOf cs := by
  rw [hexByte, List.cons_append, List.cons_append, List.nil_append, bytesOf,
    (hexDigit_spec _ (by omega)).2, (hexDigit_spec _ (by omega)).2, Nat.div_add_mod]

/-- The eight digits that a color has in the order of Android. -/
def androidDigits (color : Color) : List Char :=
  hexByte color.alpha ++ (hexByte color.red ++ (hexByte color.green ++ hexByte color.blue))

theorem android_eq (color : Color) : color.android = spelled color.androidDigits := by
  rw [android, spelled, androidDigits, List.append_assoc, List.append_assoc]
  rfl

theorem inAndroidOrder?_androidDigits {color : Color} (h : InBytes color) :
    inAndroidOrder? (bytesOf color.androidDigits) = some color := by
  have last := bytesOf_hexByte_append h.blue []
  rw [List.append_nil] at last
  rw [androidDigits, bytesOf_hexByte_append h.alpha, bytesOf_hexByte_append h.red,
    bytesOf_hexByte_append h.green, last]
  rfl

/-- What becomes of a value in the order of Android: a color has the same channels with eight digits
in small letters, every other value stays. -/
inductive AndroidForm : Json → Json → Prop
  | color {digits written : List Char} {color : Color} :
    IsColor digits → channels? digits = some color → written.length = 8 →
      (∀ c ∈ written, c ∈ hexDigits) → inAndroidOrder? (bytesOf written) = some color →
      AndroidForm (.string (spelled digits)) (.string (spelled written))
  | other {value : Json} :
    (∀ digits, IsColor digits → value ≠ .string (spelled digits)) → AndroidForm value value

theorem androidForm_hex8Android (value : Json) :
    AndroidForm value (Transform.hex8Android.apply value) := by
  rw [Transform.apply, Transform.onColor]
  split
  · next color found =>
    obtain ⟨text, isText, parsed⟩ := Option.bind_eq_some_iff.1 found
    obtain ⟨digits, rfl, isColor, channels⟩ := parse?_eq_some_iff.1 parsed
    obtain rfl : value = .string (spelled digits) := by
      cases value <;> simp_all [Json.asString?]
    obtain ⟨_, channels', bytes⟩ := isColor.channels
    obtain rfl := Option.some.inj (channels.symm.trans channels')
    rw [android_eq]
    refine .color isColor channels rfl ?_ (inAndroidOrder?_androidDigits bytes)
    simp only [androidDigits, List.forall_mem_append]
    exact ⟨hexByte_subset bytes.alpha, hexByte_subset bytes.red, hexByte_subset bytes.green,
      hexByte_subset bytes.blue⟩
  · next nothing =>
    refine .other fun digits isColor equal => ?_
    obtain ⟨color, channels, -⟩ := isColor.channels
    rw [equal, Json.asString?, Option.bind_some, parse?_spelled.2 ⟨isColor, channels⟩] at nothing
    contradiction

example : Transform.hex8Android.apply (.string "#AABBCC80") = .string "#80aabbcc" := by
  rfl

/-! ### Without an alpha channel -/

theorem channels?_eight {r r' g g' b b' a a' : Char} :
    channels? [r, r', g, g', b, b', a, a'] =
      some ⟨16 * digitValue r + digitValue r', 16 * digitValue g + digitValue g',
        16 * digitValue b + digitValue b', 16 * digitValue a + digitValue a'⟩ :=
  rfl

theorem digitValue_eq_fifteen {c : Char} (h : IsHexDigit c) :
    digitValue c = 15 ↔ c.toLower = 'f' := by
  have all : hexDigits.all fun d => hexDigits.idxOf d = 15 ↔ d = 'f' := by decide
  exact of_decide_eq_true (List.all_eq_true.1 all _ h)

theorem alpha_eq_iff {a a' : Char} (h : IsHexDigit a) (h' : IsHexDigit a') :
    16 * digitValue a + digitValue a' = 255 ↔ [a, a'].map Char.toLower = ['f', 'f'] := by
  have := digitValue_lt h
  have := digitValue_lt h'
  have digits : [a, a'].map Char.toLower = ['f', 'f'] ↔
      a.toLower = 'f' ∧ a'.toLower = 'f' := by
    simp
  rw [digits, ← digitValue_eq_fifteen h, ← digitValue_eq_fifteen h']
  omega

theorem exists_eq_of_length_eight {digits : List Char} (count : digits.length = 8) :
    ∃ r r' g g' b b' a a', digits = [r, r', g, g', b, b', a, a'] := by
  rcases digits with
    _ | ⟨r, _ | ⟨r', _ | ⟨g, _ | ⟨g', _ | ⟨b, _ | ⟨b', _ | ⟨a, _ | ⟨a', _ | ⟨_, _⟩⟩⟩⟩⟩⟩⟩⟩⟩
  all_goals simp at count
  exact ⟨r, r', g, g', b, b', a, a', rfl⟩

/-- A numeral for a hundredth, the one nearest to `q`. -/
def IsHundredth (text : String) (q : ℚ) : Prop :=
  ∃ n, Spelling.IsWritten Char.isDigit text.toList n ∧ n.negative = false ∧
    n.exponent = none ∧ n.fraction.length ≤ 2 ∧ |n.magnitude - q| ≤ 1 / 200

theorem isWritten_whole {c : Char} (h : c.isDigit) :
    Spelling.IsWritten Char.isDigit [c] ⟨false, [c], [], none⟩ :=
  have digits : IsDigits Char.isDigit [c] := ⟨List.cons_ne_nil _ _, by simpa using h⟩
  .mk .missing (.whole digits) .missing

theorem isWritten_places {fs : List Char} (h : ∀ c ∈ fs, c.isDigit) :
    Spelling.IsWritten Char.isDigit ('0' :: '.' :: fs) ⟨false, ['0'], fs, none⟩ := by
  have zero : IsDigits Char.isDigit ['0'] :=
    ⟨List.cons_ne_nil _ _, List.forall_mem_singleton.2 (by decide)⟩
  simpa using Spelling.IsWritten.mk .missing (.point zero h) .missing

theorem magnitude_places (fs : List Char) :
    Spelling.magnitude ⟨false, ['0'], fs, none⟩ = Nat.ofDigitChars 10 fs 0 / 10 ^ fs.length := by
  have zero : Nat.ofDigitChars 10 ['0'] 0 = 0 := by decide
  simp [Spelling.magnitude, Spelling.power, zero]

theorem magnitude_whole (c : Char) :
    Spelling.magnitude ⟨false, [c], [], none⟩ = Nat.ofDigitChars 10 [c] 0 := by
  simp [Spelling.magnitude, Spelling.power]

theorem digitsOf_of_lt : ∀ n < 10, digitsOf n = [Nat.digitChar n] ∧
    (Nat.digitChar n).isDigit ∧ Nat.ofDigitChars 10 [Nat.digitChar n] 0 = n := by
  decide

/-- What `alphaText` writes denotes the hundredths that it finds. -/
theorem isWritten_alphaText (color : Color) {hundredths : ℕ}
    (found : (200 * color.alpha + 255) / 510 = hundredths) (small : hundredths ≤ 100) :
    ∃ n, Spelling.IsWritten Char.isDigit color.alphaText.toList n ∧ n.negative = false ∧
      n.exponent = none ∧ n.fraction.length ≤ 2 ∧ n.magnitude = hundredths / 100 := by
  rw [alphaText, String.toList_ofList]
  simp only [found]
  split_ifs with one zero round
  · have value : Nat.ofDigitChars 10 ['1'] 0 = 1 := by decide
    refine ⟨_, isWritten_whole (by decide), rfl, rfl, by simp, ?_⟩
    rw [magnitude_whole, value, one]
    norm_num
  · have value : Nat.ofDigitChars 10 ['0'] 0 = 0 := by decide
    refine ⟨_, isWritten_whole (by decide), rfl, rfl, by simp, ?_⟩
    rw [magnitude_whole, value, zero]
    norm_num
  · obtain ⟨tens, isDigit, value⟩ := digitsOf_of_lt (hundredths / 10) (by omega)
    have whole : (hundredths : ℚ) = 10 * (hundredths / 10 : ℕ) := by
      exact_mod_cast (by omega : hundredths = 10 * (hundredths / 10))
    rw [tens]
    refine ⟨_, isWritten_places (List.forall_mem_singleton.2 isDigit), rfl, rfl, by simp, ?_⟩
    rw [magnitude_places, value, whole, List.length_singleton]
    ring
  · obtain ⟨tens, isDigit, value⟩ := digitsOf_of_lt (hundredths / 10) (by omega)
    obtain ⟨ones, isDigit', value'⟩ := digitsOf_of_lt (hundredths % 10) (by omega)
    have whole : (hundredths : ℚ) = 10 * (hundredths / 10 : ℕ) + (hundredths % 10 : ℕ) := by
      exact_mod_cast (by omega : hundredths = 10 * (hundredths / 10) + hundredths % 10)
    have joined : Nat.ofDigitChars 10
        ([Nat.digitChar (hundredths / 10)] ++ [Nat.digitChar (hundredths % 10)]) 0 =
        10 * (hundredths / 10) + hundredths % 10 := by
      rw [Nat.ofDigitChars_append, value, Nat.ofDigitChars_eq_ofDigitChars_zero, value',
        List.length_singleton, pow_one]
    rw [tens, ones, List.cons_append, List.cons_append]
    refine ⟨_, isWritten_places ?_, rfl, rfl, by simp, ?_⟩
    · exact List.forall_mem_append.2
        ⟨List.forall_mem_singleton.2 isDigit, List.forall_mem_singleton.2 isDigit'⟩
    · rw [magnitude_places, joined, whole, List.length_append, List.length_singleton,
        List.length_singleton]
      push_cast
      ring

theorem alphaText_spec (color : Color) (h : color.alpha < 256) :
    IsHundredth color.alphaText (color.alpha / 255) := by
  obtain ⟨n, written, positive, plain, places, value⟩ :=
    isWritten_alphaText color rfl (by omega)
  refine ⟨n, written, positive, plain, places, ?_⟩
  have above : (510 * ((200 * color.alpha + 255) / 510 : ℕ) : ℚ) ≤ 200 * color.alpha + 255 := by
    exact_mod_cast Nat.mul_div_le _ _
  have below : (200 * color.alpha + 255 : ℚ) <
      510 * (((200 * color.alpha + 255) / 510 : ℕ) + 1) := by
    exact_mod_cast Nat.lt_mul_div_succ _ (by norm_num)
  rw [value, abs_le]
  constructor <;> linarith

/-- What becomes of a value where an alpha channel is not part of a color: a color with eight digits
loses a full alpha channel and has its channels listed with any other, every other value stays. -/
inductive PlainForm : Json → Json → Prop
  | full {digits : List Char} :
    IsColor digits → digits.length = 8 → (digits.drop 6).map Char.toLower = ['f', 'f'] →
      PlainForm (.string (spelled digits))
        (.string (String.ofList ((spelled digits).toList.take 7)))
  | listed {digits : List Char} {color : Color} {alpha : String} :
    IsColor digits → digits.length = 8 → (digits.drop 6).map Char.toLower ≠ ['f', 'f'] →
      channels? digits = some color → IsHundredth alpha (color.alpha / 255) →
      PlainForm (.string (spelled digits))
        (.string ("rgba(" ++ toString color.red ++ ", " ++ toString color.green ++ ", " ++
          toString color.blue ++ ", " ++ alpha ++ ")"))
  | other {value : Json} :
    (∀ digits, IsColor digits → digits.length = 8 → value ≠ .string (spelled digits)) →
      PlainForm value value

theorem ofList_take_spelled (digits : List Char) :
    String.ofList ((spelled digits).toList.take 7) = spelled (digits.take 6) := by
  rw [spelled, String.toList_ofList, List.take_succ_cons]
  rfl

theorem withoutOpaqueAlpha_spelled {digits : List Char} (h : IsColor digits)
    (count : digits.length = 8) {color : Color} (channels : channels? digits = some color) :
    withoutOpaqueAlpha (spelled digits) =
      if (digits.drop 6).map Char.toLower = ['f', 'f'] then spelled (digits.take 6)
      else color.rgba := by
  have length : (spelled digits).toList.length = 9 := by
    rw [spelled, String.toList_ofList, List.length_cons, count]
  have full : color.alpha = 255 ↔ (digits.drop 6).map Char.toLower = ['f', 'f'] := by
    obtain ⟨r, r', g, g', b, b', a, a', rfl⟩ := exists_eq_of_length_eight count
    obtain rfl := Option.some.inj (channels?_eight.symm.trans channels)
    exact alpha_eq_iff (h.hex a (by simp)) (h.hex a' (by simp))
  rw [withoutOpaqueAlpha, parse?_spelled.2 ⟨h, channels⟩]
  simp only [length, ne_eq, not_true_eq_false, if_false, full, ← ofList_take_spelled]

theorem withoutOpaqueAlpha_of_ne {text : String}
    (h : ∀ digits, IsColor digits → digits.length = 8 → text ≠ spelled digits) :
    withoutOpaqueAlpha text = text := by
  unfold withoutOpaqueAlpha
  simp only
  split
  · next color parsed =>
    obtain ⟨digits, rfl, isColor, -⟩ := parse?_eq_some_iff.1 parsed
    have other : digits.length ≠ 8 := fun count => h digits isColor count rfl
    rw [if_pos]
    simpa [spelled] using other
  · rfl

theorem plainForm_hex6 (value : Json) : PlainForm value (Transform.hex6.apply value) := by
  by_cases isColor : ∃ digits, IsColor digits ∧ digits.length = 8 ∧ value = .string (spelled digits)
  · obtain ⟨digits, isColor, count, rfl⟩ := isColor
    obtain ⟨color, channels, bytes⟩ := isColor.channels
    rw [Transform.apply, withoutOpaqueAlpha_spelled isColor count channels]
    split
    · next full =>
      rw [← ofList_take_spelled]
      exact .full isColor count full
    · next other =>
      exact .listed isColor count other channels (alphaText_spec color bytes.alpha)
  · have other : ∀ digits, IsColor digits → digits.length = 8 → value ≠ .string (spelled digits) :=
      fun digits h count equal => isColor ⟨digits, h, count, equal⟩
    have same : Transform.hex6.apply value = value := by
      cases value with
      | string text =>
        have stays : withoutOpaqueAlpha text = text :=
          withoutOpaqueAlpha_of_ne fun digits h count equal => other digits h count (by rw [equal])
        rw [Transform.apply, stays]
      | _ => rfl
    rw [same]
    exact .other other

end DesignTokens.Color

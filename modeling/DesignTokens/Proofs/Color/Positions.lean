import DesignTokens.Proofs.Color.Written

/-!
# Colors cut out by positions

The digits of a color can be counted in bytes and cut out by their byte positions, where a cut that
leaves the text or splits a character has no result. That reading by positions gives the colors that
reading the characters does says that no cut fails (`Color.readByPositions?_eq`,
`Color.plainByPositions?_eq`). Every character that stands between two cuts is a digit by then, and
a digit has one byte.
-/

namespace DesignTokens.Color

/-! ### Reading by positions -/

/-- The text before a byte position and the text behind it. There is no result if the position is
behind the text or inside a character. -/
def splitBytes? : ℕ → List Char → Option (List Char × List Char)
  | 0, cs => some ([], cs)
  | _ + 1, [] => none
  | n + 1, c :: cs =>
    if c.utf8Size ≤ n + 1 then
      (splitBytes? (n + 1 - c.utf8Size) cs).map fun (before, behind) => (c :: before, behind)
    else none

/-- What stands between two byte positions, if both are in the text and split no character. -/
def slice? (cs : List Char) (first last : ℕ) : Option (List Char) :=
  if first ≤ last then do
    let (_, behind) ← splitBytes? first cs
    let (between, _) ← splitBytes? (last - first) behind
    return between
  else none

def byteSize (cs : List Char) : ℕ :=
  (cs.map Char.utf8Size).sum

/-- The number that the two digits from a position on denote, if they are digits; no result if the
cut fails. -/
def byteAt? (cs : List Char) (first : ℕ) : Option (Option ℕ) :=
  (slice? cs first (first + 2)).map Text.hexNumber?

/-- The color whose channels are cut out of six or eight digits; no result if a cut fails. -/
def cutChannels? (cs : List Char) : Option (Option Color) := do
  let alpha ← if byteSize cs = 8 then byteAt? cs 6 else some (some 255)
  let red ← byteAt? cs 0
  let green ← byteAt? cs 2
  let blue ← byteAt? cs 4
  return do return ⟨← red, ← green, ← blue, ← alpha⟩

/-- The color that a text denotes, its digits counted in bytes and cut out by their positions; no
result if a cut fails. -/
def readByPositions? (text : String) : Option (Option Color) :=
  match text.toList with
  | '#' :: digits =>
    if digits.all (IsHexDigit ·) then
      if byteSize digits ∈ [3, 4] then cutChannels? (digits.flatMap fun c => [c, c])
      else if byteSize digits ∈ [6, 8] then cutChannels? digits
      else some none
    else some none
  | _ => some none

/-- The first six digits and the last two of a color with eight. -/
def eightDigits? (text : String) : Option (List Char × List Char) :=
  match text.toList with
  | '#' :: digits =>
    if digits.length = 8 ∧ digits.all (IsHexDigit ·) then some (digits.take 6, digits.drop 6)
    else none
  | _ => none

/-- A color with eight digits without a full alpha channel, its channels cut out by their positions;
no result if a cut fails. -/
def plainByPositions? (text : String) : Option String :=
  match eightDigits? text with
  | none => some text
  | some (rgb, alpha) =>
    if alpha.map Char.toLower = ['f', 'f'] then some (spelled rgb)
    else do
      let red ← byteAt? rgb 0
      let green ← byteAt? rgb 2
      let blue ← byteAt? rgb 4
      return rgba ⟨red.getD 0, green.getD 0, blue.getD 0, (Text.hexNumber? alpha).getD 0⟩

section Positions

variable {cs : List Char}

theorem all_isHexDigit_iff : cs.all (IsHexDigit ·) ↔ ∀ c ∈ cs, IsHexDigit c := by
  simp

theorem utf8Size_of_isHexDigit {c : Char} (h : IsHexDigit c) : c.utf8Size = 1 := by
  have small := h.toNat_lt
  rw [Char.utf8Size_eq_one_iff, UInt32.le_iff_toNat_le]
  simp only [Char.toNat] at small
  exact Nat.le_of_lt_succ small

theorem byteSize_eq (h : ∀ c ∈ cs, IsHexDigit c) : byteSize cs = cs.length := by
  have ones : cs.map Char.utf8Size = cs.map fun _ => 1 :=
    List.map_congr_left fun c hc => utf8Size_of_isHexDigit (h c hc)
  rw [byteSize, ones]
  simp

/-- A position between digits is one between characters. -/
theorem splitBytes?_eq (h : ∀ c ∈ cs, IsHexDigit c) {n : ℕ} (inside : n ≤ cs.length) :
    splitBytes? n cs = some (cs.splitAt n) := by
  rw [List.splitAt_eq]
  induction cs generalizing n with
  | nil =>
    obtain rfl : n = 0 := by simpa using inside
    rfl
  | cons c cs ih =>
    rw [List.forall_mem_cons] at h
    cases n with
    | zero => rfl
    | succ n =>
      rw [splitBytes?, utf8Size_of_isHexDigit h.1, if_pos (by omega), Nat.add_sub_cancel,
        ih h.2 (Nat.le_of_succ_le_succ inside)]
      rfl

theorem slice?_eq (h : ∀ c ∈ cs, IsHexDigit c) {first last : ℕ} (order : first ≤ last)
    (inside : last ≤ cs.length) :
    slice? cs first last = some ((cs.drop first).take (last - first)) := by
  have rest : last - first ≤ (cs.drop first).length := by
    rw [List.length_drop]
    omega
  have hex : ∀ c ∈ cs.drop first, IsHexDigit c := fun c hc => h c (List.mem_of_mem_drop hc)
  simp [slice?, order, splitBytes?_eq h (order.trans inside), splitBytes?_eq hex rest]

theorem hexNumber?_pair {high low : Char} (hh : IsHexDigit high) (hl : IsHexDigit low) :
    Text.hexNumber? [high, low] = some (16 * digitValue high + digitValue low) := by
  simp [Text.hexNumber?, hexValue?_eq, hh, hl]

/-- The pairs of digits denote the bytes one after the other. -/
theorem hexNumber?_take_drop (h : ∀ c ∈ cs, IsHexDigit c) {k : ℕ} (inside : 2 * k + 2 ≤ cs.length) :
    Text.hexNumber? ((cs.drop (2 * k)).take 2) = (bytesOf cs)[k]? := by
  induction k generalizing cs with
  | zero =>
    rcases cs with _ | ⟨high, _ | ⟨low, cs⟩⟩
    · simp at inside
    · simp at inside
    · exact hexNumber?_pair (h high (by simp)) (h low (by simp))
  | succ k ih =>
    rcases cs with _ | ⟨high, _ | ⟨low, cs⟩⟩
    · simp at inside
    · simp at inside
    · simp only [List.length_cons] at inside
      rw [Nat.mul_succ, List.drop_succ_cons, List.drop_succ_cons, bytesOf, List.getElem?_cons_succ]
      exact ih (fun c hc => h c (by simp [hc])) (by omega)

theorem byteAt?_eq (h : ∀ c ∈ cs, IsHexDigit c) {first k : ℕ} (even : first = 2 * k)
    (inside : first + 2 ≤ cs.length) : byteAt? cs first = some (bytesOf cs)[k]? := by
  rw [byteAt?, slice?_eq h (Nat.le_add_right _ _) inside, Option.map_some, Nat.add_sub_cancel_left,
    even, hexNumber?_take_drop h (even ▸ inside)]

theorem cutChannels?_eq (h : ∀ c ∈ cs, IsHexDigit c) (count : cs.length = 6 ∨ cs.length = 8) :
    cutChannels? cs = some (inCssOrder? (bytesOf cs)) := by
  have bytes := length_bytesOf cs
  rw [cutChannels?, byteSize_eq h, byteAt?_eq h (k := 0) rfl (by omega),
    byteAt?_eq h (k := 1) rfl (by omega), byteAt?_eq h (k := 2) rfl (by omega)]
  rcases count with six | eight
  · obtain ⟨r, g, b, split⟩ := List.length_eq_three.1 (by omega : (bytesOf cs).length = 3)
    rw [if_neg (by omega), split]
    rfl
  · obtain ⟨r, g, b, a, split⟩ := List.length_eq_four.1 (by omega : (bytesOf cs).length = 4)
    rw [if_pos eight, byteAt?_eq h (k := 3) rfl (by omega), split]
    rfl

theorem IsColor.cutChannels?_doubled {digits : List Char} (h : IsColor digits) :
    cutChannels? (doubled digits) = some (parse? (spelled digits)) := by
  rw [cutChannels?_eq (isHexDigit_of_mem_doubled h.hex) h.length_doubled, parse?_of_hex h.hex,
    if_pos h.count, channels?]

theorem readByPositions?_eq (text : String) : readByPositions? text = some (parse? text) := by
  rw [readByPositions?]
  split
  · next digits split =>
    obtain rfl := eq_spelled split
    rw [if_congr all_isHexDigit_iff rfl rfl]
    split_ifs with hex short long
    · rw [byteSize_eq hex] at short
      have count : digits.length ∈ [3, 4, 6, 8] := List.mem_append_left [6, 8] short
      have few : digits.length ≤ 4 := by
        rcases List.mem_pair.1 short with three | four <;> omega
      rw [← IsColor.cutChannels?_doubled ⟨hex, count⟩, doubled, if_pos few]
    · rw [byteSize_eq hex] at long
      have count : digits.length ∈ [3, 4, 6, 8] := List.mem_append_right [3, 4] long
      have many : ¬ digits.length ≤ 4 := by
        rcases List.mem_pair.1 long with six | eight <;> omega
      rw [← IsColor.cutChannels?_doubled ⟨hex, count⟩, doubled, if_neg many]
    · rw [byteSize_eq hex] at short long
      have none : digits.length ∉ [3, 4, 6, 8] :=
        fun count => (List.mem_append.1 (count : _ ∈ [3, 4] ++ [6, 8])).elim short long
      rw [parse?_of_hex hex, if_neg none]
    · rw [parse?_of_not_hex hex]
  · next unmarked => rw [parse?_of_unmarked unmarked]

theorem eightDigits?_eq_some_iff {text : String} {rgb alpha : List Char} :
    eightDigits? text = some (rgb, alpha) ↔
      ∃ digits, text = spelled digits ∧ IsColor digits ∧ digits.length = 8 ∧
        rgb = digits.take 6 ∧ alpha = digits.drop 6 := by
  constructor
  · intro h
    unfold eightDigits? at h
    split at h
    · next digits split =>
      obtain ⟨⟨count, all⟩, found⟩ := Option.ite_none_right_eq_some.1 h
      have hex := all_isHexDigit_iff.1 all
      obtain ⟨rfl, rfl⟩ := Prod.mk.inj (Option.some.inj found)
      exact ⟨digits, eq_spelled split, ⟨hex, by simp [count]⟩, count, rfl, rfl⟩
    · contradiction
  · rintro ⟨digits, rfl, color, count, rfl, rfl⟩
    rw [eightDigits?, spelled, String.toList_ofList]
    exact if_pos ⟨count, all_isHexDigit_iff.2 color.hex⟩

theorem plainByPositions?_eq (text : String) :
    plainByPositions? text = some (withoutOpaqueAlpha text) := by
  rw [plainByPositions?]
  split
  · next missing =>
    rw [withoutOpaqueAlpha_of_ne]
    rintro digits color count rfl
    rw [eightDigits?_eq_some_iff.2 ⟨digits, rfl, color, count, rfl, rfl⟩] at missing
    contradiction
  · next rgb alpha found =>
    obtain ⟨digits, rfl, color, count, rfl, rfl⟩ := eightDigits?_eq_some_iff.1 found
    have hex : ∀ c ∈ digits.take 6, IsHexDigit c :=
      fun c hc => color.hex c (List.mem_of_mem_take hc)
    obtain ⟨r, r', g, g', b, b', a, a', rfl⟩ := exists_eq_of_length_eight count
    rw [withoutOpaqueAlpha_spelled color count channels?_eight]
    split
    · rfl
    · have alpha : Text.hexNumber? ([r, r', g, g', b, b', a, a'].drop 6) =
          some (16 * digitValue a + digitValue a') :=
        hexNumber?_pair (color.hex a (by simp)) (color.hex a' (by simp))
      rw [byteAt?_eq hex (k := 0) rfl (by simp), byteAt?_eq hex (k := 1) rfl (by simp),
        byteAt?_eq hex (k := 2) rfl (by simp), alpha]
      rfl

end Positions

/-! ### The two transforms -/

/-- **The transforms of colors.** Each value has the forms that the two transforms are for, and the
channels can be cut out by their positions without a cut that fails. -/
theorem transforms_keep_channels :
    (∀ value, AndroidForm value (Transform.hex8Android.apply value)) ∧
    (∀ value, PlainForm value (Transform.hex6.apply value)) ∧
    ∀ text, readByPositions? text = some (parse? text) ∧
      plainByPositions? text = some (withoutOpaqueAlpha text) :=
  ⟨androidForm_hex8Android, plainForm_hex6,
    fun text => ⟨readByPositions?_eq text, plainByPositions?_eq text⟩⟩

end DesignTokens.Color

import DesignTokens.Proofs.Json.Scanning
import DesignTokens.Proofs.Json.Spelling
import DesignTokens.Proofs.SortedAssoc
import Mathlib.Data.String.Basic

/-!
# A text is read as the value that it spells

The reader follows the grammar of `Json.Spells`: a text that spells a value is read as what shows
that value (`Json.Shows`), whatever stands behind it (`Json.reads_of_spells`). The value must be
`Legible`: the keys of its objects are in order, as they are in every object that is built by
insertion, and its numbers are read back. What shows a value has that value, if there is room for
its `depth` (`Json.value?_of_shows`); a room of the length of the text is always enough, since each
level takes a bracket (`Json.parseWithin?_of_spells`).
-/

namespace DesignTokens.Json

open Written

mutual

/-- The keys of all objects are in order, and all numbers are read back. -/
def Legible : Json → Prop
  | null | bool _ | string _ => True
  | number x => ReadsBack x
  | array items => LegibleItems items
  | object members => SortedAssoc.Increasing members ∧ LegibleMembers members

def LegibleItems : List Json → Prop
  | [] => True
  | item :: items => item.Legible ∧ LegibleItems items

def LegibleMembers : List (String × Json) → Prop
  | [] => True
  | (_, value) :: members => value.Legible ∧ LegibleMembers members

end

/-! ### Legible values -/

theorem legibleItems_iff {items : List Json} :
    LegibleItems items ↔ ∀ item ∈ items, item.Legible := by
  induction items with
  | nil => simp [LegibleItems]
  | cons item items ih => rw [LegibleItems, ih, List.forall_mem_cons]

theorem legibleMembers_iff {members : List (String × Json)} :
    LegibleMembers members ↔ ∀ member ∈ members, member.2.Legible := by
  induction members with
  | nil => simp [LegibleMembers]
  | cons member members ih => rw [LegibleMembers, ih, List.forall_mem_cons]

theorem legible_insert {key : String} {value : Json} {members : List (String × Json)}
    (h : (object members).Legible) (hvalue : value.Legible) :
    (object (SortedAssoc.insert key value members)).Legible := by
  refine ⟨h.1.upsert _ _, legibleMembers_iff.2 fun member hmem => ?_⟩
  rcases SortedAssoc.eq_or_mem_of_mem_insert hmem with rfl | hmem
  · exact hvalue
  · exact legibleMembers_iff.1 h.2 member hmem

theorem legible_ofMembers {members : List (String × Json)}
    (h : ∀ member ∈ members, member.2.Legible) : (ofMembers members).Legible :=
  ⟨.ofList members, legibleMembers_iff.2 fun member hmem =>
    h member (SortedAssoc.mem_of_mem_ofList hmem)⟩

theorem legible_singleton {key : String} {value : Json} (h : value.Legible) :
    (object [(key, value)]).Legible :=
  legible_insert ⟨.nil, trivial⟩ h

/-! ### What shows a value -/

mutual

/-- The value as it was written: the members of its objects in order, each once, and its texts
whole. -/
def Shows : Json → Written → Prop
  | null, w => w = .null
  | bool b, w => w = .bool b
  | number x, w => ∃ n, w = .number n ∧ numberValue? n = some x
  | string text, w => w = .string (some text)
  | array items, w => ∃ ws, w = .array ws ∧ ShowsItems items ws
  | object members, w => ∃ ws, w = .object ws ∧ ShowsMembers members ws

def ShowsItems : List Json → List Written → Prop
  | [], ws => ws = []
  | item :: items, ws => ∃ w rest, ws = w :: rest ∧ Shows item w ∧ ShowsItems items rest

def ShowsMembers : List (String × Json) → List (Option String × Written) → Prop
  | [], ws => ws = []
  | (key, value) :: members, ws =>
    ∃ w rest, ws = (some key, w) :: rest ∧ Shows value w ∧ ShowsMembers members rest

end

mutual

def depth : Json → Nat
  | null | bool _ | number _ | string _ => 0
  | array items => depthItems items + 1
  | object members => depthMembers members + 1

def depthItems : List Json → Nat
  | [] => 0
  | item :: items => max item.depth (depthItems items)

def depthMembers : List (String × Json) → Nat
  | [] => 0
  | (_, value) :: members => max value.depth (depthMembers members)

end

mutual

theorem value?_of_shows : ∀ {v : Json} {w : Written} {room : Nat}, v.Legible → Shows v w →
    v.depth ≤ room → w.value? room = some v
  | null, _, _, _, h, _ | bool _, _, _, _, h, _ | string _, _, _, _, h, _ => h ▸ rfl
  | number _, _, _, _, ⟨_, h, hvalue⟩, _ => by rw [h, value?, hvalue, Option.map_some]
  | array items, _, 0, _, _, fits => absurd fits (Nat.not_succ_le_zero _)
  | object members, _, 0, _, _, fits => absurd fits (Nat.not_succ_le_zero _)
  | array items, _, room + 1, legible, ⟨ws, h, shows⟩, fits => by
    rw [h, value?, values?_of_shows legible shows (Nat.le_of_succ_le_succ fits), Option.map_some]
  | object members, _, room + 1, ⟨sorted, legible⟩, ⟨ws, h, shows⟩, fits => by
    rw [h, value?, memberValues?_of_shows legible shows (Nat.le_of_succ_le_succ fits),
      Option.map_some, ofMembers, sorted.ofList_eq]

theorem values?_of_shows : ∀ {items : List Json} {ws : List Written} {room : Nat},
    LegibleItems items → ShowsItems items ws → depthItems items ≤ room →
      values? room ws = some items
  | [], _, _, _, h, _ => h ▸ rfl
  | item :: items, _, room, ⟨legible, legibles⟩, ⟨w, rest, h, shows, showsRest⟩, fits => by
    rw [depthItems, Nat.max_le] at fits
    rw [h, values?, value?_of_shows legible shows fits.1,
      values?_of_shows legibles showsRest fits.2]
    rfl

theorem memberValues?_of_shows : ∀ {members : List (String × Json)}
    {ws : List (Option String × Written)} {room : Nat},
    LegibleMembers members → ShowsMembers members ws → depthMembers members ≤ room →
      memberValues? room ws = some members
  | [], _, _, _, h, _ => h ▸ rfl
  | (key, value) :: members, _, room, ⟨legible, legibles⟩, ⟨w, rest, h, shows, showsRest⟩,
      fits => by
    rw [depthMembers, Nat.max_le] at fits
    rw [h, memberValues?, value?_of_shows legible shows fits.1,
      memberValues?_of_shows legibles showsRest fits.2]
    rfl

end

mutual

/-- Each level of a value takes a bracket of its text. -/
theorem depth_le_of_spells : ∀ {v : Json} {cs : List Char}, Spells v cs → v.depth ≤ cs.length
  | null, _, _ | bool _, _, _ | number _, _, _ | string _, _, _ => Nat.zero_le _
  | array [], _, h | object [], _, h => by
    rw [Spells] at h
    rw [h]
    decide
  | array (item :: items), _, ⟨gap, first, more, _, hitem, hitems, h⟩ => by
    have inner := depth_le_of_spells hitem
    have outer := depthItems_le_of_spells hitems
    rw [h, depth, depthItems, Nat.succ_le_iff]
    simp only [List.cons_append, List.length_cons, List.length_append]
    omega
  | object ((key, value) :: members), _, ⟨gap, space, first, more, _, _, hvalue, hmembers, h⟩ => by
    have inner := depth_le_of_spells hvalue
    have outer := depthMembers_le_of_spells hmembers
    rw [h, depth, depthMembers, Nat.succ_le_iff]
    simp only [List.cons_append, List.length_cons, List.length_append]
    omega

theorem depthItems_le_of_spells : ∀ {items : List Json} {cs : List Char}, SpellsItems items cs →
    depthItems items ≤ cs.length
  | [], _, _ => Nat.zero_le _
  | item :: items, _, ⟨gap, first, more, _, hitem, hitems, h⟩ => by
    have inner := depth_le_of_spells hitem
    have outer := depthItems_le_of_spells hitems
    rw [h, depthItems]
    simp only [List.cons_append, List.length_cons, List.length_append]
    omega

theorem depthMembers_le_of_spells : ∀ {members : List (String × Json)} {cs : List Char},
    SpellsMembers members cs → depthMembers members ≤ cs.length
  | [], _, _ => Nat.zero_le _
  | (key, value) :: members, _, ⟨gap, space, first, more, _, _, hvalue, hmembers, h⟩ => by
    have inner := depth_le_of_spells hvalue
    have outer := depthMembers_le_of_spells hmembers
    rw [h, depthMembers]
    simp only [List.cons_append, List.length_cons, List.length_append]
    omega

end

/-! ### Blanks -/

theorem continues_of_isGap {c : Char} (h : isGap c) : continues c = false := by
  simp only [isGap, Bool.or_eq_true, beq_iff_eq] at h
  rcases h with ((rfl | rfl) | rfl) | rfl <;> rfl

theorem not_mem_of_all {p : Char → Bool} {c : Char} (h : p c) {others : List Char}
    (none : others.all fun other => !p other) : c ∉ others := by
  intro hmem
  have without := List.all_eq_true.1 none c hmem
  rw [h] at without
  cases without

theorem isGap_eq_false {c : Char} (h : c ∉ [' ', '\t', '\n', '\r']) : isGap c = false := by
  simpa [isGap, and_assoc] using h

theorem stops_gap {gap cs : List Char} (blank : Gap gap) (h : Stops cs) : Stops (gap ++ cs) := by
  rcases gap with _ | ⟨c, gap⟩
  · exact h
  · exact stops_cons (continues_of_isGap (blank c List.mem_cons_self)) _

theorem skipGap_append {gap : List Char} (blank : Gap gap) (cs : List Char) :
    skipGap (gap ++ cs) = skipGap cs :=
  List.dropWhile_append_of_pos blank

theorem skipGap_cons {c : Char} (solid : isGap c = false) (cs : List Char) :
    skipGap (c :: cs) = c :: cs :=
  List.dropWhile_cons_of_neg (by simp [solid])

theorem read?_gap {gap : List Char} (blank : Gap gap) (fuel : Nat) (cs : List Char) :
    read? fuel (gap ++ cs) = read? fuel cs := by
  cases fuel with
  | zero => rfl
  | succ fuel => rw [read?, read?, skipGap_append blank]

theorem readItems?_gap {gap : List Char} (blank : Gap gap) (fuel : Nat) (cs : List Char) :
    readItems? fuel (gap ++ cs) = readItems? fuel cs := by
  cases fuel with
  | zero => rfl
  | succ fuel => rw [readItems?, readItems?, read?_gap blank]

theorem readMembers?_gap {gap : List Char} (blank : Gap gap) (fuel : Nat) (cs : List Char) :
    readMembers? fuel (gap ++ cs) = readMembers? fuel cs := by
  cases fuel with
  | zero => rfl
  | succ fuel => rw [readMembers?, readMembers?, skipGap_append blank]

/-! ### One step of the reader -/

theorem read?_string (fuel : Nat) (text : String) (rest : List Char) :
    read? (fuel + 1) (quoteChars text.toList ++ rest) = some (.string (some text), rest) := by
  rw [quoteChars, List.append_assoc, List.cons_append, List.singleton_append, read?,
    skipGap_cons rfl]
  simp [string?_quoted]

/-- What a number begins with is neither a blank, nor a bracket, nor what another value begins
with. -/
theorem plain_of_head {c : Char} (h : c = '-' ∨ c.isDigit) :
    isGap c = false ∧ c ∉ ['"', '[', ']', '\x7b', 'n', 't', 'f'] := by
  have none : ∀ {others : List Char}, (others.all fun d => !(d == '-' || d.isDigit)) →
      c ∉ others := not_mem_of_all (by simpa using h)
  exact ⟨isGap_eq_false (none rfl), none rfl⟩

theorem read?_number {fuel : Nat} {cs rest : List Char} {x : WrittenNumber}
    (h : number? cs = some (x, rest)) : read? (fuel + 1) cs = some (.number x, rest) := by
  obtain ⟨c, tail, rfl, head⟩ := exists_head_of_number? h
  obtain ⟨solid, other⟩ := plain_of_head head
  rw [read?, skipGap_cons solid]
  split
  all_goals simp_all

theorem read?_array {fuel : Nat} {rest left : List Char} {ws : List Written}
    (opens : ∀ tail, skipGap rest ≠ ']' :: tail)
    (h : readItems? fuel (skipGap rest) = some (ws, left)) :
    read? (fuel + 1) ('[' :: rest) = some (.array ws, left) := by
  rw [read?, skipGap_cons rfl]
  simp [h]

theorem read?_object {fuel : Nat} {rest left : List Char} {ws : List (Option String × Written)}
    (opens : ∀ tail, skipGap rest ≠ '\x7d' :: tail)
    (h : readMembers? fuel (skipGap rest) = some (ws, left)) :
    read? (fuel + 1) ('\x7b' :: rest) = some (.object ws, left) := by
  rw [read?, skipGap_cons rfl]
  simp [h]

theorem readItems?_last {fuel : Nat} {cs rest left : List Char} {w : Written}
    (first : read? fuel cs = some (w, rest)) (close : skipGap rest = ']' :: left) :
    readItems? (fuel + 1) cs = some ([w], left) := by
  simp [readItems?, first, close]

theorem readItems?_more {fuel : Nat} {cs rest left behind : List Char} {w : Written}
    {ws : List Written} (first : read? fuel cs = some (w, rest))
    (comma : skipGap rest = ',' :: left) (more : readItems? fuel left = some (ws, behind)) :
    readItems? (fuel + 1) cs = some (w :: ws, behind) := by
  simp [readItems?, first, comma, more]

theorem readMembers?_last {fuel : Nat} (key : String) {cs rest left : List Char} {w : Written}
    (first : read? fuel cs = some (w, rest)) (close : skipGap rest = '\x7d' :: left) :
    readMembers? (fuel + 1) (quoteChars key.toList ++ ':' :: cs) =
      some ([(some key, w)], left) := by
  have colon : isGap ':' = false := rfl
  rw [quoteChars, List.append_assoc, List.cons_append, List.singleton_append, readMembers?,
    skipGap_cons rfl]
  simp [string?_quoted, skipGap_cons colon, first, close]

theorem readMembers?_more {fuel : Nat} (key : String) {cs rest left behind : List Char}
    {w : Written} {ws : List (Option String × Written)}
    (first : read? fuel cs = some (w, rest)) (comma : skipGap rest = ',' :: left)
    (more : readMembers? fuel left = some (ws, behind)) :
    readMembers? (fuel + 1) (quoteChars key.toList ++ ':' :: cs) =
      some ((some key, w) :: ws, behind) := by
  have colon : isGap ':' = false := rfl
  rw [quoteChars, List.append_assoc, List.cons_append, List.singleton_append, readMembers?,
    skipGap_cons rfl]
  simp [string?_quoted, skipGap_cons colon, first, comma, more]

/-! ### One rule of the grammar -/

/-- The text is read as what shows the value, whatever stands behind it. -/
def Reads (v : Json) (cs : List Char) : Prop :=
  ∀ fuel rest, 2 * cs.length ≤ fuel → Stops rest →
    ∃ w, read? fuel (cs ++ rest) = some (w, rest) ∧ Shows v w

def ReadsItems (items : List Json) (cs : List Char) : Prop :=
  ∀ fuel rest, 2 * cs.length < fuel →
    ∃ ws, readItems? fuel (cs ++ rest) = some (ws, rest) ∧ ShowsItems items ws

def ReadsMembers (members : List (String × Json)) (cs : List Char) : Prop :=
  ∀ fuel rest, 2 * cs.length < fuel →
    ∃ ws, readMembers? fuel (cs ++ rest) = some (ws, rest) ∧ ShowsMembers members ws

theorem reads_word {v : Json} {cs : List Char} {w : Written} (long : cs ≠ [])
    (hread : ∀ fuel rest, read? (fuel + 1) (cs ++ rest) = some (w, rest))
    (shows : Shows v w) : Reads v cs := by
  intro fuel rest bound _
  have positive := List.length_pos_of_ne_nil long
  obtain ⟨fuel, rfl⟩ : ∃ n, fuel = n + 1 := ⟨fuel - 1, by omega⟩
  exact ⟨w, hread fuel rest, shows⟩

theorem reads_number {x : JsonNumber} (h : ReadsBack x) :
    Reads (number x) (numberText x).toList := by
  obtain ⟨w, hread, hvalue⟩ := h
  intro fuel rest bound stops
  obtain ⟨c, tail, front, -⟩ := exists_head_of_number? hread
  have long : (numberText x).toList.length = tail.length + 1 := by rw [front, List.length_cons]
  obtain ⟨fuel, rfl⟩ : ∃ n, fuel = n + 1 := ⟨fuel - 1, by omega⟩
  exact ⟨.number w, read?_number (number?_append stops hread), w, rfl, hvalue⟩

theorem reads_array {items : List Json} {gap cs : List Char} {c : Char} (blank : Gap gap)
    (solid : isGap c = false) (opens : c ≠ ']') (h : ReadsItems items (c :: cs)) :
    Reads (array items) ('[' :: gap ++ c :: cs) := by
  intro fuel rest bound stops
  simp only [List.cons_append, List.length_cons, List.length_append] at bound
  obtain ⟨fuel, rfl⟩ : ∃ n, fuel = n + 1 := ⟨fuel - 1, by omega⟩
  obtain ⟨ws, hread, shows⟩ := h fuel rest (by simp only [List.length_cons]; omega)
  have skipped : skipGap (gap ++ c :: cs ++ rest) = c :: cs ++ rest := by
    rw [List.append_assoc, skipGap_append blank, List.cons_append, skipGap_cons solid]
  refine ⟨.array ws, ?_, ws, rfl, shows⟩
  rw [List.cons_append, List.cons_append]
  refine read?_array (fun tail same => opens ?_) (skipped.symm ▸ hread)
  exact (List.cons.inj (skipped.symm.trans same)).1

theorem reads_object {members : List (String × Json)} {key : String} {gap cs : List Char}
    (blank : Gap gap) (h : ReadsMembers members (quoteChars key.toList ++ cs)) :
    Reads (object members) ('\x7b' :: gap ++ (quoteChars key.toList ++ cs)) := by
  intro fuel rest bound stops
  simp only [List.cons_append, List.length_cons, List.length_append] at bound
  obtain ⟨fuel, rfl⟩ : ∃ n, fuel = n + 1 := ⟨fuel - 1, by omega⟩
  obtain ⟨ws, hread, shows⟩ := h fuel rest (by simp only [List.length_append]; omega)
  have skipped : skipGap (gap ++ (quoteChars key.toList ++ cs) ++ rest) =
      quoteChars key.toList ++ cs ++ rest := by
    rw [List.append_assoc, skipGap_append blank]
    exact skipGap_cons rfl _
  refine ⟨.object ws, ?_, ws, rfl, shows⟩
  rw [List.cons_append, List.cons_append]
  refine read?_object (fun tail same => ?_) (skipped.symm ▸ hread)
  exact absurd (List.cons.inj (skipped.symm.trans same)).1 (by decide)

theorem readsItems_last {item : Json} {first gap : List Char} (h : Reads item first)
    (blank : Gap gap) : ReadsItems [item] (first ++ (gap ++ [']'])) := by
  intro fuel rest bound
  simp only [List.length_append] at bound
  obtain ⟨fuel, rfl⟩ : ∃ n, fuel = n + 1 := ⟨fuel - 1, by omega⟩
  obtain ⟨w, hread, shows⟩ := h fuel (gap ++ ']' :: rest) (by omega)
    (stops_gap blank (stops_cons rfl _))
  have closed : skipGap (gap ++ ']' :: rest) = ']' :: rest := by
    rw [skipGap_append blank, skipGap_cons rfl]
  refine ⟨[w], ?_, w, [], rfl, shows, rfl⟩
  rw [List.append_assoc, List.append_assoc]
  exact readItems?_last hread closed

theorem readsItems_more {item : Json} {items : List Json} {first gap cs : List Char}
    (h : Reads item first) (blank : Gap gap) (more : ReadsItems items cs) :
    ReadsItems (item :: items) (first ++ (',' :: gap ++ cs)) := by
  intro fuel rest bound
  simp only [List.length_append, List.cons_append, List.length_cons] at bound
  obtain ⟨fuel, rfl⟩ : ∃ n, fuel = n + 1 := ⟨fuel - 1, by omega⟩
  obtain ⟨w, hread, shows⟩ := h fuel (',' :: (gap ++ (cs ++ rest))) (by omega) (stops_cons rfl _)
  obtain ⟨ws, hmore, showsMore⟩ := more fuel rest (by omega)
  rw [← readItems?_gap blank] at hmore
  refine ⟨w :: ws, ?_, w, ws, rfl, shows, showsMore⟩
  have whole := readItems?_more hread (skipGap_cons rfl _) hmore
  simpa only [List.append_assoc, List.cons_append] using whole

theorem readsMembers_last (key : String) {value : Json} {inner first gap : List Char}
    (blankInner : Gap inner) (h : Reads value first) (blank : Gap gap) :
    ReadsMembers [(key, value)]
      (quoteChars key.toList ++ ':' :: inner ++ first ++ (gap ++ ['\x7d'])) := by
  intro fuel rest bound
  simp only [List.length_append, List.length_cons] at bound
  obtain ⟨fuel, rfl⟩ : ∃ n, fuel = n + 1 := ⟨fuel - 1, by omega⟩
  obtain ⟨w, hread, shows⟩ := h fuel (gap ++ '\x7d' :: rest) (by omega)
    (stops_gap blank (stops_cons rfl _))
  rw [← read?_gap blankInner] at hread
  have closed : skipGap (gap ++ '\x7d' :: rest) = '\x7d' :: rest := by
    rw [skipGap_append blank, skipGap_cons rfl]
  refine ⟨[(some key, w)], ?_, w, [], rfl, shows, rfl⟩
  have whole := readMembers?_last key hread closed
  simpa only [List.append_assoc, List.cons_append, List.nil_append] using whole

theorem readsMembers_more (key : String) {value : Json} {members : List (String × Json)}
    {inner first gap cs : List Char} (blankInner : Gap inner) (h : Reads value first)
    (blank : Gap gap) (more : ReadsMembers members cs) :
    ReadsMembers ((key, value) :: members)
      (quoteChars key.toList ++ ':' :: inner ++ first ++ (',' :: gap ++ cs)) := by
  intro fuel rest bound
  simp only [List.length_append, List.cons_append, List.length_cons] at bound
  obtain ⟨fuel, rfl⟩ : ∃ n, fuel = n + 1 := ⟨fuel - 1, by omega⟩
  obtain ⟨w, hread, shows⟩ := h fuel (',' :: (gap ++ (cs ++ rest))) (by omega) (stops_cons rfl _)
  obtain ⟨ws, hmore, showsMore⟩ := more fuel rest (by omega)
  rw [← read?_gap blankInner] at hread
  rw [← readMembers?_gap blank] at hmore
  refine ⟨(some key, w) :: ws, ?_, w, ws, rfl, shows, showsMore⟩
  have whole := readMembers?_more key hread (skipGap_cons rfl _) hmore
  simpa only [List.append_assoc, List.cons_append] using whole

/-! ### Whole values -/

/-- A value begins with what no gap and no closing bracket has. -/
theorem exists_head_of_spells : ∀ {v : Json} {cs : List Char}, v.Legible → Spells v cs →
    ∃ c tail, cs = c :: tail ∧ isGap c = false ∧ c ≠ ']'
  | null, _, _, h | bool true, _, _, h | bool false, _, _, h | string _, _, _, h
  | array [], _, _, h | object [], _, _, h => ⟨_, _, h, rfl, by decide⟩
  | number x, cs, ⟨w, hread, _⟩, h => by
    obtain ⟨c, tail, front, head⟩ := exists_head_of_number? hread
    obtain ⟨solid, other⟩ := plain_of_head head
    refine ⟨c, tail, h.trans front, solid, ?_⟩
    rintro rfl
    exact other (by decide)
  | array (_ :: _), _, _, ⟨_, _, _, _, _, _, h⟩ => ⟨_, _, h, rfl, by decide⟩
  | object (_ :: _), _, _, ⟨_, _, _, _, _, _, _, _, h⟩ => ⟨_, _, h, rfl, by decide⟩

mutual

/-- **Reading.** A text that spells a value is read as what shows it. -/
theorem reads_of_spells : ∀ (v : Json) {cs : List Char}, v.Legible → Spells v cs → Reads v cs
  | null, _, _, h | bool true, _, _, h | bool false, _, _, h =>
    h ▸ reads_word (by decide) (fun _ _ => rfl) rfl
  | array [], _, _, h | object [], _, _, h =>
    h ▸ reads_word (by decide) (fun _ _ => rfl) ⟨[], rfl, rfl⟩
  | string text, _, _, h =>
    h ▸ reads_word (by simp [quoteChars]) (fun fuel rest => read?_string fuel text rest) rfl
  | number _, _, legible, h => h ▸ reads_number legible
  | array (item :: items), _, ⟨legible, legibles⟩, ⟨gap, first, more, blank, hitem, hitems, h⟩ => by
    subst h
    have whole := readsItems_of_spells items legibles (reads_of_spells item legible hitem) hitems
    -- The first item tells the array from an empty one by its first character.
    obtain ⟨c, tail, rfl, solid, opens⟩ := exists_head_of_spells legible hitem
    rw [List.append_assoc, List.cons_append]
    exact reads_array blank solid opens whole
  | object ((key, value) :: members), _, ⟨_, legible, legibles⟩,
      ⟨gap, inner, first, more, blank, blankInner, hvalue, hmembers, h⟩ => by
    subst h
    have whole := readsMembers_of_spells members key legibles blankInner
      (reads_of_spells value legible hvalue) hmembers
    simp only [List.append_assoc] at whole ⊢
    exact reads_object blank whole

theorem readsItems_of_spells : ∀ (items : List Json) {item : Json} {first more : List Char},
    LegibleItems items → Reads item first → SpellsItems items more →
      ReadsItems (item :: items) (first ++ more)
  | [], _, _, _, _, hfirst, ⟨_, blank, h⟩ => h ▸ readsItems_last hfirst blank
  | item :: items, _, _, _, ⟨legible, legibles⟩, hfirst,
      ⟨gap, next, more, blank, hitem, hitems, h⟩ => by
    subst h
    rw [List.append_assoc]
    exact readsItems_more hfirst blank
      (readsItems_of_spells items legibles (reads_of_spells item legible hitem) hitems)

theorem readsMembers_of_spells : ∀ (members : List (String × Json)) (key : String) {value : Json}
    {inner first more : List Char}, LegibleMembers members → Gap inner → Reads value first →
      SpellsMembers members more →
      ReadsMembers ((key, value) :: members)
        (quoteChars key.toList ++ ':' :: inner ++ first ++ more)
  | [], key, _, _, _, _, _, blankInner, hfirst, ⟨_, blank, h⟩ =>
    h ▸ readsMembers_last key blankInner hfirst blank
  | (key, value) :: members, before, _, _, _, _, ⟨legible, legibles⟩, blankBefore, hfirst,
      ⟨gap, inner, next, more, blank, blankInner, hvalue, hmembers, h⟩ => by
    subst h
    have whole := readsMembers_more before blankBefore hfirst blank
      (readsMembers_of_spells members key legibles blankInner
        (reads_of_spells value legible hvalue) hmembers)
    simpa only [List.append_assoc, List.cons_append] using whole

end

/-! ### Whole texts -/

/-- The value of a JSON text whose arrays and objects nest at most `room` levels deep. -/
def parseWithin? (room : Nat) (text : String) : Option Json := do
  (← Written.parse? text).value? room

/-- The reader of the program stops at a fixed depth. -/
theorem parse?_eq_parseWithin? : parse? = parseWithin? depthLimit :=
  rfl

/-- A text that spells a value is read as what shows it. -/
theorem exists_parse?_of_spells {v : Json} {cs : List Char} (legible : v.Legible)
    (h : Spells v cs) : ∃ w, Written.parse? (String.ofList cs) = some w ∧ Shows v w := by
  have long : 2 * cs.length ≤ 2 * cs.length + 2 := Nat.le_add_right _ _
  obtain ⟨w, hread, shows⟩ := reads_of_spells v legible h (2 * cs.length + 2) [] long stops_nil
  rw [List.append_nil] at hread
  refine ⟨w, ?_, shows⟩
  simp only [Written.parse?, String.toList_ofList, hread]
  rfl

/-- With enough room, a text that spells a value is read as that value. -/
theorem parseWithin?_of_spells {v : Json} {cs : List Char} (legible : v.Legible) (h : Spells v cs)
    {room : Nat} (fits : cs.length ≤ room) : parseWithin? room (String.ofList cs) = some v := by
  obtain ⟨w, parsed, shows⟩ := exists_parse?_of_spells legible h
  rw [parseWithin?, parsed]
  exact value?_of_shows legible shows ((depth_le_of_spells h).trans fits)

end DesignTokens.Json

import DesignTokens.Proofs.Json.Reading

/-!
# Values that were read

A value is made by the reader bottom up, and what each step keeps holds of all that is read
(`Written.Kept.of_value?`). The keys of its objects are in order at every depth (`Json.Ordered`),
it does not nest deeper than it was allowed to, and its numbers are some that the reader makes. So
it is legible if these are read back (`Json.legible_of_ordered`): that is the only thing to ask.
-/

namespace DesignTokens

namespace Json

mutual

/-- The keys of all objects are in order. -/
def Ordered : Json → Prop
  | null | bool _ | number _ | string _ => True
  | array items => OrderedItems items
  | object members => SortedAssoc.Increasing members ∧ OrderedMembers members

def OrderedItems : List Json → Prop
  | [] => True
  | item :: items => item.Ordered ∧ OrderedItems items

def OrderedMembers : List (String × Json) → Prop
  | [] => True
  | (_, value) :: members => value.Ordered ∧ OrderedMembers members

end

mutual

def numbers : Json → List JsonNumber
  | null | bool _ | string _ => []
  | number x => [x]
  | array items => itemNumbers items
  | object members => memberNumbers members

def itemNumbers : List Json → List JsonNumber
  | [] => []
  | item :: items => item.numbers ++ itemNumbers items

def memberNumbers : List (String × Json) → List JsonNumber
  | [] => []
  | (_, value) :: members => value.numbers ++ memberNumbers members

end

/-! ### Items and members -/

theorem orderedItems_iff {items : List Json} :
    OrderedItems items ↔ ∀ item ∈ items, item.Ordered := by
  induction items with
  | nil => simp [OrderedItems]
  | cons item items ih => rw [OrderedItems, ih, List.forall_mem_cons]

theorem orderedMembers_iff {members : List (String × Json)} :
    OrderedMembers members ↔ ∀ member ∈ members, member.2.Ordered := by
  induction members with
  | nil => simp [OrderedMembers]
  | cons member members ih => rw [OrderedMembers, ih, List.forall_mem_cons]

theorem itemNumbers_eq (items : List Json) : itemNumbers items = items.flatMap numbers := by
  induction items with
  | nil => rfl
  | cons item items ih => rw [itemNumbers, ih, List.flatMap_cons]

theorem memberNumbers_eq (members : List (String × Json)) :
    memberNumbers members = members.flatMap fun member => member.2.numbers := by
  induction members with
  | nil => rfl
  | cons member members ih => rw [memberNumbers, ih, List.flatMap_cons]

theorem depthItems_le_iff {items : List Json} {n : Nat} :
    depthItems items ≤ n ↔ ∀ item ∈ items, item.depth ≤ n := by
  induction items with
  | nil => simp [depthItems]
  | cons item items ih => rw [depthItems, Nat.max_le, ih, List.forall_mem_cons]

theorem depthMembers_le_iff {members : List (String × Json)} {n : Nat} :
    depthMembers members ≤ n ↔ ∀ member ∈ members, member.2.depth ≤ n := by
  induction members with
  | nil => simp [depthMembers]
  | cons member members ih => rw [depthMembers, Nat.max_le, ih, List.forall_mem_cons]

theorem ordered_ofMembers {members : List (String × Json)}
    (h : ∀ member ∈ members, member.2.Ordered) : (ofMembers members).Ordered :=
  ⟨.ofList members, orderedMembers_iff.2 fun member hmem =>
    h member (SortedAssoc.mem_of_mem_ofList hmem)⟩

mutual

/-- **Legible values.** A value whose objects are in order is legible if its numbers are read
back. -/
theorem legible_of_ordered : ∀ {v : Json}, v.Ordered → (∀ x ∈ v.numbers, ReadsBack x) → v.Legible
  | null, _, _ | bool _, _, _ | string _, _, _ => trivial
  | number x, _, readsBack => readsBack x (List.mem_singleton_self x)
  | array _, ordered, readsBack => legibleItems_of_ordered ordered readsBack
  | object _, ordered, readsBack => ⟨ordered.1, legibleMembers_of_ordered ordered.2 readsBack⟩

theorem legibleItems_of_ordered : ∀ {items : List Json}, OrderedItems items →
    (∀ x ∈ itemNumbers items, ReadsBack x) → LegibleItems items
  | [], _, _ => trivial
  | _ :: _, ordered, readsBack =>
    have split := List.forall_mem_append.1 readsBack
    ⟨legible_of_ordered ordered.1 split.1, legibleItems_of_ordered ordered.2 split.2⟩

theorem legibleMembers_of_ordered : ∀ {members : List (String × Json)}, OrderedMembers members →
    (∀ x ∈ memberNumbers members, ReadsBack x) → LegibleMembers members
  | [], _, _ => trivial
  | (_, _) :: _, ordered, readsBack =>
    have split := List.forall_mem_append.1 readsBack
    ⟨legible_of_ordered ordered.1 split.1, legibleMembers_of_ordered ordered.2 split.2⟩

end

end Json

namespace Written

open Json

/-! ### What the reader makes -/

/-- What every step of the reader keeps, with the room that is left for it. -/
structure Kept (p : Nat → Json → Prop) : Prop where
  null : ∀ room, p room .null
  bool : ∀ room b, p room (.bool b)
  string : ∀ room text, p room (.string text)
  number : ∀ room n x, numberValue? n = some x → p room (.number x)
  array : ∀ room items, (∀ item ∈ items, p room item) → p (room + 1) (.array items)
  object : ∀ room members, (∀ member ∈ members, p room member.2) → p (room + 1) (.ofMembers members)

section Kept

variable {p : Nat → Json → Prop}

mutual

/-- **Values that were read.** What every step of the reader keeps holds of what it makes. -/
theorem Kept.of_value? (kept : Kept p) : ∀ {w : Written} {room : Nat} {v : Json},
    w.value? room = some v → p room v
  | .null, room, _, h => Option.some.inj h ▸ kept.null room
  | .bool b, room, _, h => Option.some.inj h ▸ kept.bool room b
  | .number n, room, _, h => by
    obtain ⟨x, hx, rfl⟩ := Option.map_eq_some_iff.1 h
    exact kept.number room n x hx
  | .string _, room, _, h => by
    obtain ⟨text, -, rfl⟩ := Option.map_eq_some_iff.1 h
    exact kept.string room text
  | .array ws, room + 1, _, h => by
    obtain ⟨items, hitems, rfl⟩ := Option.map_eq_some_iff.1 h
    exact kept.array room items (kept.of_values? hitems)
  | .object ws, room + 1, _, h => by
    obtain ⟨members, hmembers, rfl⟩ := Option.map_eq_some_iff.1 h
    exact kept.object room members (kept.of_memberValues? hmembers)

theorem Kept.of_values? (kept : Kept p) : ∀ {ws : List Written} {room : Nat} {items : List Json},
    values? room ws = some items → ∀ item ∈ items, p room item
  | [], _, _, h => by
    cases h
    simp
  | w :: ws, room, _, h => by
    simp only [values?, Option.bind_eq_bind, Option.bind_eq_some_iff] at h
    obtain ⟨item, hitem, items, hitems, heq⟩ := h
    cases heq
    exact List.forall_mem_cons.2 ⟨kept.of_value? hitem, kept.of_values? hitems⟩

theorem Kept.of_memberValues? (kept : Kept p) : ∀ {ws : List (Option String × Written)} {room : Nat}
    {members : List (String × Json)}, memberValues? room ws = some members →
      ∀ member ∈ members, p room member.2
  | [], _, _, h => by
    cases h
    simp
  | (key, w) :: ws, room, _, h => by
    simp only [memberValues?, Option.bind_eq_bind, Option.bind_eq_some_iff] at h
    obtain ⟨_, -, value, hvalue, members, hmembers, heq⟩ := h
    cases heq
    exact List.forall_mem_cons.2 ⟨kept.of_value? hvalue, kept.of_memberValues? hmembers⟩

end

/-- Objects are built by insertion, which keeps their keys in order. -/
theorem kept_ordered : Kept fun _ v => v.Ordered where
  null _ := trivial
  bool _ _ := trivial
  string _ _ := trivial
  number _ _ _ _ := trivial
  array _ _ := orderedItems_iff.2
  object _ _ := ordered_ofMembers

theorem kept_depth_le : Kept fun room v => v.depth ≤ room where
  null _ := Nat.zero_le _
  bool _ _ := Nat.zero_le _
  string _ _ := Nat.zero_le _
  number _ _ _ _ := Nat.zero_le _
  array _ _ items := Nat.succ_le_succ (depthItems_le_iff.2 items)
  object _ _ members := Nat.succ_le_succ
    (depthMembers_le_iff.2 fun member hmem => members member (SortedAssoc.mem_of_mem_ofList hmem))

theorem kept_numbers : Kept fun _ v => ∀ x ∈ v.numbers, ∃ n, numberValue? n = some x where
  null _ := by simp [numbers]
  bool _ _ := by simp [numbers]
  string _ _ := by simp [numbers]
  number _ n _ h := List.forall_mem_singleton.2 ⟨n, h⟩
  array _ _ items := by
    rw [numbers, itemNumbers_eq, List.forall_mem_flatMap]
    exact items
  object _ _ members := by
    rw [ofMembers, numbers, memberNumbers_eq, List.forall_mem_flatMap]
    exact fun member hmem => members member (SortedAssoc.mem_of_mem_ofList hmem)

end Kept

/-- Every number that is read can be read back from the text that is written for it. -/
def NumbersReadBack : Prop :=
  ∀ x number, numberValue? x = some number → ReadsBack number

theorem legible_of_value? (numbers : NumbersReadBack) {w : Written} {room : Nat} {v : Json}
    (h : w.value? room = some v) : v.Legible := by
  refine legible_of_ordered (kept_ordered.of_value? h) fun x hx => ?_
  obtain ⟨n, hn⟩ := kept_numbers.of_value? h x hx
  exact numbers n x hn

end Written

namespace Json

/-! ### Values of a field -/

/-- The value was read, with so much room, from what is not null. -/
def IsRead (room : Nat) (v : Json) : Prop :=
  ∃ w : Written, w ≠ .null ∧ w.value? room = some v

/-- The value has a place in a field with so much room: it is none that stands for nothing, its
objects are in order, and it does not nest deeper. -/
structure Fits (room : Nat) (v : Json) : Prop where
  ne_null : v ≠ null
  ordered : v.Ordered
  depth_le : v.depth ≤ room

theorem fits_bool (room : Nat) (b : Bool) : (bool b).Fits room :=
  ⟨nofun, trivial, Nat.zero_le _⟩

theorem fits_string (room : Nat) (text : String) : (string text).Fits room :=
  ⟨nofun, trivial, Nat.zero_le _⟩

theorem IsRead.legible {room : Nat} {v : Json} (numbers : Written.NumbersReadBack)
    (h : v.IsRead room) : v.Legible := by
  obtain ⟨w, -, hvalue⟩ := h
  exact Written.legible_of_value? numbers hvalue

theorem IsRead.fits {room : Nat} {v : Json} (h : v.IsRead room) : v.Fits room := by
  obtain ⟨w, present, hvalue⟩ := h
  refine ⟨?_, Written.kept_ordered.of_value? hvalue, Written.kept_depth_le.of_value? hvalue⟩
  rintro rfl
  cases w with
  | null => exact present rfl
  | bool _ => cases hvalue
  | number _ | string _ => simp [Written.value?] at hvalue
  | array _ | object _ => cases room <;> simp [Written.value?, ofMembers] at hvalue

end Json
end DesignTokens

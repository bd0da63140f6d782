import DesignTokens.Proofs.Json.Values
import DesignTokens.Proofs.Output.TypeReading

/-!
# Inferred types are sound

A type has values (`TypeExpr.Has`), by recursion over the type: an array type has the arrays of its
item type's values, a union what one of its alternatives has, and an object type the objects whose
keys are its fields, each with a value that the type of the field has. The type that is inferred for
a value has it (`ValueType.has_of`). Of the types of an array's items only those of different texts
are kept; as types of one text say the same, each item is still in what is left.
-/

namespace DesignTokens

/-! ### Values of a type -/

namespace TypeExpr

mutual

/-- The value is one of the type. -/
def Has : TypeExpr → Json → Prop
  | null, v => v = .null
  | boolean, v => ∃ b, v = .bool b
  | number, v => ∃ x, v = .number x
  | string, v => ∃ text, v = .string text
  | unknown, _ => True
  | array item, v => ∃ items, v = .array items ∧ ∀ element ∈ items, item.Has element
  | union alternatives, v => SomeHas alternatives v
  | object fields, v => ∃ members, v = .object members ∧ FieldsHave fields members

def SomeHas : List TypeExpr → Json → Prop
  | [], _ => False
  | type :: types, v => type.Has v ∨ SomeHas types v

/-- The members are those of the fields, in order, each with a value of the field's type. -/
def FieldsHave : List (String × TypeExpr) → List (String × Json) → Prop
  | [], members => members = []
  | (key, type) :: fields, members =>
    ∃ value rest, members = (key, value) :: rest ∧ type.Has value ∧ FieldsHave fields rest

end

mutual

/-- No object type in the type has a key twice. -/
def DistinctKeys : TypeExpr → Prop
  | null | boolean | number | string | unknown => True
  | array item => item.DistinctKeys
  | union alternatives => AllDistinctKeys alternatives
  | object fields => (fields.map Prod.fst).Nodup ∧ FieldsDistinctKeys fields

def AllDistinctKeys : List TypeExpr → Prop
  | [] => True
  | type :: types => type.DistinctKeys ∧ AllDistinctKeys types

def FieldsDistinctKeys : List (String × TypeExpr) → Prop
  | [] => True
  | (_, type) :: fields => type.DistinctKeys ∧ FieldsDistinctKeys fields

end

theorem someHas_iff {types : List TypeExpr} {v : Json} :
    SomeHas types v ↔ ∃ type ∈ types, type.Has v := by
  induction types with
  | nil => simp [SomeHas]
  | cons type types ih => rw [SomeHas, ih, List.exists_mem_cons_iff]

theorem allDistinctKeys_iff {types : List TypeExpr} :
    AllDistinctKeys types ↔ ∀ type ∈ types, type.DistinctKeys := by
  induction types with
  | nil => simp [AllDistinctKeys]
  | cons type types ih => rw [AllDistinctKeys, ih, List.forall_mem_cons]

theorem has_join_iff {first : TypeExpr} {more : List TypeExpr} {v : Json} :
    (join first more).Has v ↔ ∃ type ∈ first :: more, type.Has v := by
  cases more with
  | nil => simp [join]
  | cons next more => rw [join, if_neg (by simp), Has, someHas_iff]

theorem distinctKeys_join_iff {first : TypeExpr} {more : List TypeExpr} :
    (join first more).DistinctKeys ↔ ∀ type ∈ first :: more, type.DistinctKeys := by
  cases more with
  | nil => simp [join]
  | cons next more => rw [join, if_neg (by simp), DistinctKeys, allDistinctKeys_iff]

end TypeExpr

namespace ValueType

/-! ### The types of an array's items -/

theorem distinct_concat (types : List ValueType) (t : ValueType) :
    distinct (types ++ [t]) =
      if (distinct types).any (·.text == t.text) then distinct types
      else distinct types ++ [t] := by
  rw [distinct, List.foldl_concat, ← distinct]

theorem distinct_subset (types : List ValueType) : distinct types ⊆ types := by
  induction types using List.reverseRecOn with
  | nil => exact List.Subset.refl _
  | append_singleton types t ih =>
    rw [distinct_concat]
    split
    · exact List.subset_append_of_subset_left _ ih
    · exact List.append_subset.2 ⟨List.subset_append_of_subset_left _ ih,
        List.subset_append_right _ _⟩

theorem exists_mem_distinct {types : List ValueType} {t : ValueType} (h : t ∈ types) :
    ∃ kept ∈ distinct types, kept.text = t.text := by
  induction types using List.reverseRecOn with
  | nil => cases h
  | append_singleton types last ih =>
    rw [distinct_concat]
    rcases List.mem_append.1 h with before | same
    · obtain ⟨kept, hkept, text⟩ := ih before
      split
      · exact ⟨kept, hkept, text⟩
      · exact ⟨kept, List.mem_append_left _ hkept, text⟩
    · obtain rfl := List.mem_singleton.1 same
      split
      · next there =>
        obtain ⟨kept, hkept, text⟩ := List.any_eq_true.1 there
        exact ⟨kept, hkept, eq_of_beq text⟩
      · exact ⟨t, List.mem_append_right _ (List.mem_singleton_self _), rfl⟩

theorem meanings_eq (types : List ValueType) : meanings types = types.map meaning := by
  induction types with
  | nil => rfl
  | cons t types ih => rw [meanings, ih, List.map_cons]

theorem has_array {types : List ValueType} {items : List Json}
    (h : ∀ v ∈ items, ∃ t ∈ types, t.meaning.Has v) :
    (array types).meaning.Has (.array items) := by
  cases types with
  | nil => exact ⟨items, rfl, fun _ _ => trivial⟩
  | cons first types =>
    refine ⟨items, rfl, fun v hv => ?_⟩
    obtain ⟨t, ht, has⟩ := h v hv
    refine TypeExpr.has_join_iff.2 ⟨t.meaning, ?_, has⟩
    rw [meanings_eq, ← List.map_cons]
    exact List.mem_map_of_mem ht

theorem distinctKeys_array {types : List ValueType} (h : ∀ t ∈ types, t.meaning.DistinctKeys) :
    (array types).meaning.DistinctKeys := by
  cases types with
  | nil => trivial
  | cons first types =>
    refine TypeExpr.distinctKeys_join_iff.2 ?_
    rw [meanings_eq, ← List.map_cons, List.forall_mem_map]
    exact h

/-! ### The type of a value -/

mutual

theorem has_of : ∀ v : Json, (ValueType.of v).meaning.Has v
  | .null => rfl
  | .bool b => ⟨b, rfl⟩
  | .number x => ⟨x, rfl⟩
  | .string text => ⟨text, rfl⟩
  | .array items => by
    refine has_array fun v hv => ?_
    obtain ⟨t, ht, has⟩ := has_ofItems items v hv
    obtain ⟨kept, hkept, text⟩ := exists_mem_distinct ht
    exact ⟨kept, hkept, meaning_congr text ▸ has⟩
  | .object members => ⟨members, rfl, fieldsHave_ofMembers members⟩

theorem has_ofItems : ∀ (items : List Json), ∀ v ∈ items, ∃ t ∈ ofItems items, t.meaning.Has v
  | [] => nofun
  | item :: items => List.forall_mem_cons.2
    ⟨⟨ValueType.of item, List.mem_cons_self, has_of item⟩, fun v hv =>
      (has_ofItems items v hv).imp fun _ found => ⟨List.mem_cons_of_mem _ found.1, found.2⟩⟩

theorem fieldsHave_ofMembers : ∀ members : List (String × Json),
    TypeExpr.FieldsHave (fieldMeanings (ofMembers members)) members
  | [] => rfl
  | (_, value) :: members => ⟨value, members, rfl, has_of value, fieldsHave_ofMembers members⟩

end

theorem keys_fieldMeanings (members : List (String × Json)) :
    (fieldMeanings (ofMembers members)).map Prod.fst = members.map Prod.fst := by
  induction members with
  | nil => rfl
  | cons member members ih =>
    obtain ⟨key, value⟩ := member
    rw [ofMembers, fieldMeanings, List.map_cons, List.map_cons, ih]

mutual

theorem distinctKeys_of : ∀ {v : Json}, v.Ordered → (ValueType.of v).meaning.DistinctKeys
  | .null, _ | .bool _, _ | .number _, _ | .string _, _ => trivial
  | .array _, ordered => distinctKeys_array fun t ht =>
    distinctKeys_ofItems ordered t (distinct_subset _ ht)
  | .object members, ⟨increasing, ordered⟩ =>
    ⟨keys_fieldMeanings members ▸ increasing.nodup, distinctKeys_ofMembers ordered⟩

theorem distinctKeys_ofItems : ∀ {items : List Json}, Json.OrderedItems items →
    ∀ t ∈ ofItems items, t.meaning.DistinctKeys
  | [], _ => nofun
  | _ :: _, ⟨ordered, rest⟩ => List.forall_mem_cons.2
    ⟨distinctKeys_of ordered, distinctKeys_ofItems rest⟩

theorem distinctKeys_ofMembers : ∀ {members : List (String × Json)}, Json.OrderedMembers members →
    TypeExpr.FieldsDistinctKeys (fieldMeanings (ofMembers members))
  | [], _ => trivial
  | (_, _) :: _, ⟨ordered, rest⟩ => ⟨distinctKeys_of ordered, distinctKeys_ofMembers rest⟩

end

/-- **Soundness.** The text of the type that is inferred for a value is read as what the type says
(`ValueType.meaning`), and the value is one of it: each element of an array is a value of one
alternative of the item type, and the keys of an object are the fields of its type, each with a
value of the field's type. Where objects have their keys in order, as all that are read do, no
object type has a key twice. -/
theorem inferred_sound (v : Json) :
    TypeExpr.parse? (ValueType.of v).text = some (ValueType.of v).meaning ∧
      (ValueType.of v).meaning.Has v ∧ (v.Ordered → (ValueType.of v).meaning.DistinctKeys) :=
  ⟨parse?_text _, has_of v, distinctKeys_of⟩

/-- A value with keys of both kinds, and an array of items of several types. -/
def assorted : Json :=
  .object [("1st", .array [.number (.integer 1), .string "a", .array [], .number (.integer 2)]),
    ("dark", .object [("a b", .null)])]

theorem inferred_sound_assorted :
    let text := "\x7b \"1st\": (number | string | unknown[])[]; dark: \x7b \"a b\": null \x7d \x7d"
    assorted.Ordered ∧ (ValueType.of assorted).text = text ∧
    TypeExpr.parse? text = some (ValueType.of assorted).meaning ∧
    (ValueType.of assorted).meaning.Has assorted ∧
    (ValueType.of assorted).meaning.DistinctKeys := by
  intro text
  have increasing : "1st" < "dark" := by decide
  have ordered : assorted.Ordered :=
    ⟨SortedAssoc.Increasing.cons_iff.2 ⟨List.forall_mem_singleton.2 increasing, .singleton _⟩,
      ⟨trivial, trivial, trivial, trivial, trivial⟩, ⟨.singleton _, trivial, trivial⟩, trivial⟩
  have shown : (ValueType.of assorted).text = text := by decide +kernel
  obtain ⟨parsed, has, distinct⟩ := inferred_sound assorted
  exact ⟨ordered, shown, shown ▸ parsed, has, distinct ordered⟩

end ValueType
end DesignTokens

import DesignTokens.Json.Print
import DesignTokens.Json.Written

/-!
# Texts that spell a JSON value

`Json.Spells` is the grammar of JSON texts, along the value that they spell: blanks may stand where
the printers put any, and only there. Compact and indented texts spell their value
(`spells_compactChars`, `spells_prettyChars`), and so does a text that mixes the two, as long as
each part of it spells its own.
-/

namespace DesignTokens.Json

/-- The text has nothing but blanks in it. -/
def Gap (cs : List Char) : Prop :=
  ∀ c ∈ cs, Written.isGap c

theorem gap_nil : Gap [] := by
  simp [Gap]

theorem gap_append {cs ds : List Char} : Gap (cs ++ ds) ↔ Gap cs ∧ Gap ds := by
  unfold Gap
  exact List.forall_mem_append

theorem gap_space : Gap [' '] :=
  List.forall_mem_singleton.2 rfl

theorem gap_newline (depth : Nat) : Gap (newline depth) := by
  intro c hc
  rcases List.mem_cons.1 hc with rfl | hc
  · rfl
  · rw [List.eq_of_mem_replicate hc]
    rfl

/-! ### The grammar -/

mutual

/-- The text spells the value. -/
def Spells : Json → List Char → Prop
  | null, cs => cs = "null".toList
  | bool true, cs => cs = "true".toList
  | bool false, cs => cs = "false".toList
  | number x, cs => cs = (numberText x).toList
  | string s, cs => cs = quoteChars s.toList
  | array [], cs => cs = ['[', ']']
  | array (item :: items), cs =>
    ∃ gap first more, Gap gap ∧ Spells item first ∧ SpellsItems items more ∧
      cs = '[' :: gap ++ first ++ more
  | object [], cs => cs = ['\x7b', '\x7d']
  | object ((key, value) :: members), cs =>
    ∃ gap inner first more, Gap gap ∧ Gap inner ∧ Spells value first ∧
      SpellsMembers members more ∧
      cs = '\x7b' :: gap ++ quoteChars key.toList ++ ':' :: inner ++ first ++ more

def SpellsItems : List Json → List Char → Prop
  | [], cs => ∃ gap, Gap gap ∧ cs = gap ++ [']']
  | item :: items, cs =>
    ∃ gap first more, Gap gap ∧ Spells item first ∧ SpellsItems items more ∧
      cs = ',' :: gap ++ first ++ more

def SpellsMembers : List (String × Json) → List Char → Prop
  | [], cs => ∃ gap, Gap gap ∧ cs = gap ++ ['\x7d']
  | (key, value) :: members, cs =>
    ∃ gap inner first more, Gap gap ∧ Gap inner ∧ Spells value first ∧
      SpellsMembers members more ∧
      cs = ',' :: gap ++ quoteChars key.toList ++ ':' :: inner ++ first ++ more

end

/-! ### What the printers write -/

mutual

theorem spells_compactChars : ∀ v : Json, Spells v v.compactChars
  | null | bool true | bool false | number _ | string _ | array [] | object [] => rfl
  | array (item :: items) =>
    ⟨[], _, _, gap_nil, spells_compactChars item, spellsItems_compactItems items, rfl⟩
  | object ((_, value) :: members) =>
    ⟨[], [], _, _, gap_nil, gap_nil, spells_compactChars value,
      spellsMembers_compactMembers members, by simp [compactChars]⟩

theorem spellsItems_compactItems : ∀ items : List Json, SpellsItems items (compactItems items)
  | [] => ⟨[], gap_nil, rfl⟩
  | item :: items =>
    ⟨[], _, _, gap_nil, spells_compactChars item, spellsItems_compactItems items, rfl⟩

theorem spellsMembers_compactMembers :
    ∀ members : List (String × Json), SpellsMembers members (compactMembers members)
  | [] => ⟨[], gap_nil, rfl⟩
  | (_, value) :: members =>
    ⟨[], [], _, _, gap_nil, gap_nil, spells_compactChars value,
      spellsMembers_compactMembers members, by simp [compactMembers]⟩

end

mutual

theorem spells_prettyChars (depth : Nat) : ∀ v : Json, Spells v (v.prettyChars depth)
  | null | bool true | bool false | number _ | string _ | array [] | object [] => rfl
  | array (item :: items) =>
    ⟨newline (depth + 1), _, _, gap_newline _, spells_prettyChars (depth + 1) item,
      spellsItems_prettyItems depth items, rfl⟩
  | object ((_, value) :: members) =>
    ⟨newline (depth + 1), [' '], _, _, gap_newline _, gap_space,
      spells_prettyChars (depth + 1) value, spellsMembers_prettyMembers depth members,
      by simp [prettyChars]⟩

theorem spellsItems_prettyItems (depth : Nat) :
    ∀ items : List Json, SpellsItems items (prettyItems depth items)
  | [] => ⟨newline depth, gap_newline _, rfl⟩
  | item :: items =>
    ⟨newline (depth + 1), _, _, gap_newline _, spells_prettyChars (depth + 1) item,
      spellsItems_prettyItems depth items, rfl⟩

theorem spellsMembers_prettyMembers (depth : Nat) :
    ∀ members : List (String × Json), SpellsMembers members (prettyMembers depth members)
  | [] => ⟨newline depth, gap_newline _, rfl⟩
  | (_, value) :: members =>
    ⟨newline (depth + 1), [' '], _, _, gap_newline _, gap_space,
      spells_prettyChars (depth + 1) value, spellsMembers_prettyMembers depth members,
      by simp [prettyMembers]⟩

end

end DesignTokens.Json

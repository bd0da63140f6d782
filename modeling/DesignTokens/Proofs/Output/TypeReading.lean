import DesignTokens.Output.Declarations
import DesignTokens.Proofs.Json.Reading

/-!
# Types are read back from their texts

`TypeExpr` is what a type expression says, and `TypeExpr.parse?` reads one the way its language
does: brackets bind a type tighter than bars, parentheses bind tightest, and an object type has
words or quoted texts for keys. `ValueType.meaning` is what an inferred type should say, and its
text is read as just that (`ValueType.parse?_text`). In particular types of one text say the same.
-/

namespace DesignTokens

/-- What a type expression says. -/
inductive TypeExpr
  | null
  | boolean
  | number
  | string
  | unknown
  | array (item : TypeExpr)
  | union (alternatives : List TypeExpr)
  | object (fields : List (String × TypeExpr))

namespace TypeExpr

open Written (skipGap)

/-! ### Reading -/

def isWordChar (c : Char) : Bool :=
  c.isAlphanum || c == '_' || c == '$'

def takeWord (cs : List Char) : String × List Char :=
  (String.ofList (cs.takeWhile isWordChar), cs.dropWhile isWordChar)

/-- The type that a word names. -/
def ofWord? : String → Option TypeExpr
  | "null" => some null
  | "boolean" => some boolean
  | "number" => some number
  | "string" => some string
  | "unknown" => some unknown
  | _ => none

/-- Reads a key: a text in quotes, or a word that does not begin with a digit. -/
def key? : List Char → Option (String × List Char)
  | [] => none
  | '"' :: rest => do
    let (key, rest) ← Written.string? rest
    return (← key, rest)
  | c :: cs => if isWordChar c && !c.isDigit then some (takeWord (c :: cs)) else none

/-- The type with an array around it for each pair of brackets behind it. -/
def brackets (type : TypeExpr) : List Char → TypeExpr × List Char
  | '[' :: ']' :: rest => brackets (.array type) rest
  | rest => (type, rest)

/-- The type of some alternatives, of which a single one needs no union. -/
def join (first : TypeExpr) (more : List TypeExpr) : TypeExpr :=
  if more.isEmpty then first else .union (first :: more)

mutual

/-- Reads a type: alternatives between bars. Each step takes one unit of `fuel`. -/
def type? : Nat → List Char → Option (TypeExpr × List Char)
  | 0, _ => none
  | fuel + 1, cs => do
    let (first, rest) ← alternative? fuel cs
    let (more, rest) ← alternatives? fuel rest
    return (join first more, rest)

/-- Reads the alternatives behind the first one. -/
def alternatives? : Nat → List Char → Option (List TypeExpr × List Char)
  | 0, _ => none
  | fuel + 1, cs =>
    match skipGap cs with
    | '|' :: rest => do
      let (first, rest) ← alternative? fuel rest
      let (more, rest) ← alternatives? fuel rest
      return (first :: more, rest)
    | _ => some ([], cs)

/-- Reads an alternative: a type in parentheses, an object type or a word, and the brackets behind
it. -/
def alternative? : Nat → List Char → Option (TypeExpr × List Char)
  | 0, _ => none
  | fuel + 1, cs =>
    match skipGap cs with
    | '(' :: rest => do
      let (type, rest) ← type? fuel rest
      match skipGap rest with
      | ')' :: rest => some (brackets type rest)
      | _ => none
    | '\x7b' :: rest =>
      match skipGap rest with
      | '\x7d' :: rest => some (brackets (.object []) rest)
      | rest => do
        let (fields, rest) ← fields? fuel rest
        return brackets (.object fields) rest
    | cs => do
      let (word, rest) := takeWord cs
      return brackets (← ofWord? word) rest

/-- Reads the fields of an object type and its closing brace. -/
def fields? : Nat → List Char → Option (List (String × TypeExpr) × List Char)
  | 0, _ => none
  | fuel + 1, cs => do
    let (key, rest) ← key? (skipGap cs)
    match skipGap rest with
    | ':' :: rest =>
      let (type, rest) ← type? fuel rest
      match skipGap rest with
      | ';' :: rest =>
        let (fields, rest) ← fields? fuel rest
        return ((key, type) :: fields, rest)
      | '\x7d' :: rest => return ([(key, type)], rest)
      | _ => none
    | _ => none

end

/-- Reads a text that holds one type and nothing else but blanks. -/
def parse? (text : String) : Option TypeExpr := do
  let cs := text.toList
  let (type, rest) ← type? (2 * cs.length + 2) cs
  if (skipGap rest).isEmpty then some type else none

end TypeExpr

/-! ### What an inferred type says -/

namespace ValueType

mutual

/-- What an inferred type says. -/
def meaning : ValueType → TypeExpr
  | null => .null
  | boolean => .boolean
  | number => .number
  | string => .string
  | array [] => .array .unknown
  | array (item :: items) => .array (.join item.meaning (meanings items))
  | object fields => .object (fieldMeanings fields)

def meanings : List ValueType → List TypeExpr
  | [] => []
  | type :: types => type.meaning :: meanings types

def fieldMeanings : List (String × ValueType) → List (String × TypeExpr)
  | [] => []
  | (key, type) :: fields => (key, type.meaning) :: fieldMeanings fields

end

end ValueType

namespace TypeExpr

open Written (isGap skipGap)
open Json (skipGap_cons)

/-! ### Words and keys -/

theorem plain_of_isWordChar {c : Char} (h : isWordChar c) :
    isGap c = false ∧ c ∉ ['"', '(', '\x7b'] :=
  ⟨Json.isGap_eq_false (Json.not_mem_of_all h rfl), Json.not_mem_of_all h rfl⟩

/-- A word in front of the text ends there. -/
def EndsWord (rest : List Char) : Prop :=
  ∀ c ∈ rest.head?, isWordChar c = false

theorem endsWord_cons {c : Char} (h : isWordChar c = false) (cs : List Char) :
    EndsWord (c :: cs) := by
  rintro _ ⟨⟩
  exact h

theorem takeWord_append {word rest : List Char} (h : ∀ c ∈ word, isWordChar c)
    (ends : EndsWord rest) : takeWord (word ++ rest) = (String.ofList word, rest) := by
  have stop : rest.takeWhile isWordChar = [] ∧ rest.dropWhile isWordChar = rest := by
    rcases rest with _ | ⟨c, rest⟩
    · exact ⟨rfl, rfl⟩
    · have other := ends c rfl
      simp [other]
  rw [takeWord, List.takeWhile_append_of_pos h, List.dropWhile_append_of_pos h, stop.1, stop.2,
    List.append_nil]

theorem alternative?_word {word : String} {type : TypeExpr} (h : ofWord? word = some type)
    (nonempty : word.toList ≠ []) (chars : word.toList.all isWordChar) (fuel : Nat)
    {rest : List Char} (ends : EndsWord rest) :
    alternative? (fuel + 1) (word.toList ++ rest) = some (brackets type rest) := by
  rw [List.all_eq_true] at chars
  have taken := takeWord_append chars ends
  rw [String.ofList_toList] at taken
  obtain ⟨c, cs, front⟩ := List.exists_cons_of_ne_nil nonempty
  obtain ⟨solid, other⟩ := plain_of_isWordChar (chars c (front ▸ List.mem_cons_self))
  rw [front, List.cons_append] at taken ⊢
  rw [alternative?, skipGap_cons solid]
  split
  all_goals simp_all

theorem isDigit_of_isAlpha {c : Char} (h : c.isAlpha) : c.isDigit = false := by
  refine Bool.eq_false_iff.2 fun digit => ?_
  have low : c.val ≤ '9'.val := of_decide_eq_true (Bool.and_eq_true_iff.1 digit).2
  rcases Bool.or_eq_true_iff.1 h with upper | lower
  · have high : 'A'.val ≤ c.val := (of_decide_eq_true upper).1
    exact absurd (UInt32.le_trans high low) (by decide)
  · have high : 'a'.val ≤ c.val := of_decide_eq_true (Bool.and_eq_true_iff.1 lower).1
    exact absurd (UInt32.le_trans high low) (by decide)

theorem isDigit_of_isKeyStart {c : Char} (h : ValueType.isKeyStart c) : c.isDigit = false := by
  simp only [ValueType.isKeyStart, Bool.or_eq_true, beq_iff_eq] at h
  rcases h with (letter | rfl) | rfl
  · exact isDigit_of_isAlpha letter
  · rfl
  · rfl

theorem word_of_isPlainKey {key : String} (h : ValueType.isPlainKey key) :
    ∃ c cs, key.toList = c :: cs ∧ c.isDigit = false ∧ ∀ c ∈ key.toList, isWordChar c := by
  have start : ∀ c, ValueType.isKeyStart c → isWordChar c := by
    intro c hc
    simp only [ValueType.isKeyStart, isWordChar, Char.isAlphanum, Bool.or_eq_true] at hc ⊢
    tauto
  unfold ValueType.isPlainKey at h
  split at h
  · cases h
  · next c cs front =>
    rw [Bool.and_eq_true, List.all_eq_true] at h
    refine ⟨c, cs, front, isDigit_of_isKeyStart h.1,
      front ▸ List.forall_mem_cons.2 ⟨start c h.1, fun d hd => ?_⟩⟩
    rcases Bool.or_eq_true_iff.1 (h.2 d hd) with letter | digit
    · exact start d letter
    · simp [isWordChar, Char.isAlphanum, digit]

/-- **Keys.** A key of an object type is read back, with quotes and without. -/
theorem key?_keyText (key : String) {rest : List Char} (ends : EndsWord rest) :
    key? ((ValueType.keyText key).toList ++ rest) = some (key, rest) := by
  unfold ValueType.keyText
  split
  · next plain =>
    obtain ⟨c, cs, front, noDigit, word⟩ := word_of_isPlainKey plain
    have taken := takeWord_append word ends
    have first : isWordChar c := word c (front ▸ List.mem_cons_self)
    obtain ⟨-, other⟩ := plain_of_isWordChar first
    rw [String.ofList_toList] at taken
    rw [front, List.cons_append] at taken ⊢
    rw [key?.eq_3 _ _ (by rintro rfl; exact other (by decide)), taken, first, noDigit]
    rfl
  · rw [Json.quote, String.toList_ofList, Json.quoteChars, List.append_assoc, List.cons_append,
      List.singleton_append]
    simp [key?, Written.string?_quoted]

theorem exists_head_keyText (key : String) :
    ∃ c cs, (ValueType.keyText key).toList = c :: cs ∧ isGap c = false ∧ c ≠ '\x7d' := by
  unfold ValueType.keyText
  split
  · next plain =>
    obtain ⟨c, cs, front, -, word⟩ := word_of_isPlainKey plain
    have first : isWordChar c := word c (front ▸ List.mem_cons_self)
    refine ⟨c, cs, front, (plain_of_isWordChar first).1, ?_⟩
    rintro rfl
    cases first
  · rw [Json.quote, String.toList_ofList, Json.quoteChars]
    exact ⟨'"', _, rfl, rfl, by decide⟩

/-! ### One step of the reader -/

theorem brackets_of_ne {rest : List Char} (h : rest.head? ≠ some '[') (type : TypeExpr) :
    brackets type rest = (type, rest) := by
  unfold brackets
  split
  · exact absurd rfl h
  · rfl

theorem skipGap_space (cs : List Char) : skipGap (' ' :: cs) = skipGap cs :=
  rfl

theorem alternative?_space (fuel : Nat) (cs : List Char) :
    alternative? fuel (' ' :: cs) = alternative? fuel cs := by
  cases fuel <;> rfl

theorem type?_space (fuel : Nat) (cs : List Char) : type? fuel (' ' :: cs) = type? fuel cs := by
  cases fuel with
  | zero => rfl
  | succ fuel => rw [type?, type?, alternative?_space]

theorem fields?_space (fuel : Nat) (cs : List Char) :
    fields? fuel (' ' :: cs) = fields? fuel cs := by
  cases fuel <;> rfl

section Step

variable {fuel : Nat} {cs rest left behind : List Char} {type : TypeExpr} {types : List TypeExpr}
  {fields : List (String × TypeExpr)} {key : String}

theorem alternatives?_end (h : (skipGap rest).head? ≠ some '|') :
    alternatives? (fuel + 1) rest = some ([], rest) := by
  rw [alternatives?]
  split
  · next bar => exact absurd (by rw [bar]; rfl) h
  · rfl

theorem alternatives?_bar (bar : skipGap cs = '|' :: rest)
    (first : alternative? fuel rest = some (type, left))
    (more : alternatives? fuel left = some (types, behind)) :
    alternatives? (fuel + 1) cs = some (type :: types, behind) := by
  simp [alternatives?, bar, first, more]

theorem alternative?_parenthesized (inner : type? fuel cs = some (type, rest))
    (close : skipGap rest = ')' :: left) :
    alternative? (fuel + 1) ('(' :: cs) = some (brackets type left) := by
  rw [alternative?, skipGap_cons rfl]
  simp [inner, close]

theorem alternative?_object (opens : ∀ tail, skipGap cs ≠ '\x7d' :: tail)
    (inner : fields? fuel (skipGap cs) = some (fields, left)) :
    alternative? (fuel + 1) ('\x7b' :: cs) = some (brackets (.object fields) left) := by
  rw [alternative?, skipGap_cons rfl]
  simp [inner]

theorem fields?_last (named : key? (skipGap cs) = some (key, ':' :: rest))
    (first : type? fuel rest = some (type, left)) (close : skipGap left = '\x7d' :: behind) :
    fields? (fuel + 1) cs = some ([(key, type)], behind) := by
  simp [fields?, named, skipGap_cons, isGap, first, close]

theorem fields?_more (named : key? (skipGap cs) = some (key, ':' :: rest))
    (first : type? fuel rest = some (type, left)) (semicolon : skipGap left = ';' :: behind)
    (more : fields? fuel behind = some (fields, ds)) :
    fields? (fuel + 1) cs = some ((key, type) :: fields, ds) := by
  simp [fields?, named, skipGap_cons, isGap, first, semicolon, more]

end Step

/-! ### One rule of the grammar -/

/-- The text is read as the type, with the brackets behind it, unless a word goes on there. -/
def Reads (type : TypeExpr) (cs : List Char) : Prop :=
  ∀ fuel rest, 2 * cs.length ≤ fuel → EndsWord rest →
    alternative? fuel (cs ++ rest) = some (brackets type rest)

def ReadsMore (types : List TypeExpr) (cs : List Char) : Prop :=
  ∀ fuel rest, 2 * cs.length < fuel →
    alternatives? fuel (cs ++ ')' :: rest) = some (types, ')' :: rest)

def ReadsFields (fields : List (String × TypeExpr)) (cs : List Char) : Prop :=
  ∀ fuel rest, 2 * cs.length < fuel → fields? fuel (cs ++ rest) = some (fields, rest)

section Rule

variable {type : TypeExpr} {types : List TypeExpr} {fields : List (String × TypeExpr)}
  {cs ds : List Char}

theorem reads_word (word : String) (h : ofWord? word = some type) (nonempty : word.toList ≠ [])
    (chars : word.toList.all isWordChar) : Reads type word.toList := by
  intro fuel rest bound ends
  have long := List.length_pos_of_ne_nil nonempty
  obtain ⟨fuel, rfl⟩ : ∃ n, fuel = n + 1 := ⟨fuel - 1, by omega⟩
  exact alternative?_word h nonempty chars fuel ends

theorem Reads.array (h : Reads type cs) : Reads (.array type) (cs ++ ['[', ']']) := by
  intro fuel rest bound ends
  rw [List.length_append] at bound
  have whole := h fuel ('[' :: ']' :: rest) (by omega) (endsWord_cons rfl _)
  rw [List.append_assoc]
  exact whole

/-- The text of a type is read up to where neither brackets nor a bar come next. -/
theorem Reads.type? (h : Reads type cs) {fuel : Nat} (bound : 2 * cs.length + 2 ≤ fuel)
    {rest : List Char} (ends : EndsWord rest) (noBracket : rest.head? ≠ some '[')
    (noBar : (skipGap rest).head? ≠ some '|') :
    TypeExpr.type? fuel (cs ++ rest) = some (type, rest) := by
  obtain ⟨fuel, rfl⟩ : ∃ n, fuel = n + 2 := ⟨fuel - 2, by omega⟩
  have first := h (fuel + 1) rest (by omega) ends
  rw [brackets_of_ne noBracket] at first
  simp [TypeExpr.type?, first, alternatives?_end noBar, join]

theorem readsMore_nil : ReadsMore [] [] := by
  intro fuel rest bound
  obtain ⟨fuel, rfl⟩ : ∃ n, fuel = n + 1 := ⟨fuel - 1, by omega⟩
  rw [List.nil_append]
  exact alternatives?_end (by rw [skipGap_cons rfl]; simp)

theorem Reads.alternative? (h : Reads type cs) (space : ∀ c ∈ ds.head?, c = ' ') {fuel : Nat}
    (bound : 2 * cs.length ≤ fuel) (rest : List Char) :
    TypeExpr.alternative? fuel (cs ++ (ds ++ ')' :: rest)) = some (type, ds ++ ')' :: rest) := by
  have ends : EndsWord (ds ++ ')' :: rest) ∧ (ds ++ ')' :: rest).head? ≠ some '[' := by
    rcases ds with _ | ⟨c, ds⟩
    · exact ⟨endsWord_cons rfl _, by simp⟩
    · obtain rfl := space c rfl
      exact ⟨endsWord_cons rfl _, by simp⟩
  rw [h fuel _ bound ends.1, brackets_of_ne ends.2]

theorem Reads.more (h : Reads type cs) (more : ReadsMore types ds)
    (space : ∀ c ∈ ds.head?, c = ' ') : ReadsMore (type :: types) (" | ".toList ++ cs ++ ds) := by
  intro fuel rest bound
  have three : " | ".toList.length = 3 := rfl
  simp only [List.length_append] at bound
  obtain ⟨fuel, rfl⟩ : ∃ n, fuel = n + 1 := ⟨fuel - 1, by omega⟩
  have first := h.alternative? space (show 2 * cs.length ≤ fuel by omega) rest
  rw [← alternative?_space] at first
  have front : " | ".toList ++ cs ++ ds ++ ')' :: rest =
      ' ' :: '|' :: ' ' :: (cs ++ (ds ++ ')' :: rest)) := by simp
  rw [front]
  exact alternatives?_bar rfl first (more fuel rest (by omega))

theorem Reads.parenthesized (h : Reads type cs) (more : ReadsMore types ds)
    (space : ∀ c ∈ ds.head?, c = ' ') : Reads (join type types) ('(' :: cs ++ ds ++ [')']) := by
  intro fuel rest bound ends
  simp only [List.cons_append, List.length_cons, List.length_append, List.length_nil] at bound
  obtain ⟨fuel, rfl⟩ : ∃ n, fuel = n + 2 := ⟨fuel - 2, by omega⟩
  have first := h.alternative? space (show 2 * cs.length ≤ fuel by omega) rest
  have inner : TypeExpr.type? (fuel + 1) (cs ++ (ds ++ ')' :: rest)) =
      some (join type types, ')' :: rest) := by
    simp [TypeExpr.type?, first, more fuel rest (by omega)]
  have front : '(' :: cs ++ ds ++ [')'] ++ rest = '(' :: (cs ++ (ds ++ ')' :: rest)) := by simp
  rw [front]
  exact alternative?_parenthesized inner (skipGap_cons rfl _)

theorem key?_skipGap (key : String) (rest : List Char) :
    key? (skipGap ((ValueType.keyText key).toList ++ ':' :: rest)) = some (key, ':' :: rest) := by
  have named := key?_keyText key (endsWord_cons (by decide : isWordChar ':' = false) rest)
  obtain ⟨c, tail, front, solid, -⟩ := exists_head_keyText key
  rw [front, List.cons_append] at named ⊢
  rwa [skipGap_cons solid]

theorem readsFields_last (key : String) (h : Reads type cs) :
    ReadsFields [(key, type)]
      ((ValueType.keyText key).toList ++ ':' :: ' ' :: cs ++ [' ', '\x7d']) := by
  intro fuel rest bound
  simp only [List.length_append, List.length_cons] at bound
  obtain ⟨fuel, rfl⟩ : ∃ n, fuel = n + 1 := ⟨fuel - 1, by omega⟩
  have first : TypeExpr.type? fuel (' ' :: (cs ++ ' ' :: '\x7d' :: rest)) =
      some (type, ' ' :: '\x7d' :: rest) := by
    rw [type?_space]
    exact h.type? (by omega) (endsWord_cons rfl _) (by simp) (by simp [skipGap, isGap])
  have front : (ValueType.keyText key).toList ++ ':' :: ' ' :: cs ++ [' ', '\x7d'] ++ rest =
      (ValueType.keyText key).toList ++ ':' :: ' ' :: (cs ++ ' ' :: '\x7d' :: rest) := by simp
  rw [front]
  exact fields?_last (key?_skipGap key _) first rfl

theorem readsFields_more (key : String) (h : Reads type cs) (more : ReadsFields fields ds) :
    ReadsFields ((key, type) :: fields)
      ((ValueType.keyText key).toList ++ ':' :: ' ' :: cs ++ ';' :: ' ' :: ds) := by
  intro fuel rest bound
  simp only [List.length_append, List.length_cons] at bound
  obtain ⟨fuel, rfl⟩ : ∃ n, fuel = n + 1 := ⟨fuel - 1, by omega⟩
  have first : TypeExpr.type? fuel (' ' :: (cs ++ ';' :: ' ' :: (ds ++ rest))) =
      some (type, ';' :: ' ' :: (ds ++ rest)) := by
    rw [type?_space]
    exact h.type? (by omega) (endsWord_cons rfl _) (by simp) (by simp [skipGap, isGap])
  have others := more fuel rest (by omega)
  rw [← fields?_space] at others
  have front : (ValueType.keyText key).toList ++ ':' :: ' ' :: cs ++ ';' :: ' ' :: ds ++ rest =
      (ValueType.keyText key).toList ++ ':' :: ' ' :: (cs ++ ';' :: ' ' :: (ds ++ rest)) := by simp
  rw [front]
  exact fields?_more (key?_skipGap key _) first rfl others

theorem reads_object {key : String}
    (h : ReadsFields fields ((ValueType.keyText key).toList ++ cs)) :
    Reads (.object fields) ('\x7b' :: ' ' :: ((ValueType.keyText key).toList ++ cs)) := by
  intro fuel rest bound ends
  simp only [List.length_append, List.length_cons] at bound
  obtain ⟨fuel, rfl⟩ : ∃ n, fuel = n + 1 := ⟨fuel - 1, by omega⟩
  have inner := h fuel rest (by rw [List.length_append]; omega)
  obtain ⟨c, tail, front, solid, opens⟩ := exists_head_keyText key
  have skipped : skipGap (' ' :: ((ValueType.keyText key).toList ++ cs ++ rest)) =
      (ValueType.keyText key).toList ++ cs ++ rest := by
    rw [skipGap_space, front]
    exact skipGap_cons solid _
  rw [List.cons_append, List.cons_append]
  refine alternative?_object (fun tail same => opens ?_) (skipped.symm ▸ inner)
  rw [skipped, front] at same
  exact (List.cons.inj same).1

end Rule

/-! ### Whole types -/

theorem reads_empty : Reads (.object []) ['\x7b', '\x7d'] := by
  intro fuel rest bound _
  obtain ⟨fuel, rfl⟩ : ∃ n, fuel = n + 1 := ⟨fuel - 1, by simp at bound; omega⟩
  rfl

theorem head?_unionText (items : List ValueType) :
    ∀ c ∈ (ValueType.unionText items).toList.head?, c = ' ' := by
  cases items with
  | nil => simp [ValueType.unionText]
  | cons item items => simp [ValueType.unionText, eq_comm]

mutual

/-- **Types.** The text of an inferred type is read as what the type says. -/
theorem reads_text : ∀ t : ValueType, Reads t.meaning t.text.toList
  | .null => reads_word "null" rfl nofun rfl
  | .boolean => reads_word "boolean" rfl nofun rfl
  | .number => reads_word "number" rfl nofun rfl
  | .string => reads_word "string" rfl nofun rfl
  | .array [] => (reads_word "unknown" rfl nofun rfl).array
  | .array [item] => by
    rw [ValueType.text, String.toList_append]
    exact (reads_text item).array
  | .array (item :: next :: items) => by
    have whole := ((reads_text item).parenthesized (readsMore_unionText (next :: items))
      (head?_unionText _)).array
    simpa [ValueType.text, ValueType.meaning] using whole
  | .object [] => reads_empty
  | .object ((key, type) :: fields) => by
    have whole := reads_object (readsFields_fieldsText fields key (reads_text type))
    simpa [ValueType.text, ValueType.meaning, ValueType.fieldMeanings] using whole

theorem readsMore_unionText : ∀ items : List ValueType,
    ReadsMore (ValueType.meanings items) (ValueType.unionText items).toList
  | [] => readsMore_nil
  | item :: items => by
    rw [ValueType.unionText, String.toList_append, String.toList_append]
    exact (reads_text item).more (readsMore_unionText items) (head?_unionText items)

theorem readsFields_fieldsText : ∀ (fields : List (String × ValueType)) (key : String)
    {type : TypeExpr} {cs : List Char}, Reads type cs →
    ReadsFields ((key, type) :: ValueType.fieldMeanings fields)
      ((ValueType.keyText key).toList ++ (':' :: ' ' :: cs ++
        (ValueType.fieldsText fields).toList ++ [' ', '\x7d']))
  | [], key, _, _, h => by
    simpa [ValueType.fieldsText, ValueType.fieldMeanings] using readsFields_last key h
  | (next, t) :: fields, key, _, _, h => by
    have whole := readsFields_more key h (readsFields_fieldsText fields next (reads_text t))
    simpa [ValueType.fieldsText, ValueType.fieldMeanings] using whole

end

end TypeExpr

namespace ValueType

/-- **Reading.** The text of an inferred type holds one type, the one that the type says. -/
theorem parse?_text (t : ValueType) : TypeExpr.parse? t.text = some t.meaning := by
  have whole := (TypeExpr.reads_text t).type? (le_refl (2 * t.text.toList.length + 2))
    (show TypeExpr.EndsWord [] by simp [TypeExpr.EndsWord]) (by simp) (by simp [Written.skipGap])
  rw [List.append_nil] at whole
  rw [TypeExpr.parse?, whole]
  rfl

/-- The parentheses of a union count: without them the brackets go to its last alternative. -/
example :
    TypeExpr.parse? (array [null, string]).text = some (.array (.union [.null, .string])) ∧
    TypeExpr.parse? "null | string[]" = some (.union [.null, .array .string]) :=
  ⟨by cbv, by cbv⟩

theorem meaning_congr {t u : ValueType} (h : t.text = u.text) : t.meaning = u.meaning := by
  have same := t.parse?_text
  rw [h, u.parse?_text] at same
  exact (Option.some.inj same).symm

end ValueType
end DesignTokens

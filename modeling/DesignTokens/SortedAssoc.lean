/-!
# Sorted association lists

A finite map as a list of key and value pairs whose keys increase strictly. The list is a plain one,
so that a type may nest such maps in itself; every operation here keeps the order, and a map that is
built by them from `[]` is in order. What is visible of a map is its order of keys and `find?`, and
`find?_insert`, `find?_erase` say what the changes do to it.
-/

namespace DesignTokens.SortedAssoc

variable {κ α : Type} [LT κ] [DecidableLT κ] [DecidableEq κ]

def find? (key : κ) : List (κ × α) → Option α
  | [] => none
  | (k, v) :: rest => if key = k then some v else find? key rest

def contains (key : κ) (entries : List (κ × α)) : Bool :=
  (find? key entries).isSome

/-- Puts `update old?` under `key`, where `old?` is what was there. -/
def upsert (key : κ) (update : Option α → α) : List (κ × α) → List (κ × α)
  | [] => [(key, update none)]
  | (k, v) :: rest =>
    if key < k then (key, update none) :: (k, v) :: rest
    else if key = k then (key, update (some v)) :: rest
    else (k, v) :: upsert key update rest

def insert (key : κ) (value : α) (entries : List (κ × α)) : List (κ × α) :=
  upsert key (fun _ => value) entries

def erase (key : κ) (entries : List (κ × α)) : List (κ × α) :=
  entries.filter fun entry => entry.1 ≠ key

/-- The map of a list of pairs, where a later pair replaces an earlier one of the same key. -/
def ofList (pairs : List (κ × α)) : List (κ × α) :=
  pairs.foldl (fun entries pair => insert pair.1 pair.2 entries) []

/-- The entries, replaced and extended by `newer`. -/
def override (entries newer : List (κ × α)) : List (κ × α) :=
  newer.foldl (fun entries pair => insert pair.1 pair.2 entries) entries

/-! ### What is found after a change -/

theorem find?_upsert_of_ne {key other : κ} (h : other ≠ key) (update : Option α → α)
    (entries : List (κ × α)) :
    find? other (upsert key update entries) = find? other entries := by
  induction entries with
  | nil => simp [upsert, find?, h]
  | cons entry rest ih =>
    obtain ⟨k, v⟩ := entry
    unfold upsert
    split
    · simp [find?, h]
    · split
      · next same => simp [find?, h, ← same]
      · simp [find?, ih]

theorem find?_insert_self (key : κ) (value : α) (entries : List (κ × α)) :
    find? key (insert key value entries) = some value := by
  induction entries with
  | nil => simp [insert, upsert, find?]
  | cons entry rest ih =>
    obtain ⟨k, v⟩ := entry
    unfold insert upsert
    split
    · simp [find?]
    · split
      · simp [find?]
      · next differs => simpa [find?, differs, insert] using ih

/-- After a value was put under a key, that value is found there and all else as before. -/
theorem find?_insert (key other : κ) (value : α) (entries : List (κ × α)) :
    find? other (insert key value entries) =
      if other = key then some value else find? other entries := by
  split
  · next h => exact h ▸ find?_insert_self key value entries
  · next h => exact find?_upsert_of_ne h _ entries

omit [LT κ] [DecidableLT κ] in
theorem find?_erase (key other : κ) (entries : List (κ × α)) :
    find? other (erase key entries) = if other = key then none else find? other entries := by
  induction entries with
  | nil => simp [erase, find?]
  | cons entry rest ih =>
    obtain ⟨k, v⟩ := entry
    unfold erase at ih ⊢
    by_cases hk : k = key
    · rw [List.filter_cons_of_neg (by simp [hk]), ih]
      by_cases ho : other = key <;> simp [find?, hk, ho]
    · rw [List.filter_cons_of_pos (by simp [hk])]
      by_cases ho : other = k
      · simp [find?, ho, hk]
      · rw [find?, find?, if_neg ho, if_neg ho, ih]

end DesignTokens.SortedAssoc

import DesignTokens.SortedAssoc
import Mathlib.Data.List.Induction
import Mathlib.Data.List.Lex
import Mathlib.Data.List.Nodup
import Mathlib.Order.Lattice

/-!
# Sorted association lists as finite maps

The keys of a list increase strictly (`Increasing`), and changes keep that (`Increasing.upsert`). In
such a list an entry is what is found under its key (`Increasing.mem_iff`), and two lists in which
the same is found are the same list (`Increasing.ext`).

For what is found, the order does not count as long as no key is there twice (`find?_perm`). Changes
under different keys can be made in either order (`upsert_comm`).
-/

namespace DesignTokens.SortedAssoc

variable {κ α : Type}

/-! ### What is found -/

section Found

variable [DecidableEq κ]

theorem isSome_find?_iff {key : κ} {entries : List (κ × α)} :
    (find? key entries).isSome ↔ key ∈ entries.map Prod.fst := by
  induction entries with
  | nil => simp [find?]
  | cons entry rest ih =>
    obtain ⟨k, v⟩ := entry
    by_cases h : key = k
    · simp [find?, h]
    · simpa [find?, h] using ih

theorem find?_eq_none_iff {key : κ} {entries : List (κ × α)} :
    find? key entries = none ↔ key ∉ entries.map Prod.fst := by
  rw [← isSome_find?_iff, Option.not_isSome_iff_eq_none]

theorem mem_of_find? {key : κ} {value : α} {entries : List (κ × α)}
    (h : find? key entries = some value) : (key, value) ∈ entries := by
  induction entries with
  | nil => simp [find?] at h
  | cons entry rest ih =>
    obtain ⟨k, v⟩ := entry
    by_cases hk : key = k
    · simp only [find?, if_pos hk, Option.some.injEq] at h
      simp [hk, h]
    · simp only [find?, if_neg hk] at h
      exact List.mem_cons_of_mem _ (ih h)

theorem mem_iff_of_nodup {entries : List (κ × α)} (nodup : (entries.map Prod.fst).Nodup) {key : κ}
    {value : α} : (key, value) ∈ entries ↔ find? key entries = some value := by
  refine ⟨fun hmem => ?_, mem_of_find?⟩
  induction entries with
  | nil => simp at hmem
  | cons entry rest ih =>
    obtain ⟨k, v⟩ := entry
    obtain ⟨fresh, nodup⟩ := List.nodup_cons.1 nodup
    rcases List.mem_cons.1 hmem with heq | hrest
    · obtain ⟨rfl, rfl⟩ := Prod.mk.inj heq
      simp [find?]
    · have there : key ∈ rest.map Prod.fst := List.mem_map_of_mem hrest
      rw [find?, if_neg (ne_of_mem_of_not_mem there fresh)]
      exact ih nodup hrest

/-- Where no key is there twice, the order of the entries makes no difference to what is found. -/
theorem find?_perm {entries others : List (κ × α)} (perm : entries.Perm others)
    (nodup : (others.map Prod.fst).Nodup) (key : κ) : find? key entries = find? key others := by
  have nodup' : (entries.map Prod.fst).Nodup := (perm.map Prod.fst).nodup_iff.2 nodup
  ext value
  rw [← mem_iff_of_nodup nodup', ← mem_iff_of_nodup nodup, perm.mem_iff]

theorem find?_append (key : κ) (front behind : List (κ × α)) :
    find? key (front ++ behind) = (find? key front).or (find? key behind) := by
  induction front with
  | nil => rfl
  | cons entry rest ih =>
    obtain ⟨k, v⟩ := entry
    rw [List.cons_append, find?, find?, ih]
    split <;> rfl

/-- What is found in an entry that may be absent. -/
theorem find?_map_toList {β : Type} (key other : κ) (found : Option β) (value : β → α) :
    find? key (found.map fun b => (other, value b)).toList =
      if key = other then found.map value else none := by
  cases found with
  | none => simp [find?]
  | some b => rfl

end Found

section Latest

variable [LT κ] [DecidableLT κ] [DecidableEq κ]

/-- Where pairs replace and extend entries, the last pair of a key is found, and without one what
was there. -/
theorem find?_override (key : κ) (entries newer : List (κ × α)) :
    find? key (override entries newer) =
      ((newer.filter (·.1 = key)).getLast?.map Prod.snd).or (find? key entries) := by
  induction newer using List.reverseRecOn with
  | nil => rfl
  | append_singleton newer pair ih =>
    rw [override, List.foldl_concat, ← override, find?_insert, ih, List.filter_append]
    by_cases same : key = pair.1
    · simp [same]
    · simp [same, Ne.symm same]

theorem find?_ofList (key : κ) (pairs : List (κ × α)) :
    find? key (ofList pairs) = (pairs.filter (·.1 = key)).getLast?.map Prod.snd :=
  (find?_override key [] pairs).trans (Option.or_none ..)

/-- Where entries without a key twice replace and extend others, what is found among them is found,
and without that what was there. -/
theorem find?_override_of_nodup {newer : List (κ × α)} (nodup : (newer.map Prod.fst).Nodup)
    (key : κ) (entries : List (κ × α)) :
    find? key (override entries newer) = (find? key newer).or (find? key entries) := by
  induction newer generalizing entries with
  | nil => rfl
  | cons pair rest ih =>
    obtain ⟨fresh, nodup⟩ := List.nodup_cons.1 nodup
    rw [override, List.foldl_cons, ← override, ih nodup, find?_insert]
    by_cases same : key = pair.1
    · have absent : find? key rest = none := find?_eq_none_iff.2 (same ▸ fresh)
      simp [find?, same, same ▸ absent]
    · simp [find?, same]

theorem find?_ofList_of_nodup {pairs : List (κ × α)} (nodup : (pairs.map Prod.fst).Nodup)
    (key : κ) : find? key (ofList pairs) = find? key pairs :=
  (find?_override_of_nodup nodup key []).trans (Option.or_none ..)

theorem exists_find?_upsert_self (key : κ) (update : Option α → α) (entries : List (κ × α)) :
    ∃ old, find? key (upsert key update entries) = some (update old) := by
  induction entries with
  | nil => exact ⟨none, by simp [upsert, find?]⟩
  | cons entry rest ih =>
    obtain ⟨k, v⟩ := entry
    unfold upsert
    split
    · exact ⟨none, by simp [find?]⟩
    · split
      · exact ⟨some v, by simp [find?]⟩
      · next differs => simpa [find?, differs] using ih

end Latest

/-! ### Changes one after the other -/

section Twice

variable [LT κ] [IsStrictTotalOrder κ (· < ·)] [DecidableLT κ] [DecidableEq κ]

theorem upsert_upsert_self (key : κ) (first second : Option α → α) (entries : List (κ × α)) :
    upsert key second (upsert key first entries) =
      upsert key (fun old => second (some (first old))) entries := by
  have irrefl : ¬ key < key := irrefl_of (· < ·) key
  induction entries with
  | nil => simp [upsert, irrefl]
  | cons entry rest ih =>
    obtain ⟨k, v⟩ := entry
    by_cases below : key < k
    · simp [upsert, below, irrefl]
    · by_cases same : key = k
      · simp [upsert, same, irrefl_of (· < ·) k]
      · simp [upsert, below, same, ih]

theorem upsert_comm_of_lt {key other : κ} (h : key < other) (first second : Option α → α)
    (entries : List (κ × α)) :
    upsert key first (upsert other second entries) =
      upsert other second (upsert key first entries) := by
  have hge : ¬ other < key := fun hgt => irrefl_of (· < ·) key (trans_of (· < ·) h hgt)
  have hne : other ≠ key := fun same => irrefl_of (· < ·) key (same ▸ h)
  induction entries with
  | nil => simp [upsert, h, hge, hne]
  | cons entry rest ih =>
    obtain ⟨k, v⟩ := entry
    rcases trichotomous_of (· < ·) key k with below | same | above
    · -- The first change comes before whatever the second one finds.
      by_cases hk : other < k
      · simp [upsert, below, h, hge, hne, hk]
      · by_cases hs : other = k
        · simp [upsert, below, hs, hs ▸ hge, hs ▸ hne, irrefl_of (· < ·) k]
        · simp [upsert, below, hge, hne, hk, hs]
    · subst same
      simp [upsert, irrefl_of (· < ·) key, hge, hne]
    · have behind : k < other := trans_of (· < ·) above h
      have hk : ¬ key < k := fun hlt => irrefl_of (· < ·) k (trans_of (· < ·) above hlt)
      have hk' : key ≠ k := fun same => irrefl_of (· < ·) k (same ▸ above)
      have ho : ¬ other < k := fun hlt => irrefl_of (· < ·) k (trans_of (· < ·) behind hlt)
      have ho' : other ≠ k := fun same => irrefl_of (· < ·) k (same ▸ behind)
      simp [upsert, hk, hk', ho, ho', ih]

/-- Changes under different keys can be made in either order. -/
theorem upsert_comm {key other : κ} (h : key ≠ other) (first second : Option α → α)
    (entries : List (κ × α)) :
    upsert key first (upsert other second entries) =
      upsert other second (upsert key first entries) := by
  rcases trichotomous_of (· < ·) key other with below | same | above
  · exact upsert_comm_of_lt below first second entries
  · exact absurd same h
  · exact (upsert_comm_of_lt above second first entries).symm

end Twice

/-! ### The order of the keys -/

section Order

variable [LT κ]

theorem mem_keys_upsert [DecidableEq κ] [DecidableLT κ] {key other : κ} (update : Option α → α)
    {entries : List (κ × α)} :
    other ∈ (upsert key update entries).map Prod.fst ↔
      other = key ∨ other ∈ entries.map Prod.fst := by
  induction entries with
  | nil => simp [upsert]
  | cons entry rest ih =>
    obtain ⟨k, v⟩ := entry
    unfold upsert
    split
    · simp
    · split
      · next same => simp [same]
      · rw [List.map_cons, List.mem_cons, ih, List.map_cons, List.mem_cons]
        tauto

theorem eq_or_mem_of_mem_insert [DecidableEq κ] [DecidableLT κ] {key : κ} {value : α}
    {entry : κ × α} {entries : List (κ × α)} (h : entry ∈ insert key value entries) :
    entry = (key, value) ∨ entry ∈ entries := by
  induction entries with
  | nil => exact .inl (List.mem_singleton.1 h)
  | cons first rest ih =>
    unfold insert upsert at h
    split at h
    · exact List.mem_cons.1 h
    · split at h
      · exact (List.mem_cons.1 h).imp_right (List.mem_cons_of_mem _)
      · rcases List.mem_cons.1 h with rfl | h
        · exact .inr List.mem_cons_self
        · exact (ih h).imp_right (List.mem_cons_of_mem _)

theorem mem_of_mem_ofList [DecidableEq κ] [DecidableLT κ] {entry : κ × α} {pairs : List (κ × α)}
    (h : entry ∈ ofList pairs) : entry ∈ pairs := by
  induction pairs using List.reverseRecOn with
  | nil => cases h
  | append_singleton pairs last ih =>
    rw [ofList, List.foldl_concat, ← ofList] at h
    rcases eq_or_mem_of_mem_insert h with rfl | h
    · exact List.mem_append_right _ (List.mem_singleton_self _)
    · exact List.mem_append_left _ (ih h)

theorem mem_keys_ofList [DecidableEq κ] [DecidableLT κ] {key : κ} {pairs : List (κ × α)} :
    key ∈ (ofList pairs).map Prod.fst ↔ key ∈ pairs.map Prod.fst := by
  induction pairs using List.reverseRecOn with
  | nil => rfl
  | append_singleton pairs last ih =>
    rw [ofList, List.foldl_concat, ← ofList, insert, mem_keys_upsert, ih, List.map_append,
      List.mem_append, List.map_singleton, List.mem_singleton, or_comm]

/-- The keys increase strictly. -/
def Increasing (entries : List (κ × α)) : Prop :=
  (entries.map Prod.fst).Pairwise (· < ·)

namespace Increasing

theorem nil : Increasing ([] : List (κ × α)) :=
  List.Pairwise.nil

theorem singleton (entry : κ × α) : Increasing [entry] :=
  List.pairwise_singleton ..

theorem cons_iff {key : κ} {value : α} {rest : List (κ × α)} :
    Increasing ((key, value) :: rest) ↔ (∀ k ∈ rest.map Prod.fst, key < k) ∧ Increasing rest :=
  List.pairwise_cons

theorem erase [DecidableEq κ] {entries : List (κ × α)} (h : Increasing entries) (key : κ) :
    Increasing (SortedAssoc.erase key entries) :=
  h.sublist (List.filter_sublist.map Prod.fst)

variable [IsStrictTotalOrder κ (· < ·)]

theorem nodup {entries : List (κ × α)} (h : Increasing entries) :
    (entries.map Prod.fst).Nodup := by
  refine h.imp fun {a b} hlt heq => ?_
  exact irrefl_of (· < ·) b (heq ▸ hlt)

variable [DecidableEq κ]

theorem find?_eq_none_of_forall_lt {key : κ} {entries : List (κ × α)}
    (h : ∀ k ∈ entries.map Prod.fst, key < k) : find? key entries = none :=
  find?_eq_none_iff.2 fun hmem => irrefl_of (· < ·) key (h key hmem)

theorem mem_iff {key : κ} {value : α} {entries : List (κ × α)} (h : Increasing entries) :
    (key, value) ∈ entries ↔ find? key entries = some value :=
  mem_iff_of_nodup h.nodup

/-- Two lists in which the same is found under every key are the same list. -/
theorem ext {entries others : List (κ × α)} (h : Increasing entries) (ho : Increasing others)
    (same : ∀ key, find? key entries = find? key others) : entries = others := by
  have perm : List.Perm entries others := by
    refine (List.perm_ext_iff_of_nodup (List.Nodup.of_map _ h.nodup)
      (List.Nodup.of_map _ ho.nodup)).2 fun ⟨key, value⟩ => ?_
    rw [h.mem_iff, ho.mem_iff, same]
  have sorted : ∀ {l : List (κ × α)}, Increasing l → l.Pairwise fun a b => a.1 < b.1 :=
    fun hl => List.pairwise_map.1 hl
  refine perm.eq_of_pairwise (fun a b _ _ hab hba => ?_) (sorted h) (sorted ho)
  exact absurd (trans_of (· < ·) hab hba) (irrefl_of (· < ·) a.1)

/-! ### Changes -/

variable [DecidableLT κ]

theorem upsert {entries : List (κ × α)} (h : Increasing entries) (key : κ)
    (update : Option α → α) : Increasing (SortedAssoc.upsert key update entries) := by
  induction entries with
  | nil => exact cons_iff.2 ⟨by simp, nil⟩
  | cons entry rest ih =>
    obtain ⟨k, v⟩ := entry
    obtain ⟨below, hrest⟩ := cons_iff.1 h
    unfold SortedAssoc.upsert
    split
    · next hlt =>
      refine cons_iff.2 ⟨fun other hmem => ?_, h⟩
      rcases List.mem_cons.1 hmem with rfl | hmem
      · exact hlt
      · exact trans_of (· < ·) hlt (below other hmem)
    · next hge =>
      split
      · next same => exact cons_iff.2 ⟨same ▸ below, hrest⟩
      · next hne =>
        refine cons_iff.2 ⟨fun other hmem => ?_, ih hrest⟩
        rcases (mem_keys_upsert update).1 hmem with rfl | hmem
        · exact ((trichotomous_of (· < ·) other k).resolve_left hge).resolve_left hne
        · exact below other hmem

theorem find?_upsert {entries : List (κ × α)} (h : Increasing entries) (key other : κ)
    (update : Option α → α) :
    find? other (SortedAssoc.upsert key update entries) =
      if other = key then some (update (find? key entries)) else find? other entries := by
  split
  · next heq =>
    subst heq
    induction entries with
    | nil => simp [SortedAssoc.upsert, find?]
    | cons entry rest ih =>
      obtain ⟨k, v⟩ := entry
      obtain ⟨below, hrest⟩ := cons_iff.1 h
      unfold SortedAssoc.upsert
      split
      · next hlt =>
        have absent : find? other ((k, v) :: rest) = none := by
          refine find?_eq_none_of_forall_lt fun key hmem => ?_
          rcases List.mem_cons.1 hmem with rfl | hmem
          · exact hlt
          · exact trans_of (· < ·) hlt (below key hmem)
        rw [absent]
        simp [find?]
      · split
        · next same => simp [find?, same]
        · next hne => simpa [find?, hne] using ih hrest
  · next hne => exact find?_upsert_of_ne hne update entries

/-- A key above all others comes last. -/
theorem upsert_of_forall_lt {key : κ} {entries : List (κ × α)}
    (above : ∀ k ∈ entries.map Prod.fst, k < key) (update : Option α → α) :
    SortedAssoc.upsert key update entries = entries ++ [(key, update none)] := by
  induction entries with
  | nil => rfl
  | cons entry rest ih =>
    obtain ⟨k, v⟩ := entry
    have hlt : k < key := above k List.mem_cons_self
    have hge : ¬ key < k := fun hgt => irrefl_of (· < ·) k (trans_of (· < ·) hlt hgt)
    have hne : key ≠ k := fun heq => irrefl_of (· < ·) k (heq ▸ hlt)
    rw [SortedAssoc.upsert, if_neg hge, if_neg hne,
      ih fun other hmem => above other (List.mem_cons_of_mem _ hmem)]
    rfl

theorem override {entries : List (κ × α)} (h : Increasing entries) (newer : List (κ × α)) :
    Increasing (SortedAssoc.override entries newer) := by
  induction newer using List.reverseRecOn with
  | nil => exact h
  | append_singleton newer pair ih =>
    rw [SortedAssoc.override, List.foldl_concat, ← SortedAssoc.override]
    exact ih.upsert _ _

theorem ofList (pairs : List (κ × α)) : Increasing (SortedAssoc.ofList pairs) :=
  nil.override pairs

theorem ofList_eq {pairs : List (κ × α)} (h : Increasing pairs) :
    SortedAssoc.ofList pairs = pairs := by
  induction pairs using List.reverseRecOn with
  | nil => rfl
  | append_singleton pairs pair ih =>
    unfold Increasing at h
    rw [List.map_append, List.pairwise_append] at h
    rw [SortedAssoc.ofList, List.foldl_concat, ← SortedAssoc.ofList, ih h.1, SortedAssoc.insert,
      upsert_of_forall_lt fun k hmem => h.2.2 k hmem pair.1 (by simp)]

/-- Where a map replaces and extends entries, what it has under a key is found, and without that
what was there. -/
theorem find?_override {newer : List (κ × α)} (h : Increasing newer) (key : κ)
    (entries : List (κ × α)) :
    find? key (SortedAssoc.override entries newer) =
      (find? key newer).or (find? key entries) :=
  find?_override_of_nodup h.nodup key entries

end Increasing

end Order

end DesignTokens.SortedAssoc

import DesignTokens.Dictionary
import DesignTokens.Proofs.Output.MergedTree

/-!
# The tree of a list of tokens

A token is planted at its path, over whatever is there. Two tokens of which neither path begins with
the other can be planted in either order (`Dictionary.plant_comm`), so that a token that no later
one comes near to could as well be planted last, and what is planted last stands at the end of its
path.
Where no path begins with another one, only the order of the tokens of one path counts
(`Dictionary.tree_holds_latest`).
-/

namespace DesignTokens

/-! ### Steps that commute -/

section Fold

variable {α β κ : Type} {step : β → α → β}

/-- A step that commutes with those behind it can be made last. -/
theorem foldl_cons_of_comm {a : α} {l : List α}
    (comm : ∀ b ∈ l, ∀ m, step (step m a) b = step (step m b) a) (m : β) :
    l.foldl step (step m a) = step (l.foldl step m) a := by
  induction l generalizing m with
  | nil => rfl
  | cons b l ih =>
    rw [List.forall_mem_cons] at comm
    rw [List.foldl_cons, comm.1, ih comm.2, List.foldl_cons]

/-- If steps of different keys commute, only the order of those of one key counts. -/
theorem foldl_eq_of_filter [DecidableEq κ] (key : α → κ) {l l' : List α}
    (comm : ∀ a ∈ l, ∀ b ∈ l, key a ≠ key b → ∀ m, step (step m a) b = step (step m b) a)
    (same : ∀ k, l.filter (key · = k) = l'.filter (key · = k)) (m : β) :
    l.foldl step m = l'.foldl step m := by
  induction l generalizing l' m with
  | nil =>
    obtain rfl : l' = [] := by
      refine List.eq_nil_iff_forall_not_mem.2 fun a ha => ?_
      have none : a ∈ [].filter (key · = key a) := same (key a) ▸ List.mem_filter.2 ⟨ha, by simp⟩
      exact absurd none List.not_mem_nil
    rfl
  | cons a l ih =>
    -- The first element is the first one of its key in the other list too.
    have first := same (key a)
    rw [List.filter_cons_of_pos (by simp)] at first
    obtain ⟨front, behind, rfl, others, -, rest⟩ := List.filter_eq_cons_iff.1 first.symm
    have apart : ∀ b ∈ front, key b ≠ key a := fun b hb => by simpa using others b hb
    have known : ∀ b ∈ front, b ∈ a :: l := by
      intro b hb
      have found : b ∈ (a :: l).filter (key · = key b) :=
        same (key b) ▸ List.mem_filter.2 ⟨List.mem_append_left _ hb, by simp⟩
      exact List.mem_of_mem_filter found
    have remain : ∀ k, l.filter (key · = k) = (front ++ behind).filter (key · = k) := by
      intro k
      by_cases hk : key a = k
      · subst hk
        have gone : front.filter (key · = key a) = [] := by
          simpa [List.filter_eq_nil_iff] using apart
        rw [List.filter_append, gone, List.nil_append, ← rest]
      · simpa [List.filter_append, List.filter_cons, hk] using same k
    have moved := foldl_cons_of_comm (m := m) fun b hb =>
      comm a List.mem_cons_self b (known b hb) (apart b hb).symm
    rw [List.foldl_cons, ih (fun b hb c hc => comm b (List.mem_cons_of_mem _ hb) c
      (List.mem_cons_of_mem _ hc)) remain, List.foldl_append, List.foldl_append, moved,
      List.foldl_cons]

end Fold

namespace Dictionary

/-! ### Planting a value -/

/-- The members of what stands in the way of a path, as far as it has any. -/
def membersBelow (old : Option Json) : JsonObject :=
  (old.map Json.membersOrNone).getD []

/-- What comes under the first segment of a path, `rest` being the others. -/
def grown (value : Json) (rest : List String) (old : Option Json) : Json :=
  if rest = [] then value else .object (plant value rest (membersBelow old))

theorem plant_cons (value : Json) (segment : String) (rest : List String) (members : JsonObject) :
    plant value (segment :: rest) members =
      SortedAssoc.upsert segment (grown value rest) members := by
  cases rest with
  | nil => rfl
  | cons => rfl

/-- What is planted is found at the end of its path. -/
theorem at?_plant (value : Json) {path : List String} (named : path ≠ []) (members : JsonObject) :
    Json.at? path (.object (plant value path members)) = some value := by
  induction path generalizing members with
  | nil => exact absurd rfl named
  | cons segment rest ih =>
    obtain ⟨old, found⟩ := SortedAssoc.exists_find?_upsert_self segment (grown value rest) members
    rw [plant_cons, Json.at?, Json.get?, Json.membersOrNone, found, Option.bind_some, grown]
    split
    · next last =>
      rw [last]
      rfl
    · next more => exact ih more _

/-- **Planting in either order.** Values at paths of which neither begins with the other do not come
in each other's way. -/
theorem plant_comm {path other : List String} (h : ¬ path <+: other) (h' : ¬ other <+: path)
    (first second : Json) (members : JsonObject) :
    plant second other (plant first path members) =
      plant first path (plant second other members) := by
  induction path generalizing other members with
  | nil => exact absurd (List.nil_prefix) h
  | cons segment rest ih =>
    rcases other with _ | ⟨segment', rest'⟩
    · exact absurd (List.nil_prefix) h'
    simp only [plant_cons]
    by_cases same : segment = segment'
    · subst same
      rw [List.cons_prefix_cons, not_and] at h h'
      have more : rest ≠ [] := by
        rintro rfl
        exact h rfl List.nil_prefix
      have more' : rest' ≠ [] := by
        rintro rfl
        exact h' rfl List.nil_prefix
      rw [SortedAssoc.upsert_upsert_self, SortedAssoc.upsert_upsert_self]
      congr 1
      funext old
      simp only [grown, if_neg more, if_neg more']
      exact congrArg Json.object (ih (h rfl) (h' rfl) (membersBelow old))
    · exact SortedAssoc.upsert_comm (Ne.symm same) _ _ _

/-! ### Planting tokens -/

/-- Members with one more token. -/
def plantToken (members : JsonObject) (t : Token) : JsonObject :=
  plant t.toJson t.path members

theorem tree_ofTokens (tokens : List Token) :
    (ofTokens tokens).tree = .object (tokens.foldl plantToken []) :=
  rfl

/-- No path of the tokens that is not empty begins with another one. -/
def Flat (tokens : List Token) : Prop :=
  ∀ t ∈ tokens, ∀ u ∈ tokens, t.path ≠ [] → t.path <+: u.path → t.path = u.path

theorem foldl_plantToken_filter (tokens : List Token) (members : JsonObject) :
    (tokens.filter (·.path ≠ [])).foldl plantToken members = tokens.foldl plantToken members := by
  induction tokens generalizing members with
  | nil => rfl
  | cons t tokens ih =>
    by_cases named : t.path = []
    · have same : plantToken members t = members := by rw [plantToken, named, plant]
      rw [List.filter_cons_of_neg (by simpa using named), List.foldl_cons, same, ih]
    · rw [List.filter_cons_of_pos (by simpa using named), List.foldl_cons, List.foldl_cons, ih]

/-- A token that no later one comes near to stands at the end of its path. -/
theorem at?_tree_of_latest {before after : List Token} {t : Token} (named : t.path ≠ [])
    (latest : ∀ u ∈ after, u.path ≠ [] → ¬ u.path <+: t.path ∧ ¬ t.path <+: u.path) :
    Json.at? t.path (ofTokens (before ++ t :: after)).tree = some t.toJson := by
  have comm : ∀ u ∈ after, ∀ m, plantToken (plantToken m t) u = plantToken (plantToken m u) t := by
    intro u hu m
    by_cases empty : u.path = []
    · simp only [plantToken, empty, plant]
    · obtain ⟨shorter, longer⟩ := latest u hu empty
      exact plant_comm longer shorter _ _ m
  rw [tree_ofTokens, List.foldl_append, List.foldl_cons, foldl_cons_of_comm comm]
  exact at?_plant t.toJson named _

/-- Where no path begins with another one, only the order of the tokens of one path counts. -/
theorem tree_eq_of_filter {tokens others : List Token} (flat : Flat tokens)
    (same : ∀ path, path ≠ [] → tokens.filter (·.path = path) = others.filter (·.path = path)) :
    (ofTokens tokens).tree = (ofTokens others).tree := by
  rw [tree_ofTokens, tree_ofTokens, ← foldl_plantToken_filter tokens,
    ← foldl_plantToken_filter others]
  refine congrArg Json.object (foldl_eq_of_filter Token.path (fun t ht u hu hne m => ?_)
    (fun path => ?_) [])
  · obtain ⟨ht, named⟩ := List.mem_filter.1 ht
    obtain ⟨hu, named'⟩ := List.mem_filter.1 hu
    refine plant_comm (fun h => hne ?_) (fun h => hne ?_) _ _ m
    · exact flat t ht u hu (by simpa using named) h
    · exact (flat u hu t ht (by simpa using named') h).symm
  · by_cases empty : path = []
    · simp [List.filter_filter, empty]
    · have narrow : ∀ l : List Token,
          (l.filter (·.path ≠ [])).filter (·.path = path) = l.filter (·.path = path) := by
        intro l
        rw [List.filter_filter]
        refine List.filter_congr fun t _ => ?_
        by_cases h : t.path = path <;> simp [h, empty]
      rw [narrow, narrow, same path empty]

/-- **The latest tokens.** In the tree of a list, the JSON view of a token stands at the end of its
path if no later path, the empty one apart, is the same, goes on from it or leads to it. If no path
begins with another one, then a list in which the tokens of each path come in the same order has the
same tree. -/
theorem tree_holds_latest (tokens : List Token) :
    (∀ before t after, tokens = before ++ t :: after → t.path ≠ [] →
      (∀ u ∈ after, u.path ≠ [] → ¬ u.path <+: t.path ∧ ¬ t.path <+: u.path) →
      Json.at? t.path (ofTokens tokens).tree = some t.toJson) ∧
    (Flat tokens → ∀ others,
      (∀ path, path ≠ [] → tokens.filter (·.path = path) = others.filter (·.path = path)) →
      (ofTokens others).tree = (ofTokens tokens).tree) := by
  refine ⟨?_, fun flat others same => (tree_eq_of_filter flat same).symm⟩
  rintro before t after rfl named latest
  exact at?_tree_of_latest named latest

/-- A color that stands in the JSON view of another token, where that has its value. -/
def insideValue : Token :=
  .ofValue ["color", "value", "red"] "red" (.string "#f00")

/-- Two sizes of one path. -/
def olderGap : Token :=
  .ofValue ["size", "gap"] "gap" (.string "4px")

@[inherit_doc olderGap]
def newerGap : Token :=
  .ofValue ["size", "gap"] "gap" (.string "8px")

theorem tree_holds_latest_gap :
    let whole := Token.ofValue ["color"] "color" (.string "none")
    (∀ u ∈ [olderGap, .ofValue [] "nowhere" .null], u.path ≠ [] →
      ¬ u.path <+: insideValue.path ∧ ¬ insideValue.path <+: u.path) ∧
    Json.at? insideValue.path
      (ofTokens ([whole] ++ insideValue :: [olderGap, .ofValue [] "nowhere" .null])).tree =
        some insideValue.toJson ∧
    Flat [olderGap, insideValue, newerGap] ∧
    (ofTokens [insideValue, olderGap, newerGap]).tree =
      (ofTokens [olderGap, insideValue, newerGap]).tree := by
  intro whole
  have latest : ∀ u ∈ [olderGap, .ofValue [] "nowhere" .null], u.path ≠ [] →
      ¬ u.path <+: insideValue.path ∧ ¬ insideValue.path <+: u.path := by decide
  have flat : Flat [olderGap, insideValue, newerGap] := by
    unfold Flat
    decide
  have same : ∀ path, path ≠ [] → [olderGap, insideValue, newerGap].filter (·.path = path) =
      [insideValue, olderGap, newerGap].filter (·.path = path) := by
    intro path _
    by_cases h : insideValue.path = path
    · have apart : olderGap.path ≠ path ∧ newerGap.path ≠ path := by
        subst h
        decide
      simp [h, apart]
    · simp [List.filter_cons, h]
  obtain ⟨stands, -⟩ := tree_holds_latest
    ([whole] ++ insideValue :: [olderGap, .ofValue [] "nowhere" .null])
  obtain ⟨-, reorders⟩ := tree_holds_latest [olderGap, insideValue, newerGap]
  exact ⟨latest, stands [whole] insideValue _ rfl (by decide) latest, flat, reorders flat _ same⟩

end Dictionary
end DesignTokens

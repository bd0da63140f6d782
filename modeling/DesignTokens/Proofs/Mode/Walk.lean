import DesignTokens.Mode.Tree
import DesignTokens.Proofs.Mode.Grouping

/-!
# Where the leaves of a tree are

`Node.walk` lists the leaves of a tree, each with the segments of the nodes above it, in the order
in which a document writes them. Putting a leaf into a tree adds it to the walk and moves nothing
else (`walk_push`), so that the tree of groups has each group once, below the segments of its path
but the last (`walk_ofGroups`). Its nodes are `Proper`: the children of each are in order, and each
has a leaf in it or below.
-/

namespace DesignTokens

theorem Leaf.dropLast_append_key (leaf : Leaf) (named : leaf.path ≠ []) :
    leaf.path.dropLast ++ [leaf.key] = leaf.path := by
  rw [Leaf.key, List.getLastD_eq_getLast?, List.getLast?_eq_some_getLast named, Option.getD_some,
    List.dropLast_append_getLast]

namespace Node

mutual

/-- The leaves of a node behind those of the nodes below it, with the segments that lead to them. -/
def walk : Node → List (List String × Leaf)
  | mk leaves children => walks children ++ leaves.map fun leaf => ([], leaf)

def walks : List (String × Node) → List (List String × Leaf)
  | [] => []
  | (segment, child) :: rest =>
    child.walk.map (Prod.map (segment :: ·) id) ++ walks rest

end

theorem mem_walks {segments : List String} {leaf : Leaf} {children : List (String × Node)} :
    (segments, leaf) ∈ walks children ↔
      ∃ segment child rest, (segment, child) ∈ children ∧ segments = segment :: rest ∧
        (rest, leaf) ∈ child.walk := by
  induction children with
  | nil => simp [walks]
  | cons entry children ih =>
    obtain ⟨k, child⟩ := entry
    rw [walks, List.mem_append, ih]
    constructor
    · rintro (hmem | ⟨segment, other, rest, hmem, rfl, hwalk⟩)
      · obtain ⟨⟨rest, leaf'⟩, hwalk, heq⟩ := List.mem_map.1 hmem
        obtain ⟨rfl, rfl⟩ := Prod.mk.inj heq
        exact ⟨k, child, rest, List.mem_cons_self, rfl, hwalk⟩
      · exact ⟨segment, other, rest, List.mem_cons_of_mem _ hmem, rfl, hwalk⟩
    · rintro ⟨segment, other, rest, hmem, rfl, hwalk⟩
      rcases List.mem_cons.1 hmem with heq | hmem
      · obtain ⟨rfl, rfl⟩ := Prod.mk.inj heq
        exact .inl (List.mem_map.2 ⟨(rest, leaf), hwalk, rfl⟩)
      · exact .inr ⟨segment, other, rest, hmem, rfl, hwalk⟩

theorem nil_mem_walk {leaf : Leaf} {leaves : List Leaf} {children : List (String × Node)} :
    ([], leaf) ∈ (mk leaves children).walk ↔ leaf ∈ leaves := by
  rw [walk, List.mem_append, mem_walks]
  simp

theorem cons_mem_walk {segment : String} {rest : List String} {leaf : Leaf} {leaves : List Leaf}
    {children : List (String × Node)} :
    (segment :: rest, leaf) ∈ (mk leaves children).walk ↔
      ∃ child, (segment, child) ∈ children ∧ (rest, leaf) ∈ child.walk := by
  rw [walk, List.mem_append, mem_walks]
  constructor
  · rintro (⟨k, child, tail, hmem, heq, hwalk⟩ | hmem)
    · obtain ⟨rfl, rfl⟩ := List.cons.inj heq
      exact ⟨child, hmem, hwalk⟩
    · simp at hmem
  · rintro ⟨child, hmem, hwalk⟩
    exact .inl ⟨segment, child, rest, hmem, rfl, hwalk⟩

/-- A change of one child that adds an entry to its walk adds it to the walk of all children. -/
theorem walks_upsert {segment : String} {change : Option Node → Node} {segments : List String}
    {leaf : Leaf}
    (adds : ∀ old : Option Node,
      List.Perm (change old).walk ((segments, leaf) :: (old.getD empty).walk))
    (children : List (String × Node)) :
    List.Perm (walks (SortedAssoc.upsert segment change children))
      ((segment :: segments, leaf) :: walks children) := by
  induction children with
  | nil =>
    have added := (adds none).map (Prod.map (segment :: ·) id)
    rw [SortedAssoc.upsert, walks]
    exact added.append_right _
  | cons entry rest ih =>
    obtain ⟨k, child⟩ := entry
    unfold SortedAssoc.upsert
    split
    · have added := (adds none).map (Prod.map (segment :: ·) id)
      rw [walks]
      exact added.append_right _
    · split
      · next same =>
        have added := (adds (some child)).map (Prod.map (segment :: ·) id)
        rw [← same, walks, walks]
        exact added.append_right _
      · rw [walks, walks]
        exact (ih.append_left _).trans List.perm_middle

/-- **Putting a leaf into a tree** adds it below the given segments and moves nothing else. -/
theorem walk_push (leaf : Leaf) (segments : List String) (node : Node) :
    List.Perm (push leaf segments node).walk ((segments, leaf) :: node.walk) := by
  induction segments generalizing node with
  | nil =>
    obtain ⟨leaves, children⟩ := node
    rw [push, walk, walk, List.map_append, ← List.append_assoc]
    exact List.perm_append_singleton _ _
  | cons segment segments ih =>
    obtain ⟨leaves, children⟩ := node
    rw [push, walk, walk]
    exact (walks_upsert (fun old => ih (old.getD empty)) children).append_right _

/-- The tree of groups has each group with a path once, below the segments of the path but the
last. -/
theorem walk_ofGroups (groups : Groups) :
    List.Perm (ofGroups groups).walk
      ((groups.filter fun group => !group.1.isEmpty).map fun (path, pair) =>
        (path.dropLast, ⟨path, pair⟩)) := by
  induction groups using List.reverseRecOn with
  | nil => simp [ofGroups, walk, walks, empty]
  | append_singleton groups group ih =>
    obtain ⟨path, pair⟩ := group
    rw [ofGroups, List.foldl_concat, ← ofGroups, List.filter_append, List.map_append]
    by_cases blank : path.isEmpty
    · simpa [blank] using ih
    · simp only [blank, List.filter_cons, List.filter_nil]
      exact (walk_push _ _ _).trans ((ih.cons _).trans (List.perm_append_singleton _ _).symm)

theorem mem_walk_ofGroups {groups : Groups} {segments : List String} {leaf : Leaf} :
    (segments, leaf) ∈ (ofGroups groups).walk ↔
      segments = leaf.path.dropLast ∧ leaf.path ≠ [] ∧ (leaf.path, leaf.pair) ∈ groups := by
  rw [(walk_ofGroups groups).mem_iff, List.mem_map]
  constructor
  · rintro ⟨⟨path, pair⟩, hmem, heq⟩
    obtain ⟨rfl, rfl⟩ := Prod.mk.inj heq
    rw [List.mem_filter] at hmem
    refine ⟨rfl, ?_, hmem.1⟩
    simpa using hmem.2
  · rintro ⟨rfl, named, hmem⟩
    refine ⟨(leaf.path, leaf.pair), List.mem_filter.2 ⟨hmem, ?_⟩, rfl⟩
    simpa using named

/-- The leaves of the tree of grouped tokens: one for each canonical path that is not empty, found
below the segments of its path. -/
theorem exists_leaves (convention : Convention) (tokens : List Token) :
    ∃ leaves : List Leaf,
      (ofGroups (Groups.ofTokens convention tokens)).walk =
        leaves.map (fun leaf => (leaf.path.dropLast, leaf)) ∧
      (leaves.map Leaf.path).Nodup ∧
      ∀ leaf, leaf ∈ leaves ↔
        leaf.path ≠ [] ∧ (Groups.ofTokens convention tokens).get? leaf.path = some leaf.pair := by
  have sorted := @Groups.increasing_ofTokens convention tokens
  refine ⟨(ofGroups (Groups.ofTokens convention tokens)).walk.map Prod.snd, ?_, ?_, fun leaf => ?_⟩
  · rw [List.map_map]
    refine (List.map_id _).symm.trans (List.map_congr_left fun ⟨segments, leaf⟩ hmem => ?_)
    rw [mem_walk_ofGroups] at hmem
    simp [hmem.1]
  · have perm := ((walk_ofGroups (Groups.ofTokens convention tokens)).map Prod.snd).map Leaf.path
    rw [perm.nodup_iff, List.map_map, List.map_map]
    exact sorted.nodup.sublist (List.filter_sublist.map Prod.fst)
  · rw [List.mem_map]
    constructor
    · rintro ⟨⟨segments, leaf⟩, hmem, rfl⟩
      obtain ⟨-, named, hgroup⟩ := mem_walk_ofGroups.1 hmem
      exact ⟨named, sorted.mem_iff.1 hgroup⟩
    · rintro ⟨named, found⟩
      exact ⟨(leaf.path.dropLast, leaf),
        mem_walk_ofGroups.2 ⟨rfl, named, sorted.mem_iff.2 found⟩, rfl⟩

/-! ### Proper nodes -/

/-- The children of every node are in order, and none is without leaves. -/
inductive Proper : Node → Prop
  | mk {leaves : List Leaf} {children : List (String × Node)} :
    SortedAssoc.Increasing children →
    (∀ segment child, (segment, child) ∈ children → child.walk ≠ []) →
    (∀ segment child, (segment, child) ∈ children → child.Proper) →
    Proper (.mk leaves children)

theorem proper_empty : Proper empty :=
  .mk .nil (by simp) (by simp)

theorem Proper.push {node : Node} (h : node.Proper) (leaf : Leaf) (segments : List String) :
    (node.push leaf segments).Proper := by
  induction segments generalizing node with
  | nil =>
    obtain ⟨sorted, inhabited, proper⟩ := h
    exact .mk sorted inhabited proper
  | cons segment segments ih =>
    obtain ⟨leaves, children⟩ := node
    obtain ⟨sorted, inhabited, proper⟩ := h
    -- A child is either the one that the leaf went to, or it was there before.
    have changed : ∀ k child, (k, child) ∈ SortedAssoc.upsert segment
        (fun old => Node.push leaf segments (old.getD empty)) children →
        (∃ old, old.Proper ∧ child = Node.push leaf segments old) ∨ (k, child) ∈ children := by
      intro k child hmem
      rw [(sorted.upsert _ _).mem_iff, sorted.find?_upsert] at hmem
      split at hmem
      · refine .inl ⟨_, ?_, (Option.some.inj hmem).symm⟩
        cases found : SortedAssoc.find? segment children with
        | none => exact proper_empty
        | some old => exact proper segment old (sorted.mem_iff.2 found)
      · exact .inr (sorted.mem_iff.2 hmem)
    refine .mk (sorted.upsert _ _) (fun k child hmem => ?_) fun k child hmem => ?_
    · rcases changed k child hmem with ⟨old, -, rfl⟩ | hmem
      · intro nothing
        have added := (walk_push leaf segments old).length_eq
        rw [nothing] at added
        simp at added
      · exact inhabited k child hmem
    · rcases changed k child hmem with ⟨old, hold, rfl⟩ | hmem
      · exact ih hold
      · exact proper k child hmem

theorem proper_ofGroups (groups : Groups) : (ofGroups groups).Proper := by
  induction groups using List.reverseRecOn with
  | nil => exact proper_empty
  | append_singleton groups group ih =>
    obtain ⟨path, pair⟩ := group
    rw [ofGroups, List.foldl_concat, ← ofGroups]
    by_cases blank : path.isEmpty
    · simpa [blank] using ih
    · simpa [blank] using ih.push ⟨path, pair⟩ path.dropLast

end Node
end DesignTokens

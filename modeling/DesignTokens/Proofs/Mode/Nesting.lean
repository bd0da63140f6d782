import DesignTokens.Proofs.Mode.Walk

/-!
# The nodes of a tree of groups

`Node.at?` follows segments from a node to a node below it. A leaf that is put into a tree comes
last in the node that its segments lead to, and the leaves of all other nodes stay as they are
(`Node.leavesAt_push`). So the leaves of a node in the tree of groups are the groups whose paths
lead there, in their order (`Node.leaves_eq`), which is the order of their last segments
(`Node.increasing_keys`).
-/

namespace DesignTokens

namespace Node

def at? : List String → Node → Option Node
  | [], node => some node
  | segment :: rest, node => (SortedAssoc.find? segment node.children).bind (at? rest)

theorem at?_append (front rest : List String) (node : Node) :
    node.at? (front ++ rest) = (node.at? front).bind (at? rest) := by
  induction front generalizing node with
  | nil => rfl
  | cons segment front ih =>
    rw [List.cons_append, at?, at?, Option.bind_assoc]
    exact Option.bind_congr fun child _ => ih child

theorem Proper.of_at? {root node : Node} (h : root.Proper) {segments : List String}
    (found : root.at? segments = some node) : node.Proper := by
  induction segments generalizing root with
  | nil => exact Option.some.inj found ▸ h
  | cons segment segments ih =>
    obtain ⟨sorted, -, proper⟩ := h
    obtain ⟨child, hchild, hbelow⟩ := Option.bind_eq_some_iff.1 found
    exact ih (proper segment child (sorted.mem_iff.2 hchild)) hbelow

/-! ### Counting leaves -/

mutual

theorem length_walk : ∀ node : Node, node.walk.length = node.size
  | mk leaves children => by
    rw [walk, List.length_append, List.length_map, length_walks children, size, Nat.add_comm]

theorem length_walks : ∀ children : List (String × Node), (walks children).length = sizes children
  | [] => rfl
  | (_, child) :: rest => by
    rw [walks, List.length_append, List.length_map, length_walk child, length_walks rest, sizes]

end

theorem size_pos {node : Node} (inhabited : node.walk ≠ []) : 0 < node.size := by
  rw [← length_walk]
  exact List.length_pos_of_ne_nil inhabited

theorem isEmpty_eq_false {node : Node} (inhabited : node.walk ≠ []) : node.isEmpty = false := by
  obtain ⟨leaves, children⟩ := node
  by_contra bare
  obtain ⟨rfl, rfl⟩ : leaves = [] ∧ children = [] := by
    simpa [isEmpty, Node.leaves, Node.children] using bare
  exact inhabited rfl

/-- The tree of groups has as many leaves as there are groups with a path. -/
theorem size_ofGroups (groups : Groups) :
    (ofGroups groups).size = (groups.filter fun group => group.1 ≠ []).length := by
  rw [← length_walk, (walk_ofGroups groups).length_eq, List.length_map]
  congr 1
  exact List.filter_congr fun group _ => by cases group.1 <;> rfl

/-! ### The leaves of a node -/

/-- The leaves of the node that segments lead to; without such a node there are none. -/
def leavesAt (segments : List String) (root : Node) : List Leaf :=
  ((root.at? segments).map leaves).getD []

theorem leavesAt_empty (segments : List String) : empty.leavesAt segments = [] := by
  cases segments <;> rfl

theorem leavesAt_cons (segment : String) (rest : List String) (node : Node) :
    node.leavesAt (segment :: rest) =
      ((SortedAssoc.find? segment node.children).getD empty).leavesAt rest := by
  rw [leavesAt, at?]
  cases SortedAssoc.find? segment node.children with
  | none => exact (leavesAt_empty rest).symm
  | some child => rfl

/-- **A leaf put into a tree** comes last in the node that its segments lead to, and the leaves of
the other nodes stay. -/
theorem leavesAt_push {node : Node} (h : node.Proper) (leaf : Leaf) (way segments : List String) :
    (node.push leaf way).leavesAt segments =
      node.leavesAt segments ++ if segments = way then [leaf] else [] := by
  induction way generalizing node segments with
  | nil =>
    obtain ⟨leaves, children⟩ := node
    cases segments with
    | nil => rfl
    | cons segment rest =>
      rw [push, leavesAt_cons, leavesAt_cons, if_neg (List.cons_ne_nil _ _), List.append_nil]
      rfl
  | cons step way ih =>
    obtain ⟨sorted, -, proper⟩ := h
    rename_i leaves children
    cases segments with
    | nil => simp [push, leavesAt, at?, Node.leaves]
    | cons segment rest =>
      rw [push, leavesAt_cons, leavesAt_cons, Node.children, Node.children, sorted.find?_upsert]
      by_cases same : segment = step
      · subst same
        -- The leaf goes into the child that is there, or into a new one.
        have below : ((SortedAssoc.find? segment children).getD empty).Proper := by
          cases found : SortedAssoc.find? segment children with
          | none => exact proper_empty
          | some child => exact proper segment child (sorted.mem_iff.2 found)
        rw [if_pos rfl, Option.getD_some, ih below]
        simp
      · simp [same]

theorem leavesAt_ofGroups (groups : Groups) (segments : List String) :
    (ofGroups groups).leavesAt segments =
      (groups.filter fun group => group.1 ≠ [] ∧ group.1.dropLast = segments).map
        fun (path, pair) => ⟨path, pair⟩ := by
  induction groups using List.reverseRecOn with
  | nil => exact leavesAt_empty segments
  | append_singleton groups group ih =>
    obtain ⟨path, pair⟩ := group
    rw [ofGroups, List.foldl_concat, ← ofGroups, List.filter_append, List.map_append, ← ih]
    by_cases blank : path = []
    · simp [blank]
    · simp only [List.isEmpty_iff, blank, if_false, leavesAt_push (proper_ofGroups groups)]
      by_cases same : segments = path.dropLast
      · simp [blank, same]
      · simp [blank, same, Ne.symm same]

/-- The leaves of a node in the tree of groups are the groups whose paths lead there. -/
theorem leaves_eq {groups : Groups} {segments : List String} {node : Node}
    (found : (ofGroups groups).at? segments = some node) :
    node.leaves = (groups.filter fun group => group.1 ≠ [] ∧ group.1.dropLast = segments).map
      fun (path, pair) => ⟨path, pair⟩ := by
  rw [← leavesAt_ofGroups, leavesAt, found]
  rfl

theorem mem_leaves {groups : Groups} {segments : List String} {node : Node}
    (found : (ofGroups groups).at? segments = some node) {leaf : Leaf} :
    leaf ∈ node.leaves ↔
      leaf.path ≠ [] ∧ leaf.path.dropLast = segments ∧ (leaf.path, leaf.pair) ∈ groups := by
  rw [leaves_eq found, List.mem_map]
  constructor
  · rintro ⟨⟨path, pair⟩, hmem, rfl⟩
    obtain ⟨hmem, here⟩ := List.mem_filter.1 hmem
    obtain ⟨named, place⟩ := of_decide_eq_true here
    exact ⟨named, place, hmem⟩
  · rintro ⟨named, place, hmem⟩
    exact ⟨(leaf.path, leaf.pair), List.mem_filter.2 ⟨hmem, decide_eq_true ⟨named, place⟩⟩, rfl⟩

theorem exists_at? {groups : Groups} {path : List String} {pair : Pair} (named : path ≠ [])
    (hmem : (path, pair) ∈ groups) : ∃ node, (ofGroups groups).at? path.dropLast = some node := by
  have own : (⟨path, pair⟩ : Leaf) ∈ (ofGroups groups).leavesAt path.dropLast := by
    rw [leavesAt_ofGroups]
    exact List.mem_map.2 ⟨(path, pair), List.mem_filter.2 ⟨hmem, by simpa using named⟩, rfl⟩
  rw [leavesAt] at own
  cases found : (ofGroups groups).at? path.dropLast with
  | none => simp [found] at own
  | some node => exact ⟨node, rfl⟩

/-! ### Their order -/

/-- Of two paths that differ in the last segment only, the one with the smaller segment is the
smaller one. -/
theorem lt_of_append_lt_append {front : List String} {a b : String}
    (h : front ++ [a] < front ++ [b]) : a < b := by
  induction front with
  | nil => simpa [List.cons_lt_cons_iff] using h
  | cons segment front ih =>
    rw [List.cons_append, List.cons_append, List.cons_lt_cons_iff] at h
    rcases h with h | ⟨-, h⟩
    · exact absurd h (lt_irrefl segment)
    · exact ih h

/-- The paths of the leaves of a node in the tree of groups increase strictly. -/
theorem increasing_paths {groups : Groups} (sorted : SortedAssoc.Increasing groups)
    {segments : List String} {node : Node}
    (found : (ofGroups groups).at? segments = some node) :
    (node.leaves.map Leaf.path).Pairwise (· < ·) := by
  rw [leaves_eq found, List.map_map]
  exact sorted.sublist (List.filter_sublist.map Prod.fst)

/-- So do their keys, since the paths have all other segments in common. -/
theorem increasing_keys {groups : Groups} (sorted : SortedAssoc.Increasing groups)
    {segments : List String} {node : Node}
    (found : (ofGroups groups).at? segments = some node) :
    (node.leaves.map Leaf.key).Pairwise (· < ·) := by
  have paths := increasing_paths sorted found
  rw [List.pairwise_map] at paths ⊢
  refine paths.imp_of_mem fun {leaf other} hleaf hother lt => ?_
  obtain ⟨named, place, -⟩ := (mem_leaves found).1 hleaf
  obtain ⟨named', place', -⟩ := (mem_leaves found).1 hother
  have whole : segments ++ [leaf.key] < segments ++ [other.key] := by
    calc segments ++ [leaf.key]
      _ = leaf.path := by rw [← place, leaf.dropLast_append_key named]
      _ < other.path := lt
      _ = segments ++ [other.key] := by rw [← place', other.dropLast_append_key named']
  exact lt_of_append_lt_append whole

/-! ### Main statement -/

/-- **The tree of groups.** The segments of a path but the last lead to a node in which the path has
one leaf, with the pair of its group; a node has no other leaves. Everywhere the keys of the leaves
and the segments of the nodes below increase strictly, and every node below has a leaf in it or
further below. There are as many leaves as groups whose paths are not empty. -/
theorem ofGroups_nests (convention : Convention) (tokens : List Token) :
    let groups := Groups.ofTokens convention tokens
    let root := ofGroups groups
    (∀ path pair, path ≠ [] → groups.get? path = some pair →
      ∃ node, root.at? path.dropLast = some node ∧ ⟨path, pair⟩ ∈ node.leaves ∧
        (node.leaves.map Leaf.path).count path = 1) ∧
    (∀ segments node, root.at? segments = some node →
      (∀ leaf ∈ node.leaves, leaf.path ≠ [] ∧ leaf.path.dropLast = segments ∧
        groups.get? leaf.path = some leaf.pair) ∧
      (node.leaves.map Leaf.key).Pairwise (· < ·) ∧
      (node.children.map Prod.fst).Pairwise (· < ·) ∧
      ∀ segment child, (segment, child) ∈ node.children →
        root.at? (segments ++ [segment]) = some child ∧ child.isEmpty = false ∧ 0 < child.size) ∧
    root.size = (groups.filter fun group => group.1 ≠ []).length := by
  intro groups root
  have sorted : SortedAssoc.Increasing groups := Groups.increasing_ofTokens tokens
  refine ⟨fun path pair named hpair => ?_, fun segments node found => ⟨fun leaf hleaf => ?_,
    increasing_keys sorted found, ?_⟩, size_ofGroups groups⟩
  · have hmem : (path, pair) ∈ groups := sorted.mem_iff.2 hpair
    obtain ⟨node, found⟩ := exists_at? named hmem
    have own : ⟨path, pair⟩ ∈ node.leaves := (mem_leaves found).2 ⟨named, rfl, hmem⟩
    have once : (node.leaves.map Leaf.path).Nodup := (increasing_paths sorted found).imp ne_of_lt
    exact ⟨node, found, own, List.count_eq_one_of_mem once (List.mem_map_of_mem own)⟩
  · obtain ⟨named, place, hmem⟩ := (mem_leaves found).1 hleaf
    exact ⟨named, place, sorted.mem_iff.1 hmem⟩
  · obtain ⟨ordered, inhabited, -⟩ := (proper_ofGroups groups).of_at? found
    refine ⟨ordered, fun segment child hchild => ⟨?_, ?_, ?_⟩⟩
    · rw [at?_append, found, Option.bind_some, at?, Node.children,
        ordered.mem_iff.1 hchild]
      rfl
    · exact isEmpty_eq_false (inhabited segment child hchild)
    · exact size_pos (inhabited segment child hchild)

end Node
end DesignTokens

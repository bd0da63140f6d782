import DesignTokens.Output.MergedTree
import DesignTokens.Proofs.Json.Reading
import DesignTokens.Proofs.Mode.Walk

/-!
# What the merged tree holds

`Json.at?` follows a path of keys into a JSON value, segment by segment. In the merged tree of a
list of tokens it finds the JSON view of a pair at its canonical path
(`MergedTree.at?_ofTokens`) and a group above it (`MergedTree.exists_group_at`), unless a
shorter canonical path ends on the way: a token takes the place of a group of the same path.
-/

namespace DesignTokens

/-- The value at the end of a path of keys. -/
def Json.at? : List String → Json → Option Json
  | [], v => some v
  | key :: rest, v => (v.get? key).bind (at? rest)

theorem Json.at?_append (path rest : List String) (v : Json) :
    Json.at? (path ++ rest) v = (Json.at? path v).bind (Json.at? rest) := by
  induction path generalizing v with
  | nil => rfl
  | cons key path ih =>
    rw [List.cons_append, at?, at?, Option.bind_assoc]
    exact Option.bind_congr fun inner _ => ih inner

namespace MergedTree

/-! ### What is found in a node -/

theorem find?_ofChildren (key : String) {children : List (String × Node)}
    (sorted : SortedAssoc.Increasing children) (members : JsonObject) :
    SortedAssoc.find? key (ofChildren children members) =
      ((SortedAssoc.find? key children).map fun child => .object (ofNode child)).or
        (SortedAssoc.find? key members) := by
  induction children generalizing members with
  | nil => rfl
  | cons entry rest ih =>
    obtain ⟨segment, child⟩ := entry
    obtain ⟨above, hrest⟩ := SortedAssoc.Increasing.cons_iff.1 sorted
    rw [ofChildren, ih hrest, SortedAssoc.find?_insert, SortedAssoc.find?]
    split
    · next same =>
      subst same
      rw [SortedAssoc.Increasing.find?_eq_none_of_forall_lt above]
      rfl
    · rfl

theorem find?_addLeaves (key : String) (leaves : List Leaf) (members : JsonObject) :
    SortedAssoc.find? key (leaves.foldl addLeaf members) =
      ((leaves.filter (·.key = key)).getLast?.map fun leaf => ofPair leaf.pair).or
        (SortedAssoc.find? key members) := by
  induction leaves using List.reverseRecOn with
  | nil => rfl
  | append_singleton leaves leaf ih =>
    rw [List.foldl_concat, addLeaf, SortedAssoc.find?_insert, ih, List.filter_append]
    by_cases same : key = leaf.key
    · simp [same]
    · simp [same, Ne.symm same]

theorem find?_ofNode (key : String) {leaves : List Leaf} {children : List (String × Node)}
    (sorted : SortedAssoc.Increasing children) :
    SortedAssoc.find? key (ofNode (.mk leaves children)) =
      ((leaves.filter (·.key = key)).getLast?.map fun leaf => ofPair leaf.pair).or
        ((SortedAssoc.find? key children).map fun child => .object (ofNode child)) := by
  rw [ofNode, find?_addLeaves, find?_ofChildren key sorted, SortedAssoc.find?, Option.or_none]

theorem isSome_find?_ofNode {node : Node} (h : node.Proper) (key : String) :
    (SortedAssoc.find? key (ofNode node)).isSome ↔
      ∃ segments leaf, (segments, leaf) ∈ node.walk ∧ [key] <+: segments ++ [leaf.key] := by
  obtain ⟨leaves, children⟩ := node
  obtain ⟨sorted, inhabited, -⟩ := h
  rw [find?_ofNode key sorted, Option.isSome_or, Bool.or_eq_true]
  constructor
  · rintro (hleaf | hchild)
    · obtain ⟨leaf, hlast⟩ := Option.isSome_iff_exists.1 (Option.isSome_map.symm.trans hleaf)
      obtain ⟨hmem, same⟩ := List.mem_filter.1 (List.mem_of_getLast? hlast)
      refine ⟨[], leaf, Node.nil_mem_walk.2 hmem, ?_⟩
      rw [of_decide_eq_true same]
      exact List.prefix_rfl
    · obtain ⟨child, found⟩ := Option.isSome_iff_exists.1 (Option.isSome_map.symm.trans hchild)
      have hmem := sorted.mem_iff.2 found
      obtain ⟨⟨segments, leaf⟩, hwalk⟩ := List.exists_mem_of_ne_nil _ (inhabited key child hmem)
      exact ⟨key :: segments, leaf, Node.cons_mem_walk.2 ⟨child, hmem, hwalk⟩,
        List.prefix_append [key] (segments ++ [leaf.key])⟩
  · rintro ⟨_ | ⟨segment, segments⟩, leaf, hwalk, front⟩
    · left
      obtain rfl : key = leaf.key := by simpa using front
      have hmem : leaf ∈ leaves.filter (·.key = leaf.key) :=
        List.mem_filter.2 ⟨Node.nil_mem_walk.1 hwalk, by simp⟩
      rw [Option.isSome_map, List.getLast?_isSome]
      exact List.ne_nil_of_mem hmem
    · right
      obtain rfl : key = segment := by simpa using front
      obtain ⟨child, hmem, -⟩ := Node.cons_mem_walk.1 hwalk
      rw [sorted.mem_iff.1 hmem]
      rfl

/-! ### Walking down -/

/-- Where no leaf is on the way, a path into the tree leads to the group of a node. -/
theorem exists_node_at (path : List String) {node : Node} (h : node.Proper)
    (inhabited : ∃ segments leaf, (path ++ segments, leaf) ∈ node.walk)
    (clear : ∀ segments leaf, (segments, leaf) ∈ node.walk → ¬ segments ++ [leaf.key] <+: path) :
    ∃ below : Node, below.Proper ∧
      Json.at? path (.object (ofNode node)) = some (.object (ofNode below)) ∧
      ∀ segments leaf, (segments, leaf) ∈ below.walk ↔ (path ++ segments, leaf) ∈ node.walk := by
  induction path generalizing node with
  | nil => exact ⟨node, h, rfl, fun _ _ => Iff.rfl⟩
  | cons key path ih =>
    obtain ⟨leaves, children⟩ := node
    obtain ⟨sorted, -, proper⟩ := h
    obtain ⟨segments, leaf, hwalk⟩ := inhabited
    obtain ⟨child, hmem, hbelow⟩ := Node.cons_mem_walk.1 hwalk
    -- A leaf with this key would take the place of the child, and its path ends on the way.
    have noLeaf : leaves.filter (·.key = key) = [] := by
      rw [List.filter_eq_nil_iff]
      intro other hother same
      refine clear [] other (Node.nil_mem_walk.2 hother) ?_
      obtain rfl := of_decide_eq_true same
      exact List.prefix_append [other.key] path
    have only : ∀ segments leaf, (key :: segments, leaf) ∈ (Node.mk leaves children).walk ↔
        (segments, leaf) ∈ child.walk := by
      intro segments leaf
      rw [Node.cons_mem_walk]
      constructor
      · rintro ⟨other, hother, hwalk⟩
        have same := (sorted.mem_iff.1 hother).symm.trans (sorted.mem_iff.1 hmem)
        rwa [Option.some.inj same] at hwalk
      · exact fun hwalk => ⟨child, hmem, hwalk⟩
    obtain ⟨below, hproper, found, walk⟩ := ih (proper key child hmem) ⟨segments, leaf, hbelow⟩
      fun segments leaf hwalk front =>
        clear (key :: segments) leaf ((only segments leaf).2 hwalk)
          (List.cons_prefix_cons.2 ⟨rfl, front⟩)
    refine ⟨below, hproper, ?_, fun segments leaf => ?_⟩
    · rw [Json.at?, Json.get?, Json.membersOrNone, find?_ofNode key sorted, noLeaf,
        sorted.mem_iff.1 hmem]
      exact found
    · rw [walk, List.cons_append, only]

/-! ### Canonical paths -/

variable {convention : Convention} {tokens : List Token}

/-- A token of the list has the canonical path. -/
def IsCanonical (convention : Convention) (tokens : List Token) (path : List String) : Prop :=
  ∃ t ∈ tokens, t.canonicalPath convention = path

/-- No canonical path ends on the way to the end of the path. -/
def Unshadowed (convention : Convention) (tokens : List Token) (path : List String) : Prop :=
  ∀ front, front ≠ [] → front <+: path → front ≠ path → ¬ IsCanonical convention tokens front

theorem isCanonical_iff {path : List String} :
    IsCanonical convention tokens path ↔
      ∃ pair, (Groups.ofTokens convention tokens).get? path = some pair := by
  rw [IsCanonical, ← Groups.isSome_get?_ofTokens, Option.isSome_iff_exists]

theorem mem_walk_iff {segments : List String} {leaf : Leaf} :
    (segments, leaf) ∈ (Node.ofGroups (Groups.ofTokens convention tokens)).walk ↔
      segments ++ [leaf.key] = leaf.path ∧ leaf.path ≠ [] ∧
        (Groups.ofTokens convention tokens).get? leaf.path = some leaf.pair := by
  rw [Node.mem_walk_ofGroups, (Groups.increasing_ofTokens tokens).mem_iff]
  constructor
  · rintro ⟨rfl, named, found⟩
    exact ⟨leaf.dropLast_append_key named, named, found⟩
  · rintro ⟨place, named, found⟩
    refine ⟨?_, named, found⟩
    rw [← place, List.dropLast_concat]

/-- On the way to an unshadowed canonical path every group is the one of a node. -/
theorem exists_node {path rest : List String}
    (canonical : IsCanonical convention tokens (path ++ rest)) (more : rest ≠ [])
    (clear : Unshadowed convention tokens (path ++ rest)) :
    ∃ node : Node, node.Proper ∧
      Json.at? path (.object (ofTokens convention tokens)) = some (.object (ofNode node)) ∧
      ∀ segments leaf, (segments, leaf) ∈ node.walk ↔
        path ++ segments ++ [leaf.key] = leaf.path ∧ leaf.path ≠ [] ∧
          (Groups.ofTokens convention tokens).get? leaf.path = some leaf.pair := by
  obtain ⟨pair, found⟩ := isCanonical_iff.1 canonical
  have named : path ++ rest ≠ [] := by simp [more]
  have inhabited : (path ++ rest.dropLast, ⟨path ++ rest, pair⟩) ∈
      (Node.ofGroups (Groups.ofTokens convention tokens)).walk := by
    rw [Node.mem_walk_ofGroups, (Groups.increasing_ofTokens tokens).mem_iff]
    exact ⟨(List.dropLast_append_of_ne_nil more).symm, named, found⟩
  obtain ⟨node, proper, hat, walk⟩ := exists_node_at path
    (Node.proper_ofGroups (Groups.ofTokens convention tokens))
    ⟨rest.dropLast, ⟨path ++ rest, pair⟩, inhabited⟩ fun segments leaf hwalk front => by
      obtain ⟨place, hnamed, hfound⟩ := mem_walk_iff.1 hwalk
      rw [place] at front
      refine clear leaf.path hnamed (front.trans (List.prefix_append path rest)) ?_
        (isCanonical_iff.2 ⟨_, hfound⟩)
      intro same
      have length := front.length_le
      rw [same, List.length_append] at length
      exact more (List.eq_nil_of_length_eq_zero (by omega))
  exact ⟨node, proper, hat, fun segments leaf => by rw [walk, mem_walk_iff]⟩

/-- **Tokens.** At an unshadowed canonical path is the JSON view of its pair. -/
theorem at?_ofTokens {path : List String} {pair : Pair} (named : path ≠ [])
    (found : (Groups.ofTokens convention tokens).get? path = some pair)
    (clear : Unshadowed convention tokens path) :
    Json.at? path (.object (ofTokens convention tokens)) = some (ofPair pair) := by
  obtain ⟨front, key, rfl⟩ : ∃ front key, path = front ++ [key] :=
    ⟨path.dropLast, path.getLast named, (List.dropLast_append_getLast named).symm⟩
  obtain ⟨⟨leaves, children⟩, ⟨sorted, -, -⟩, hat, walk⟩ := exists_node
    (isCanonical_iff.2 ⟨pair, found⟩) (List.cons_ne_nil key []) clear
  -- The last leaf with this key is shown, but all of them hold the pair of the path.
  have here : ∀ leaf ∈ leaves.filter (·.key = key), leaf.pair = pair := by
    intro leaf hmem
    obtain ⟨hleaf, same⟩ := List.mem_filter.1 hmem
    obtain ⟨place, -, hpair⟩ := (walk [] leaf).1 (Node.nil_mem_walk.2 hleaf)
    rw [← place, of_decide_eq_true same, List.append_nil, found] at hpair
    exact (Option.some.inj hpair).symm
  have own : (⟨front ++ [key], pair⟩ : Leaf) ∈ leaves.filter (·.key = key) := by
    refine List.mem_filter.2 ⟨Node.nil_mem_walk.1 ((walk _ _).2 ⟨?_, named, found⟩), ?_⟩
    · simp [Leaf.key]
    · simp [Leaf.key]
  have last := List.getLast?_eq_some_getLast (List.ne_nil_of_mem own)
  rw [Json.at?_append, hat, Option.bind_some, Json.at?, Json.get?, Json.membersOrNone,
    find?_ofNode key sorted, last, Option.map_some, here _ (List.getLast_mem _)]
  rfl

/-- **Groups.** On the way to an unshadowed canonical path are groups, whose keys are the next
segments of canonical paths. -/
theorem exists_group_at {path rest : List String}
    (canonical : IsCanonical convention tokens (path ++ rest)) (more : rest ≠ [])
    (clear : Unshadowed convention tokens (path ++ rest)) :
    ∃ members, Json.at? path (.object (ofTokens convention tokens)) = some (.object members) ∧
      ∀ key, (SortedAssoc.find? key members).isSome ↔
        ∃ other, IsCanonical convention tokens other ∧ path ++ [key] <+: other := by
  obtain ⟨node, proper, hat, walk⟩ := exists_node canonical more clear
  refine ⟨ofNode node, hat, fun key => ?_⟩
  rw [isSome_find?_ofNode proper]
  constructor
  · rintro ⟨segments, leaf, hwalk, front⟩
    obtain ⟨place, -, found⟩ := (walk segments leaf).1 hwalk
    refine ⟨leaf.path, isCanonical_iff.2 ⟨_, found⟩, ?_⟩
    rw [← place, List.append_assoc]
    exact (List.prefix_append_right_inj path).2 front
  · rintro ⟨other, hother, tail, rfl⟩
    rw [List.append_assoc, List.singleton_append] at hother
    obtain ⟨pair, found⟩ := isCanonical_iff.1 hother
    have named : path ++ key :: tail ≠ [] := by simp
    have place := Leaf.dropLast_append_key ⟨_, pair⟩ named
    rw [List.dropLast_append_of_ne_nil (List.cons_ne_nil key tail)] at place
    refine ⟨(key :: tail).dropLast, ⟨_, pair⟩, (walk _ _).2 ⟨place, named, found⟩, ?_⟩
    rw [List.append_assoc] at place
    rw [List.append_cancel_left place]
    exact List.prefix_append [key] tail

end MergedTree

/-! ### Legible trees -/

/-- The value and the raw expression can be read back from their texts. -/
def Token.Legible (t : Token) : Prop :=
  t.value.Legible ∧ ∀ raw ∈ t.raw, raw.Legible

theorem Token.Legible.toJson {t : Token} (h : t.Legible) : t.toJson.Legible := by
  have texts : ∀ (key : String) (text? : Option String),
      ∀ member ∈ (text?.map fun text => (key, Json.string text)).toList, member.2.Legible := by
    rintro key (_ | text) member hmem
    · cases hmem
    · obtain rfl := List.mem_singleton.1 hmem
      trivial
  refine Json.legible_ofMembers ?_
  simp only [jsonMembers, List.forall_mem_append, List.forall_mem_cons, List.not_mem_nil,
    false_implies, implies_true, and_true]
  refine ⟨⟨⟨⟨⟨⟨h.1, texts _ _⟩, texts _ _⟩, ?_⟩, trivial, ?_⟩, ?_⟩, ?_⟩
  · split
    · exact List.forall_mem_cons.2 ⟨trivial, texts _ _⟩
    · simp
  · refine Json.legibleItems_iff.2 fun item hmem => ?_
    obtain ⟨segment, -, rfl⟩ := List.mem_map.1 hmem
    trivial
  · intro member hmem
    obtain ⟨raw, hraw, rfl⟩ := Option.map_eq_some_iff.1 (Option.mem_toList.1 hmem)
    exact Json.legible_singleton (h.2 raw hraw)
  · intro member hmem
    obtain ⟨category, -, rfl⟩ := Option.map_eq_some_iff.1 (Option.mem_toList.1 hmem)
    exact Json.legible_singleton trivial

namespace MergedTree

theorem valueOf_both (light dark : Token) :
    valueOf (.both light dark) = .object [("dark", dark.value), ("light", light.value)] := by
  have order : "dark" < "light" := by decide
  simp [valueOf, Json.ofMembers, SortedAssoc.ofList, SortedAssoc.insert, SortedAssoc.upsert, order]

theorem legible_valueOf {pair : Pair} (h : ∀ t ∈ pair.variants, t.Legible) :
    (valueOf pair).Legible := by
  cases pair with
  | light t => exact (h t (by simp)).1
  | dark t =>
    exact Json.legible_ofMembers (List.forall_mem_singleton.2 (h t (by simp)).1)
  | both light dark =>
    rw [Pair.variants_both, List.forall_mem_cons, List.forall_mem_singleton] at h
    exact Json.legible_ofMembers
      (List.forall_mem_cons.2 ⟨h.1.1, List.forall_mem_singleton.2 h.2.1⟩)

theorem legible_ofPair {pair : Pair} (h : ∀ t ∈ pair.variants, t.Legible) :
    (ofPair pair).Legible := by
  have view := (h _ pair.preferLight_mem_variants).toJson
  exact Json.legible_insert view (legible_valueOf h)

theorem legible_addLeaves {leaves : List Leaf} {members : JsonObject}
    (h : ∀ leaf ∈ leaves, ∀ t ∈ leaf.pair.variants, t.Legible)
    (hmembers : (Json.object members).Legible) :
    (Json.object (leaves.foldl addLeaf members)).Legible := by
  induction leaves generalizing members with
  | nil => exact hmembers
  | cons leaf leaves ih =>
    rw [List.forall_mem_cons] at h
    exact ih h.2 (Json.legible_insert hmembers (legible_ofPair h.1))

mutual

theorem legible_ofNode : ∀ {node : Node},
    (∀ segments leaf, (segments, leaf) ∈ node.walk → ∀ t ∈ leaf.pair.variants, t.Legible) →
      (Json.object (ofNode node)).Legible
  | .mk leaves children, h => by
    refine legible_addLeaves (fun leaf hmem => h [] leaf (Node.nil_mem_walk.2 hmem))
      (legible_ofChildren (fun segments leaf hmem => h segments leaf ?_) ⟨.nil, trivial⟩)
    exact List.mem_append_left _ hmem

theorem legible_ofChildren : ∀ {children : List (String × Node)} {members : JsonObject},
    (∀ segments leaf, (segments, leaf) ∈ Node.walks children →
      ∀ t ∈ leaf.pair.variants, t.Legible) →
      (Json.object members).Legible → (Json.object (ofChildren children members)).Legible
  | [], _, _, hmembers => hmembers
  | (segment, child) :: rest, members, h, hmembers => by
    have hchild : (Json.object (ofNode child)).Legible := legible_ofNode fun segments leaf hmem =>
      h (segment :: segments) leaf
        (Node.mem_walks.2 ⟨segment, child, segments, List.mem_cons_self, rfl, hmem⟩)
    rw [ofChildren]
    refine legible_ofChildren (fun segments leaf hmem => h segments leaf ?_)
      (Json.legible_insert hmembers hchild)
    exact List.mem_append_right _ hmem

end

theorem legible_ofTokens (convention : Convention) {tokens : List Token}
    (h : ∀ t ∈ tokens, t.Legible) : (Json.object (ofTokens convention tokens)).Legible := by
  refine legible_ofNode fun segments leaf hwalk t ht => ?_
  obtain ⟨-, -, found⟩ := mem_walk_iff.1 hwalk
  exact h t (Groups.of_mem_variants found ht).1

end MergedTree
end DesignTokens

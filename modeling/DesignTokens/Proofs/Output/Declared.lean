import DesignTokens.Output.ComposeTheme
import DesignTokens.Output.NestedEnum
import DesignTokens.Proofs.Mode.Walk

/-!
# Members of nested containers under the names they are referred to by

`Container.declared` lists the members of a container with the chain of names that leads to each.
The container of a tree has, for every leaf of the tree, one member behind the names of the leaf's
segments (`declared_ofNode`); with the leaves of grouped tokens (`Node.exists_leaves`) these are the
chains of the canonical paths (`Identifier.chain_of_ne_nil`), and a reference is such a chain.
-/

namespace DesignTokens

/-! ### Chains of names -/

theorem Identifier.chain_of_ne_nil (identifier : String → String) {path : List String}
    (named : path ≠ []) :
    chain identifier path =
      path.dropLast.map (fun segment => identifier (pascalCase segment)) ++
        [identifier (camelCase (path.getLastD ""))] := by
  induction path with
  | nil => exact absurd rfl named
  | cons segment rest ih =>
    cases rest with
    | nil => rfl
    | cons next rest =>
      rw [chain, ih (by simp)]
      · simp
      · simp

namespace Container

variable {α : Type}

mutual

/-- The members of a container behind those of the containers in it, each with the names that lead
to it. -/
def declared (nameOf : α → String) : Container α → List (List String × α)
  | mk name children members =>
    (declareds nameOf children ++ members.map fun m => ([nameOf m], m)).map
      (Prod.map (name :: ·) id)

def declareds (nameOf : α → String) : List (Container α) → List (List String × α)
  | [] => []
  | child :: rest => declared nameOf child ++ declareds nameOf rest

end

section Text

variable {nameOf : α → String} {m : α} (keyword : String) (memberText : String → α → String)

mutual

/-- The lines of a declared member are in the text of the container, at some indentation. -/
theorem exists_infix_text {names : List String} : ∀ (container : Container α) (indent : String),
    (names, m) ∈ container.declared nameOf →
      ∃ inner, (memberText inner m).toList <:+: (container.text keyword memberText indent).toList
  | .mk name children members, indent, h => by
    rw [declared, List.mem_map] at h
    obtain ⟨⟨trail, own⟩, hmem, heq⟩ := h
    obtain rfl : m = own := (congrArg Prod.snd heq).symm
    obtain ⟨inner, inside⟩ : ∃ inner, (memberText inner m).toList <:+:
        (texts keyword memberText (deeper indent) children).toList ++
          (String.join (members.map (memberText (deeper indent)))).toList := by
      rcases List.mem_append.1 hmem with hchild | hown
      · obtain ⟨inner, inside⟩ := exists_infix_texts children (deeper indent) hchild
        exact ⟨inner, inside.trans (List.prefix_append _ _).isInfix⟩
      · obtain ⟨found, hfound, heq⟩ := List.mem_map.1 hown
        obtain rfl : m = found := (congrArg Prod.snd heq).symm
        refine ⟨deeper indent, List.IsInfix.trans ?_ (List.suffix_append _ _).isInfix⟩
        obtain ⟨front, behind, rfl⟩ := List.append_of_mem hfound
        exact ⟨(String.join (front.map (memberText (deeper indent)))).toList,
          (String.join (behind.map (memberText (deeper indent)))).toList, by simp⟩
    refine ⟨inner, inside.trans ⟨(indent ++ keyword ++ " " ++ name ++ " \x7b\n").toList,
      (indent ++ "\x7d\n").toList, ?_⟩⟩
    rw [text]
    simp

theorem exists_infix_texts {names : List String} :
    ∀ (children : List (Container α)) (indent : String), (names, m) ∈ declareds nameOf children →
      ∃ inner, (memberText inner m).toList <:+: (texts keyword memberText indent children).toList
  | [], _, h => nomatch h
  | child :: rest, indent, h => by
    rw [texts, String.toList_append]
    rcases List.mem_append.1 h with hchild | hrest
    · obtain ⟨inner, inside⟩ := exists_infix_text child indent hchild
      exact ⟨inner, inside.trans (List.prefix_append _ _).isInfix⟩
    · obtain ⟨inner, inside⟩ := exists_infix_texts rest indent hrest
      exact ⟨inner, inside.trans (List.suffix_append _ _).isInfix⟩

end

end Text

section OfNode

variable (identifier : String → String) (member : Leaf → α) (nameOf : α → String)

/-- The names that lead to the member of a leaf in the container of a node above it. -/
def trail (segments : List String) (leaf : Leaf) : List String :=
  segments.map (fun segment => identifier (Identifier.pascalCase segment)) ++ [nameOf (member leaf)]

mutual

theorem declared_ofNode (name : String) : ∀ node : Node,
    (ofNode identifier member name node).declared nameOf =
      node.walk.map fun (segments, leaf) =>
        (name :: trail identifier member nameOf segments leaf, member leaf)
  | .mk leaves children => by
    rw [ofNode, declared, declareds_ofNodes children, Node.walk, List.map_append, List.map_append]
    congr 1
    · simp
    · simp [trail]

theorem declareds_ofNodes : ∀ children : List (String × Node),
    declareds nameOf (ofNodes identifier member children) =
      (Node.walks children).map fun (segments, leaf) =>
        (trail identifier member nameOf segments leaf, member leaf)
  | [] => rfl
  | (segment, child) :: rest => by
    rw [ofNodes, declareds, declared_ofNode _ child, declareds_ofNodes rest, Node.walks,
      List.map_append]
    congr 1
    simp [trail]

end

end OfNode

/-! ### What is declared for groups -/

/-- A container with one member for each canonical path of the tokens, that of the path's pair, and
with the names in front of it by which every token of that path is referred to. -/
def DeclaresAll (nameOf : α → String) (member : Leaf → α) (reference : Token → String)
    (convention : Convention) (tokens : List Token) (container : Container α) : Prop :=
  ∃ (leaves : List Leaf) (names : Leaf → List String),
    (leaves.map Leaf.path).Nodup ∧
    (∀ path, path ∈ leaves.map Leaf.path ↔
      path ≠ [] ∧ ∃ t ∈ tokens, t.canonicalPath convention = path) ∧
    (∀ leaf ∈ leaves, (Groups.ofTokens convention tokens).get? leaf.path = some leaf.pair) ∧
    container.declared nameOf = leaves.map (fun leaf => (names leaf, member leaf)) ∧
    ∀ r ∈ tokens, r.path ≠ [] →
      ∃ leaf ∈ leaves, leaf.path = r.canonicalPath convention ∧
        reference r = ".".intercalate (names leaf)

variable (identifier : String → String) (member : Leaf → α) (nameOf : α → String)

/-- Below the segments of its path a leaf is declared under the chain of the path. -/
theorem trail_eq_chain (named : ∀ leaf, nameOf (member leaf) = memberName identifier leaf)
    {leaf : Leaf} (hpath : leaf.path ≠ []) :
    trail identifier member nameOf leaf.path.dropLast leaf =
      Identifier.chain identifier leaf.path := by
  rw [trail, named, memberName, Leaf.key, Identifier.chain_of_ne_nil identifier hpath]

/-- What is declared for grouped tokens: the leaves of their canonical paths, each under the chain
of its path. -/
theorem mem_declared_ofGroups (named : ∀ leaf, nameOf (member leaf) = memberName identifier leaf)
    {root : String} {convention : Convention} {tokens : List Token} {names : List String} {m : α} :
    (names, m) ∈ (ofNode identifier member root
        (Node.ofGroups (Groups.ofTokens convention tokens))).declared nameOf ↔
      ∃ leaf : Leaf, leaf.path ≠ [] ∧
        (Groups.ofTokens convention tokens).get? leaf.path = some leaf.pair ∧
        names = root :: Identifier.chain identifier leaf.path ∧ m = member leaf := by
  have sorted := @Groups.increasing_ofTokens convention tokens
  rw [declared_ofNode, List.mem_map]
  constructor
  · rintro ⟨⟨segments, leaf⟩, hwalk, heq⟩
    obtain ⟨rfl, hpath, hgroup⟩ := Node.mem_walk_ofGroups.1 hwalk
    obtain ⟨rfl, rfl⟩ := Prod.mk.inj heq
    exact ⟨leaf, hpath, sorted.mem_iff.1 hgroup,
      congrArg _ (trail_eq_chain identifier member nameOf named hpath), rfl⟩
  · rintro ⟨leaf, hpath, found, rfl, rfl⟩
    refine ⟨(leaf.path.dropLast, leaf),
      Node.mem_walk_ofGroups.2 ⟨rfl, hpath, sorted.mem_iff.2 found⟩, ?_⟩
    rw [← trail_eq_chain identifier member nameOf named hpath]

/-- The container of the tree of grouped tokens declares all of them. -/
theorem declaresAll_ofGroups (named : ∀ leaf, nameOf (member leaf) = memberName identifier leaf)
    (root : String) (convention : Convention) (tokens : List Token) :
    (ofNode identifier member root (Node.ofGroups (Groups.ofTokens convention tokens))).DeclaresAll
      nameOf member
      (fun r => Identifier.qualified root (r.canonicalPath convention) identifier)
      convention tokens := by
  obtain ⟨leaves, walk, nodup, mem⟩ := Node.exists_leaves convention tokens
  have paths : ∀ path, path ∈ leaves.map Leaf.path ↔
      path ≠ [] ∧ ∃ t ∈ tokens, t.canonicalPath convention = path := by
    intro path
    rw [← Groups.isSome_get?_ofTokens, Option.isSome_iff_exists, List.mem_map]
    constructor
    · rintro ⟨leaf, hleaf, rfl⟩
      obtain ⟨hne, found⟩ := (mem leaf).1 hleaf
      exact ⟨hne, leaf.pair, found⟩
    · rintro ⟨hne, pair, found⟩
      exact ⟨⟨path, pair⟩, (mem ⟨path, pair⟩).2 ⟨hne, found⟩, rfl⟩
  refine ⟨leaves, fun leaf => root :: Identifier.chain identifier leaf.path, nodup, paths,
    fun leaf hleaf => ((mem leaf).1 hleaf).2, ?_, fun r hr hpath => ?_⟩
  · rw [declared_ofNode, walk, List.map_map]
    refine List.map_congr_left fun leaf hleaf => ?_
    simp [trail_eq_chain identifier member nameOf named ((mem leaf).1 hleaf).1]
  · have hne := convention.unmark_ne_nil hpath
    obtain ⟨leaf, hleaf, heq⟩ := List.mem_map.1 ((paths _).2 ⟨hne, r, hr, rfl⟩)
    exact ⟨leaf, hleaf, heq, congrArg (Identifier.qualified root · identifier) heq.symm⟩

end Container

theorem NestedEnum.name_member (dictionary : Dictionary) (context : Context) (leaf : Leaf) :
    (member dictionary context leaf).name = Container.memberName Identifier.swift leaf := by
  rw [member]

theorem NestedEnum.declaresAll (dictionary : Dictionary) (context : Context) :
    (ofDictionary dictionary context).DeclaresAll NestedMember.name (member dictionary context)
      (memberReference context) context.convention dictionary.tokens :=
  Container.declaresAll_ofGroups Identifier.swift (member dictionary context) NestedMember.name
    (name_member dictionary context) _ _ _

theorem ComposeTheme.name_member (dictionary : Dictionary) (context : Context) (leaf : Leaf) :
    (member dictionary context leaf).name = Container.memberName Identifier.kotlin leaf := by
  rw [member]

theorem ComposeTheme.declaresAll (dictionary : Dictionary) (context : Context) :
    (ofDictionary dictionary context).root.DeclaresAll ThemeMember.name (member dictionary context)
      (memberReference context) context.convention dictionary.tokens :=
  Container.declaresAll_ofGroups Identifier.kotlin (member dictionary context) ThemeMember.name
    (name_member dictionary context) _ _ _

end DesignTokens

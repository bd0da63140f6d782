import DesignTokens.Proofs.Identifier.Segments
import DesignTokens.Proofs.Mode.Nesting
import DesignTokens.Proofs.Output.DeclaredText

/-!
# What is declared side by side

A nested container declares the containers in it and its members in one scope. `Container.scopes`
lists the identifiers of every scope, and those of the container of a tree are the identifiers of
the tree's nodes (`Container.scopes_ofNode`), each node once (`Node.mem_all_iff`). Segments that are
spelled alike have one identifier; the identifiers of a node differ exactly if its segments are
spelled apart (`Node.nodup_identifiers_iff`). Keys and segments that differ as texts need not be
(`one_identifier_twice`).
-/

namespace DesignTokens

/-! ### The nodes of a tree -/

namespace Node

mutual

/-- The node and all nodes below it. -/
def all : Node → List Node
  | mk leaves children => mk leaves children :: alls children

def alls : List (String × Node) → List Node
  | [] => []
  | (_, child) :: rest => child.all ++ alls rest

end

theorem mem_alls {node : Node} {children : List (String × Node)} :
    node ∈ alls children ↔ ∃ segment child, (segment, child) ∈ children ∧ node ∈ child.all := by
  induction children with
  | nil => simp [alls]
  | cons entry rest ih =>
    obtain ⟨segment, child⟩ := entry
    rw [alls, List.mem_append, ih]
    constructor
    · rintro (hmem | ⟨other, below, hrest, hmem⟩)
      · exact ⟨segment, child, List.mem_cons_self, hmem⟩
      · exact ⟨other, below, List.mem_cons_of_mem _ hrest, hmem⟩
    · rintro ⟨other, below, hchildren, hmem⟩
      rcases List.mem_cons.1 hchildren with same | hrest
      · obtain ⟨rfl, rfl⟩ := Prod.mk.inj same
        exact .inl hmem
      · exact .inr ⟨other, below, hrest, hmem⟩

theorem mem_all_iff {root node : Node} (h : root.Proper) :
    node ∈ root.all ↔ ∃ segments, root.at? segments = some node := by
  induction h generalizing node with
  | @mk leaves children sorted _ _ ih =>
    rw [all, List.mem_cons, mem_alls]
    constructor
    · rintro (rfl | ⟨segment, child, hchild, hmem⟩)
      · exact ⟨[], rfl⟩
      · obtain ⟨segments, found⟩ := (ih segment child hchild).1 hmem
        refine ⟨segment :: segments, ?_⟩
        rw [at?, Node.children, sorted.mem_iff.1 hchild]
        exact found
    · rintro ⟨_ | ⟨segment, segments⟩, found⟩
      · exact .inl (Option.some.inj found).symm
      · obtain ⟨child, hchild, below⟩ := Option.bind_eq_some_iff.1 found
        have hmem := sorted.mem_iff.2 hchild
        exact .inr ⟨segment, child, hmem, (ih segment child hmem).2 ⟨segments, below⟩⟩

/-! ### Identifiers of a node -/

/-- What is declared side by side for a node: the containers of the nodes below it, and the members
of its leaves. -/
def identifiers (identifier : String → String) (node : Node) : List String :=
  node.children.map (fun child => identifier (Identifier.pascalCase child.1)) ++
    node.leaves.map (Container.memberName identifier)

/-- No two leaves of a node are spelled alike, nor two nodes below it, nor a leaf and a node below
it whose spelling starts with a digit. -/
structure SpelledApart (node : Node) : Prop where
  leaves : (node.leaves.map fun leaf => Identifier.spelling leaf.key).Nodup
  children : (node.children.map fun child => Identifier.spelling child.1).Nodup
  across : ∀ child ∈ node.children, ∀ leaf ∈ node.leaves, Identifier.StartsWithDigit leaf.key →
    Identifier.spelling leaf.key ≠ Identifier.spelling child.1

/-- A list of names has no repetition where another one has none, if both repeat at the same
places. -/
theorem nodup_map_iff_of_inj {α β γ : Type} {f : α → β} {g : α → γ}
    (same : ∀ a b, f a = f b ↔ g a = g b) (l : List α) : (l.map f).Nodup ↔ (l.map g).Nodup := by
  rw [List.Nodup, List.Nodup, List.pairwise_map, List.pairwise_map]
  exact List.Pairwise.iff fun {a b} => not_congr (same a b)

/-- **The identifiers of a node** differ exactly if its segments are spelled apart. -/
theorem nodup_identifiers_iff {identifier : String → String}
    (keeps : Identifier.KeepsPlain identifier) (node : Node) :
    (node.identifiers identifier).Nodup ↔ node.SpelledApart := by
  have members : ∀ leaf other : Leaf,
      Container.memberName identifier leaf = Container.memberName identifier other ↔
        Identifier.spelling leaf.key = Identifier.spelling other.key := fun leaf other => by
    rw [Container.memberName, Container.memberName,
      keeps _ _ (Identifier.isPlain_camelCase _) (Identifier.isPlain_camelCase _),
      Identifier.camelCase_inj]
  have containers : ∀ child other : String × Node,
      identifier (Identifier.pascalCase child.1) = identifier (Identifier.pascalCase other.1) ↔
        Identifier.spelling child.1 = Identifier.spelling other.1 := fun child other => by
    rw [keeps _ _ (Identifier.isPlain_pascalCase _) (Identifier.isPlain_pascalCase _),
      Identifier.pascalCase_inj]
  have between : ∀ (child : String × Node) (leaf : Leaf),
      identifier (Identifier.pascalCase child.1) = Container.memberName identifier leaf ↔
        Identifier.spelling leaf.key = Identifier.spelling child.1 ∧
          Identifier.StartsWithDigit leaf.key := fun child leaf => by
    rw [eq_comm, Container.memberName,
      keeps _ _ (Identifier.isPlain_camelCase _) (Identifier.isPlain_pascalCase _),
      Identifier.camelCase_eq_pascalCase_iff]
  rw [identifiers, List.nodup_append, nodup_map_iff_of_inj containers,
    nodup_map_iff_of_inj members, List.forall_mem_map]
  simp only [List.forall_mem_map, ne_eq, between]
  constructor
  · rintro ⟨children, leaves, across⟩
    exact ⟨leaves, children, fun child hchild leaf hleaf digit same =>
      across child hchild leaf hleaf ⟨same, digit⟩⟩
  · rintro ⟨leaves, children, across⟩
    exact ⟨children, leaves, fun child hchild leaf hleaf both =>
      across child hchild leaf hleaf both.2 both.1⟩

end Node

/-! ### Scopes of containers -/

namespace Container

variable {α : Type}

mutual

/-- The identifiers that a container declares side by side, then those of the containers in it. -/
def scopes (nameOf : α → String) : Container α → List (List String)
  | mk _ children members =>
    (children.map name ++ members.map nameOf) :: scopess nameOf children

def scopess (nameOf : α → String) : List (Container α) → List (List String)
  | [] => []
  | child :: rest => scopes nameOf child ++ scopess nameOf rest

end

section OfNode

variable (identifier : String → String) (member : Leaf → α) (nameOf : α → String)

theorem name_ofNode (name : String) (node : Node) :
    (ofNode identifier member name node).name = name := by
  obtain ⟨leaves, children⟩ := node
  rfl

theorem map_name_ofNodes (children : List (String × Node)) :
    (ofNodes identifier member children).map name =
      children.map fun child => identifier (Identifier.pascalCase child.1) := by
  induction children with
  | nil => rfl
  | cons entry rest ih =>
    obtain ⟨segment, child⟩ := entry
    rw [ofNodes, List.map_cons, List.map_cons, name_ofNode, ih]

mutual

theorem scopes_ofNode (named : ∀ leaf, nameOf (member leaf) = memberName identifier leaf)
    (name : String) : ∀ node : Node,
    (ofNode identifier member name node).scopes nameOf =
      node.all.map (Node.identifiers identifier)
  | .mk leaves children => by
    rw [ofNode, scopes, scopess_ofNodes named children, map_name_ofNodes, Node.all, List.map_cons,
      Node.identifiers, List.map_map]
    congr 2
    exact List.map_congr_left fun leaf _ => named leaf

theorem scopess_ofNodes (named : ∀ leaf, nameOf (member leaf) = memberName identifier leaf) :
    ∀ children : List (String × Node),
      scopess nameOf (ofNodes identifier member children) =
        (Node.alls children).map (Node.identifiers identifier)
  | [] => rfl
  | (segment, child) :: rest => by
    rw [ofNodes, scopess, scopes_ofNode named _ child, scopess_ofNodes named rest, Node.alls,
      List.map_append]

end

end OfNode

variable {β : Type}

theorem name_mapMembers (f : α → β) (container : Container α) :
    (container.mapMembers f).name = container.name := by
  obtain ⟨name, children, members⟩ := container
  rfl

theorem map_name_mapMemberss (f : α → β) (children : List (Container α)) :
    (mapMemberss f children).map name = children.map name := by
  induction children with
  | nil => rfl
  | cons child rest ih =>
    rw [mapMemberss, List.map_cons, List.map_cons, name_mapMembers, ih]

mutual

theorem scopes_mapMembers (f : α → β) (nameOf : β → String) : ∀ container : Container α,
    (container.mapMembers f).scopes nameOf = container.scopes (nameOf ∘ f)
  | .mk name children members => by
    rw [mapMembers, scopes, scopes, map_name_mapMemberss, List.map_map,
      scopess_mapMemberss f nameOf children]

theorem scopess_mapMemberss (f : α → β) (nameOf : β → String) : ∀ children : List (Container α),
    scopess nameOf (mapMemberss f children) = scopess (nameOf ∘ f) children
  | [] => rfl
  | child :: rest => by
    rw [mapMemberss, scopess, scopess, scopes_mapMembers f nameOf child,
      scopess_mapMemberss f nameOf rest]

end

end Container

/-- What is read from a source has a scope for each node of the tree. -/
theorem NestedSource.readsAs_scopes {α : Type} (source : NestedSource α) (root : String)
    (convention : Convention) (tokens : List Token) :
    source.ReadsAs root convention tokens
      ((source.container root convention tokens).text source.keyword source.memberText "")
      fun outer => outer.scopes id =
        (Node.ofGroups (Groups.ofTokens convention tokens)).all.map
          (Node.identifiers source.identifier) := by
  refine source.readsAs_text ?_
  rw [Container.scopes_mapMembers, Function.id_comp, container,
    Container.scopes_ofNode source.identifier source.member source.nameOf source.named]

/-! ### Main statement -/

/-- **What nested containers declare side by side.** The scopes of the nested Swift enum and of the
Compose theme are the identifiers of the nodes of the token tree, which are the nodes that segments
lead to; and in either language the identifiers of a node differ exactly if no two of its leaves,
and no two nodes below it, are spelled alike, and no leaf is spelled like a node below it where the
spelling starts with a digit. A reader of the two documents finds these scopes. -/
theorem siblings_apart_iff (dictionary : Dictionary) (context : Context) :
    let tree := Node.ofGroups (Groups.ofTokens context.convention dictionary.tokens)
    (NestedEnum.ofDictionary dictionary context).scopes NestedMember.name =
        tree.all.map (Node.identifiers Identifier.swift) ∧
      (ComposeTheme.ofDictionary dictionary context).root.scopes ThemeMember.name =
        tree.all.map (Node.identifiers Identifier.kotlin) ∧
      (∀ node, node ∈ tree.all ↔ ∃ segments, tree.at? segments = some node) ∧
      (∀ node ∈ tree.all,
        ((node.identifiers Identifier.swift).Nodup ↔ node.SpelledApart) ∧
        ((node.identifiers Identifier.kotlin).Nodup ↔ node.SpelledApart)) ∧
      (∃ body, Format.document dictionary context .nestedEnum =
          context.header ++ SwiftMember.importLines ++ body ∧
        (NestedEnum.source dictionary context).ReadsAs (context.rootName NestedEnum.defaultRoot)
          context.convention dictionary.tokens body fun outer =>
            outer.scopes id = tree.all.map (Node.identifiers Identifier.swift)) ∧
      ∃ body, Format.document dictionary context .composeTheme =
          context.header ++ ("package " ++ context.packageName.getD ComposeTheme.defaultPackage ++
            "\n\n" ++ ComposeTheme.preamble) ++ body ∧
        (ComposeTheme.source dictionary context).ReadsAs (context.rootName ComposeTheme.defaultRoot)
          context.convention dictionary.tokens body fun outer =>
            outer.scopes id = tree.all.map (Node.identifiers Identifier.kotlin) := by
  intro tree
  refine ⟨?_, ?_, fun node => ?_, fun node _ => ⟨?_, ?_⟩,
    ⟨_, NestedEnum.document_eq dictionary context, ?_⟩,
    _, ComposeTheme.document_eq dictionary context, ?_⟩
  · exact Container.scopes_ofNode Identifier.swift _ _
      (NestedEnum.name_member dictionary context) _ _
  · exact Container.scopes_ofNode Identifier.kotlin _ _
      (ComposeTheme.name_member dictionary context) _ _
  · exact Node.mem_all_iff (Node.proper_ofGroups _)
  · exact Node.nodup_identifiers_iff Identifier.keepsPlain_swift node
  · exact Node.nodup_identifiers_iff Identifier.keepsPlain_kotlin node
  · exact NestedSource.readsAs_scopes (NestedEnum.source dictionary context) _ _ _
  · exact NestedSource.readsAs_scopes (ComposeTheme.source dictionary context) _ _ _

/-- Two keys that differ in a dot, a key beside a segment, and two keys without letters. -/
def dottedSizes : Dictionary :=
  .ofTokens [.ofValue ["size", "1.5"] "a" (.string "1"), .ofValue ["size", "15"] "b" (.string "2"),
    .ofValue ["space", "2"] "c" (.string "3"), .ofValue ["space", "2", "x"] "d" (.string "4"),
    .ofValue ["z", "-"] "e" (.string "5"), .ofValue ["z", "+"] "f" (.string "6")]

/-- Each of these pairs is declared under one identifier, in both languages. -/
theorem one_identifier_twice :
    (NestedEnum.ofDictionary dottedSizes { destination := "" }).scopes NestedMember.name =
        [["Size", "Space", "Z"], ["_15", "_15"], ["_2", "_2"], ["x"], ["unknown", "unknown"]] ∧
      (ComposeTheme.ofDictionary dottedSizes { destination := "" }).root.scopes ThemeMember.name =
        [["Size", "Space", "Z"], ["_15", "_15"], ["_2", "_2"], ["x"], ["unknown", "unknown"]] ∧
      ¬ ["_15", "_15"].Nodup ∧ ¬ ["_2", "_2"].Nodup ∧ ¬ ["unknown", "unknown"].Nodup := by
  decide +kernel

end DesignTokens

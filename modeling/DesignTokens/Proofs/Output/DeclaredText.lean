import DesignTokens.Format
import DesignTokens.Proofs.Output.Declared
import DesignTokens.Proofs.Output.SourceLines

/-!
# Declared members in the text

The text of a container is in the grammar of its language: the lines of each member stand behind the
names that lead to it (`Container.holds_text`). So the documents of the nested Swift enum and of the
Compose theme declare what their containers do, and a reference is the chain of names that is found
in front of the lines of its member (`references_eq_declared`).
-/

namespace DesignTokens

open Outline (Language Reading isNameChar)

namespace Container

variable {α β : Type}

section Text

variable {language : Language} {keyword : String} {nameOf : α → String}
  {memberText : String → α → String} {named : String → Prop}

/-- A member as it is found in this many containers. -/
def withLines (memberText : String → α → String) (depth : Nat) :
    List String × α → List String × String
  | (names, m) => (names, memberText (indentation (depth + names.tail.length)) m)

theorem ne_nil_of_mem_declareds {names : List String} {m : α} {children : List (Container α)}
    (h : (names, m) ∈ declareds nameOf children) : names ≠ [] := by
  induction children with
  | nil => cases h
  | cons child rest ih =>
    obtain ⟨name, children, members⟩ := child
    rw [declareds, declared] at h
    rcases List.mem_append.1 h with hchild | hrest
    · obtain ⟨⟨trail, own⟩, -, heq⟩ := List.mem_map.1 hchild
      obtain ⟨rfl, -⟩ := Prod.mk.inj heq
      exact List.cons_ne_nil name trail
    · exact ih hrest

theorem withLines_cons (name : String) {depth : Nat} {names : List String} {m : α}
    (found : names ≠ []) :
    Prod.map (name :: ·) id (withLines memberText (depth + 1) (names, m)) =
      withLines memberText depth (name :: names, m) := by
  obtain ⟨first, trail, rfl⟩ := List.exists_cons_of_ne_nil found
  simp [withLines, Nat.add_assoc, Nat.add_comm 1]

theorem holds_members (depth : Nat) {members : List α}
    (each : ∀ m ∈ members, language.IsMember depth (nameOf m) (memberText (indentation depth) m)) :
    language.Holds depth (String.join (members.map (memberText (indentation depth))))
      (members.map fun m => ([nameOf m], memberText (indentation depth) m)) := by
  induction members with
  | nil => exact .nil depth
  | cons m members ih =>
    rw [List.forall_mem_cons] at each
    simpa using Language.Holds.member each.1 (ih each.2)

/-- The lines of a member declare it, however deep it stands. -/
def IsDeclared (language : Language) (nameOf : α → String) (memberText : String → α → String)
    (m : α) : Prop :=
  ∀ depth, language.IsMember depth (nameOf m) (memberText (indentation depth) m)

mutual

/-- **The text of a container** holds the lines of its members behind the names that lead to
them. -/
theorem holds_text (word : keyword ∈ language.containers) :
    ∀ (container : Container α) (depth : Nat),
    container.All named (IsDeclared language nameOf memberText) →
    language.Holds depth (container.text keyword memberText (indentation depth))
      ((container.declared nameOf).map (withLines memberText depth))
  | .mk name children members, depth, ⟨_, below, own⟩ => by
    have inside : language.Holds (depth + 1)
        (texts keyword memberText (indentation (depth + 1)) children ++
          String.join (members.map (memberText (indentation (depth + 1)))))
        ((declareds nameOf children ++ members.map fun m => ([nameOf m], m)).map
          (withLines memberText (depth + 1))) := by
      have members := holds_members (depth + 1) fun m hm => own m hm (depth + 1)
      rw [List.map_append, List.map_map]
      exact (holds_texts word children (depth + 1) below).append members
    have whole : language.Holds depth (indentation depth ++ keyword ++ " " ++ name ++ " \x7b\n" ++
        _ ++ indentation depth ++ "\x7d\n" ++ "") _ := .container word inside (.nil depth)
    rw [text, declared, List.map_map]
    rw [List.append_nil, List.map_map, String.append_empty] at whole
    convert whole using 1
    · simp only [indentation, String.append_assoc]
    · refine List.map_congr_left fun ⟨names, m⟩ hmem => (withLines_cons name ?_).symm
      rcases List.mem_append.1 hmem with hchild | hown
      · exact ne_nil_of_mem_declareds hchild
      · obtain ⟨own, -, heq⟩ := List.mem_map.1 hown
        obtain ⟨rfl, -⟩ := Prod.mk.inj heq
        exact List.cons_ne_nil (nameOf own) []

theorem holds_texts (word : keyword ∈ language.containers) :
    ∀ (children : List (Container α)) (depth : Nat),
    Alls named (IsDeclared language nameOf memberText) children →
    language.Holds depth (texts keyword memberText (indentation depth) children)
      ((declareds nameOf children).map (withLines memberText depth))
  | [], depth, _ => .nil depth
  | child :: rest, depth, ⟨first, behind⟩ => by
    rw [texts, declareds, List.map_append]
    exact (holds_text word child depth first).append (holds_texts word rest depth behind)

end

end Text

/-! ### Names of what is declared -/

mutual

theorem declared_mapMembers (f : α → β) (nameOf : β → String) : ∀ container : Container α,
    (container.mapMembers f).declared nameOf =
      (container.declared (nameOf ∘ f)).map (Prod.map id f)
  | .mk name children members => by
    have own : (members.map f).map (fun m => ([nameOf m], m)) =
        (members.map fun m => ([(nameOf ∘ f) m], m)).map (Prod.map id f) := by
      simp
    rw [mapMembers, declared, declared, declareds_mapMemberss f nameOf children, own,
      ← List.map_append, List.map_map, List.map_map]
    rfl

theorem declareds_mapMemberss (f : α → β) (nameOf : β → String) : ∀ children : List (Container α),
    declareds nameOf (mapMemberss f children) =
      (declareds (nameOf ∘ f) children).map (Prod.map id f)
  | [] => rfl
  | child :: rest => by
    rw [mapMemberss, declareds, declareds, declared_mapMembers f nameOf child,
      declareds_mapMemberss f nameOf rest, List.map_append]

end

section OfNode

variable {identifier : String → String} {member : Leaf → α} {named : String → Prop}
  {holds : α → Prop}

mutual

/-- What holds of all identifiers of segments and of the members of all leaves holds of all names
and members of the container. -/
theorem all_ofNode (containers : ∀ segment, named (identifier (Identifier.pascalCase segment)))
    {name : String} (own : named name) : ∀ node : Node,
    (∀ segments leaf, (segments, leaf) ∈ node.walk → holds (member leaf)) →
    (ofNode identifier member name node).All named holds
  | .mk leaves children, members => by
    rw [ofNode, All]
    refine ⟨own, alls_ofNodes containers children fun segments leaf hmem => ?_, ?_⟩
    · exact members segments leaf (List.mem_append_left _ hmem)
    · rw [List.forall_mem_map]
      intro leaf hleaf
      exact members [] leaf (Node.nil_mem_walk.2 hleaf)

theorem alls_ofNodes (containers : ∀ segment, named (identifier (Identifier.pascalCase segment))) :
    ∀ children : List (String × Node),
    (∀ segments leaf, (segments, leaf) ∈ Node.walks children → holds (member leaf)) →
    Alls named holds (ofNodes identifier member children)
  | [], _ => trivial
  | (segment, child) :: rest, members => by
    rw [ofNodes, Alls]
    constructor
    · refine all_ofNode containers (containers segment) child fun segments leaf hmem => ?_
      exact members (segment :: segments) leaf
        (List.mem_append_left _ (List.mem_map.2 ⟨_, hmem, rfl⟩))
    · refine alls_ofNodes containers rest fun segments leaf hmem => ?_
      exact members segments leaf (List.mem_append_right _ hmem)

end

end OfNode

end Container

open Container (IsDeclared ReadsMember indentation)

/-! ### Sources of tokens -/

/-- A kind of source in which containers hold a member for each leaf. -/
structure NestedSource (α : Type) where
  language : Language
  keyword : String
  identifier : String → String
  member : Leaf → α
  nameOf : α → String
  memberText : String → α → String
  /-- No break is in what is written as it is. -/
  IsLegible : α → Prop
  opens : language.Opens keyword
  blank : language.indentedEvent [] = .nothing
  named : ∀ leaf, nameOf (member leaf) = Container.memberName identifier leaf
  plain : ∀ name, Identifier.IsPlain name → (identifier name).toList.all isNameChar
  declares : ∀ leaf, IsDeclared language nameOf memberText (member leaf)
  reads : ∀ leaf, IsLegible (member leaf) → ReadsMember language nameOf memberText (member leaf)

namespace NestedSource

variable {α : Type} (source : NestedSource α)

/-- The container for the tokens. -/
def container (root : String) (convention : Convention) (tokens : List Token) : Container α :=
  .ofNode source.identifier source.member root (Node.ofGroups (Groups.ofTokens convention tokens))

/-- If the root and the members of all canonical paths are legible, then one container is read from
the text, and it is as it should be. -/
def ReadsAs (root : String) (convention : Convention) (tokens : List Token) (text : String)
    (property : Container String → Prop) : Prop :=
  '\n' ∉ root.toList →
    (∀ path pair, path ≠ [] → (Groups.ofTokens convention tokens).get? path = some pair →
      source.IsLegible (source.member ⟨path, pair⟩)) →
    ∃ tree, source.language.read? text = some [tree] ∧ property tree

/-- The text holds the lines of one member for each canonical path of the tokens, that of the path's
pair, behind the names of containers and its own, and every token of that path is referred to by the
chain of these names. The same chains are read from the text. -/
def DeclaresAll (root : String) (convention : Convention) (tokens : List Token) (text : String) :
    Prop :=
  ∃ (leaves : List Leaf) (names : Leaf → List String),
    (leaves.map Leaf.path).Nodup ∧
    (∀ path, path ∈ leaves.map Leaf.path ↔
      path ≠ [] ∧ ∃ t ∈ tokens, t.canonicalPath convention = path) ∧
    (∀ leaf ∈ leaves, (Groups.ofTokens convention tokens).get? leaf.path = some leaf.pair) ∧
    source.language.Holds 0 text (leaves.map fun leaf =>
      (names leaf,
        source.memberText (indentation (names leaf).tail.length) (source.member leaf))) ∧
    (∀ r ∈ tokens, r.path ≠ [] → ∃ leaf ∈ leaves, leaf.path = r.canonicalPath convention ∧
      Identifier.qualified root (r.canonicalPath convention) source.identifier =
        ".".intercalate (names leaf)) ∧
    source.ReadsAs root convention tokens text fun tree =>
      (tree.declared id).map Prod.fst = leaves.map names

variable {root : String} {convention : Convention} {tokens : List Token}

theorem break_not_mem_identifier (segment : String) :
    '\n' ∉ (source.identifier (Identifier.pascalCase segment)).toList :=
  Outline.break_not_mem_of_isNameChar (source.plain _ (Identifier.isPlain_pascalCase segment))

/-- What holds of the members of all canonical paths holds of all members. -/
theorem all_container {named : String → Prop} {holds : α → Prop}
    (containers : ∀ segment, named (source.identifier (Identifier.pascalCase segment)))
    (own : named root)
    (members : ∀ path pair, path ≠ [] → (Groups.ofTokens convention tokens).get? path = some pair →
      holds (source.member ⟨path, pair⟩)) :
    (source.container root convention tokens).All named holds := by
  refine Container.all_ofNode containers own _ fun segments leaf hmem => ?_
  obtain ⟨-, path, hgroup⟩ := Node.mem_walk_ofGroups.1 hmem
  exact members leaf.path leaf.pair path ((Groups.increasing_ofTokens tokens).mem_iff.1 hgroup)

/-- The text is read as the container with names for its members. -/
theorem readsAs_text {property : Container String → Prop}
    (h : property ((source.container root convention tokens).mapMembers source.nameOf)) :
    source.ReadsAs root convention tokens
      ((source.container root convention tokens).text source.keyword source.memberText "")
      property := by
  intro single legible
  refine ⟨_, Container.read?_text source.nameOf source.memberText source.opens source.blank _ ?_, h⟩
  exact source.all_container source.break_not_mem_identifier single fun path pair named found =>
    source.reads ⟨path, pair⟩ (legible path pair named found)

theorem declaresAll_text : source.DeclaresAll root convention tokens
    ((source.container root convention tokens).text source.keyword source.memberText "") := by
  obtain ⟨leaves, names, nodup, paths, pairs, declared, referred⟩ :=
    Container.declaresAll_ofGroups source.identifier source.member source.nameOf source.named root
      convention tokens
  refine ⟨leaves, names, nodup, paths, pairs, ?_, referred, source.readsAs_text ?_⟩
  · have all : (source.container root convention tokens).All (fun _ => True)
        (IsDeclared source.language source.nameOf source.memberText) :=
      source.all_container (fun _ => trivial) trivial fun path pair _ _ =>
        source.declares ⟨path, pair⟩
    have found : ((source.container root convention tokens).declared source.nameOf).map
          (Container.withLines source.memberText 0) =
        leaves.map fun leaf => (names leaf,
          source.memberText (indentation (names leaf).tail.length) (source.member leaf)) := by
      rw [container, declared, List.map_map]
      refine List.map_congr_left fun leaf _ => ?_
      rw [Function.comp_apply, Container.withLines, Nat.zero_add]
    rw [← found]
    exact Container.holds_text source.opens.1 _ 0 all
  · rw [Container.declared_mapMembers, container, Function.id_comp, declared, List.map_map,
      List.map_map]
    rfl

end NestedSource

theorem NestedEnum.isNameChar_name (dictionary : Dictionary) (context : Context) (leaf : Leaf) :
    (member dictionary context leaf).name.toList.all isNameChar := by
  rw [name_member, Container.memberName]
  exact Identifier.isNameChar_guardReserved _ (Identifier.isPlain_camelCase leaf.key)

/-- The nested Swift enum. -/
def NestedEnum.source (dictionary : Dictionary) (context : Context) :
    NestedSource NestedMember where
  language := .swift
  keyword := "public enum"
  identifier := Identifier.swift
  member := member dictionary context
  nameOf := NestedMember.name
  memberText := memberText
  IsLegible := IsLegible
  opens := Language.opens_enum
  blank := rfl
  named := name_member dictionary context
  plain _ := Identifier.isNameChar_guardReserved _
  declares leaf := isMember_memberText (isNameChar_name dictionary context leaf)
  reads leaf := readsMember_of_isLegible (isNameChar_name dictionary context leaf)

theorem ComposeTheme.isNameChar_name (dictionary : Dictionary) (context : Context) (leaf : Leaf) :
    (member dictionary context leaf).name.toList.all isNameChar := by
  rw [name_member, Container.memberName]
  exact Identifier.isNameChar_guardReserved _ (Identifier.isPlain_camelCase leaf.key)

/-- The Compose theme. -/
def ComposeTheme.source (dictionary : Dictionary) (context : Context) :
    NestedSource ThemeMember where
  language := .kotlin
  keyword := "object"
  identifier := Identifier.kotlin
  member := member dictionary context
  nameOf := ThemeMember.name
  memberText := memberText
  IsLegible := IsLegible
  opens := Language.opens_object
  blank := rfl
  named := name_member dictionary context
  plain _ := Identifier.isNameChar_guardReserved _
  declares leaf := isMember_memberText (isNameChar_name dictionary context leaf)
  reads leaf := readsMember_of_isLegible (isNameChar_name dictionary context leaf)

theorem NestedEnum.document_eq (dictionary : Dictionary) (context : Context) :
    Format.document dictionary context .nestedEnum = context.header ++ SwiftMember.importLines ++
      (ofDictionary dictionary context).text "public enum" memberText "" := by
  rw [Format.document, text, String.append_assoc]

theorem ComposeTheme.document_eq (dictionary : Dictionary) (context : Context) :
    Format.document dictionary context .composeTheme =
      context.header ++
        ("package " ++ context.packageName.getD defaultPackage ++ "\n\n" ++ preamble) ++
        (ofDictionary dictionary context).root.text "object" memberText "" := by
  simp only [Format.document, text, String.append_assoc]
  rfl

/-- **References agree with declarations.** Behind its header and imports the document of the nested
Swift enum, and of the Compose theme, has the lines of one member for each canonical path that is
not empty, and every token with a path is referred to by the chain of the names of the containers
that these lines stand in and of the member that they declare. Where neither the root nor a text in
a member holds a break, a reader of the document finds these chains and no others. -/
theorem references_eq_declared (dictionary : Dictionary) (context : Context) :
    (∃ body, Format.document dictionary context .nestedEnum =
        context.header ++ SwiftMember.importLines ++ body ∧
      (NestedEnum.source dictionary context).DeclaresAll (context.rootName NestedEnum.defaultRoot)
        context.convention dictionary.tokens body) ∧
    ∃ body, Format.document dictionary context .composeTheme =
        context.header ++ ("package " ++ context.packageName.getD ComposeTheme.defaultPackage ++
          "\n\n" ++ ComposeTheme.preamble) ++ body ∧
      (ComposeTheme.source dictionary context).DeclaresAll
        (context.rootName ComposeTheme.defaultRoot) context.convention dictionary.tokens body :=
  ⟨⟨_, NestedEnum.document_eq dictionary context, NestedSource.declaresAll_text _⟩,
    _, ComposeTheme.document_eq dictionary context, NestedSource.declaresAll_text _⟩

/-- A color for both modes, and one below it whose name is a word of the languages. -/
def pageInPage : Dictionary :=
  .ofTokens [.ofValue ["color", "page"] "page" (.string "#fff"),
    .ofValue ["color", "dark", "page"] "dark-page" (.string "#000"),
    .ofValue ["color", "page", "in"] "page-in" (.string "#eee")]

theorem references_eq_declared_pageInPage :
    let context : Context := { destination := "" }
    ∃ body, Format.document pageInPage context .composeTheme =
        context.header ++ ("package " ++ context.packageName.getD ComposeTheme.defaultPackage ++
          "\n\n" ++ ComposeTheme.preamble) ++ body ∧
      ∃ tree, Language.kotlin.read? body = some [tree] ∧ ∀ t ∈ pageInPage.tokens,
        ∃ names ∈ (tree.declared id).map Prod.fst,
          ComposeTheme.memberReference context t = ".".intercalate names := by
  intro context
  obtain ⟨-, body, document, leaves, names, -, -, -, -, referred, reads⟩ :=
    references_eq_declared pageInPage context
  have legible : ∀ path pair, path ≠ [] →
      (Groups.ofTokens context.convention pageInPage.tokens).get? path = some pair →
      ComposeTheme.IsLegible (ComposeTheme.member pageInPage context ⟨path, pair⟩) := by
    intro path pair _ found
    have filled : ((Groups.ofTokens context.convention pageInPage.tokens).get? path).isSome := by
      rw [found]
      rfl
    obtain ⟨t, ht, rfl⟩ := (Groups.isSome_get?_ofTokens pageInPage.tokens path).1 filled
    have cases :
        t = pageInPage.tokens[0] ∨ t = pageInPage.tokens[1] ∨ t = pageInPage.tokens[2] := by
      have listed : pageInPage.tokens =
          [pageInPage.tokens[0], pageInPage.tokens[1], pageInPage.tokens[2]] := rfl
      rw [listed] at ht
      simpa only [List.mem_cons, List.not_mem_nil, or_false] using ht
    have both : ComposeTheme.IsLegible (ComposeTheme.member pageInPage context
        ⟨["color", "page"], .both pageInPage.tokens[0] pageInPage.tokens[1]⟩) := by
      unfold ComposeTheme.IsLegible
      decide +kernel
    have below : ComposeTheme.IsLegible (ComposeTheme.member pageInPage context
        ⟨["color", "page", "in"], .light pageInPage.tokens[2]⟩) := by
      unfold ComposeTheme.IsLegible
      decide +kernel
    rcases cases with rfl | rfl | rfl
    · obtain rfl := Option.some.inj found
      exact both
    · obtain rfl := Option.some.inj found
      exact both
    · obtain rfl := Option.some.inj found
      exact below
  obtain ⟨tree, read, chains⟩ := reads (by decide) legible
  refine ⟨body, document, tree, read, fun t ht => ?_⟩
  have named : t.path ≠ [] := by
    revert t
    decide
  obtain ⟨leaf, hleaf, -, name⟩ := referred t ht named
  rw [chains]
  exact ⟨names leaf, List.mem_map_of_mem hleaf, name⟩

end DesignTokens

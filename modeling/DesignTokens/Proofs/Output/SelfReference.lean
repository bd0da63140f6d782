import DesignTokens.Output.FlatEnum
import DesignTokens.Output.Stylesheet
import DesignTokens.Proofs.Output.Declared
import DesignTokens.Proofs.Output.ResourceSets
import Mathlib.Data.List.Forall2

/-!
# Declarations that do not refer to themselves

A declaration belongs to a canonical path, and its value is made of variants of that path. So a
reference in it can name the declaration itself only if a token is named by its own variant, or if
two canonical paths share a name. That no chain of references returns to its start excludes neither.

A `Manner` says how a kind of document declares things: what is emitted in a declaration for which
tokens, and how tokens and declarations are referred to.
-/

namespace DesignTokens

/-- How a document makes declarations `δ` of sources `σ`, and values `ε` in them of tokens. -/
structure Manner (σ δ ε : Type) where
  /-- How a token is referred to. -/
  reference : Token → String
  /-- The tokens of a source that its declaration shows. -/
  shown : σ → List Token
  /-- What is emitted for a token in the declaration of a source. -/
  emit : σ → Token → ε
  /-- What a declaration holds. -/
  values : δ → List ε
  /-- How a declaration is referred to. -/
  own : δ → String

/-- No token of the list names a token of its own canonical path. -/
def Reference.NamesOthers (dictionary : Dictionary) (context : Context) : Prop :=
  ∀ t ∈ dictionary.tokens, ∀ r ∈ named dictionary t,
    r.canonicalPath context.convention ≠ t.canonicalPath context.convention

open Reference (NamesOthers emitted)

variable {dictionary : Dictionary} {context : Context}

namespace Manner

variable {σ δ ε : Type}

/-- Tokens of different canonical paths are referred to differently, the one being a token of the
list and the other one any token that can be referred to. -/
def Distinguishes (manner : Manner σ δ ε) (dictionary : Dictionary) (context : Context) : Prop :=
  ∀ t ∈ dictionary.tokens, ∀ r ∈ dictionary.referents, manner.reference r = manner.reference t →
    r.canonicalPath context.convention = t.canonicalPath context.convention

/-- Each declaration holds what is emitted for the tokens that are shown of its source, and no
reference that is emitted for one of these is the declaration's own. -/
def NoneOwn (manner : Manner σ δ ε) (dictionary : Dictionary) (context : Context)
    (sources : List σ) (declarations : List δ) : Prop :=
  List.Forall₂ (fun source declaration =>
    manner.values declaration = (manner.shown source).map (manner.emit source) ∧
    ∀ t ∈ manner.shown source, ∀ r ∈ emitted dictionary context.outputReferences t,
      manner.reference r ≠ manner.own declaration) sources declarations

/-- What is emitted for a variant of a canonical path does not refer to that path. -/
theorem reference_ne_of_mem_emitted {manner : Manner σ δ ε}
    (others : NamesOthers dictionary context)
    (apart : manner.Distinguishes dictionary context) {t owner r : Token} {on : Bool}
    (ht : t ∈ dictionary.tokens) (howner : owner ∈ dictionary.tokens)
    (same : t.canonicalPath context.convention = owner.canonicalPath context.convention)
    (hr : r ∈ emitted dictionary on t) : manner.reference r ≠ manner.reference owner := by
  intro heq
  have hnamed := Reference.mem_named_of_mem_emitted hr
  have path := apart owner howner r (Reference.mem_referents_of_mem_named hnamed) heq
  exact others t ht r hnamed (path.trans same.symm)

/-- Declarations do not refer to themselves if each has the name of a token that shares the
canonical path of what the declaration shows. -/
theorem noneOwn_map {manner : Manner σ δ ε} (others : NamesOthers dictionary context)
    (apart : manner.Distinguishes dictionary context) {sources : List σ} (declare : σ → δ)
    (holds : ∀ source, manner.values (declare source) =
      (manner.shown source).map (manner.emit source))
    (owned : ∀ source ∈ sources, ∃ owner ∈ dictionary.tokens,
      manner.own (declare source) = manner.reference owner ∧
        ∀ t ∈ manner.shown source, t ∈ dictionary.tokens ∧
          t.canonicalPath context.convention = owner.canonicalPath context.convention) :
    manner.NoneOwn dictionary context sources (sources.map declare) := by
  refine List.forall₂_map_right_iff.2 (List.forall₂_same.2 fun source hsource => ?_)
  obtain ⟨owner, howner, name, variants⟩ := owned source hsource
  refine ⟨holds source, fun t ht r hr => ?_⟩
  rw [name]
  exact reference_ne_of_mem_emitted others apart (variants t ht).1 howner (variants t ht).2 hr

end Manner

/-! ### The declarations of each document -/

namespace Stylesheet

/-- A reference to the property of this name. -/
def varOf (name : String) : String :=
  "var(--" ++ name ++ ")"

/-- How the properties of a stylesheet are declared. -/
def manner (dictionary : Dictionary) (context : Context) : Manner Token Declaration String where
  reference r := varOf (propertyName dictionary context r)
  shown t := [t]
  emit _ := Reference.emit dictionary context.outputReferences fun r =>
    varOf (propertyName dictionary context r)
  values d := [d.value]
  own d := varOf d.name

theorem noneOwn_property (others : NamesOthers dictionary context)
    (apart : (manner dictionary context).Distinguishes dictionary context)
    {tokens : List Token} (listed : tokens ⊆ dictionary.tokens) :
    (manner dictionary context).NoneOwn dictionary context tokens
      (tokens.map (property dictionary context)) := by
  refine Manner.noneOwn_map others apart _ (fun t => rfl) fun t ht =>
    ⟨t, listed ht, rfl, fun u hu => ?_⟩
  rw [List.mem_singleton.1 hu]
  exact ⟨listed ht, rfl⟩

end Stylesheet

namespace Resources

def manner (side : ResourceSide) (dictionary : Dictionary) (context : Context) :
    Manner (List String × Pair) Resource String where
  reference := reference context
  shown group := [side.choose group.2]
  emit _ := Reference.emit dictionary context.outputReferences (reference context)
  values r := [r.value]
  own r := "@" ++ referenceType r.element ++ "/" ++ r.name

theorem noneOwn_ofSide (others : NamesOthers dictionary context)
    (side : ResourceSide)
    (apart : (manner side dictionary context).Distinguishes dictionary context) :
    (manner side dictionary context).NoneOwn dictionary context
      ((Groups.ofTokens context.convention dictionary.tokens).filter fun group => !group.1.isEmpty)
      (ofSide side dictionary context) := by
  refine Manner.noneOwn_map others apart _ (fun group => rfl) fun group hgroup => ?_
  have hmem := (List.mem_filter.1 hgroup).1
  have found := (Groups.increasing_ofTokens dictionary.tokens).mem_iff.1 hmem
  obtain ⟨ht, path⟩ := Groups.of_mem_variants found (side.choose_mem_variants group.2)
  refine ⟨side.choose group.2, ht, ?_, fun t htself => ?_⟩
  · simp [manner, reference, ofToken, path]
  · rw [List.mem_singleton.1 htself]
    exact ⟨ht, rfl⟩

end Resources

namespace SwiftMember

/-- What the value of a member holds. -/
def Body.values : Body → List String
  | .fixed value => [value]
  | .dynamic light dark => [light, dark]

/-- The variants that the member of a pair shows: both of a color, else the primary one. -/
def shown : Pair → List Token
  | .both light dark => if light.kind = .color then [light, dark] else [light]
  | .light t | .dark t => [t]

theorem mem_variants_of_mem_shown {pair : Pair} {t : Token} (h : t ∈ shown pair) :
    t ∈ pair.variants := by
  cases pair with
  | light _ | dark _ => simpa [shown] using h
  | both light dark =>
    by_cases color : light.kind = .color
    · simpa [shown, color] using h
    · have ht : t = light := by simpa [shown, color] using h
      simp [ht]

theorem values_ofPair (value : Token → String) (pair : Pair) :
    (Body.ofPair value pair).values = (shown pair).map value := by
  cases pair with
  | light _ | dark _ => rfl
  | both light dark =>
    by_cases color : light.kind = .color
    · simp [Body.ofPair, shown, Body.values, color]
    · simp [Body.ofPair, shown, Body.values, color]

end SwiftMember

namespace FlatEnum

/-- How the constants of a flat enum are declared. -/
def manner (dictionary : Dictionary) (context : Context) :
    Manner (List String × Pair) FlatMember String where
  reference r := Identifier.swift (memberName dictionary context r)
  shown group := SwiftMember.shown group.2
  emit _ := value dictionary context
  values m := m.body.values
  own m := Identifier.swift m.name

theorem exists_variant_pairName {tokens : List Token} {canonical : List String} {pair : Pair}
    (found : (Groups.ofTokens context.convention tokens).get? canonical = some pair) :
    ∃ t ∈ pair.variants, pairName dictionary context pair = memberName dictionary context t := by
  refine ⟨pair.preferLight, pair.preferLight_mem_variants, ?_⟩
  have light : ∀ t, pair.side false = some t → memberName dictionary context t = t.name := by
    intro t ht
    obtain ⟨-, -, isLight⟩ := Groups.of_side found ht
    simp [memberName, Token.sharedName, isLight]
  cases pair with
  | light t => exact (light t rfl).symm
  | dark t => rfl
  | both t d => exact (light t rfl).symm

theorem noneOwn_members (others : NamesOthers dictionary context)
    (apart : (manner dictionary context).Distinguishes dictionary context) :
    (manner dictionary context).NoneOwn dictionary context
      (Groups.ofTokens context.convention dictionary.tokens)
      (ofDictionary dictionary context).members := by
  refine Manner.noneOwn_map others apart _ (fun group => SwiftMember.values_ofPair _ group.2)
    fun group hgroup => ?_
  have found := (Groups.increasing_ofTokens dictionary.tokens).mem_iff.1 hgroup
  obtain ⟨owner, howner, name⟩ := exists_variant_pairName found
  obtain ⟨hmem, path⟩ := Groups.of_mem_variants found howner
  refine ⟨owner, hmem, congrArg Identifier.swift name, fun t ht => ?_⟩
  obtain ⟨htmem, tpath⟩ := Groups.of_mem_variants found (SwiftMember.mem_variants_of_mem_shown ht)
  exact ⟨htmem, tpath.trans path.symm⟩

end FlatEnum

namespace Container

variable {α ε : Type} {nameOf : α → String} {member : Leaf → α}

/-- A container whose members are those of grouped tokens, none of which refers to itself. -/
def NoneOwn (manner : Manner Leaf (List String × α) ε) (nameOf : α → String) (member : Leaf → α)
    (dictionary : Dictionary) (context : Context) (container : Container α) : Prop :=
  ∃ leaves : List Leaf,
    (∀ leaf ∈ leaves,
      (Groups.ofTokens context.convention dictionary.tokens).get? leaf.path = some leaf.pair) ∧
    (container.declared nameOf).map Prod.snd = leaves.map member ∧
    manner.NoneOwn dictionary context leaves (container.declared nameOf)

theorem noneOwn_of_declaresAll {manner : Manner Leaf (List String × α) ε} {container : Container α}
    (all : container.DeclaresAll nameOf member manner.reference context.convention
      dictionary.tokens)
    (others : NamesOthers dictionary context)
    (apart : manner.Distinguishes dictionary context)
    (own : ∀ entry, manner.own entry = ".".intercalate entry.1)
    (holds : ∀ names leaf, manner.values (names, member leaf) =
      (manner.shown leaf).map (manner.emit leaf))
    (variants : ∀ leaf, ∀ t ∈ manner.shown leaf, t ∈ leaf.pair.variants) :
    container.NoneOwn manner nameOf member dictionary context := by
  obtain ⟨leaves, names, nodup, paths, pairs, declared, referred⟩ := all
  refine ⟨leaves, pairs, by simp [declared], ?_⟩
  rw [declared]
  refine Manner.noneOwn_map others apart _ (fun leaf => holds _ leaf) fun leaf hleaf => ?_
  obtain ⟨howner, path⟩ :=
    Groups.of_mem_variants (pairs leaf hleaf) leaf.pair.preferLight_mem_variants
  have hne : leaf.pair.preferLight.path ≠ [] := by
    intro hnil
    have hpath : leaf.path ≠ [] := ((paths leaf.path).1 (List.mem_map_of_mem hleaf)).1
    rw [← path, Token.canonicalPath, hnil] at hpath
    exact hpath (by cases context.convention <;> rfl)
  -- The variant is referred to by the chain of a leaf of the same path, so by that of this one.
  obtain ⟨other, hother, same, name⟩ := referred _ howner hne
  have heq : other = leaf := List.inj_on_of_nodup_map nodup hother hleaf (same.trans path)
  refine ⟨leaf.pair.preferLight, howner, by rw [own, name, heq], fun t ht => ?_⟩
  obtain ⟨htmem, tpath⟩ := Groups.of_mem_variants (pairs leaf hleaf) (variants leaf t ht)
  exact ⟨htmem, tpath.trans path.symm⟩

end Container

namespace NestedEnum

def manner (dictionary : Dictionary) (context : Context) :
    Manner Leaf (List String × NestedMember) String where
  reference := memberReference context
  shown leaf := SwiftMember.shown leaf.pair
  emit _ := value dictionary context
  values entry := entry.2.body.values
  own entry := ".".intercalate entry.1

end NestedEnum

namespace ComposeTheme

def manner (dictionary : Dictionary) (context : Context) :
    Manner Leaf (List String × ThemeMember) ThemeExpression where
  reference := memberReference context
  shown leaf := leaf.pair.variants
  emit leaf := expression dictionary context leaf.pair.preferLight.kind
  values entry :=
    match entry.2.body with
    | .initializer value => [value]
    | .getter light dark => [light, dark]
  own entry := ".".intercalate entry.1

end ComposeTheme

/-! ### All documents -/

/-- **No declaration refers to itself** when no token names a token of its own canonical path and
the document refers to different canonical paths differently. -/
theorem declarations_refer_to_others (dictionary : Dictionary) (context : Context)
    (others : NamesOthers dictionary context) :
    ((Stylesheet.manner dictionary context).Distinguishes dictionary context →
      ∀ dialect rule, ∃ light dark aliases,
        Stylesheet.ofVariants dialect rule dictionary context =
          .moded dialect rule light dark aliases ∧
        (Stylesheet.manner dictionary context).NoneOwn dictionary context
          (dictionary.tokens.filter fun t => !t.isDark context.convention) light ∧
        (Stylesheet.manner dictionary context).NoneOwn dictionary context
          (dictionary.tokens.filter fun t => t.isDark context.convention) dark) ∧
    (∀ side : ResourceSide,
      (Resources.manner side dictionary context).Distinguishes dictionary context →
      (Resources.manner side dictionary context).NoneOwn dictionary context
        ((Groups.ofTokens context.convention dictionary.tokens).filter fun group =>
          !group.1.isEmpty)
        (Resources.ofSide side dictionary context)) ∧
    ((FlatEnum.manner dictionary context).Distinguishes dictionary context →
      (FlatEnum.manner dictionary context).NoneOwn dictionary context
        (Groups.ofTokens context.convention dictionary.tokens)
        (FlatEnum.ofDictionary dictionary context).members) ∧
    ((NestedEnum.manner dictionary context).Distinguishes dictionary context →
      (NestedEnum.ofDictionary dictionary context).NoneOwn (NestedEnum.manner dictionary context)
        NestedMember.name (NestedEnum.member dictionary context) dictionary context) ∧
    ((ComposeTheme.manner dictionary context).Distinguishes dictionary context →
      (ComposeTheme.ofDictionary dictionary context).root.NoneOwn
        (ComposeTheme.manner dictionary context) ThemeMember.name
        (ComposeTheme.member dictionary context) dictionary context) := by
  refine ⟨fun apart dialect rule => ⟨_, _, _, rfl, ?_, ?_⟩, Resources.noneOwn_ofSide others,
    FlatEnum.noneOwn_members others, fun apart => ?_, fun apart => ?_⟩
  · exact Stylesheet.noneOwn_property others apart List.filter_sublist.subset
  · exact Stylesheet.noneOwn_property others apart List.filter_sublist.subset
  · refine Container.noneOwn_of_declaresAll (NestedEnum.declaresAll dictionary context) others apart
      (fun _ => rfl) (fun _ leaf => SwiftMember.values_ofPair _ leaf.pair) fun leaf t => ?_
    exact SwiftMember.mem_variants_of_mem_shown
  · refine Container.noneOwn_of_declaresAll (ComposeTheme.declaresAll dictionary context) others
      apart (fun _ => rfl) (fun _ ⟨path, pair⟩ => ?_) fun leaf t => id
    cases pair <;> rfl

/-! ### Declarations that do -/

def referring : Context :=
  { destination := "", outputReferences := true }

/-- A token and its dark variant, both written as a reference to a third one. -/
def pageOnWhite : Dictionary :=
  .ofTokens [.ofValue ["color", "white"] "white" (.string "#fff"),
    (Token.ofValue ["color", "page"] "page" (.string "#fff")).writtenAs "\x7bcolor.white\x7d",
    (Token.ofValue ["color", "dark", "page"] "dark-page" (.string "#fff")).writtenAs
      "\x7bcolor.white\x7d"]

theorem declarations_refer_to_others_pageOnWhite :
    NamesOthers pageOnWhite referring ∧
    pageOnWhite.tokens.map (fun t => (Reference.emitted pageOnWhite true t).map Token.name) =
      [[], ["white"], ["white"]] ∧
    ((Stylesheet.manner pageOnWhite referring).Distinguishes pageOnWhite referring ∧
      (Resources.manner .light pageOnWhite referring).Distinguishes pageOnWhite referring ∧
      (FlatEnum.manner pageOnWhite referring).Distinguishes pageOnWhite referring ∧
      (NestedEnum.manner pageOnWhite referring).Distinguishes pageOnWhite referring ∧
      (ComposeTheme.manner pageOnWhite referring).Distinguishes pageOnWhite referring) ∧
    (NestedEnum.ofDictionary pageOnWhite referring).NoneOwn
      (NestedEnum.manner pageOnWhite referring) NestedMember.name
      (NestedEnum.member pageOnWhite referring) pageOnWhite referring := by
  have others : NamesOthers pageOnWhite referring := by
    unfold NamesOthers
    decide +kernel
  have nested : (NestedEnum.manner pageOnWhite referring).Distinguishes pageOnWhite referring := by
    unfold Manner.Distinguishes
    decide +kernel
  have none := (declarations_refer_to_others pageOnWhite referring others).2.2.2.1 nested
  refine ⟨others, by decide +kernel, ⟨?_, ?_, ?_, nested, ?_⟩, none⟩
  all_goals
    unfold Manner.Distinguishes
    decide +kernel

/-- A token and its dark variant, which is written as a reference to it. -/
def pageOnItself : Dictionary :=
  .ofTokens [.ofValue ["color", "page"] "page" (.string "#fff"),
    (Token.ofValue ["color", "dark", "page"] "dark-page" (.string "#000")).writtenAs
      "\x7bcolor.page\x7d"]

/-- Two tokens of one name, one of which is written as a reference to the other. -/
def pageTwice : Dictionary :=
  .ofTokens [.ofValue ["color", "page"] "page" (.string "#fff"),
    (Token.ofValue ["color", "sheet"] "page" (.string "#fff")).writtenAs "\x7bcolor.page\x7d"]

/-- What is emitted for a token refers to the token's own property. -/
def Stylesheet.RefersToItself (dictionary : Dictionary) (context : Context) (t : Token) : Prop :=
  ∃ r ∈ emitted dictionary context.outputReferences t,
    (manner dictionary context).reference r =
      (manner dictionary context).own (property dictionary context t)

/-- The property of a dark variant that names its counterpart is a reference to itself, and so is
that of a token that names another one of the same name, though no chain of references returns to
its start. -/
theorem declaration_refers_to_itself :
    (Reference.Acyclic pageOnItself ∧
      (Stylesheet.manner pageOnItself referring).Distinguishes pageOnItself referring ∧
      ∃ t ∈ pageOnItself.tokens,
        (Stylesheet.property pageOnItself referring t).name = "page" ∧
        (Stylesheet.property pageOnItself referring t).value = "var(--page)" ∧
        Stylesheet.RefersToItself pageOnItself referring t) ∧
    (Reference.Acyclic pageTwice ∧ NamesOthers pageTwice referring ∧
      ∃ t ∈ pageTwice.tokens,
        (Stylesheet.property pageTwice referring t).name = "page" ∧
        (Stylesheet.property pageTwice referring t).value = "var(--page)" ∧
        Stylesheet.RefersToItself pageTwice referring t) := by
  let rank : Token → Nat := fun t => (t.expression?.getD "").length
  refine ⟨⟨Reference.acyclic_of_rank_lt rank (by decide +kernel), ?_, ?_⟩,
    Reference.acyclic_of_rank_lt rank (by decide +kernel), ?_, ?_⟩
  · unfold Manner.Distinguishes
    decide +kernel
  · unfold Stylesheet.RefersToItself
    decide +kernel
  · unfold NamesOthers
    decide +kernel
  · unfold Stylesheet.RefersToItself
    decide +kernel

end DesignTokens

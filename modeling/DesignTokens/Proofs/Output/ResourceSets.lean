import DesignTokens.Proofs.Mode.Grouping
import DesignTokens.Proofs.Output.ResourceText
import DesignTokens.Proofs.Reference.Emitted
import Mathlib.Data.List.Forall2
import Mathlib.Data.List.Perm.Subperm

/-!
# The names that resource files declare

A reader finds in the two files of one side each every canonical path once, in order and under the
same names, so that what a reference names is declared in both (`sides_declare_alike`).

The file of both sides lists every token. It has one entry for a variant of a canonical path if no
token of that variant is repeated, and what a reference names is declared if its canonical path has
a light token (`variants_declare_iff`); otherwise names are declared twice, or not at all
(`variants_repeat_and_dangle`).
-/

namespace DesignTokens

open Reference (emitted mem_tokens_of_mem_emitted)

/-- Whether the variants of a side are dark ones. -/
def ResourceSide.isDark : ResourceSide → Bool
  | light => false
  | dark => true

/-- The last token of a canonical path that is a variant of the side, else the last one that is a
variant of the other side. -/
def ResourceSide.last? (side : ResourceSide) (convention : Convention) (tokens : List Token)
    (canonical : List String) : Option Token :=
  (Token.slot convention canonical side.isDark tokens).getLast?.or
    (Token.slot convention canonical (!side.isDark) tokens).getLast?

/-- The variant that is chosen from a group is the last one of the side, if there is one. -/
theorem ResourceSide.last?_eq {convention : Convention} {tokens : List Token}
    {canonical : List String} {pair : Pair}
    (found : (Groups.ofTokens convention tokens).get? canonical = some pair) (side : ResourceSide) :
    side.last? convention tokens canonical = some (side.choose pair) := by
  have last := @Groups.bind_side_get?_ofTokens convention tokens canonical
  rw [found] at last
  rw [last?, ← last, ← last]
  cases side <;> cases pair <;> rfl

theorem ResourceSide.choose_mem_variants (side : ResourceSide) (pair : Pair) :
    side.choose pair ∈ pair.variants := by
  cases side
  · exact pair.preferLight_mem_variants
  · exact pair.preferDark_mem_variants

/-- How a resource is referred to. -/
def Resource.address (r : Resource) : String :=
  "@" ++ Resources.referenceType r.element ++ "/" ++ r.name

namespace Resources

theorem address_ofToken (dictionary : Dictionary) (context : Context) (name : String) (t : Token) :
    (ofToken dictionary context name t).address =
      "@" ++ referenceType (elementOf t.kind) ++ "/" ++ name :=
  rfl

section Sides

variable {dictionary : Dictionary} {context : Context}

/-! ### The files of one side -/

variable (dictionary context) in
/-- The canonical paths with a resource. -/
def paths : List (List String) :=
  ((Groups.ofTokens context.convention dictionary.tokens).map Prod.fst).filter fun path =>
    !path.isEmpty

theorem mem_paths {path : List String} :
    path ∈ paths dictionary context ↔
      path ≠ [] ∧ ∃ t ∈ dictionary.tokens, t.canonicalPath context.convention = path := by
  rw [paths, List.mem_filter, ← SortedAssoc.isSome_find?_iff, ← Groups.get?,
    Groups.isSome_get?_ofTokens]
  simp [and_comm]

theorem pairwise_paths : (paths dictionary context).Pairwise (· < ·) :=
  (Groups.increasing_ofTokens dictionary.tokens).filter _

/-- A file of one side lists, for each path, the token that is chosen for it. -/
theorem forall₂_ofSide (side : ResourceSide) :
    List.Forall₂ (fun path entry => ∃ t,
        side.last? context.convention dictionary.tokens path = some t ∧
        entry = ofToken dictionary context (nameOf context path) t)
      (paths dictionary context) (ofSide side dictionary context) := by
  have same : paths dictionary context =
      ((Groups.ofTokens context.convention dictionary.tokens).filter fun group =>
        !group.1.isEmpty).map Prod.fst := by
    rw [paths, List.filter_map]
    rfl
  rw [same, ofSide, List.forall₂_map_left_iff, List.forall₂_map_right_iff, List.forall₂_same]
  intro group hgroup
  have found :=
    (Groups.increasing_ofTokens dictionary.tokens).mem_iff.1 (List.mem_filter.1 hgroup).1
  exact ⟨_, ResourceSide.last?_eq found side, rfl⟩

theorem exists_mem_ofSide {path : List String} (h : path ∈ paths dictionary context)
    (side : ResourceSide) : ∃ t ∈ dictionary.tokens,
      t.canonicalPath context.convention = path ∧
      ofToken dictionary context (nameOf context path) t ∈ ofSide side dictionary context := by
  obtain ⟨named, listed⟩ := mem_paths.1 h
  obtain ⟨pair, found⟩ := Option.isSome_iff_exists.1
    ((Groups.isSome_get?_ofTokens dictionary.tokens path).2 listed)
  obtain ⟨ht, canonical⟩ := Groups.of_mem_variants found (side.choose_mem_variants pair)
  refine ⟨_, ht, canonical, List.mem_map.2 ⟨(path, pair), List.mem_filter.2 ⟨?_, ?_⟩, rfl⟩⟩
  · exact (Groups.increasing_ofTokens dictionary.tokens).mem_iff.2 found
  · simpa using named

variable (dictionary context) in
/-- The entry lists the token under the name of its path. The value is what is emitted for the
token, and in it other tokens are referred to as resources. -/
def ListsToken (path : List String) (t : Token) (entry : Entry) : Prop :=
  entry.1 = elementOf t.kind ∧ entry.2.1 = nameOf context path ∧
    ∀ format : Token → String,
      (∀ r ∈ emitted dictionary context.outputReferences t, format r = reference context r) →
      entry.2.2 = Reference.emit dictionary context.outputReferences format t

theorem listsToken_ofToken (path : List String) (t : Token) :
    ListsToken dictionary context path t
      (ofToken dictionary context (nameOf context path) t).entry :=
  ⟨rfl, rfl, fun _ same => Reference.emit_congr fun r hr => (same r hr).symm⟩

/-- The files of both sides have the same names in the same order. -/
theorem map_name_ofSide (side : ResourceSide) :
    ((ofSide side dictionary context).map Resource.entry).map (fun entry => entry.2.1) =
      (paths dictionary context).map (nameOf context) := by
  rw [ofSide, paths, List.filter_map, List.map_map, List.map_map, List.map_map]
  rfl

theorem forall₂_entry_ofSide (side : ResourceSide) :
    List.Forall₂ (fun path entry => ∃ t,
        side.last? context.convention dictionary.tokens path = some t ∧
        ListsToken dictionary context path t entry)
      (paths dictionary context) ((ofSide side dictionary context).map Resource.entry) := by
  rw [List.forall₂_map_right_iff]
  refine (forall₂_ofSide side).imp fun path entry => ?_
  rintro ⟨t, last, rfl⟩
  exact ⟨t, last, listsToken_ofToken path t⟩

/-- What is emitted for a token refers to a resource of each side, unless to a token without a
path; and under its type if the tokens of one path have one kind. -/
theorem exists_entry (own : dictionary.referents = dictionary.tokens) {t r : Token}
    (hr : r ∈ emitted dictionary context.outputReferences t) (named : r.path ≠ [])
    (side : ResourceSide) :
    ∃ element value,
      (element, nameOf context (r.canonicalPath context.convention), value) ∈
        (ofSide side dictionary context).map Resource.entry ∧
      ((∀ u ∈ dictionary.tokens,
          u.canonicalPath context.convention = r.canonicalPath context.convention →
          u.kind = r.kind) →
        element = elementOf r.kind ∧
        "@" ++ referenceType element ++ "/" ++ nameOf context (r.canonicalPath context.convention) =
          reference context r) := by
  have listed := mem_tokens_of_mem_emitted own hr
  have path := mem_paths.2 ⟨context.convention.unmark_ne_nil named, r, listed, rfl⟩
  obtain ⟨u, hu, canonical, entry⟩ := exists_mem_ofSide path side
  refine ⟨elementOf u.kind, _, List.mem_map.2 ⟨_, entry, rfl⟩, fun kinds => ?_⟩
  rw [kinds u hu canonical]
  exact ⟨rfl, rfl⟩

end Sides

/-- **Two views of one set.** A reader finds the same names in the same order in the documents of
the two sides, one for each canonical path that is not empty and the paths in order: the light one
lists the last light token of a path, else the last dark one, and the dark one the other way round.
What is emitted in them refers to names that are found in both, under the type of the element if the
tokens of a canonical path have one kind. -/
theorem sides_declare_alike (dictionary : Dictionary) (context : Context)
    (own : dictionary.referents = dictionary.tokens) :
    ∃ (paths : List (List String)) (entries : ResourceSide → List Entry),
      paths.Pairwise (· < ·) ∧
      (∀ path, path ∈ paths ↔
        path ≠ [] ∧ ∃ t ∈ dictionary.tokens, t.canonicalPath context.convention = path) ∧
      (∀ side,
        Lists (Format.document dictionary context (.resources (some side))) context.header
          (entries side) ∧
        (entries side).map (fun entry => entry.2.1) = paths.map (nameOf context) ∧
        List.Forall₂ (fun path entry => ∃ t,
            side.last? context.convention dictionary.tokens path = some t ∧
            ListsToken dictionary context path t entry)
          paths (entries side)) ∧
      ∀ t ∈ dictionary.tokens, ∀ r ∈ emitted dictionary context.outputReferences t,
        r.path ≠ [] → ∀ side, ∃ element value,
          (element, nameOf context (r.canonicalPath context.convention), value) ∈ entries side ∧
          ((∀ u ∈ dictionary.tokens,
              u.canonicalPath context.convention = r.canonicalPath context.convention →
              u.kind = r.kind) →
            element = elementOf r.kind ∧
            "@" ++ referenceType element ++ "/" ++
                nameOf context (r.canonicalPath context.convention) = reference context r) := by
  refine ⟨Resources.paths dictionary context,
    fun side => (ofSide side dictionary context).map Resource.entry, pairwise_paths,
    fun path => mem_paths,
    fun side => ⟨lists_text _ _, map_name_ofSide side, forall₂_entry_ofSide side⟩,
    fun t _ r hr named => exists_entry own hr named⟩

/-- The context in which references are on. -/
def referencing : Context :=
  { destination := "colors.xml", outputReferences := true }

/-- A token with both variants, a dark variant without a counterpart, and a reference to it. -/
def nightShadow : Dictionary :=
  .ofTokens [.ofValue ["size", "gap"] "gap" (.string "8px"),
    .ofValue ["color", "dark", "page"] "dark-page" (.string "#111"),
    .ofValue ["color", "page"] "page" (.string "#fff"),
    .ofValue ["color", "dark", "shadow"] "dark-shadow" (.string "#000"),
    (Token.ofValue ["size", "glow"] "glow" (.string "0 0 #000")).writtenAs
      "0 0 \x7bcolor.dark.shadow\x7d"]

theorem sides_declare_alike_nightShadow :
    nightShadow.referents = nightShadow.tokens ∧
    read? (Format.document nightShadow referencing (.resources (some .light))) =
      some [(.item, "xpl_color_page", "#fff"), (.item, "xpl_color_shadow", "#000"),
        (.item, "xpl_size_gap", "8px"), (.item, "xpl_size_glow", "0 0 @string/xpl_color_shadow")] ∧
    read? (Format.document nightShadow referencing (.resources (some .dark))) =
      some [(.item, "xpl_color_page", "#111"), (.item, "xpl_color_shadow", "#000"),
        (.item, "xpl_size_gap", "8px"), (.item, "xpl_size_glow", "0 0 @string/xpl_color_shadow")] ∧
    ∃ entries : ResourceSide → List Entry,
      (∀ side, read? (Format.document nightShadow referencing (.resources (some side))) =
        some (entries side)) ∧
      ∀ t ∈ nightShadow.tokens, ∀ r ∈ emitted nightShadow true t, ∀ side, ∃ element value,
        (element, nameOf referencing (r.canonicalPath .standard), value) ∈ entries side ∧
        "@" ++ referenceType element ++ "/" ++ nameOf referencing (r.canonicalPath .standard) =
          reference referencing r := by
  obtain ⟨_, entries, -, -, found, declared⟩ := sides_declare_alike nightShadow referencing rfl
  have markup : Markup.AtMostOneComment referencing.header :=
    (Header.atMostOneComment_iff referencing.destination []).2 (.inl (by decide))
  have listed : ∀ side,
      read? (Format.document nightShadow referencing (.resources (some side))) =
        some ((ofSide side nightShadow referencing).map Resource.entry) :=
    fun side => (lists_text referencing.header (ofSide side nightShadow referencing)).whole markup
  have alike : ∀ t ∈ nightShadow.tokens, ∀ r ∈ emitted nightShadow true t, r.path ≠ [] ∧
      ∀ u ∈ nightShadow.tokens, u.canonicalPath .standard = r.canonicalPath .standard →
        u.kind = r.kind := by
    decide +kernel
  refine ⟨rfl, ?_, ?_, entries, fun side => (found side).1.whole markup, fun t ht r hr side => ?_⟩
  · rw [listed]
    decide +kernel
  · rw [listed]
    decide +kernel
  · obtain ⟨named, kinds⟩ := alike t ht r hr
    obtain ⟨element, value, entry, address⟩ := declared t ht r hr named side
    exact ⟨element, value, entry, (address kinds).2⟩

/-! ### The file of both sides -/

section Variants

variable {dictionary : Dictionary} {context : Context}

/-- The name of the variants of a canonical path that are light, or of those that are dark. -/
def slotName (context : Context) (canonical : List String) (isDark : Bool) : String :=
  Identifier.resourceName canonical
    (some (if isDark then context.stem ++ "_dark" else context.stem))

theorem variantName_of_mem_slot {canonical : List String} {isDark : Bool} {tokens : List Token}
    {t : Token} (h : t ∈ Token.slot context.convention canonical isDark tokens) :
    variantName context t = slotName context canonical isDark := by
  obtain ⟨-, rfl, rfl⟩ := Token.mem_slot.1 h
  rfl

theorem slotName_true_ne (canonical : List String) :
    slotName context canonical true ≠ nameOf context canonical := by
  intro same
  have stem : context.stem ≠ "" := by
    unfold Context.stem
    cases chosen : context.stemOption.filter (!·.isEmpty) with
    | none => decide
    | some stem => simpa using (Option.filter_eq_some_iff.1 chosen).2
  have length := congrArg String.length same
  simp [slotName, nameOf, Identifier.resourceName, stem] at length

/-- A file has one entry for each slot of a canonical path that a token fills, that of the last
token of the slot. -/
def OnePerSlot (dictionary : Dictionary) (context : Context) (entries : List Resource) : Prop :=
  ∃ slots : List (List String × Bool),
    slots.Nodup ∧
    (∀ canonical isDark, (canonical, isDark) ∈ slots ↔
      canonical ≠ [] ∧ Token.slot context.convention canonical isDark dictionary.tokens ≠ []) ∧
    List.Forall₂ (fun slot entry => ∃ t,
        (Token.slot context.convention slot.1 slot.2 dictionary.tokens).getLast? = some t ∧
        entry = ofToken dictionary context (variantName context t) t)
      slots entries

variable (dictionary context) in
def listed : List Token :=
  dictionary.tokens.filter fun t => !(t.canonicalPath context.convention).isEmpty

variable (context) in
/-- The slot that a token fills. -/
def slotOf (t : Token) : List String × Bool :=
  (t.canonicalPath context.convention, t.isDark context.convention)

theorem mem_listed {t : Token} :
    t ∈ listed dictionary context ↔
      t ∈ dictionary.tokens ∧ t.canonicalPath context.convention ≠ [] := by
  simp [listed]

theorem slot_listed {canonical : List String} (named : canonical ≠ []) (isDark : Bool) :
    Token.slot context.convention canonical isDark (listed dictionary context) =
      Token.slot context.convention canonical isDark dictionary.tokens := by
  rw [Token.slot, listed, List.filter_filter, Token.slot]
  refine List.filter_congr fun t _ => ?_
  rw [Bool.eq_iff_iff]
  simp only [Bool.and_eq_true, decide_eq_true_eq, Bool.not_eq_true', List.isEmpty_eq_false_iff]
  exact ⟨And.left, fun fills => ⟨fills, fills.1 ▸ named⟩⟩

theorem mem_map_slotOf {canonical : List String} {isDark : Bool} :
    (canonical, isDark) ∈ (listed dictionary context).map (slotOf context) ↔
      canonical ≠ [] ∧ Token.slot context.convention canonical isDark dictionary.tokens ≠ [] := by
  constructor
  · intro filled
    obtain ⟨t, ht, hslot⟩ := List.mem_map.1 filled
    obtain ⟨rfl, rfl⟩ := Prod.mk.inj hslot
    obtain ⟨hmem, named⟩ := mem_listed.1 ht
    exact ⟨named, List.ne_nil_of_mem (Token.mem_slot.2 ⟨hmem, rfl, rfl⟩)⟩
  · rintro ⟨named, filled⟩
    obtain ⟨t, ht⟩ := List.exists_mem_of_ne_nil _ filled
    obtain ⟨hmem, rfl, rfl⟩ := Token.mem_slot.1 ht
    exact List.mem_map.2 ⟨t, mem_listed.2 ⟨hmem, named⟩, rfl⟩

theorem count_map_slotOf {canonical : List String} (named : canonical ≠ []) (isDark : Bool) :
    ((listed dictionary context).map (slotOf context)).count (canonical, isDark) =
      (Token.slot context.convention canonical isDark dictionary.tokens).length := by
  rw [← slot_listed named, Token.slot, ← List.countP_eq_length_filter, List.count_eq_countP,
    List.countP_map]
  refine List.countP_congr fun t _ => ?_
  simp [slotOf]

theorem nodup_map_slotOf_iff :
    ((listed dictionary context).map (slotOf context)).Nodup ↔
      ∀ canonical isDark, canonical ≠ [] →
        (Token.slot context.convention canonical isDark dictionary.tokens).length ≤ 1 := by
  rw [List.nodup_iff_count_le_one]
  constructor
  · intro once canonical isDark named
    rw [← count_map_slotOf named]
    exact once _
  · rintro once ⟨canonical, isDark⟩
    by_cases named : canonical = []
    · rw [List.count_eq_zero_of_not_mem fun filled => (mem_map_slotOf.1 filled).1 named]
      exact Nat.zero_le 1
    · rw [count_map_slotOf named]
      exact once canonical isDark named

theorem onePerSlot_ofVariants :
    OnePerSlot dictionary context (ofVariants dictionary context) ↔
      ∀ canonical isDark, canonical ≠ [] →
        (Token.slot context.convention canonical isDark dictionary.tokens).length ≤ 1 := by
  rw [← nodup_map_slotOf_iff]
  constructor
  · rintro ⟨slots, nodup, filled, entries⟩
    -- As many different slots as there are entries: each token fills its own.
    have subset : slots ⊆ (listed dictionary context).map (slotOf context) :=
      fun slot hslot => mem_map_slotOf.2 ((filled slot.1 slot.2).1 hslot)
    have length : ((listed dictionary context).map (slotOf context)).length ≤ slots.length := by
      rw [entries.length_eq, ofVariants, List.length_map, List.length_map, listed]
    exact ((nodup.subperm subset).perm_of_length_le length).nodup_iff.1 nodup
  · intro nodup
    refine ⟨_, nodup, fun canonical isDark => mem_map_slotOf, ?_⟩
    rw [ofVariants, ← listed, List.forall₂_map_left_iff, List.forall₂_map_right_iff,
      List.forall₂_same]
    intro t ht
    obtain ⟨hmem, named⟩ := mem_listed.1 ht
    have fills : t ∈ Token.slot context.convention (slotOf context t).1 (slotOf context t).2
        dictionary.tokens := Token.mem_slot.2 ⟨hmem, rfl, rfl⟩
    have once := nodup_map_slotOf_iff.1 nodup (slotOf context t).1 (slotOf context t).2 named
    obtain ⟨u, only⟩ := List.length_eq_one_iff.1
      (Nat.le_antisymm once (List.length_pos_of_mem fills))
    obtain rfl := List.mem_singleton.1 (only ▸ fills)
    exact ⟨t, by rw [only]; rfl, rfl⟩

/-- All tokens of a slot are listed under its name, in their order. -/
theorem map_slot_sublist {canonical : List String} (named : canonical ≠ []) (isDark : Bool) :
    ((Token.slot context.convention canonical isDark dictionary.tokens).map
      (ofToken dictionary context (slotName context canonical isDark))).Sublist
        (ofVariants dictionary context) := by
  have same : (Token.slot context.convention canonical isDark dictionary.tokens).map
        (ofToken dictionary context (slotName context canonical isDark)) =
      (Token.slot context.convention canonical isDark (listed dictionary context)).map fun t =>
        ofToken dictionary context (variantName context t) t := by
    rw [slot_listed named]
    exact List.map_congr_left fun t ht => by rw [variantName_of_mem_slot ht]
  rw [same]
  exact List.filter_sublist.map _

theorem mem_ofVariants {entry : Resource} :
    entry ∈ ofVariants dictionary context ↔
      ∃ t ∈ dictionary.tokens, t.canonicalPath context.convention ≠ [] ∧
        entry = ofToken dictionary context (variantName context t) t := by
  rw [ofVariants, ← listed, List.mem_map]
  simp only [mem_listed, and_assoc, @eq_comm _ entry]

theorem mem_ofVariants_of_light {t : Token} (ht : t ∈ dictionary.tokens) (named : t.path ≠ [])
    (light : t.isDark context.convention = false) :
    ofToken dictionary context (nameOf context t.path) t ∈ ofVariants dictionary context := by
  have path := Token.canonicalPath_of_not_isDark light
  refine mem_ofVariants.2 ⟨t, ht, path.symm ▸ named, ?_⟩
  rw [variantName, path, light]
  rfl

/-- The name by which tokens of a path are referred to is that of a light token of the path, if it
is not the name of a token of another path. -/
theorem exists_name_iff {canonical : List String} (named : canonical ≠ []) :
    (∃ entry ∈ ofVariants dictionary context, entry.name = nameOf context canonical) ↔
      (∃ l ∈ dictionary.tokens, l.isDark context.convention = false ∧ l.path = canonical) ∨
      ∃ u ∈ dictionary.tokens, u.canonicalPath context.convention ≠ [] ∧
        u.canonicalPath context.convention ≠ canonical ∧
        variantName context u = nameOf context canonical := by
  constructor
  · rintro ⟨entry, listed, name⟩
    obtain ⟨u, hu, uNamed, rfl⟩ := mem_ofVariants.1 listed
    by_cases path : u.canonicalPath context.convention = canonical
    · cases dark : u.isDark context.convention with
      | false => exact .inl ⟨u, hu, dark, Token.canonicalPath_of_not_isDark dark ▸ path⟩
      | true =>
        have fills := Token.mem_slot.2 ⟨hu, path, dark⟩
        exact absurd ((variantName_of_mem_slot fills).symm.trans name) (slotName_true_ne canonical)
    · exact .inr ⟨u, hu, uNamed, path, name⟩
  · rintro (⟨l, hl, light, rfl⟩ | ⟨u, hu, uNamed, -, name⟩)
    · exact ⟨_, mem_ofVariants_of_light hl named light, rfl⟩
    · exact ⟨_, mem_ofVariants.2 ⟨u, hu, uNamed, rfl⟩, name⟩

end Variants

/-- **One file for both sides.** A reader finds in the document what the file lists: all tokens of a
slot, in their order, under the name of the slot. There is one entry for each slot, that of its last
token, exactly when no slot is filled twice. The name by which a token is referred to is declared
exactly when its canonical path has a light token, unless a token of another path has that name; and
the light token is the one that is referred to if it has the same kind. -/
theorem variants_declare_iff (dictionary : Dictionary) (context : Context)
    (own : dictionary.referents = dictionary.tokens) :
    Format.document dictionary context (.resources none) =
      text context.header (ofVariants dictionary context) ∧
    Lists (Format.document dictionary context (.resources none)) context.header
      ((ofVariants dictionary context).map Resource.entry) ∧
    (OnePerSlot dictionary context (ofVariants dictionary context) ↔
      ∀ canonical isDark, canonical ≠ [] →
        (Token.slot context.convention canonical isDark dictionary.tokens).length ≤ 1) ∧
    (∀ canonical isDark, canonical ≠ [] →
      slotName context canonical true ≠ slotName context canonical false ∧
      ((Token.slot context.convention canonical isDark dictionary.tokens).map
        (ofToken dictionary context (slotName context canonical isDark))).Sublist
          (ofVariants dictionary context)) ∧
    (∀ t ∈ dictionary.tokens, ∀ r ∈ emitted dictionary context.outputReferences t, r.path ≠ [] →
      r ∈ dictionary.tokens ∧
      ((∃ entry ∈ ofVariants dictionary context,
          entry.name = nameOf context (r.canonicalPath context.convention)) ↔
        (∃ l ∈ dictionary.tokens, l.isDark context.convention = false ∧
          l.path = r.canonicalPath context.convention) ∨
        ∃ u ∈ dictionary.tokens, u.canonicalPath context.convention ≠ [] ∧
          u.canonicalPath context.convention ≠ r.canonicalPath context.convention ∧
          variantName context u = nameOf context (r.canonicalPath context.convention)) ∧
      ∀ l ∈ dictionary.tokens, l.isDark context.convention = false →
        l.path = r.canonicalPath context.convention → l.kind = r.kind →
        ∃ entry ∈ ofVariants dictionary context,
          entry = ofToken dictionary context (nameOf context l.path) l ∧
          entry.address = reference context r) ∧
    ∀ (t : Token) (name : String) (format : Token → String),
      (∀ r ∈ emitted dictionary context.outputReferences t, format r = reference context r) →
      (ofToken dictionary context name t).value =
        Reference.emit dictionary context.outputReferences format t := by
  refine ⟨rfl, lists_text _ _, onePerSlot_ofVariants,
    fun canonical isDark named => ⟨slotName_true_ne canonical, map_slot_sublist named isDark⟩,
    fun t _ r hr named => ?_, fun t name format same => ?_⟩
  · have path := context.convention.unmark_ne_nil named
    refine ⟨mem_tokens_of_mem_emitted own hr, exists_name_iff path, fun l hl light same kind => ?_⟩
    refine ⟨_, mem_ofVariants_of_light hl (same ▸ path) light, rfl, ?_⟩
    rw [address_ofToken, reference, same, kind]
  · exact Reference.emit_congr fun r hr => (same r hr).symm

/-- A token, its dark variant, and a reference to the latter. -/
def shadowPair : Dictionary :=
  .ofTokens [.ofValue ["color", "shadow"] "shadow" (.string "#fff"),
    .ofValue ["color", "dark", "shadow"] "dark-shadow" (.string "#000"),
    (Token.ofValue ["size", "glow"] "glow" (.string "0 0 #000")).writtenAs
      "0 0 \x7bcolor.dark.shadow\x7d"]

theorem variants_declare_iff_shadowPair :
    shadowPair.referents = shadowPair.tokens ∧
    (ofVariants shadowPair referencing).map (fun r => (r.name, r.value)) =
      [("xpl_color_shadow", "#fff"), ("xpl_dark_color_shadow", "#000"),
        ("xpl_size_glow", "0 0 @string/xpl_color_shadow")] ∧
    OnePerSlot shadowPair referencing (ofVariants shadowPair referencing) ∧
    ∀ t ∈ shadowPair.tokens, ∀ r ∈ emitted shadowPair true t,
      ∃ entry ∈ ofVariants shadowPair referencing,
        entry.name = nameOf referencing (r.canonicalPath .standard) := by
  obtain ⟨-, -, one, -, references, -⟩ := variants_declare_iff shadowPair referencing rfl
  have once : ((listed shadowPair referencing).map (slotOf referencing)).Nodup := by decide +kernel
  have light : ∀ t ∈ shadowPair.tokens, ∀ r ∈ emitted shadowPair true t, r.path ≠ [] ∧
      ∃ l ∈ shadowPair.tokens, l.isDark .standard = false ∧ l.path = r.canonicalPath .standard := by
    decide +kernel
  refine ⟨rfl, by decide +kernel, one.2 (nodup_map_slotOf_iff.1 once), fun t ht r hr => ?_⟩
  obtain ⟨named, counterpart⟩ := light t ht r hr
  exact (references t ht r hr named).2.1.2 (.inl counterpart)

/-- Two tokens of one path. -/
def gapTwice : Dictionary :=
  .ofTokens [.ofValue ["size", "gap"] "gap" (.string "1px"),
    .ofValue ["size", "gap"] "gap" (.string "2px")]

/-- A token that is listed twice is declared twice, and a reference to a dark variant without a
counterpart names no entry. -/
theorem variants_repeat_and_dangle :
    (gapTwice.referents = gapTwice.tokens ∧
      (ofVariants gapTwice referencing).map (fun r => (r.name, r.value)) =
        [("xpl_size_gap", "1px"), ("xpl_size_gap", "2px")] ∧
      ¬ OnePerSlot gapTwice referencing (ofVariants gapTwice referencing)) ∧
    nightShadow.referents = nightShadow.tokens ∧
    (ofVariants nightShadow referencing).map (fun r => (r.name, r.value)) =
      [("xpl_size_gap", "8px"), ("xpl_dark_color_page", "#111"), ("xpl_color_page", "#fff"),
        ("xpl_dark_color_shadow", "#000"), ("xpl_size_glow", "0 0 @string/xpl_color_shadow")] ∧
    ∃ t ∈ nightShadow.tokens, ∃ r ∈ emitted nightShadow true t, r.path ≠ [] ∧
      ∀ entry ∈ ofVariants nightShadow referencing,
        entry.name ≠ nameOf referencing (r.canonicalPath .standard) := by
  refine ⟨⟨rfl, by decide +kernel, fun one => ?_⟩, rfl, by decide +kernel, by decide +kernel⟩
  have once := nodup_map_slotOf_iff.2 (onePerSlot_ofVariants.1 one)
  exact absurd once (by decide +kernel)

end Resources
end DesignTokens

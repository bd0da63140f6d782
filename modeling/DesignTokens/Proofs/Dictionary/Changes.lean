import DesignTokens.Platform.Plan
import DesignTokens.Proofs.Dictionary.Legible
import DesignTokens.Proofs.Reference.Referents
import Mathlib

/-!
# Runs of changes

A dictionary shows its tokens as a list, as an index of referents and as a tree. Filters, transforms
and building anew change it (`Dictionary.change`), and a run is any sequence of such changes. What
one change does to each of the three is said once (`tokens_change`, `referents_change`,
`tree_change`); what a run does follows along its changes.

As filters do not look at values and transforms change nothing else, the filters and the transforms
of a run can be told apart, in whatever order they came (`tokens_run`). The referents are the tokens
that were left when the index was last made (`referents_run`).
-/

namespace DesignTokens

/-! ### Tokens with other values -/

def Token.withValue (t : Token) (value : Json) : Token :=
  { t with value }

namespace Transform

theorem applyTo_withValue (t : Token) (transform : Transform) (value : Json) :
    (applyTo t transform).withValue value = t.withValue value := by
  unfold applyTo
  split <;> rfl

theorem applyAllTo_withValue (transforms : List Transform) (t : Token) (value : Json) :
    (applyAllTo transforms t).withValue value = t.withValue value := by
  induction transforms generalizing t with
  | nil => rfl
  | cons transform transforms ih => exact (ih _).trans (applyTo_withValue t transform value)

theorem applyAllTo_eq_withValue (transforms : List Transform) (t : Token) :
    applyAllTo transforms t = t.withValue (applyAllTo transforms t).value :=
  applyAllTo_withValue transforms t _

@[simp] theorem applyAllTo_nil : applyAllTo [] = id :=
  rfl

theorem applyAllTo_append (transforms others : List Transform) (t : Token) :
    applyAllTo (transforms ++ others) t = applyAllTo others (applyAllTo transforms t) :=
  List.foldl_append

@[simp] theorem dottedPath_applyAllTo (transforms : List Transform) (t : Token) :
    (applyAllTo transforms t).dottedPath = t.dottedPath := by
  rw [applyAllTo_eq_withValue]
  rfl

end Transform

theorem Selection.holds_applyAllTo (selection : Selection) (transforms : List Transform)
    (t : Token) : selection.holds (Transform.applyAllTo transforms t) = selection.holds t := by
  rw [Transform.applyAllTo_eq_withValue]
  cases selection <;> rfl

namespace Dictionary

/-! ### Changes -/

inductive Change
  /-- The tokens of a selection stay. -/
  | filter (selection : Selection)
  /-- All values are transformed, in order. -/
  | transform (transforms : List Transform)
  /-- The dictionary is built anew from its tokens. -/
  | rebuild

namespace Change

def transforms : Change → List Transform
  | transform transforms => transforms
  | _ => []

/-- Whether a token stays in a change. -/
def keeps (t : Token) : Change → Bool
  | filter selection => selection.holds t
  | _ => true

/-- Whether a change makes the index from the tokens that are left. -/
def reindexes : Change → Bool
  | filter _ => false
  | transform transforms => !transforms.isEmpty
  | rebuild => true

/-- The changes up to the last one that makes the index. -/
def untilIndexed (changes : List Change) : List Change :=
  changes.rdropWhile fun c => !c.reindexes

theorem keeps_applyAllTo (change : Change) (transforms : List Transform) (t : Token) :
    change.keeps (Transform.applyAllTo transforms t) = change.keeps t := by
  cases change with
  | filter selection => exact selection.holds_applyAllTo transforms t
  | transform _ => rfl
  | rebuild => rfl

theorem transforms_of_not_reindexes {c : Change} (h : ¬ c.reindexes) : c.transforms = [] := by
  cases c with
  | filter selection => rfl
  | transform transforms => simpa [reindexes, Change.transforms] using h
  | rebuild => simp [reindexes] at h

end Change

/-- The dictionary after a change. -/
def change (d : Dictionary) : Change → Dictionary
  | .filter selection => d.filter selection.holds
  | .transform transforms => d.transformed transforms
  | .rebuild => ofTokens d.tokens

def run (d : Dictionary) (changes : List Change) : Dictionary :=
  changes.foldl change d

/-- The index of a dictionary: under each dotted path the last referent that has it. -/
def index (d : Dictionary) : List (String × Token) :=
  SortedAssoc.ofList (d.referents.map fun t => (t.dottedPath, t))

/-! ### The index -/

theorem find?_index (d : Dictionary) (key : String) :
    SortedAssoc.find? key d.index = d.find? key := by
  rw [index, SortedAssoc.find?_ofList, List.filter_map, List.getLast?_map, List.getLast?_filter,
    Option.map_map]
  change Option.map id _ = _
  rw [Option.map_id_fun, id, find?]
  congr

theorem mem_index_iff {d : Dictionary} {key : String} {t : Token} :
    (key, t) ∈ d.index ↔ d.find? key = some t := by
  rw [← find?_index]
  exact (SortedAssoc.Increasing.ofList _).mem_iff

theorem mem_referents_of_find? {d : Dictionary} {key : String} {t : Token}
    (h : d.find? key = some t) : t ∈ d.referents :=
  List.mem_reverse.1 (List.mem_of_find?_eq_some h)

theorem isSome_find?_iff {d : Dictionary} {key : String} :
    (d.find? key).isSome ↔ ∃ t ∈ d.referents, t.dottedPath = key := by
  simp [find?]

/-- Where no two referents share a dotted path, each is found under its own. -/
theorem find?_of_nodup {d : Dictionary} (distinct : (d.referents.map Token.dottedPath).Nodup)
    {t : Token} (ht : t ∈ d.referents) : d.find? t.dottedPath = some t := by
  obtain ⟨u, hu⟩ := Option.isSome_iff_exists.1 (isSome_find?_iff.2 ⟨t, ht, rfl⟩)
  have same := Reference.find?_dottedPath hu
  rw [hu, List.inj_on_of_nodup_map distinct (mem_referents_of_find? hu) ht same]

/-! ### What one change does -/

theorem tokens_change (d : Dictionary) (c : Change) :
    (d.change c).tokens =
      (d.tokens.filter fun t => c.keeps t).map (Transform.applyAllTo c.transforms) := by
  cases c with
  | filter selection => simp [change, filter, Change.keeps, Change.transforms]
  | transform transforms =>
    cases transforms with
    | nil => simp [change, transformed, Change.keeps, Change.transforms]
    | cons => simp [change, transformed, Change.keeps, Change.transforms, map]
  | rebuild => simp [change, ofTokens, ofParts, Change.keeps, Change.transforms]

theorem referents_change (d : Dictionary) (c : Change) :
    (d.change c).referents = if c.reindexes then (d.change c).tokens else d.referents := by
  cases c with
  | filter selection => rfl
  | transform transforms => cases transforms <;> rfl
  | rebuild => rfl

theorem tree_change (d : Dictionary) {c : Change} (kept : c ≠ .rebuild) :
    (d.change c).tree = d.tree := by
  cases c with
  | filter selection => rfl
  | transform transforms => cases transforms <;> rfl
  | rebuild => exact absurd rfl kept

/-! ### What a run does -/

theorem run_append (d : Dictionary) (changes more : List Change) :
    d.run (changes ++ more) = (d.run changes).run more :=
  List.foldl_append

theorem run_concat (d : Dictionary) (changes : List Change) (c : Change) :
    d.run (changes ++ [c]) = (d.run changes).change c :=
  List.foldl_concat ..

/-- **The list.** The tokens after a run are those that all its filters keep, with all its
transforms applied, wherever the filters stood among the transforms. -/
theorem tokens_run (d : Dictionary) (changes : List Change) :
    (d.run changes).tokens =
      (d.tokens.filter fun t => changes.all fun c => c.keeps t).map
        (Transform.applyAllTo (changes.flatMap Change.transforms)) := by
  induction changes using List.reverseRecOn with
  | nil => simp [run]
  | append_singleton changes c ih =>
    let before := Transform.applyAllTo (changes.flatMap Change.transforms)
    -- The last filter does not see what the transforms before it did.
    have blind : (fun t => c.keeps t) ∘ before = fun t => c.keeps t :=
      funext fun t => c.keeps_applyAllTo _ t
    have both : ∀ t, Transform.applyAllTo c.transforms (before t) =
        Transform.applyAllTo ((changes ++ [c]).flatMap Change.transforms) t := by
      intro t
      rw [List.flatMap_append, Transform.applyAllTo_append, List.flatMap_singleton]
    calc (d.run (changes ++ [c])).tokens
        = ((d.run changes).change c).tokens := by rw [run_concat]
      _ = ((((d.tokens.filter fun t => changes.all fun e => e.keeps t).map before).filter
            fun t => c.keeps t).map (Transform.applyAllTo c.transforms)) := by
          rw [tokens_change, ih]
      _ = (((d.tokens.filter fun t => changes.all fun e => e.keeps t).filter
            fun t => c.keeps t).map before).map (Transform.applyAllTo c.transforms) := by
          rw [List.filter_map, blind]
      _ = (d.tokens.filter fun t => (changes ++ [c]).all fun e => e.keeps t).map
            (Transform.applyAllTo ((changes ++ [c]).flatMap Change.transforms)) := by
          rw [List.map_map, List.filter_filter]
          simp [Function.comp_def, both, Bool.and_comm]

/-- **The index.** The referents after a run are the tokens that were left when the index was last
made; a dictionary that was built or read has its own tokens for referents. -/
theorem referents_run {d : Dictionary} (own : d.referents = d.tokens) (changes : List Change) :
    (d.run changes).referents = (d.run (Change.untilIndexed changes)).tokens := by
  induction changes using List.reverseRecOn with
  | nil => exact own
  | append_singleton changes c ih =>
    rw [run_concat, referents_change, Change.untilIndexed]
    by_cases reindexes : c.reindexes
    · rw [if_pos reindexes, List.rdropWhile_concat_neg _ _ _ (by simpa using reindexes),
        run_concat]
    · rw [if_neg reindexes, List.rdropWhile_concat_pos _ _ _ (by simpa using reindexes), ih,
        Change.untilIndexed]

/-- **The tree** stays as it is until the dictionary is built anew. -/
theorem tree_run (d : Dictionary) {changes : List Change} (kept : .rebuild ∉ changes) :
    (d.run changes).tree = d.tree := by
  induction changes generalizing d with
  | nil => rfl
  | cons c changes ih =>
    rw [List.mem_cons, not_or] at kept
    exact (ih (d.change c) kept.2).trans (tree_change d (Ne.symm kept.1))

theorem tokens_subset_referents {d : Dictionary} (own : d.referents = d.tokens)
    (changes : List Change) : (d.run changes).tokens ⊆ (d.run changes).referents := by
  induction changes using List.reverseRecOn with
  | nil => exact own ▸ List.Subset.refl _
  | append_singleton changes c ih =>
    rw [run_concat, referents_change]
    split
    · exact List.Subset.refl _
    · next stays =>
      rw [tokens_change, Change.transforms_of_not_reindexes stays, Transform.applyAllTo_nil,
        List.map_id]
      exact List.Subset.trans (List.filter_subset_self _) ih

theorem exists_withValue {d : Dictionary} {changes : List Change} {t : Token}
    (h : t ∈ (d.run changes).tokens) : ∃ p ∈ d.tokens, t = p.withValue t.value := by
  rw [tokens_run] at h
  obtain ⟨p, hp, rfl⟩ := List.mem_map.1 h
  exact ⟨p, List.mem_of_mem_filter hp, Transform.applyAllTo_eq_withValue _ p⟩

theorem map_dottedPath_sublist (d : Dictionary) (changes : List Change) :
    ((d.run changes).tokens.map Token.dottedPath).Sublist (d.tokens.map Token.dottedPath) := by
  rw [tokens_run, List.map_map]
  simp only [Function.comp_def, Transform.dottedPath_applyAllTo]
  exact List.filter_sublist.map _

/-! ### Runs over an export -/

theorem referents_of_ofExport {source : String} {parsed : Dictionary}
    (read : ofExport source = .ok parsed) : parsed.referents = parsed.tokens := by
  unfold ofExport at read
  split at read
  · cases read
  · next entries tree? _ =>
    obtain ⟨tokens, -, read⟩ := of_bind_eq_ok read
    cases tree? <;> cases read <;> rfl

/-- **Three views of the same tokens.** After any run of changes of an export, the index holds every
token under its own dotted path, and the dotted path of every listed token; if the export has no two
tokens of one dotted path, a listed token is found under its own, as it is listed. The list is the
exported one with all transforms in order and all filters, before or behind each other; tokens
change in nothing but their values; and only building anew changes the tree. -/
theorem views_agree {source : String} {parsed : Dictionary} (read : ofExport source = .ok parsed)
    (changes : List Change) :
    (∀ key, (parsed.run changes).find? key = SortedAssoc.find? key (parsed.run changes).index) ∧
    (∀ entry ∈ (parsed.run changes).index, entry.1 = entry.2.dottedPath) ∧
    (∀ t ∈ (parsed.run changes).tokens,
      t.dottedPath ∈ (parsed.run changes).index.map Prod.fst) ∧
    ((parsed.tokens.map Token.dottedPath).Nodup →
      ∀ t ∈ (parsed.run changes).tokens, (parsed.run changes).find? t.dottedPath = some t) ∧
    (parsed.run changes).tokens =
      (parsed.tokens.filter fun t => changes.all fun c => c.keeps t).map
        (Transform.applyAllTo (changes.flatMap Change.transforms)) ∧
    (parsed.run changes).tokens =
      (parsed.tokens.map (Transform.applyAllTo (changes.flatMap Change.transforms))).filter
        (fun t => changes.all fun c => c.keeps t) ∧
    (∀ t ∈ (parsed.run changes).tokens ++ (parsed.run changes).index.map Prod.snd,
      ∃ p ∈ parsed.tokens, t = p.withValue t.value) ∧
    ∀ before after, changes = before ++ after → .rebuild ∉ after →
      (parsed.run changes).tree = (parsed.run before).tree := by
  have own := referents_of_ofExport read
  have blind : ∀ t, (changes.all fun c => c.keeps
        (Transform.applyAllTo (changes.flatMap Change.transforms) t)) =
      changes.all fun c => c.keeps t := by
    simp only [Change.keeps_applyAllTo, implies_true]
  refine ⟨fun key => (find?_index _ key).symm, fun ⟨key, t⟩ entry => ?_, fun t ht => ?_,
    fun distinct t ht => ?_, tokens_run parsed changes, ?_, fun t ht => ?_, ?_⟩
  · exact (Reference.find?_dottedPath (mem_index_iff.1 entry)).symm
  · rw [← SortedAssoc.isSome_find?_iff, find?_index, isSome_find?_iff]
    exact ⟨t, tokens_subset_referents own changes ht, rfl⟩
  · refine find?_of_nodup ?_ (tokens_subset_referents own changes ht)
    rw [referents_run own]
    exact distinct.sublist (map_dottedPath_sublist parsed _)
  · rw [tokens_run, List.filter_map]
    simp only [Function.comp_def, blind]
  · rcases List.mem_append.1 ht with listed | indexed
    · exact exists_withValue listed
    · obtain ⟨⟨key, t⟩, entry, rfl⟩ := List.mem_map.1 indexed
      have known := mem_referents_of_find? (mem_index_iff.1 entry)
      rw [referents_run own] at known
      exact exists_withValue known
  · rintro before after rfl kept
    rw [run_append, tree_run _ kept]

def paletteText : String :=
  "\x7b\"allTokens\": [" ++
    "\x7b\"path\": [\"color\", \"red\"], \"$value\": \"#f00\", \"type\": \"color\"\x7d, " ++
    "\x7b\"path\": [\"size\", \"m\"], \"value\": \"16\"\x7d]\x7d"

def paletteRed : Token :=
  { Token.ofValue ["color", "red"] "color-red" (.string "#f00") with
    raw := none, typeName := some "color" }

/-- A dictionary of a color and a size. -/
def palette : Dictionary :=
  .ofTokens [paletteRed, { Token.ofValue ["size", "m"] "size-m" (.string "16") with raw := none }]

theorem ofExport_paletteText : ofExport paletteText = .ok palette := by
  cbv

theorem views_agree_palette :
    let changes : List Change := [.filter .colors, .transform [.hex8Android], .rebuild]
    ofExport paletteText = .ok palette ∧ (palette.tokens.map Token.dottedPath).Nodup ∧
      (palette.run changes).tokens = [paletteRed.withValue (.string "#ffff0000")] ∧
      (palette.run changes).find? "color.red" =
        some (paletteRed.withValue (.string "#ffff0000")) := by
  intro changes
  have distinct : (palette.tokens.map Token.dottedPath).Nodup := by decide +kernel
  have list : (palette.run changes).tokens = [paletteRed.withValue (.string "#ffff0000")] := rfl
  have path : (paletteRed.withValue (.string "#ffff0000")).dottedPath = "color.red" := by
    decide +kernel
  obtain ⟨-, -, -, found, -⟩ := views_agree ofExport_paletteText changes
  exact ⟨ofExport_paletteText, distinct, list,
    path ▸ found distinct _ (list ▸ List.mem_singleton_self _)⟩

end Dictionary
end DesignTokens

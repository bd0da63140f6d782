import DesignTokens.Output.Declarations
import DesignTokens.Output.ScriptModule
import DesignTokens.Proofs.Dictionary.View
import DesignTokens.Proofs.Output.MergedTree

/-!
# What the declarations of a module declare

The declarations of a module are made from the merged tree that the module holds, and a path of
group keys leads through both (`Declarations.groupAt?`, `Json.at?`). The two agree as long as every
group on the way is declared as a group. But a group with a member called `value` or `$value` is
taken for a token, and nothing below it is declared: the entry of a token is there exactly if the
groups above it are `Open` (`Declarations.declared_iff_open`).
-/

namespace DesignTokens

def DeclaredEntry.key : DeclaredEntry → String
  | token key .. | group key _ | plain key _ => key

namespace Declarations

/-! ### Walking through declarations -/

def find? (key : String) (entries : List DeclaredEntry) : Option DeclaredEntry :=
  entries.find? (·.key = key)

/-- The entries of the group at the end of a path of group keys. -/
def groupAt? : List String → List DeclaredEntry → Option (List DeclaredEntry)
  | [], entries => some entries
  | key :: rest, entries =>
    match find? key entries with
    | some (.group _ inner) => groupAt? rest inner
    | _ => none

theorem key_entry (key : String) (value : Json) : (entry key value).key = key := by
  cases value <;> unfold entry <;> try split
  all_goals rfl

theorem find?_ofTree (key : String) (members : JsonObject) :
    find? key (ofTree members) = (SortedAssoc.find? key members).map (entry key) := by
  induction members with
  | nil => rfl
  | cons member rest ih =>
    obtain ⟨k, value⟩ := member
    rw [find?] at ih ⊢
    by_cases same : key = k
    · subst same
      rw [ofTree, List.find?_cons_of_pos (by simp [key_entry])]
      simp [SortedAssoc.find?]
    · rw [ofTree, List.find?_cons_of_neg (by simp [key_entry, Ne.symm same]), ih]
      simp [SortedAssoc.find?, same]

theorem entry_group {key : String} {members : JsonObject}
    (h : MergedTree.tokenValue? members = none) :
    entry key (.object members) = .group key (ofTree members) := by
  rw [entry, h]

theorem entry_token {key : String} {members : JsonObject} {value : Json}
    (h : MergedTree.tokenValue? members = some value) :
    entry key (.object members) = .token key (MergedTree.notesOf members) (.of value)
      ((SortedAssoc.find? "type" members).bind Json.asString?) := by
  rw [entry, h]

/-- Through groups that are declared as groups, a path leads to the same place in both. -/
theorem groupAt?_ofTree {path : List String} {members : JsonObject}
    (groups : ∀ front, front ≠ [] → front <+: path → ∃ inner,
      Json.at? front (.object members) = some (.object inner) ∧
        MergedTree.tokenValue? inner = none) :
    ∃ inner, Json.at? path (.object members) = some (.object inner) ∧
      groupAt? path (ofTree members) = some (ofTree inner) := by
  induction path generalizing members with
  | nil => exact ⟨members, rfl, rfl⟩
  | cons key path ih =>
    obtain ⟨inner, hat, plain⟩ := groups [key] (by simp) (List.prefix_append [key] path)
    have found : SortedAssoc.find? key members = some (.object inner) := by
      simpa [Json.at?, Json.get?, Json.membersOrNone] using hat
    have step : ∀ rest, Json.at? (key :: rest) (.object members) =
        Json.at? rest (.object inner) := by
      intro rest
      rw [Json.at?, Json.get?, Json.membersOrNone, found, Option.bind_some]
    obtain ⟨last, hlast, hgroup⟩ := ih fun front nonempty before => by
      have whole := groups (key :: front) (by simp) (List.cons_prefix_cons.2 ⟨rfl, before⟩)
      rwa [step] at whole
    refine ⟨last, (step path).trans hlast, ?_⟩
    rw [groupAt?, find?_ofTree, found, Option.map_some, entry_group plain]
    exact hgroup

/-- Nothing is declared below a group that is taken for a token. -/
theorem groupAt?_eq_none {path front : List String} {members inner : JsonObject}
    (nonempty : front ≠ []) (before : front <+: path)
    (hat : Json.at? front (.object members) = some (.object inner))
    (mistaken : (MergedTree.tokenValue? inner).isSome) :
    groupAt? path (ofTree members) = none := by
  induction path generalizing front members with
  | nil => exact absurd (List.prefix_nil.1 before) nonempty
  | cons key path ih =>
    obtain ⟨first, front, rfl⟩ := List.exists_cons_of_ne_nil nonempty
    obtain ⟨same, tail⟩ := List.cons_prefix_cons.1 before
    obtain rfl : first = key := same
    obtain ⟨value, found, hat⟩ := Option.bind_eq_some_iff.1 hat
    change SortedAssoc.find? first members = some value at found
    obtain ⟨group, rfl⟩ : ∃ group, value = .object group := by
      rcases front with _ | ⟨next, front⟩
      · exact ⟨inner, Option.some.inj hat⟩
      · cases value with
        | object group => exact ⟨group, rfl⟩
        | _ => cases hat
    rw [groupAt?, find?_ofTree, found, Option.map_some]
    cases taken : MergedTree.tokenValue? group with
    | some value => rw [entry_token taken]
    | none =>
      rw [entry_group taken]
      refine ih ?_ tail hat
      rintro rfl
      obtain rfl := Json.object.inj (Option.some.inj hat)
      rw [taken] at mistaken
      cases mistaken

/-! ### Groups that are taken for tokens -/

section Open

open MergedTree (IsCanonical Unshadowed)

variable {convention : Convention} {tokens : List Token}

/-- The group of the path has a member by which it is taken for a token. -/
def Mistaken (convention : Convention) (tokens : List Token) (path : List String) : Prop :=
  ∃ name ∈ ["value", "$value"], ∃ other, IsCanonical convention tokens other ∧
    path ++ [name] <+: other

/-- No group on the way to the end of the path is taken for a token, and the last one is not. -/
def Open (convention : Convention) (tokens : List Token) (path : List String) : Prop :=
  ∀ front, front ≠ [] → front <+: path → ¬ Mistaken convention tokens front

theorem isSome_tokenValue? {members : JsonObject} :
    (MergedTree.tokenValue? members).isSome ↔
      ∃ name ∈ ["value", "$value"], (SortedAssoc.find? name members).isSome := by
  simp [MergedTree.tokenValue?]

/-- On the way to an unshadowed canonical path a group is declared exactly if it is open. -/
theorem groupAt?_ofTokens {path rest : List String}
    (canonical : IsCanonical convention tokens (path ++ rest)) (more : rest ≠ [])
    (clear : Unshadowed convention tokens (path ++ rest)) :
    ∃ members,
      Json.at? path (.object (MergedTree.ofTokens convention tokens)) = some (.object members) ∧
      (Open convention tokens path →
        groupAt? path (ofTree (MergedTree.ofTokens convention tokens)) = some (ofTree members)) ∧
      (¬ Open convention tokens path →
        groupAt? path (ofTree (MergedTree.ofTokens convention tokens)) = none) := by
  -- A member called like a value in the tree is a canonical path that goes on by that name.
  have groups : ∀ front, front <+: path → ∃ inner,
      Json.at? front (.object (MergedTree.ofTokens convention tokens)) = some (.object inner) ∧
      ((MergedTree.tokenValue? inner).isSome ↔ Mistaken convention tokens front) := by
    rintro front ⟨tail, rfl⟩
    rw [List.append_assoc] at canonical clear
    obtain ⟨inner, hat, keys⟩ := MergedTree.exists_group_at canonical (by simp [more]) clear
    refine ⟨inner, hat, ?_⟩
    rw [isSome_tokenValue?, Mistaken]
    simp only [keys]
  obtain ⟨members, hat, -⟩ := groups path List.prefix_rfl
  refine ⟨members, hat, fun isOpen => ?_, fun notOpen => ?_⟩
  · obtain ⟨inner, hinner, hgroup⟩ := groupAt?_ofTree fun front nonempty before => by
      obtain ⟨inner, hinner, mistaken⟩ := groups front before
      refine ⟨inner, hinner, Option.not_isSome_iff_eq_none.1 fun taken => ?_⟩
      exact isOpen front nonempty before (mistaken.1 taken)
    obtain rfl := Json.object.inj (Option.some.inj (hat.symm.trans hinner))
    exact hgroup
  · simp only [Open, not_forall, not_not] at notOpen
    obtain ⟨front, nonempty, before, mistaken⟩ := notOpen
    obtain ⟨inner, hinner, taken⟩ := groups front before
    exact groupAt?_eq_none nonempty before hinner (taken.2 mistaken)

end Open

/-! ### The lines of a declaration -/

/-- Lines that `inner` gives for an indentation stand inside the braces of the groups `keys`. -/
def Nests (inner : String → List String) : List String → String → List String → Prop
  | [], indent, lines => inner indent <:+: lines
  | key :: keys, indent, lines =>
    ∃ body, Nests inner keys (deeper indent) body ∧
      [indent ++ "readonly " ++ ValueType.keyText key ++ ": \x7b"] ++ body ++ [indent ++ "\x7d;"]
        <:+: lines

theorem entryLines_infix {entry : DeclaredEntry} {entries : List DeclaredEntry}
    (h : entry ∈ entries) (indent : String) :
    entryLines indent entry <:+: entriesLines indent entries := by
  induction entries with
  | nil => cases h
  | cons first rest ih =>
    rw [entriesLines]
    rcases List.mem_cons.1 h with rfl | h
    · exact (List.prefix_append _ _).isInfix
    · exact (ih h).trans (List.suffix_append _ _).isInfix

theorem mem_of_find? {key : String} {entry : DeclaredEntry} {entries : List DeclaredEntry}
    (h : find? key entries = some entry) : entry ∈ entries ∧ entry.key = key := by
  refine ⟨List.mem_of_find?_eq_some h, ?_⟩
  have found := List.find?_some h
  simpa using found

/-- The lines of an entry stand inside the braces of the groups that lead to it. -/
theorem nests_of_groupAt? {path : List String} {key : String} {entry : DeclaredEntry}
    {entries inner : List DeclaredEntry} (hgroup : groupAt? path entries = some inner)
    (found : find? key inner = some entry) (indent : String) :
    Nests (entryLines · entry) path indent (entriesLines indent entries) := by
  induction path generalizing entries indent with
  | nil =>
    obtain rfl := Option.some.inj hgroup
    exact entryLines_infix (mem_of_find? found).1 indent
  | cons segment path ih =>
    rw [groupAt?] at hgroup
    split at hgroup
    · next own body hbody =>
      obtain ⟨hmem, hkey⟩ := mem_of_find? hbody
      obtain rfl : own = segment := hkey
      refine ⟨_, ih hgroup (deeper indent), ?_⟩
      have whole := entryLines_infix hmem indent
      rwa [entryLines] at whole
    · cases hgroup

/-! ### Declarations and the module -/

theorem typeName_ofPair {pair : Pair} {fields : JsonObject}
    (h : MergedTree.ofPair pair = .object fields) :
    (SortedAssoc.find? "type" fields).bind Json.asString? = pair.preferLight.typeName := by
  obtain rfl := Json.object.inj h
  have view := pair.preferLight.get?_toJson "type"
  rw [Json.get?, Token.field?] at view
  rw [SortedAssoc.find?_insert, if_neg (by decide), view]
  cases pair.preferLight.typeName <;> rfl

theorem map_key_ofTree (members : JsonObject) :
    (ofTree members).map DeclaredEntry.key = members.map Prod.fst := by
  induction members with
  | nil => rfl
  | cons member rest ih =>
    obtain ⟨key, value⟩ := member
    rw [ofTree, List.map_cons, List.map_cons, key_entry, ih]

/-- **Declarations.** The declarations hold the entry of an unshadowed canonical path, with the type
of the value that the module has there and the type name of the primary token, inside the groups
that the module has it in, exactly if none of these groups is taken for a token. A group that is
open has all keys that it has in the module. -/
theorem declared_iff_open (dictionary : Dictionary) (context : Context) {path : List String}
    {key : String}
    (canonical : MergedTree.IsCanonical context.convention dictionary.tokens (path ++ [key]))
    (clear : MergedTree.Unshadowed context.convention dictionary.tokens (path ++ [key])) :
    ∃ pair members fields value,
      (Groups.ofTokens context.convention dictionary.tokens).get? (path ++ [key]) = some pair ∧
      Json.at? path (.object (ScriptModule.ofDictionary dictionary context)) =
        some (.object members) ∧
      SortedAssoc.find? key members = some (.object fields) ∧
      SortedAssoc.find? "value" fields = some value ∧
      let entry := DeclaredEntry.token key (MergedTree.notesOf fields) (.of value)
        pair.preferLight.typeName
      (Open context.convention dictionary.tokens path →
        ∃ entries, groupAt? path (ofDictionary dictionary context) = some entries ∧
          entries.map DeclaredEntry.key = members.map Prod.fst ∧
          find? key entries = some entry ∧
          Nests (entryLines · entry) path "  "
            (entriesLines "  " (ofDictionary dictionary context))) ∧
      (¬ Open context.convention dictionary.tokens path →
        groupAt? path (ofDictionary dictionary context) = none) := by
  obtain ⟨pair, hpair⟩ := MergedTree.isCanonical_iff.1 canonical
  obtain ⟨members, hat, isOpen, notOpen⟩ := groupAt?_ofTokens canonical (by simp) clear
  obtain ⟨fields, view⟩ : ∃ fields, MergedTree.ofPair pair = .object fields := ⟨_, rfl⟩
  have found : SortedAssoc.find? key members = some (.object fields) := by
    have whole := MergedTree.at?_ofTokens (by simp) hpair clear
    rw [Json.at?_append, hat, view] at whole
    simpa [Json.at?, Json.get?, Json.membersOrNone] using whole
  have hvalue : SortedAssoc.find? "value" fields = some (MergedTree.valueOf pair) := by
    obtain rfl := Json.object.inj view
    exact SortedAssoc.find?_insert_self _ _ _
  refine ⟨pair, members, fields, MergedTree.valueOf pair, hpair, hat, found, hvalue,
    fun h => ?_, notOpen⟩
  have taken : MergedTree.tokenValue? fields = some (MergedTree.valueOf pair) := by
    rw [MergedTree.tokenValue?, hvalue, Option.some_or]
  have declared : find? key (ofTree members) = some (.token key (MergedTree.notesOf fields)
      (.of (MergedTree.valueOf pair)) pair.preferLight.typeName) := by
    rw [find?_ofTree, found, Option.map_some, entry_token taken, typeName_ofPair view]
  exact ⟨_, isOpen h, map_key_ofTree members, declared, nests_of_groupAt? (isOpen h) declared "  "⟩

/-- A group with a token called `value`, and one without. -/
def besideValue : Dictionary :=
  .ofTokens [.ofValue ["color", "red"] "red" (.string "#f00"),
    .ofValue ["color", "value"] "plain" (.string "#000"),
    .ofValue ["size", "gap"] "gap" (.string "4px")]

theorem isCanonical_besideValue {path : List String} :
    MergedTree.IsCanonical .secondSegment besideValue.tokens path ↔
      path ∈ [["color", "red"], ["color", "value"], ["size", "gap"]] := by
  have paths : besideValue.tokens.map (Token.canonicalPath .secondSegment) =
      [["color", "red"], ["color", "value"], ["size", "gap"]] := by decide
  rw [← paths, List.mem_map]
  rfl

/-- All paths have two segments, so that none stands in the way of another. -/
theorem unshadowed_besideValue (group name : String) :
    MergedTree.Unshadowed .secondSegment besideValue.tokens [group, name] := by
  intro front _ before differs canonical
  have long : front.length = 2 := by
    have lengths : ∀ path ∈ [["color", "red"], ["color", "value"], ["size", "gap"]],
        path.length = 2 := by decide
    exact lengths front (isCanonical_besideValue.1 canonical)
  exact differs (before.eq_of_length long)

theorem declared_iff_open_gap :
    MergedTree.IsCanonical .secondSegment besideValue.tokens (["size"] ++ ["gap"]) ∧
    MergedTree.Unshadowed .secondSegment besideValue.tokens (["size"] ++ ["gap"]) ∧
    Open .secondSegment besideValue.tokens ["size"] ∧
    ∃ entries, groupAt? ["size"] (ofDictionary besideValue { destination := "" }) = some entries ∧
      (find? "gap" entries).isSome := by
  have canonical : MergedTree.IsCanonical .secondSegment besideValue.tokens (["size"] ++ ["gap"]) :=
    isCanonical_besideValue.2 (by decide)
  have clear := unshadowed_besideValue "size" "gap"
  have isOpen : Open .secondSegment besideValue.tokens ["size"] := by
    rintro (_ | ⟨segment, rest⟩) nonempty before ⟨name, hname, other, hother, more⟩
    · exact nonempty rfl
    · obtain ⟨rfl, tail⟩ := List.cons_prefix_cons.1 before
      obtain rfl := List.prefix_nil.1 tail
      have apart : ∀ name ∈ ["value", "$value"],
          ∀ other ∈ [["color", "red"], ["color", "value"], ["size", "gap"]],
            ¬ ["size"] ++ [name] <+: other := by decide
      exact apart name hname other (isCanonical_besideValue.1 hother) more
  obtain ⟨_, _, _, _, -, -, -, -, declared, -⟩ :=
    declared_iff_open besideValue { destination := "" } canonical clear
  obtain ⟨entries, hgroup, -, found, -⟩ := declared isOpen
  exact ⟨canonical, clear, isOpen, entries, hgroup, by rw [found]; rfl⟩

/-- A token of the module is not declared, and neither is its group, if another token of the group
is called `value`. -/
theorem undeclared_beside_value :
    MergedTree.IsCanonical .secondSegment besideValue.tokens ["color", "red"] ∧
    MergedTree.Unshadowed .secondSegment besideValue.tokens ["color", "red"] ∧
    (Json.at? ["color", "red"]
      (.object (ScriptModule.ofDictionary besideValue { destination := "" }))).isSome ∧
    groupAt? ["color"] (ofDictionary besideValue { destination := "" }) = none := by
  have canonical :
      MergedTree.IsCanonical .secondSegment besideValue.tokens (["color"] ++ ["red"]) :=
    isCanonical_besideValue.2 (by decide)
  have clear := unshadowed_besideValue "color" "red"
  obtain ⟨pair, found⟩ := MergedTree.isCanonical_iff.1 canonical
  have view := MergedTree.at?_ofTokens (by simp) found clear
  obtain ⟨_, -, -, notOpen⟩ := groupAt?_ofTokens canonical (by simp) clear
  refine ⟨canonical, clear, Option.isSome_iff_exists.2 ⟨_, view⟩, notOpen fun isOpen => ?_⟩
  refine isOpen ["color"] (by simp) List.prefix_rfl ⟨"value", by simp, ["color", "value"], ?_, ?_⟩
  · exact isCanonical_besideValue.2 (by decide)
  · decide

end Declarations
end DesignTokens

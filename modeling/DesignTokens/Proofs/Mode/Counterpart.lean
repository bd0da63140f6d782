import DesignTokens.Output.FlatEnum
import DesignTokens.Output.Stylesheet
import DesignTokens.Proofs.Mode.Grouping

/-!
# The light counterpart of a dark variant

There are two notions of the light counterpart of a canonical path. A dark variant takes the name of
the token that is found under the dotted text of its canonical path, if that is a light one
(`Dictionary.counterpart?`). Grouping pairs it with the last light token of the canonical path
itself (`Groups.light?`), whose segments may hold dots.

The two agree exactly when the token that the dotted text finds has the canonical path, or is a dark
one where no light token has that path (`counterpart?_eq_light?_iff`). Paths whose segments hold no
dots are told apart by their dotted texts (`dotted_injective`); others may not be
(`override_carries_foreign_name`).
-/

namespace DesignTokens

/-- The light token that grouping finds for a canonical path. -/
def Groups.light? (groups : Groups) (canonical : List String) : Option Token :=
  (groups.get? canonical).bind Pair.light?

/-- The light token that is found under the dotted text of a canonical path. -/
def Dictionary.counterpart? (dictionary : Dictionary) (convention : Convention)
    (canonical : List String) : Option Token :=
  (dictionary.find? (".".intercalate canonical)).filter fun r => !r.isDark convention

/-- What the dotted text of a canonical path finds is a token of that path, or a dark one where the
path has no light token. -/
def Dictionary.FindsOwn (dictionary : Dictionary) (convention : Convention)
    (canonical : List String) : Prop :=
  ∀ r, dictionary.find? (".".intercalate canonical) = some r →
    r.path = canonical ∨
      r.isDark convention ∧ (Groups.ofTokens convention dictionary.tokens).light? canonical = none

/-! ### Names of dark variants -/

theorem Token.sharedName_of_isDark {dictionary : Dictionary} {convention : Convention}
    (derive : List String → String) {t : Token} (dark : t.isDark convention) :
    t.sharedName dictionary convention derive =
      ((dictionary.counterpart? convention (t.canonicalPath convention)).map Token.name).getD
        (derive (t.canonicalPath convention)) := by
  simp only [sharedName, Dictionary.counterpart?, if_pos dark]
  cases hfind : dictionary.find? (".".intercalate (t.canonicalPath convention)) with
  | none => simp
  | some r => by_cases hr : r.isDark convention <;> simp [Option.filter_some, hr]

/-! ### Light tokens of a canonical path -/

/-- The light token of a group is the last token of the list that has the path and is light. -/
theorem Groups.light?_ofTokens (convention : Convention) (tokens : List Token)
    (canonical : List String) :
    (ofTokens convention tokens).light? canonical =
      tokens.reverse.find? fun t => t.path = canonical ∧ t.isDark convention = false := by
  have last := @bind_side_get?_ofTokens convention tokens canonical false
  have same : Token.slot convention canonical false tokens =
      tokens.filter fun t => t.path = canonical ∧ t.isDark convention = false := by
    refine List.filter_congr fun t _ => ?_
    by_cases light : t.isDark convention = false
    · simp [Token.canonicalPath_of_not_isDark light]
    · simp [light]
  rw [same, List.getLast?_filter] at last
  exact last

theorem Groups.path_of_light? {convention : Convention} {tokens : List Token}
    {canonical : List String} {l : Token}
    (found : (ofTokens convention tokens).light? canonical = some l) :
    l ∈ tokens ∧ l.path = canonical ∧ l.isDark convention = false := by
  rw [light?_ofTokens] at found
  have holds := List.find?_some found
  exact ⟨List.mem_reverse.1 (List.mem_of_find?_eq_some found), by simpa using holds⟩

/-! ### Agreement of the two notions -/

/-- The first of the items that satisfy `p` is the first of those that satisfy a narrower `q`, if it
satisfies `q`. -/
theorem find?_of_imp {α : Type} {p q : α → Bool} {xs : List α} {x : α}
    (narrower : ∀ y, q y → p y) (found : xs.find? p = some x) (hq : q x) :
    xs.find? q = some x := by
  obtain ⟨-, front, behind, rfl, misses⟩ := List.find?_eq_some_iff_append.1 found
  refine List.find?_eq_some_iff_append.2 ⟨hq, front, behind, rfl, fun y hy => ?_⟩
  have hp := misses y hy
  cases hqy : q y with
  | false => rfl
  | true => simp [narrower y hqy] at hp

section Agreement

variable {dictionary : Dictionary} (own : dictionary.referents = dictionary.tokens)
  (convention : Convention) (canonical : List String)
include own

/-- **The two counterparts** are the same exactly when the dotted text finds a token of the path, or
when there is none under either notion. -/
theorem counterpart?_eq_light?_iff :
    dictionary.counterpart? convention canonical =
        (Groups.ofTokens convention dictionary.tokens).light? canonical ↔
      dictionary.FindsOwn convention canonical := by
  have spelled : ∀ l : Token, l.path = canonical → l.dottedPath = ".".intercalate canonical :=
    fun l hl => hl ▸ rfl
  cases hfind : dictionary.find? (".".intercalate canonical) with
  | none =>
    refine ⟨fun _ r hr => by simp [hfind] at hr, fun _ => ?_⟩
    -- A light token of the path would have been found under its dotted text.
    rw [Dictionary.counterpart?, hfind, Groups.light?_ofTokens]
    refine (List.find?_eq_none.2 fun l hl hlight => ?_).symm
    have absent := List.find?_eq_none.1 hfind l (by rwa [own])
    simp only [decide_eq_true_eq] at hlight
    exact absent (by simpa using spelled l hlight.1)
  | some r =>
    have counterpart : dictionary.counterpart? convention canonical =
        if r.isDark convention then none else some r := by
      by_cases dark : r.isDark convention <;> simp [Dictionary.counterpart?, hfind, dark]
    have findsOwn : dictionary.FindsOwn convention canonical ↔
        r.path = canonical ∨ r.isDark convention ∧
          (Groups.ofTokens convention dictionary.tokens).light? canonical = none := by
      simp [Dictionary.FindsOwn, hfind]
    rw [findsOwn, counterpart]
    by_cases path : r.path = canonical
    · refine iff_of_true ?_ (.inl path)
      by_cases dark : r.isDark convention
      · -- Every token of the path is dark, as the path says so.
        rw [if_pos dark, Groups.light?_ofTokens]
        refine (List.find?_eq_none.2 fun l _ hlight => ?_).symm
        simp only [decide_eq_true_eq] at hlight
        rw [Token.isDark, path, ← hlight.1, ← Token.isDark, hlight.2] at dark
        exact Bool.false_ne_true dark
      · rw [if_neg dark, Groups.light?_ofTokens, ← own]
        refine (find?_of_imp (fun l hl => ?_) hfind (by simp [path, dark])).symm
        simp only [decide_eq_true_eq] at hl
        simpa using spelled l hl.1
    · by_cases dark : r.isDark convention
      · rw [if_pos dark, eq_comm]
        simp [path, dark]
      · rw [if_neg dark]
        refine iff_of_false (fun same => ?_) (by simp [path, dark])
        exact path (Groups.path_of_light? same.symm).2.1

end Agreement

/-! ### Paths that their dotted texts tell apart -/

/-- A path with a segment, none of which holds a dot. -/
def DotFree (path : List String) : Prop :=
  path ≠ [] ∧ ∀ segment ∈ path, '.' ∉ segment.toList

theorem DotFree.splitOn {path : List String} (h : DotFree path) :
    (".".intercalate path).toList.splitOn '.' = path.map String.toList := by
  rw [String.toList_intercalate]
  exact List.splitOn_intercalate '.' (by simpa using h.2) (by simpa using h.1)

theorem DotFree.unmark {path : List String} (h : DotFree path) (convention : Convention) :
    DotFree (convention.unmark path) := by
  refine ⟨convention.unmark_ne_nil h.1, fun segment hsegment => h.2 segment ?_⟩
  unfold Convention.unmark at hsegment
  split at hsegment
  · exact List.mem_of_mem_eraseIdx hsegment
  · exact hsegment

theorem dotted_injective {path other : List String} (h : DotFree path) (ho : DotFree other)
    (same : ".".intercalate path = ".".intercalate other) : path = other := by
  have texts := h.splitOn
  rw [same, ho.splitOn] at texts
  exact (List.map_injective_iff.2 (fun _ _ => String.toList_injective) texts).symm

theorem findsOwn_of_dotFree {dictionary : Dictionary}
    (own : dictionary.referents = dictionary.tokens) (convention : Convention)
    (dotFree : ∀ r ∈ dictionary.tokens, DotFree r.path) {canonical : List String}
    (h : DotFree canonical) : dictionary.FindsOwn convention canonical := by
  intro r hr
  have listed : r ∈ dictionary.tokens := by
    rw [← own]
    exact List.mem_reverse.1 (List.mem_of_find?_eq_some hr)
  have spelled : r.dottedPath = ".".intercalate canonical := by simpa using List.find?_some hr
  exact .inl (dotted_injective (dotFree r listed) h spelled)

/-! ### Names of overrides -/

/-- A variant has in stylesheets and in flat enums the name of the given counterpart, and the name
derived from its canonical path where there is none. -/
def Dictionary.NamedAfter (dictionary : Dictionary) (context : Context) (t : Token)
    (counterpart? : Option Token) : Prop :=
  Stylesheet.propertyName dictionary context t =
      (counterpart?.map Token.name).getD
        (Identifier.hyphenatedName (context.stem :: t.canonicalPath context.convention)) ∧
    FlatEnum.memberName dictionary context t =
      (counterpart?.map Token.name).getD
        (Identifier.flatName (context.stem :: t.canonicalPath context.convention))

theorem namedAfter_counterpart? {dictionary : Dictionary} {context : Context} {t : Token}
    (dark : t.isDark context.convention) :
    dictionary.NamedAfter context t
      (dictionary.counterpart? context.convention (t.canonicalPath context.convention)) :=
  ⟨Token.sharedName_of_isDark _ dark, Token.sharedName_of_isDark _ dark⟩

/-- **A dark override carries the name of its own light counterpart** exactly as far as the dotted
text of its canonical path finds what grouping finds. It does where no segment holds a dot; and
overrides for which it does share a counterpart only if they share the canonical path. -/
theorem override_carries_counterpart_name (dictionary : Dictionary) (context : Context)
    (own : dictionary.referents = dictionary.tokens) {t : Token} (ht : t ∈ dictionary.tokens)
    (dark : t.isDark context.convention) :
    dictionary.NamedAfter context t
      (dictionary.counterpart? context.convention (t.canonicalPath context.convention)) ∧
    (dictionary.counterpart? context.convention (t.canonicalPath context.convention) =
        (Groups.ofTokens context.convention dictionary.tokens).light?
          (t.canonicalPath context.convention) ↔
      dictionary.FindsOwn context.convention (t.canonicalPath context.convention)) ∧
    (dictionary.FindsOwn context.convention (t.canonicalPath context.convention) →
      dictionary.NamedAfter context t
        ((Groups.ofTokens context.convention dictionary.tokens).light?
          (t.canonicalPath context.convention))) ∧
    ((∀ r ∈ dictionary.tokens, DotFree r.path) →
      dictionary.FindsOwn context.convention (t.canonicalPath context.convention)) ∧
    ∀ u ∈ dictionary.tokens, u.isDark context.convention →
      dictionary.FindsOwn context.convention (t.canonicalPath context.convention) →
      dictionary.FindsOwn context.convention (u.canonicalPath context.convention) →
      ∀ l, dictionary.counterpart? context.convention (t.canonicalPath context.convention) =
          some l →
        dictionary.counterpart? context.convention (u.canonicalPath context.convention) = some l →
        t.canonicalPath context.convention = u.canonicalPath context.convention := by
  have named := @namedAfter_counterpart? dictionary _ _ dark
  have agree := fun canonical => counterpart?_eq_light?_iff own context.convention canonical
  refine ⟨named, agree _, fun found => ?_, fun dotFree => ?_, fun u _ _ found foundU l hl hlu => ?_⟩
  · rwa [(agree _).2 found] at named
  · refine findsOwn_of_dotFree own context.convention dotFree ?_
    exact (dotFree t ht).unmark context.convention
  · rw [(agree _).2 found] at hl
    rw [(agree _).2 foundU] at hlu
    exact (Groups.path_of_light? hl).2.1.symm.trans (Groups.path_of_light? hlu).2.1

/-- A segment with a dot, as part of a path that no other one is spelled like. -/
def oneAndAHalf : Dictionary :=
  .ofTokens [.ofValue ["size", "1.5rem"] "retired" (.string "23px"),
    .ofValue ["size", "1.5rem"] "gap" (.string "24px"),
    .ofValue ["size", "dark", "1.5rem"] "dark-gap" (.string "20px")]

theorem override_carries_counterpart_name_oneAndAHalf :
    let context : Context := { destination := "" }
    let t := Token.ofValue ["size", "dark", "1.5rem"] "dark-gap" (.string "20px")
    oneAndAHalf.referents = oneAndAHalf.tokens ∧ t ∈ oneAndAHalf.tokens ∧
      t.isDark context.convention ∧
      oneAndAHalf.FindsOwn context.convention (t.canonicalPath context.convention) ∧
      Stylesheet.propertyName oneAndAHalf context t = "gap" ∧
      FlatEnum.memberName oneAndAHalf context t = "gap" := by
  intro context t
  have listed : t ∈ oneAndAHalf.tokens := List.mem_cons_of_mem _ (by simp [t])
  have dark : t.isDark context.convention := by decide
  obtain ⟨-, agree, named, -⟩ :=
    override_carries_counterpart_name oneAndAHalf context rfl listed dark
  have found : oneAndAHalf.FindsOwn context.convention (t.canonicalPath context.convention) :=
    agree.1 rfl
  exact ⟨rfl, listed, dark, found, named found⟩

/-- A light token, and dark variants of two canonical paths that are spelled alike. -/
def spelledAlike : Dictionary :=
  .ofTokens [.ofValue ["color", "a", "b"] "light" (.string "#fff"),
    .ofValue ["color", "dark", "a", "b"] "dark" (.string "#111"),
    .ofValue ["color", "dark", "a.b"] "dark-too" (.string "#000")]

/-- Two dark variants share a counterpart though their canonical paths differ; one of them has no
light token and goes by a name that is not derived from its path. -/
theorem override_carries_foreign_name :
    let context : Context := { destination := "" }
    spelledAlike.referents = spelledAlike.tokens ∧
    (¬ ∀ t ∈ spelledAlike.tokens, t.isDark context.convention →
      spelledAlike.NamedAfter context t
        ((Groups.ofTokens context.convention spelledAlike.tokens).light?
          (t.canonicalPath context.convention))) ∧
    ∃ t ∈ spelledAlike.tokens, ∃ u ∈ spelledAlike.tokens,
      t.isDark context.convention ∧ u.isDark context.convention ∧
      t.canonicalPath context.convention ≠ u.canonicalPath context.convention ∧
      (spelledAlike.counterpart? context.convention (t.canonicalPath context.convention)).map
        Token.name = some "light" ∧
      (spelledAlike.counterpart? context.convention (u.canonicalPath context.convention)).map
        Token.name = some "light" ∧
      Stylesheet.propertyName spelledAlike context u = "light" ∧
      FlatEnum.memberName spelledAlike context u = "light" := by
  refine ⟨rfl, ?_, ?_⟩
  · unfold Dictionary.NamedAfter
    decide +kernel
  · decide +kernel

end DesignTokens

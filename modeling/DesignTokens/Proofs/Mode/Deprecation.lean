import DesignTokens.Proofs.Dictionary.Legible
import DesignTokens.Proofs.Mode.Grouping
import Mathlib

/-!
# What the note of a pair explains

A pair is deprecated if one of its sides is, and its note is the first reason that any side states
(`Pair.deprecationNote?_eq`). What explains the deprecation is the first reason of a side that is
deprecated itself (`Token.explanation?`). The two are the same but for a stray reason, one that
stands on a side without a deprecation in front of all others (`deprecationNote?_ofTokens`).

A stray reason comes from a comment of its own beside a flag that is not set: a message in place of
the flag deprecates its token (`TokenEntry.comment_of_stray`).
-/

namespace DesignTokens

namespace Token

/-- The sides of a canonical path, as far as there are any: the last light token and the last dark
one. -/
def sides (convention : Convention) (canonical : List String) (tokens : List Token) : List Token :=
  (slot convention canonical false tokens).getLast?.toList ++
    (slot convention canonical true tokens).getLast?.toList

/-- What explains that a side is deprecated: the first reason that a deprecated side states, or the
default if none states one. -/
def explanation? (sides : List Token) : Option String :=
  if sides.any (·.deprecated) then
    some (((sides.filter (·.deprecated)).findSome? statedReason?).getD defaultDeprecation)
  else none

/-- The first reason that a side states, if that side is not deprecated. -/
def strayReason? (sides : List Token) : Option String :=
  (sides.find? (·.statedReason?.isSome)).bind fun t =>
    if t.deprecated then none else t.statedReason?

theorem isSome_explanation?_iff {sides : List Token} :
    (explanation? sides).isSome ↔ ∃ t ∈ sides, t.deprecated := by
  unfold explanation?
  split
  · next some => simpa using some
  · next none => simpa using none

/-- The first reason is a stray one, or else the first one of a deprecated side. -/
theorem findSome?_statedReason? (sides : List Token) :
    sides.findSome? statedReason? =
      (strayReason? sides).or ((sides.filter (·.deprecated)).findSome? statedReason?) := by
  induction sides with
  | nil => rfl
  | cons t rest ih =>
    cases reason : t.statedReason? with
    | none =>
      have stray : strayReason? (t :: rest) = strayReason? rest := by simp [strayReason?, reason]
      have stated : ((t :: rest).filter (·.deprecated)).findSome? statedReason? =
          (rest.filter (·.deprecated)).findSome? statedReason? := by
        cases deprecated : t.deprecated <;> simp [reason, deprecated]
      rw [List.findSome?_cons, reason, stray, stated]
      exact ih
    | some r => cases deprecated : t.deprecated <;> simp [strayReason?, reason, deprecated]

end Token

/-! ### The note of a pair -/

/-- The note of a pair is the first reason that a side states, the light one first. -/
theorem Pair.deprecationNote?_eq (p : Pair) :
    p.deprecationNote? =
      if p.variants.any (·.deprecated) then
        some ((p.variants.findSome? Token.statedReason?).getD Token.defaultDeprecation)
      else none := by
  cases p with
  | light t => simp [deprecationNote?, isDeprecated, light?, dark?]
  | dark t => simp [deprecationNote?, isDeprecated, light?, dark?]
  | both l d =>
    cases light : l.statedReason? <;> cases dark : d.statedReason? <;>
      simp [deprecationNote?, isDeprecated, light?, dark?, light, dark]

theorem Groups.variants_get?_ofTokens (convention : Convention) (tokens : List Token)
    (canonical : List String) :
    (((ofTokens convention tokens).get? canonical).map Pair.variants).getD [] =
      Token.sides convention canonical tokens := by
  rw [Token.sides, ← bind_side_get?_ofTokens, ← bind_side_get?_ofTokens]
  cases (ofTokens convention tokens).get? canonical <;> rfl

/-- The note of a canonical path, if it has a pair and the pair a note. -/
def Groups.deprecationNote? (groups : Groups) (canonical : List String) : Option String :=
  (groups.get? canonical).bind Pair.deprecationNote?

/-- The note explains the deprecation, unless a stray reason stands in its place. -/
theorem Groups.deprecationNote?_ofTokens (convention : Convention) (tokens : List Token)
    (canonical : List String) :
    (ofTokens convention tokens).deprecationNote? canonical =
      (Token.explanation? (Token.sides convention canonical tokens)).map fun explanation =>
        (Token.strayReason? (Token.sides convention canonical tokens)).getD explanation := by
  have note : (ofTokens convention tokens).deprecationNote? canonical =
      if (Token.sides convention canonical tokens).any (·.deprecated) then
        some (((Token.sides convention canonical tokens).findSome? Token.statedReason?).getD
          Token.defaultDeprecation)
      else none := by
    rw [deprecationNote?, ← variants_get?_ofTokens]
    cases (ofTokens convention tokens).get? canonical with
    | none => rfl
    | some p => exact p.deprecationNote?_eq
  rw [note, Token.findSome?_statedReason?, Token.explanation?]
  split
  · cases Token.strayReason? (Token.sides convention canonical tokens) <;> simp
  · rfl

/-! ### Stray reasons -/

theorem Token.mem_of_mem_sides {convention : Convention} {canonical : List String}
    {tokens : List Token} {t : Token} (h : t ∈ sides convention canonical tokens) : t ∈ tokens := by
  have last : ∀ {isDark : Bool},
      t ∈ (slot convention canonical isDark tokens).getLast?.toList → t ∈ tokens := fun h =>
    (mem_slot.1 (List.mem_of_getLast? (Option.mem_toList.1 h))).1
  rcases List.mem_append.1 h with h | h
  · exact last h
  · exact last h

theorem Token.exists_of_strayReason? {sides : List Token} {reason : String}
    (stray : reason ∈ strayReason? sides) :
    ∃ t ∈ sides, t.deprecated = false ∧ t.statedReason? = some reason := by
  obtain ⟨t, found, stated⟩ := Option.bind_eq_some_iff.1 stray
  cases deprecated : t.deprecated with
  | false =>
    rw [deprecated, if_neg Bool.false_ne_true] at stated
    exact ⟨t, List.mem_of_find?_eq_some found, deprecated, stated⟩
  | true => simp [deprecated] at stated

/-- A token that is not deprecated has its reason from a comment of its own: a message would
deprecate it. -/
theorem TokenEntry.comment_of_stray {e : TokenEntry} {t : Token} (made : e.toToken = .ok t)
    (active : t.deprecated = false) {reason : String} (stated : t.statedReason? = some reason) :
    e.isDeprecated = false ∧ e.deprecatedComment = some reason ∧ reason ≠ "" := by
  unfold toToken at made
  dsimp only at made
  split at made
  · cases made
  · cases made
    obtain ⟨given, named⟩ := Option.filter_eq_some_iff.1 stated
    refine ⟨active, ?_, by simpa using named⟩
    rcases Option.or_eq_some_iff.1 given with comment | ⟨-, message⟩
    · exact comment
    · obtain ⟨value, present, text⟩ := Option.bind_eq_some_iff.1 message
      change e.isDeprecated = false at active
      cases value <;> simp [Json.asString?, isDeprecated, present] at text active

/-- **Deprecation notes.** A canonical path has a note exactly if one of its sides is deprecated.
The note explains that deprecation unless a stray reason, which then is the note, says something
else. In an export whose comments on deprecations stand on deprecated tokens every note explains. -/
theorem Groups.note_explains_iff (convention : Convention) (tokens : List Token)
    (canonical : List String) :
    let sides := Token.sides convention canonical tokens
    let note? := (ofTokens convention tokens).deprecationNote? canonical
    (note?.isSome ↔ ∃ t ∈ sides, t.deprecated) ∧
    (note? = Token.explanation? sides ↔
      ∀ stray ∈ Token.strayReason? sides, ∀ explanation ∈ Token.explanation? sides,
        stray = explanation) ∧
    (∀ stray ∈ Token.strayReason? sides, note?.isSome → note? = some stray) ∧
    ∀ entries : List TokenEntry, entries.mapM TokenEntry.toToken = .ok tokens →
      (∀ e ∈ entries, e.isDeprecated = false → ∀ comment ∈ e.deprecatedComment, comment = "") →
      note? = Token.explanation? sides := by
  intro sides note?
  have note : note? = (Token.explanation? sides).map fun explanation =>
      (Token.strayReason? sides).getD explanation := deprecationNote?_ofTokens ..
  have explains : note? = Token.explanation? sides ↔
      ∀ stray ∈ Token.strayReason? sides, ∀ explanation ∈ Token.explanation? sides,
        stray = explanation := by
    rw [note]
    cases Token.explanation? sides <;> cases Token.strayReason? sides <;> simp
  refine ⟨?_, explains, fun stray hstray some => ?_, fun entries made kept => ?_⟩
  · rw [note, Option.isSome_map, Token.isSome_explanation?_iff]
  · rw [note, Option.isSome_map] at some
    obtain ⟨explanation, hexplanation⟩ := Option.isSome_iff_exists.1 some
    rw [note, hexplanation, Option.mem_def.1 hstray]
    rfl
  · refine explains.2 fun stray hstray => ?_
    obtain ⟨t, ht, active, stated⟩ := Token.exists_of_strayReason? hstray
    obtain ⟨e, he, own⟩ := TokenEntry.exists_of_mapM_toToken made t (Token.mem_of_mem_sides ht)
    obtain ⟨down, comment, named⟩ := TokenEntry.comment_of_stray own active stated
    exact absurd (kept e he down stray comment) named

/-- An entry with a message in place of the flag. -/
def inkEntry : TokenEntry :=
  { path := ["color", "dark", "ink"], name := none, value := some (.string "#000")
    dollarValue := none, rawValue := none, rawDollarValue := none, typeName := none
    dollarType := none, category := none, comment := none, description := none
    deprecated := some (.string "use ash"), deprecatedComment := none }

theorem Groups.note_explains_iff_ink :
    let entries := [{ inkEntry with path := ["color", "ink"], deprecated := none }, inkEntry]
    ∃ tokens, entries.mapM TokenEntry.toToken = .ok tokens ∧
      (∀ e ∈ entries, e.isDeprecated = false → ∀ comment ∈ e.deprecatedComment, comment = "") ∧
      (ofTokens .secondSegment tokens).deprecationNote? ["color", "ink"] = some "use ash" := by
  intro entries
  have kept : ∀ e ∈ entries, e.isDeprecated = false →
      ∀ comment ∈ e.deprecatedComment, comment = "" := by
    have none : ∀ e ∈ entries, e.deprecatedComment = none := by decide
    intro e he _ comment hcomment
    rw [none e he] at hcomment
    cases hcomment
  refine ⟨_, rfl, kept, ?_⟩
  rw [(note_explains_iff .secondSegment _ ["color", "ink"]).2.2.2 entries rfl kept]
  decide +kernel

/-- An export with a light token that has a comment on its deprecation and is not deprecated, and a
dark one that is. -/
def strayText : String :=
  "\x7b\"allTokens\": [" ++
    "\x7b\"path\": [\"color\", \"page\"], \"value\": \"#fff\", " ++
      "\"deprecated\": false, \"deprecated_comment\": \"use paper\"\x7d, " ++
    "\x7b\"path\": [\"color\", \"dark\", \"page\"], \"value\": \"#000\", " ++
      "\"deprecated\": true\x7d]\x7d"

/-- The dictionary of that export. -/
def strayDictionary : Dictionary :=
  .ofTokens [
    { Token.ofValue ["color", "page"] "color-page" (.string "#fff") with
      raw := none, reason := some "use paper" },
    { Token.ofValue ["color", "dark", "page"] "color-dark-page" (.string "#000") with
      raw := none, deprecated := true }]

/-- The note of that path is the comment on the light side, which is not deprecated. -/
theorem Groups.stray_reason_is_note :
    let sides := Token.sides .secondSegment ["color", "page"] strayDictionary.tokens
    Dictionary.ofExport strayText = .ok strayDictionary ∧
    sides.map (fun t => (t.deprecated, t.statedReason?)) =
      [(false, some "use paper"), (true, none)] ∧
    (ofTokens .secondSegment strayDictionary.tokens).deprecationNote? ["color", "page"] =
      some "use paper" ∧
    Token.explanation? sides = some "This token is deprecated." :=
  ⟨by cbv, by decide +kernel, by decide +kernel, by decide +kernel⟩

end DesignTokens

import DesignTokens.Output.ScriptModule
import DesignTokens.Proofs.Json.Scanning
import DesignTokens.Proofs.Output.MergedTree
import DesignTokens.Proofs.Text.CommentRemoval

/-!
# A script module is JSON with comments

Without its comments, the literal of a merged tree spells that tree
(`ScriptModule.exists_strips_group`): the texts of values have no comment in them, and a doc comment
leaves blanks behind, since no text from a token can end it.
-/

namespace DesignTokens

open Text

/-! ### Values have no comments -/

namespace Json

theorem isPlain_of_isGap {c : Char} (h : Written.isGap c) : isPlain c := by
  simp only [isPlain, Bool.and_eq_true, bne_iff_ne]
  constructor <;> rintro rfl <;> cases h

theorem isPlain_of_isNumeral {c : Char} (h : IsNumeral c) : isPlain c := by
  simp only [isPlain, Bool.and_eq_true, bne_iff_ne]
  constructor <;> rintro rfl <;> revert h <;> decide

theorem strips_gap {gap : List Char} (blank : Gap gap) : Strips gap gap :=
  strips_plain (List.all_eq_true.2 fun c hc => isPlain_of_isGap (blank c hc))

theorem strips_numberText (x : JsonNumber) :
    Strips (numberText x).toList (numberText x).toList :=
  strips_plain (List.all_eq_true.2 fun c hc => isPlain_of_isNumeral (isNumeral_numberText x c hc))

theorem strips_item {c : Char} {gap first : List Char} (plain : isPlain c) (blank : Gap gap)
    (h : Strips first first) : Strips (c :: gap ++ first) (c :: gap ++ first) :=
  ((strips_gap blank).cons plain).append h

theorem strips_member {c : Char} {gap inner first : List Char} (key : String) (plain : isPlain c)
    (blank : Gap gap) (blankInner : Gap inner) (h : Strips first first) :
    Strips (c :: gap ++ quoteChars key.toList ++ ':' :: inner ++ first)
      (c :: gap ++ quoteChars key.toList ++ ':' :: inner ++ first) := by
  have spelled := strips_item plain blank (strips_quoteChars key.toList)
  exact (spelled.append ((strips_gap blankInner).cons (by decide))).append h

mutual

/-- **Values.** A text that spells a value has no comments. -/
theorem strips_of_spells : ∀ (v : Json) {cs : List Char}, Spells v cs → Strips cs cs
  | null, _, h | bool true, _, h | bool false, _, h | array [], _, h | object [], _, h =>
    h ▸ strips_plain (by decide)
  | number x, _, h => h ▸ strips_numberText x
  | string text, _, h => h ▸ strips_quoteChars text.toList
  | array (item :: items), _, ⟨_, _, _, blank, hitem, hitems, h⟩ => by
    subst h
    exact (strips_item (by decide) blank (strips_of_spells item hitem)).append
      (strips_of_spellsItems items hitems)
  | object ((key, value) :: members), _, ⟨_, _, _, _, blank, blankInner, hvalue, hmembers, h⟩ => by
    subst h
    have first := strips_of_spells value hvalue
    exact (strips_member key (by decide) blank blankInner first).append
      (strips_of_spellsMembers members hmembers)

theorem strips_of_spellsItems : ∀ (items : List Json) {cs : List Char}, SpellsItems items cs →
    Strips cs cs
  | [], _, ⟨_, blank, h⟩ => h ▸ (strips_gap blank).append (strips_plain (by decide))
  | item :: items, _, ⟨_, _, _, blank, hitem, hitems, h⟩ => by
    subst h
    exact (strips_item (by decide) blank (strips_of_spells item hitem)).append
      (strips_of_spellsItems items hitems)

theorem strips_of_spellsMembers : ∀ (members : List (String × Json)) {cs : List Char},
    SpellsMembers members cs → Strips cs cs
  | [], _, ⟨_, blank, h⟩ => h ▸ (strips_gap blank).append (strips_plain (by decide))
  | (key, value) :: members, _, ⟨_, _, _, _, blank, blankInner, hvalue, hmembers, h⟩ => by
    subst h
    have first := strips_of_spells value hvalue
    exact (strips_member key (by decide) blank blankInner first).append
      (strips_of_spellsMembers members hmembers)

end

end Json

/-! ### Doc comments -/

namespace MergedTree

theorem unclosed_of_mem_notesOf {members : JsonObject} {note : String}
    (h : note ∈ notesOf members) : Unclosed note.toList := by
  have clean : ∀ text, Unclosed (Comment.block (Comment.line text)).toList :=
    fun text => unclosed_block _
  simp only [notesOf, List.mem_append, Option.mem_toList, Option.map_eq_some_iff] at h
  rcases h with ⟨text, -, rfl⟩ | h
  · exact clean text
  · split at h
    · split at h
      · obtain rfl := List.mem_singleton.1 h
        rw [String.toList_append]
        exact .append_left (by decide) (clean _)
      · obtain rfl := List.mem_singleton.1 h
        decide
    · cases h

end MergedTree

namespace ScriptModule

theorem gap_blanks (depth : Nat) : Json.Gap (blanks depth) := by
  intro c hc
  rw [List.eq_of_mem_replicate hc]
  rfl

theorem unclosed_blanks {depth : Nat} {cs : List Char} (h : Unclosed cs) :
    Unclosed (blanks depth ++ cs) := by
  refine .append_left (fun star => ?_) h
  exact absurd (List.eq_of_mem_replicate star) (by decide)

theorem unclosed_lines (depth : Nat) {lines : List String}
    (h : ∀ line ∈ lines, Unclosed line.toList) {cs : List Char} (behind : Unclosed cs) :
    Unclosed (lines.flatMap (fun line => blanks depth ++ " * ".toList ++ line.toList ++ ['\n']) ++
      cs) := by
  induction lines with
  | nil => exact behind
  | cons line lines ih =>
    have more := ih fun other hmem => h other (List.mem_cons_of_mem _ hmem)
    simpa only [List.flatMap_cons, List.append_assoc, List.cons_append, List.nil_append] using
      unclosed_blanks ((h line List.mem_cons_self).starred more)

/-- A comment of its own lines leaves blanks behind. -/
theorem strips_commentLines {depth : Nat} {body : List Char} (h : Unclosed body) :
    Strips (blanks depth ++ ('/' :: '*' :: body ++ ['*', '/']) ++ ['\n'])
      (blanks depth ++ [] ++ ['\n']) :=
  ((Json.strips_gap (gap_blanks depth)).append (strips_comment h)).append (strips_plain (by decide))

theorem strips_docComment (depth : Nat) {lines : List String}
    (h : ∀ line ∈ lines, Unclosed line.toList) :
    ∃ gap, Json.Gap gap ∧ Strips (docComment depth lines) gap := by
  have blank : Json.Gap (blanks depth ++ [] ++ ['\n']) := by
    rw [List.append_nil, Json.gap_append]
    exact ⟨gap_blanks depth, Json.gap_newline 0⟩
  rcases lines with _ | ⟨line, _ | ⟨next, lines⟩⟩
  · exact ⟨[], Json.gap_nil, strips_nil⟩
  · have content := (h line List.mem_cons_self).append (by decide) (.singleton ' ')
    have body : Unclosed ('*' :: ' ' :: (line.toList ++ [' '])) :=
      .cons_cons rfl (content.cons (by decide))
    refine ⟨_, blank, ?_⟩
    have whole := @strips_commentLines depth _ body
    simpa [docComment] using whole
  · have body := unclosed_lines depth h (@unclosed_blanks depth [' '] (.singleton ' '))
    have opened : Unclosed ('*' :: '\n' :: _) :=
      .cons_cons rfl (body.cons (show '\n' ≠ '*' by decide))
    refine ⟨_, blank, ?_⟩
    have whole := @strips_commentLines depth _ opened
    simpa [docComment] using whole

/-! ### The literal -/

theorem strips_key (depth : Nat) (key : String) :
    Strips (blanks depth ++ Json.quoteChars key.toList ++ [':', ' '])
      (blanks depth ++ Json.quoteChars key.toList ++ [':', ' ']) :=
  ((Json.strips_gap (gap_blanks depth)).append (strips_quoteChars _)).append
    (strips_plain (by decide))

theorem exists_strips_value (depth : Nat) (key : String) (value : Json) :
    ∃ gap text, Json.Gap gap ∧
      Strips (blanks depth ++ Json.quoteChars key.toList ++ ':' :: ' ' :: value.compactChars)
        (gap ++ (Json.quoteChars key.toList ++ ':' :: ' ' :: text)) ∧
      Json.Spells value text := by
  have spells := Json.spells_compactChars value
  have whole := (strips_key depth key).append (Json.strips_of_spells _ spells)
  refine ⟨blanks depth, _, gap_blanks depth, ?_, spells⟩
  simpa using whole

mutual

theorem exists_strips_group (depth : Nat) : ∀ members : List (String × Json),
    ∃ text, Strips (groupChars depth members) text ∧ Json.Spells (.object members) text
  | [] => by
    have braces : Strips ['\x7b', '\x7d'] ['\x7b', '\x7d'] := strips_plain (by decide)
    exact ⟨_, braces, rfl⟩
  | (key, value) :: rest => by
    obtain ⟨gap, first, blank, hfirst, spells⟩ := exists_strips_member (depth + 1) key value
    obtain ⟨more, hmore, spellsMore⟩ := exists_strips_more depth rest
    have opens : Strips ['\x7b', '\n'] ['\x7b', '\n'] := strips_plain (by decide)
    refine ⟨_, (opens.append hfirst).append hmore, '\n' :: gap, [' '], first, more,
      Json.gap_append.2 ⟨Json.gap_newline 0, blank⟩, Json.gap_space, spells, spellsMore, ?_⟩
    simp

theorem exists_strips_more (depth : Nat) : ∀ members : List (String × Json),
    ∃ text, Strips (moreChars depth members) text ∧ Json.SpellsMembers members text
  | [] => ⟨_, (Json.strips_gap (Json.gap_newline depth)).append (strips_plain (by decide)),
      Json.newline depth, Json.gap_newline depth, rfl⟩
  | (key, value) :: rest => by
    obtain ⟨gap, first, blank, hfirst, spells⟩ := exists_strips_member (depth + 1) key value
    obtain ⟨more, hmore, spellsMore⟩ := exists_strips_more depth rest
    have comma : Strips [',', '\n'] [',', '\n'] := strips_plain (by decide)
    refine ⟨_, (comma.append hfirst).append hmore, '\n' :: gap, [' '], first, more,
      Json.gap_append.2 ⟨Json.gap_newline 0, blank⟩, Json.gap_space, spells, spellsMore, ?_⟩
    simp

theorem exists_strips_member (depth : Nat) (key : String) : ∀ value : Json,
    ∃ gap text, Json.Gap gap ∧
      Strips (memberChars depth key value)
        (gap ++ (Json.quoteChars key.toList ++ ':' :: ' ' :: text)) ∧
      Json.Spells value text
  | .object members => by
    by_cases token : (MergedTree.tokenValue? members).isSome
    · -- What is left of the comment goes to the blanks in front of the key.
      obtain ⟨gap, blank, comment⟩ := strips_docComment depth fun line hmem =>
        MergedTree.unclosed_of_mem_notesOf hmem
      have spells := Json.spells_prettyChars depth (.object members)
      have whole := (comment.append (strips_key depth key)).append (Json.strips_of_spells _ spells)
      refine ⟨gap ++ blanks depth, _, Json.gap_append.2 ⟨blank, gap_blanks depth⟩, ?_, spells⟩
      simpa [memberChars, token] using whole
    · obtain ⟨text, group, spells⟩ := exists_strips_group depth members
      have whole := (strips_key depth key).append group
      refine ⟨blanks depth, text, gap_blanks depth, ?_, spells⟩
      simpa [memberChars, token] using whole
  | .null | .bool _ | .number _ | .string _ | .array _ => exists_strips_value depth key _

end

/-! ### Reading a module -/

theorem parseWithin?_literal {tree : JsonObject} (legible : (Json.object tree).Legible) {room : Nat}
    (fits : (withoutComments .code (literal tree)).length ≤ room) :
    Json.parseWithin? room (String.ofList (withoutComments .code (literal tree))) =
      some (.object tree) := by
  obtain ⟨text, strips, spells⟩ := exists_strips_group 1 tree
  have stripped : withoutComments .code (literal tree) = text := strips.withoutComments_eq
  rw [stripped] at fits ⊢
  exact Json.parseWithin?_of_spells legible spells fits

/-- **Reading a module back.** Without its doc comments the literal of a module is the text of the
merged tree, as a reader with enough room for its depth finds; and at each unshadowed canonical path
the tree has the JSON view of the primary token, with the values of both variants for its value. -/
theorem reads_back (dictionary : Dictionary) (context : Context)
    (legible : ∀ t ∈ dictionary.tokens, t.Legible) :
    (∀ room,
      (withoutComments .code (literal (ofDictionary dictionary context))).length ≤ room →
      Json.parseWithin? room
          (String.ofList (withoutComments .code (literal (ofDictionary dictionary context)))) =
        some (.object (ofDictionary dictionary context))) ∧
    ∀ path, path ≠ [] →
      MergedTree.IsCanonical context.convention dictionary.tokens path →
      MergedTree.Unshadowed context.convention dictionary.tokens path →
      ∃ pair fields,
        (Groups.ofTokens context.convention dictionary.tokens).get? path = some pair ∧
        Json.at? path (.object (ofDictionary dictionary context)) = some (.object fields) ∧
        (∀ key, key ≠ "value" →
          SortedAssoc.find? key fields = pair.preferLight.toJson.get? key) ∧
        SortedAssoc.find? "value" fields = some (match pair with
          | .light t => t.value
          | .dark t => .object [("dark", t.value)]
          | .both light dark => .object [("dark", dark.value), ("light", light.value)]) := by
  refine ⟨fun room => parseWithin?_literal (MergedTree.legible_ofTokens _ legible),
    fun path named canonical clear => ?_⟩
  obtain ⟨pair, found⟩ := MergedTree.isCanonical_iff.1 canonical
  refine ⟨pair, _, found, MergedTree.at?_ofTokens named found clear, fun key hne => ?_, ?_⟩
  · exact SortedAssoc.find?_upsert_of_ne hne _ _
  · rw [SortedAssoc.find?_insert_self]
    cases pair with
    | light t => rfl
    | dark t => rfl
    | both light dark => rw [MergedTree.valueOf_both]

/-- A token whose comment holds the end of a comment, and its value a quote and the beginning of
one, and a token with a number. -/
def hostile : Dictionary :=
  .ofTokens [
    { Token.ofValue ["color", "red"] "red" (.string "\"/*") with comment := some "red */ blue" },
    .ofValue ["size", "gap"] "gap" (.number (.integer (-24)))]

theorem reads_back_hostile :
    (∀ t ∈ hostile.tokens, t.Legible) ∧
    (let tree := ofDictionary hostile { destination := "tokens.js" }
    let text := withoutComments .code (literal tree)
    Json.parseWithin? text.length (String.ofList text) = some (.object tree)) ∧
    ∃ fields,
      Json.at? ["size", "gap"] (.object (ofDictionary hostile { destination := "tokens.js" })) =
        some (.object fields) ∧
      SortedAssoc.find? "value" fields = some (.number (.integer (-24))) := by
  have number : (Json.number (.integer (-24))).Legible := Json.readsBack_integer (by decide)
  have legible : ∀ t ∈ hostile.tokens, t.Legible := by
    refine List.forall_mem_cons.2 ⟨⟨trivial, ?_⟩, List.forall_mem_singleton.2 ⟨number, ?_⟩⟩
    · rintro raw ⟨⟩
      trivial
    · rintro raw ⟨⟩
      exact number
  obtain ⟨whole, views⟩ := reads_back hostile { destination := "tokens.js" } legible
  have canonical : MergedTree.IsCanonical .secondSegment hostile.tokens ["size", "gap"] :=
    ⟨_, List.mem_cons_of_mem _ List.mem_cons_self, by decide⟩
  have clear : MergedTree.Unshadowed .secondSegment hostile.tokens ["size", "gap"] := by
    rintro front - before differs ⟨t, hmem, rfl⟩
    have long : ∀ t ∈ hostile.tokens, (t.canonicalPath .secondSegment).length = 2 := by decide
    exact differs (before.eq_of_length (long t hmem))
  obtain ⟨pair, fields, found, hat, -, hvalue⟩ := views ["size", "gap"] (by decide) canonical clear
  have light : (Groups.ofTokens .secondSegment hostile.tokens).get? ["size", "gap"] =
      some (.light (.ofValue ["size", "gap"] "gap" (.number (.integer (-24))))) := by
    refine Pair.option_ext fun isDark => ?_
    rw [Groups.bind_side_get?_ofTokens]
    cases isDark <;> rfl
  obtain rfl := Option.some.inj (light.symm.trans found)
  exact ⟨legible, whole _ le_rfl, fields, hat, hvalue⟩

end ScriptModule
end DesignTokens

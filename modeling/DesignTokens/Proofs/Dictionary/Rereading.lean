import DesignTokens.Proofs.Dictionary.Changes
import DesignTokens.Proofs.Dictionary.View

/-!
# Tokens are read back from their JSON views

What shows an object is read as a record that has its fields (`Record.exists_read?_of_shows`), so
that each field of a token can be told from its JSON view alone. The view has one spelling of each
field, and the entry that is read from it (`TokenEntry.ofToken`) makes the same token, but for a
reason without a deprecation (`Dictionary.views_read_back`).
-/

namespace DesignTokens

open Json (Shows ShowsItems ShowsMembers)
open SortedAssoc (find? Increasing)

/-! ### Records -/

namespace Record

theorem isDistinct_iff {names : List String} : isDistinct names ↔ names.Nodup := by
  induction names with
  | nil => simp [isDistinct]
  | cons name names ih => simp [isDistinct, ih]

/-- The record has the fields of an object, as they were written. -/
def Holds (shape : RecordShape) (members : JsonObject) (record : Record) : Prop :=
  ∀ name ∈ shape.names, Option.Rel Shows (find? name members) (record.lookup name)

/-- What shows members has their keys, and under each what shows its value. -/
theorem exists_mapM_of_shows {members : JsonObject} {ws : List (Option String × Written)}
    (h : ShowsMembers members ws) :
    ∃ record : Record, ws.mapM (fun (key, value) => key.map (·, value)) = some record ∧
      record.map Prod.fst = members.map Prod.fst ∧
      ∀ name, Option.Rel Shows (find? name members) (record.lookup name) := by
  induction members generalizing ws with
  | nil =>
    obtain rfl : ws = [] := h
    exact ⟨[], rfl, rfl, fun _ => .none⟩
  | cons member members ih =>
    obtain ⟨key, value⟩ := member
    obtain ⟨w, rest, rfl, shows, showsRest⟩ := h
    obtain ⟨record, hrecord, keys, fields⟩ := ih showsRest
    refine ⟨(key, w) :: record, ?_, ?_, fun name => ?_⟩
    · rw [List.mapM_cons, hrecord]
      rfl
    · rw [List.map_cons, List.map_cons, keys]
    · by_cases same : name = key
      · rw [find?, if_pos same, List.lookup_cons, same, beq_self_eq_true]
        exact .some shows
      · rw [find?, if_neg same, List.lookup_cons, beq_eq_false_iff_ne.2 same]
        exact fields name

theorem lookup_filter {names : List String} {name : String} (known : name ∈ names)
    (record : Record) :
    (record.filter fun field => names.contains field.1).lookup name = record.lookup name := by
  induction record with
  | nil => rfl
  | cons field record ih =>
    obtain ⟨key, w⟩ := field
    by_cases same : name = key
    · subst same
      rw [List.filter_cons_of_pos (by simpa using known), List.lookup_cons, List.lookup_cons,
        beq_self_eq_true]
    · have other : (name == key) = false := beq_eq_false_iff_ne.2 same
      rw [List.lookup_cons, other, List.filter_cons]
      split
      · rwa [List.lookup_cons, other]
      · exact ih

/-- **Records.** What shows an object is read as a record of its fields. -/
theorem exists_read?_of_shows (shape : RecordShape) {members : JsonObject}
    (sorted : Increasing members) {w : Written} (h : Shows (.object members) w) :
    ∃ record, Record.read? shape w = some record ∧ record.Holds shape members := by
  obtain ⟨ws, rfl, shows⟩ := h
  obtain ⟨named, hnamed, keys, fields⟩ := exists_mapM_of_shows shows
  have distinct : isDistinct ((named.filter fun field =>
      shape.names.contains field.1).map (·.1)) := by
    refine isDistinct_iff.2 (List.Nodup.sublist (List.filter_sublist.map _) ?_)
    rw [keys]
    exact sorted.nodup
  refine ⟨named.filter fun field => shape.names.contains field.1, ?_, fun name known => ?_⟩
  · rw [Record.read?, hnamed, Option.bind_eq_bind, Option.bind_some, if_pos distinct]
  · rw [lookup_filter known]
    exact fields name

/-! ### Fields -/

theorem list?_of_shows {α β : Type} {items : List α} {view : α → Json} {result : α → β}
    {read : Written → Option β}
    (reads : ∀ a ∈ items, ∀ w, Shows (view a) w → read w = some (result a)) {w : Written}
    (h : Shows (.array (items.map view)) w) : w.list? read = some (items.map result) := by
  obtain ⟨ws, rfl, shows⟩ := h
  change ws.mapM read = some (items.map result)
  induction items generalizing ws with
  | nil =>
    obtain rfl : ws = [] := shows
    rfl
  | cons a items ih =>
    obtain ⟨first, rest, rfl, shows, showsRest⟩ := shows
    rw [List.forall_mem_cons] at reads
    rw [List.mapM_cons, reads.1 first shows, ih reads.2 rest showsRest]
    rfl

section Fields

variable {record : Record} {name : String}

theorem plain?_of_shows {α β : Type} {field : Option β} {view : β → Json}
    (shown : Option.Rel Shows (field.map view) (record.lookup name)) (result : Option β → α)
    {read : Written → Option α}
    (reads : ∀ b ∈ field, ∀ w, Shows (view b) w → read w = some (result (some b))) :
    record.plain? name (result none) read = some (result field) := by
  unfold plain?
  generalize record.lookup name = written at shown ⊢
  cases field with
  | none =>
    cases shown
    rfl
  | some b =>
    cases shown with
    | some shows => exact reads b rfl _ shows

theorem plain?_list {α β : Type} {items : List α} {view : α → Json} {result : α → β}
    {read : Written → Option β}
    (shown : Option.Rel Shows (some (.array (items.map view))) (record.lookup name))
    (reads : ∀ a ∈ items, ∀ w, Shows (view a) w → read w = some (result a)) :
    record.plain? name [] (Written.list? read) = some (items.map result) := by
  have listed : Option.Rel Shows ((some items).map fun items => .array (items.map view))
      (record.lookup name) := shown
  refine plain?_of_shows listed (fun found => (found.getD []).map result) ?_
  rintro items ⟨⟩ w
  exact list?_of_shows reads

theorem ne_null_of_shows {v : Json} {w : Written} (present : v ≠ .null) (h : Shows v w) :
    w ≠ .null := by
  rintro rfl
  cases v with
  | null => exact present rfl
  | bool _ | string _ => cases h
  | number _ | array _ | object _ =>
    obtain ⟨_, impossible, -⟩ := h
    cases impossible

theorem optional?_of_shows {α : Type} {read : Written → Option α} {found : Option Json}
    {result : Option α} (shown : Option.Rel Shows found (record.lookup name))
    (reads : Option.Rel (fun v a => v ≠ .null ∧ ∀ w, Shows v w → read w = some a) found result) :
    record.optional? name read = some result := by
  unfold optional?
  generalize record.lookup name = written at shown ⊢
  cases reads with
  | none =>
    cases shown
    rfl
  | some reads =>
    cases shown with
    | some shows =>
      have present := ne_null_of_shows reads.1 shows
      have value := reads.2 _ shows
      split
      · next missing => cases missing
      · next missing => exact absurd (Option.some.inj missing) present
      · next found => rw [← Option.some.inj found, value, Option.map_some]

theorem optional?_text {text? : Option String}
    (shown : Option.Rel Shows (text?.map .string) (record.lookup name)) :
    record.optional? name Written.text? = some text? := by
  refine optional?_of_shows shown ?_
  cases text? with
  | none => exact .none
  | some text => exact .some ⟨nofun, fun w h => h ▸ rfl⟩

theorem optional?_value {room : Nat} {value? : Option Json}
    (shown : Option.Rel Shows value? (record.lookup name))
    (fits : ∀ v ∈ value?, v.Fits room) (legible : ∀ v ∈ value?, v.Legible) :
    record.optional? name (·.value? room) = some value? := by
  refine optional?_of_shows shown ?_
  cases value? with
  | none => exact .none
  | some v =>
    have place := fits v rfl
    exact .some ⟨place.ne_null, fun w h =>
      Json.value?_of_shows (legible v rfl) h place.depth_le⟩

theorem optional?_absent {α : Type} {read : Written → Option α}
    (shown : Option.Rel Shows none (record.lookup name)) :
    record.optional? name read = some none :=
  optional?_of_shows shown .none

end Fields
end Record

/-! ### Fields of a token -/

namespace TokenEntry

open Record

theorem readRaw?_of_shows {raw : Json} (fits : raw.Fits (valueRoom - 1)) (legible : raw.Legible)
    {w : Written} (h : Shows (.object [("value", raw)]) w) :
    readRaw? w = some (some raw, none) := by
  obtain ⟨record, hrecord, fields⟩ := exists_read?_of_shows rawShape (.singleton _) h
  have value : record.optional? "value" (·.value? (valueRoom - 1)) = some (some raw) :=
    optional?_value (fields "value" (by decide)) (by simpa using fits) (by simpa using legible)
  have dollarValue : record.optional? "$value" (·.value? (valueRoom - 1)) = some none :=
    optional?_absent (fields "$value" (by decide))
  rw [readRaw?, hrecord]
  simp only [Option.bind_eq_bind, Option.bind_some, value, dollarValue, Option.pure_def]

theorem readAttributes?_of_shows {category : String} {w : Written}
    (h : Shows (.object [("category", .string category)]) w) :
    readAttributes? w = some (some category) := by
  obtain ⟨record, hrecord, fields⟩ := exists_read?_of_shows attributesShape (.singleton _) h
  have text : record.optional? "category" Written.text? = some (some category) :=
    optional?_text (fields "category" (by decide))
  rw [readAttributes?, hrecord, Option.bind_eq_bind, Option.bind_some, text]

/-- The entry that a token is read back from: one spelling of each field. -/
def ofToken (t : Token) : TokenEntry where
  path := t.path
  name := some t.name
  value := some t.value
  dollarValue := none
  rawValue := t.raw
  rawDollarValue := none
  typeName := t.typeName
  dollarType := none
  category := t.category
  comment := t.comment
  description := none
  deprecated := if t.deprecated then some (.bool true) else none
  deprecatedComment := if t.deprecated then t.reason else none

/-- **Entries.** What shows the JSON view of a token is read as its entry. -/
theorem read?_of_shows {t : Token} (fits : t.Fits) (legible : t.Legible) {w : Written}
    (h : Shows t.toJson w) : read? w = some (ofToken t) := by
  obtain ⟨record, hrecord, holds⟩ := exists_read?_of_shows shape (.ofList t.jsonMembers) h
  -- The record has what the token has, so that every field is told from the view.
  have field : ∀ name ∈ shape.names, Option.Rel Shows (t.field? name) (record.lookup name) := by
    intro name known
    rw [← t.find?_jsonMembers, ← SortedAssoc.find?_ofList_of_nodup t.nodup_jsonMembers]
    exact holds name known
  have path : record.plain? "path" [] (Written.list? Written.text?) = some t.path := by
    have texts : ∀ text ∈ t.path, ∀ w, Shows (.string text) w → Written.text? w = some (id text) :=
      fun _ _ _ h => h ▸ rfl
    rw [plain?_list (field "path" (by decide)) texts, List.map_id]
  have name : record.optional? "name" Written.text? = some (some t.name) :=
    optional?_text (field "name" (by decide))
  have value : record.optional? "value" (·.value? valueRoom) = some (some t.value) :=
    optional?_value (field "value" (by decide)) (by simpa using fits.1) (by simpa using legible.1)
  have dollarValue : record.optional? "$value" (·.value? valueRoom) = some none :=
    optional?_absent (field "$value" (by decide))
  have raw : record.plain? "original" (none, none) readRaw? = some (t.raw, none) :=
    plain?_of_shows (field "original" (by decide)) (·, none) fun raw hraw _ =>
      readRaw?_of_shows (fits.2 raw hraw) (legible.2 raw hraw)
  have typeName : record.optional? "type" Written.text? = some t.typeName :=
    optional?_text (field "type" (by decide))
  have dollarType : record.optional? "$type" Written.text? = some none :=
    optional?_absent (field "$type" (by decide))
  have category : record.plain? "attributes" none readAttributes? = some t.category :=
    plain?_of_shows (field "attributes" (by decide)) id fun _ _ _ => readAttributes?_of_shows
  have comment : record.optional? "comment" Written.text? = some t.comment :=
    optional?_text (field "comment" (by decide))
  have description : record.optional? "$description" Written.text? = some none :=
    optional?_absent (field "$description" (by decide))
  have deprecated : record.optional? "deprecated" (·.value? valueRoom) =
      some (if t.deprecated then some (.bool true) else none) :=
    optional?_value (field "deprecated" (by decide)) (by split <;> simp [Json.fits_bool])
      (by split <;> simp [Json.Legible])
  have deprecatedComment : record.optional? "deprecated_comment" Written.text? =
      some (if t.deprecated then t.reason else none) :=
    optional?_text (field "deprecated_comment" (by decide))
  have step : ∀ {α β : Type} {x : Option α} {a : α} {f : α → Option β} {b : β}, x = some a →
      f a = some b → x >>= f = some b :=
    fun hx hf => Option.bind_eq_some_iff.2 ⟨_, hx, hf⟩
  exact step hrecord <| step raw <| step path <| step name <| step value <| step dollarValue <|
    step typeName <| step dollarType <| step category <| step comment <| step description <|
    step deprecated <| step deprecatedComment rfl

/-- The entry of a token makes it again, as far as its view shows it. -/
theorem toToken_ofToken (t : Token) : (ofToken t).toToken = .ok t.shown := by
  cases flag : t.deprecated <;>
    simp [toToken, ofToken, isDeprecated, deprecationText?, Json.asString?, Token.shown, flag]

end TokenEntry

/-! ### Tokens of a dictionary -/

namespace Dictionary

/-- The export that lists the JSON views of tokens. -/
def exportOf (tokens : List Token) : Json :=
  .object [("allTokens", .array (tokens.map Token.toJson))]

theorem legible_exportOf {tokens : List Token} (legible : ∀ t ∈ tokens, t.Legible) :
    (exportOf tokens).Legible := by
  refine Json.legible_singleton (Json.legibleItems_iff.2 ?_)
  rw [List.forall_mem_map]
  exact fun t ht => (legible t ht).toJson

theorem readExport?_of_shows {tokens : List Token} (fits : ∀ t ∈ tokens, t.Fits)
    (legible : ∀ t ∈ tokens, t.Legible) {w : Written} (h : Shows (exportOf tokens) w) :
    readExport? w = some (tokens.map TokenEntry.ofToken, none) := by
  obtain ⟨record, hrecord, fields⟩ := Record.exists_read?_of_shows exportShape (.singleton _) h
  have entries : record.plain? "allTokens" [] (Written.list? TokenEntry.read?) =
      some (tokens.map TokenEntry.ofToken) :=
    Record.plain?_list (fields "allTokens" (by decide)) fun t ht _ =>
      TokenEntry.read?_of_shows (fits t ht) (legible t ht)
  have tree : record.optional? "tokens" (·.value? (Json.depthLimit - 1)) = some none :=
    Record.optional?_absent (fields "tokens" (by decide))
  rw [readExport?, hrecord, Option.bind_eq_bind, Option.bind_some, entries, Option.bind_eq_bind,
    Option.bind_some, tree]
  rfl

/-- The values of tokens have their place in an export, also after changes. -/
theorem fits_run {source : String} {parsed : Dictionary} (read : ofExport source = .ok parsed)
    (changes : List Change) : ∀ t ∈ (parsed.run changes).tokens, t.Fits := by
  intro t ht
  rw [tokens_run] at ht
  obtain ⟨p, hp, rfl⟩ := List.mem_map.1 ht
  exact (isRead_of_ofExport read p (List.mem_of_mem_filter hp)).fits.applyAllTo _

/-- **Rereading.** Take tokens of an export, also after any run of changes, and let the numbers in
them be read back from their texts. Wherever a JSON text shows the view of such a token, the token
that is read there is the same in every field, but for the reason of a token that is not deprecated:
that is gone. So an export that lists the views, in any spelling, is read as the dictionary of these
tokens. -/
theorem views_read_back {source : String} {parsed : Dictionary}
    (read : ofExport source = .ok parsed) (changes : List Change) {tokens : List Token}
    (listed : ∀ t ∈ tokens, t ∈ (parsed.run changes).tokens)
    (readsBack : ∀ t ∈ tokens, ∀ x ∈ t.numbers, Json.ReadsBack x) :
    (∀ t ∈ tokens, t.shown.kind = t.kind ∧ ∀ w, Shows t.toJson w →
      (TokenEntry.read? w).map TokenEntry.toToken = some (.ok t.shown)) ∧
    ∀ text, Json.Spells (exportOf tokens) text →
      ofExport (String.ofList text) = .ok (ofTokens (tokens.map Token.shown)) := by
  have fits : ∀ t ∈ tokens, t.Fits := fun t ht => fits_run read changes t (listed t ht)
  have legible : ∀ t ∈ tokens, t.Legible := fun t ht => (fits t ht).legible (readsBack t ht)
  refine ⟨fun t ht => ⟨rfl, fun w h => ?_⟩, fun text h => ?_⟩
  · rw [TokenEntry.read?_of_shows (fits t ht) (legible t ht) h, Option.map_some,
      TokenEntry.toToken_ofToken]
  · obtain ⟨w, parsed, shows⟩ := Json.exists_parse?_of_spells (legible_exportOf legible) h
    have made : (tokens.map TokenEntry.ofToken).mapM TokenEntry.toToken =
        .ok (tokens.map Token.shown) := by
      rw [List.mapM_map]
      simp only [Function.comp_def, TokenEntry.toToken_ofToken]
      exact List.mapM_pure
    rw [ofExport, parsed, Option.bind_some, readExport?_of_shows fits legible shows]
    change (tokens.map TokenEntry.ofToken).mapM TokenEntry.toToken >>= _ = _
    rw [made]
    rfl

/-- An export with other spellings of some fields. -/
def spellingsText : String :=
  "\x7b\"allTokens\": [" ++
    "\x7b\"path\": [\"gap\"], \"$value\": 8, \"deprecated\": \"use m\"\x7d, " ++
    "\x7b\"path\": [\"red\"], \"value\": \"#ff0000ff\", \"$type\": \"color\", " ++
      "\"deprecated_comment\": \"old\"\x7d]\x7d"

/-- The tokens of that export: a number that is deprecated, and a color that is not. -/
def spellings : Dictionary :=
  .ofTokens [
    { Token.ofValue ["gap"] "gap" (.number (.integer 8)) with
      raw := none, deprecated := true, reason := some "use m" },
    { Token.ofValue ["red"] "red" (.string "#ff0000ff") with
      raw := none, typeName := some "color", reason := some "old" }]

theorem ofExport_spellingsText : ofExport spellingsText = .ok spellings := by
  cbv

theorem views_read_back_spellings :
    let changed := (spellings.run [.transform [.hex6]]).tokens
    ofExport spellingsText = .ok spellings ∧
    (∀ t ∈ changed, ∀ x ∈ t.numbers, Json.ReadsBack x) ∧
    changed.map (fun t => (t.value.asString?, t.reason)) =
      [(none, some "use m"), (some "#ff0000", some "old")] ∧
    ofExport (exportOf changed).compact = .ok (ofTokens (changed.map Token.shown)) ∧
    changed.map (fun t => t.shown.reason) = [some "use m", none] := by
  intro changed
  have numbers : changed.map Token.numbers = [[.integer 8], []] := by decide +kernel
  have readsBack : ∀ t ∈ changed, ∀ x ∈ t.numbers, Json.ReadsBack x := by
    intro t ht x hx
    have known : t.numbers ∈ [[.integer 8], []] := numbers ▸ List.mem_map_of_mem ht
    rcases List.mem_pair.1 known with same | same
    · obtain rfl := List.mem_singleton.1 (same ▸ hx)
      exact Json.readsBack_integer (by decide)
    · exact absurd (same ▸ hx) List.not_mem_nil
  exact ⟨ofExport_spellingsText, readsBack, by decide +kernel,
    (views_read_back ofExport_spellingsText _ (fun _ ht => ht) readsBack).2 _
      (Json.spells_compactChars _), by decide +kernel⟩

end Dictionary
end DesignTokens

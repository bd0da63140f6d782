import DesignTokens.Dictionary.Export
import DesignTokens.Proofs.Json.Values
import DesignTokens.Proofs.Output.MergedTree
import DesignTokens.Transform

/-!
# Dictionaries that can be read back

The values of the tokens of an export were read, each with the room that its field has
(`Dictionary.isRead_of_ofExport`). So they have a place in these fields (`Token.Fits`), and
transforms keep that: they leave a value as it is or make a text of it (`Transform.apply_eq_or`). If
every number that is read is read back from its text (`Written.NumbersReadBack`), then the tokens
are legible, before and after transforms and filters (`Dictionary.legible_of_ofExport`).
-/

namespace DesignTokens

/-! ### Tokens of an export -/

open Written (NumbersReadBack)

theorem of_bind_eq_ok {ε α β : Type} {x : Except ε α} {f : α → Except ε β} {b : β}
    (h : x >>= f = .ok b) : ∃ a, x = .ok a ∧ f a = .ok b := by
  cases x with
  | error _ => cases h
  | ok a => exact ⟨a, rfl, h⟩

theorem Record.eq_or_exists_of_plain? {α : Type} {record : Record} {name : String}
    {absent found : α} {read : Written → Option α}
    (h : record.plain? name absent read = some found) :
    found = absent ∨ ∃ w, read w = some found := by
  unfold plain? at h
  split at h
  · exact .inl (Option.some.inj h).symm
  · exact .inr ⟨_, h⟩

theorem Record.isRead_of_optional? {record : Record} {name : String} {room : Nat}
    {found : Option Json} (h : record.optional? name (·.value? room) = some found) :
    ∀ value ∈ found, value.IsRead room := by
  unfold optional? at h
  split at h
  · cases h
    simp
  · cases h
    simp
  next w present _ =>
    obtain ⟨value, hvalue, rfl⟩ := Option.map_eq_some_iff.1 h
    rintro _ ⟨⟩
    exact ⟨w, present, hvalue⟩

namespace Token

/-- The value and the raw expression were read, each with the room that an export has for it. -/
def IsRead (t : Token) : Prop :=
  t.value.IsRead TokenEntry.valueRoom ∧ ∀ raw ∈ t.raw, raw.IsRead (TokenEntry.valueRoom - 1)

/-- The value and the raw expression have a place where an export has them. -/
def Fits (t : Token) : Prop :=
  t.value.Fits TokenEntry.valueRoom ∧ ∀ raw ∈ t.raw, raw.Fits (TokenEntry.valueRoom - 1)

def numbers (t : Token) : List JsonNumber :=
  t.value.numbers ++ (t.raw.map Json.numbers).getD []

variable {t : Token}

theorem IsRead.fits (h : t.IsRead) : t.Fits :=
  ⟨h.1.fits, fun raw hraw => (h.2 raw hraw).fits⟩

theorem IsRead.legible (numbers : NumbersReadBack) (h : t.IsRead) : t.Legible :=
  ⟨h.1.legible numbers, fun raw hraw => (h.2 raw hraw).legible numbers⟩

theorem Fits.legible (h : t.Fits) (readsBack : ∀ x ∈ t.numbers, Json.ReadsBack x) : t.Legible := by
  obtain ⟨ofValue, ofRaw⟩ := List.forall_mem_append.1 readsBack
  refine ⟨Json.legible_of_ordered h.1.ordered ofValue, fun raw hraw => ?_⟩
  refine Json.legible_of_ordered (h.2 raw hraw).ordered fun x hx => ofRaw x ?_
  rwa [Option.mem_def.1 hraw, Option.map_some, Option.getD_some]

end Token

namespace TokenEntry

/-- All values of the entry were read, each with the room that an export has for it. -/
def IsRead (e : TokenEntry) : Prop :=
  (∀ v ∈ e.value, v.IsRead valueRoom) ∧ (∀ v ∈ e.dollarValue, v.IsRead valueRoom) ∧
    (∀ v ∈ e.rawValue, v.IsRead (valueRoom - 1)) ∧ ∀ v ∈ e.rawDollarValue, v.IsRead (valueRoom - 1)

theorem isRead_of_readRaw? {w : Written} {raw : Option Json × Option Json}
    (h : readRaw? w = some raw) :
    (∀ v ∈ raw.1, v.IsRead (valueRoom - 1)) ∧ ∀ v ∈ raw.2, v.IsRead (valueRoom - 1) := by
  simp only [readRaw?, Option.bind_eq_bind, Option.bind_eq_some_iff] at h
  obtain ⟨record, -, first, hfirst, second, hsecond, heq⟩ := h
  cases heq
  exact ⟨Record.isRead_of_optional? hfirst, Record.isRead_of_optional? hsecond⟩

theorem isRead_of_read? {w : Written} {e : TokenEntry} (h : read? w = some e) : e.IsRead := by
  unfold read? at h
  obtain ⟨record, -, h⟩ := Option.bind_eq_some_iff.1 h
  obtain ⟨raw, hraw, h⟩ := Option.bind_eq_some_iff.1 h
  obtain ⟨path, -, h⟩ := Option.bind_eq_some_iff.1 h
  obtain ⟨name, -, h⟩ := Option.bind_eq_some_iff.1 h
  obtain ⟨value, hvalue, h⟩ := Option.bind_eq_some_iff.1 h
  obtain ⟨dollar, hdollar, h⟩ := Option.bind_eq_some_iff.1 h
  -- What is left are the fields that hold no value of the token.
  simp only [Option.bind_eq_bind, Option.bind_eq_some_iff] at h
  obtain ⟨typeName, -, _, -, _, -, _, -, _, -, _, -, _, -, heq⟩ := h
  cases heq
  refine ⟨Record.isRead_of_optional? hvalue, Record.isRead_of_optional? hdollar, ?_⟩
  rcases Record.eq_or_exists_of_plain? hraw with rfl | ⟨_, hread⟩
  · simp
  · exact isRead_of_readRaw? hread

theorem IsRead.toToken {e : TokenEntry} (h : e.IsRead) {t : Token} (ht : e.toToken = .ok t) :
    t.IsRead := by
  obtain ⟨value, dollarValue, rawValue, rawDollarValue⟩ := h
  have either : ∀ {a b : Option Json} {room : Nat}, (∀ v ∈ a, v.IsRead room) →
      (∀ v ∈ b, v.IsRead room) → ∀ v ∈ a.or b, v.IsRead room := by
    intro a b room ha hb v hv
    rcases Option.or_eq_some_iff.1 hv with hv | ⟨-, hv⟩
    · exact ha v hv
    · exact hb v hv
  unfold TokenEntry.toToken at ht
  dsimp only at ht
  split at ht
  · cases ht
  · next found =>
    cases ht
    exact ⟨either value dollarValue _ found, either rawValue rawDollarValue⟩

theorem isRead_of_list? {w : Written} {entries : List TokenEntry}
    (h : Written.list? read? w = some entries) : ∀ e ∈ entries, e.IsRead := by
  cases w with
  | array items =>
    change items.mapM read? = some entries at h
    induction items generalizing entries with
    | nil =>
      cases h
      simp
    | cons item items ih =>
      rw [List.mapM_cons] at h
      simp only [Option.bind_eq_bind, Option.bind_eq_some_iff] at h
      obtain ⟨first, hfirst, rest, hrest, heq⟩ := h
      cases heq
      exact List.forall_mem_cons.2 ⟨isRead_of_read? hfirst, ih hrest⟩
  | _ => cases h

theorem exists_of_mapM_toToken {entries : List TokenEntry} {tokens : List Token}
    (made : entries.mapM toToken = .ok tokens) :
    ∀ t ∈ tokens, ∃ e ∈ entries, e.toToken = .ok t := by
  induction entries generalizing tokens with
  | nil =>
    cases made
    simp
  | cons entry entries ih =>
    rw [List.mapM_cons] at made
    obtain ⟨first, hfirst, made⟩ := of_bind_eq_ok made
    obtain ⟨rest, hrest, made⟩ := of_bind_eq_ok made
    cases made
    refine List.forall_mem_cons.2 ⟨⟨entry, List.mem_cons_self, hfirst⟩, fun t ht => ?_⟩
    obtain ⟨e, he, own⟩ := ih hrest t ht
    exact ⟨e, List.mem_cons_of_mem _ he, own⟩

theorem isRead_of_mapM_toToken {entries : List TokenEntry} (read : ∀ e ∈ entries, e.IsRead)
    {tokens : List Token} (h : entries.mapM toToken = .ok tokens) : ∀ t ∈ tokens, t.IsRead := by
  intro t ht
  obtain ⟨e, he, made⟩ := exists_of_mapM_toToken h t ht
  exact (read e he).toToken made

end TokenEntry

namespace Dictionary

theorem isRead_of_readExport? {w : Written} {entries : List TokenEntry} {tree? : Option Json}
    (h : readExport? w = some (entries, tree?)) : ∀ e ∈ entries, e.IsRead := by
  simp only [readExport?, Option.bind_eq_bind, Option.bind_eq_some_iff] at h
  obtain ⟨record, -, listed, hlisted, _, -, heq⟩ := h
  cases heq
  rcases Record.eq_or_exists_of_plain? hlisted with rfl | ⟨_, hread⟩
  · simp
  · exact TokenEntry.isRead_of_list? hread

theorem isRead_of_ofExport {source : String} {dictionary : Dictionary}
    (h : ofExport source = .ok dictionary) : ∀ t ∈ dictionary.tokens, t.IsRead := by
  unfold ofExport at h
  split at h
  · cases h
  · next entries tree? hread =>
    obtain ⟨w, -, hexport⟩ := Option.bind_eq_some_iff.1 hread
    have read := isRead_of_readExport? hexport
    obtain ⟨tokens, htokens, h⟩ := of_bind_eq_ok h
    have tokensRead := TokenEntry.isRead_of_mapM_toToken read htokens
    cases tree? <;> cases h <;> exact tokensRead

/-- **Exports.** The tokens of an export can be read back from their texts. -/
theorem legible_of_ofExport (numbers : NumbersReadBack) {source : String} {dictionary : Dictionary}
    (h : ofExport source = .ok dictionary) : ∀ t ∈ dictionary.tokens, t.Legible :=
  fun t ht => (isRead_of_ofExport h t ht).legible numbers

end Dictionary

/-! ### Changes -/

theorem Transform.apply_eq_or (transform : Transform) (value : Json) :
    transform.apply value = value ∨ ∃ text, transform.apply value = .string text := by
  have size : ∀ before behind, onSize before behind value = value ∨
      ∃ text, onSize before behind value = .string text := by
    intro before behind
    unfold onSize
    split
    · exact .inr ⟨_, rfl⟩
    · exact .inl rfl
  have color : ∀ write, onColor write value = value ∨
      ∃ text, onColor write value = .string text := by
    intro write
    unfold onColor
    split
    · exact .inr ⟨_, rfl⟩
    · exact .inl rfl
  cases transform with
  | hex6 =>
    unfold apply
    dsimp only
    split
    · exact .inr ⟨_, rfl⟩
    · exact .inl rfl
  | pxToDp | pxToSp | pxToCGFloat => exact size _ _
  | hex8Android | uiColor => exact color _

theorem Transform.legible_apply (transform : Transform) {value : Json} (h : value.Legible) :
    (transform.apply value).Legible := by
  rcases transform.apply_eq_or value with same | ⟨text, same⟩ <;> rw [same]
  · exact h
  · trivial

theorem Transform.fits_apply (transform : Transform) {value : Json} {room : Nat}
    (h : value.Fits room) : (transform.apply value).Fits room := by
  rcases transform.apply_eq_or value with same | ⟨text, same⟩ <;> rw [same]
  · exact h
  · exact Json.fits_string room text

/-- What every transform of a token keeps holds after any number of them. -/
theorem Transform.applyAllTo_induction {p : Token → Prop}
    (keeps : ∀ (transform : Transform) (t : Token), p t → p (applyTo t transform))
    (transforms : List Transform) {t : Token} (h : p t) : p (applyAllTo transforms t) := by
  induction transforms generalizing t with
  | nil => exact h
  | cons transform transforms ih => exact ih (keeps transform t h)

theorem Token.Legible.applyTo {t : Token} (h : t.Legible) (transform : Transform) :
    (Transform.applyTo t transform).Legible := by
  unfold Transform.applyTo
  split
  · exact ⟨transform.legible_apply h.1, h.2⟩
  · exact h

theorem Token.Legible.applyAllTo {t : Token} (h : t.Legible) (transforms : List Transform) :
    (Transform.applyAllTo transforms t).Legible :=
  Transform.applyAllTo_induction (fun transform _ legible => legible.applyTo transform) transforms h

theorem Token.Fits.applyTo {t : Token} (h : t.Fits) (transform : Transform) :
    (Transform.applyTo t transform).Fits := by
  unfold Transform.applyTo
  split
  · exact ⟨transform.fits_apply h.1, h.2⟩
  · exact h

theorem Token.Fits.applyAllTo {t : Token} (h : t.Fits) (transforms : List Transform) :
    (Transform.applyAllTo transforms t).Fits :=
  Transform.applyAllTo_induction (fun transform _ fits => fits.applyTo transform) transforms h

theorem Dictionary.legible_transformed {dictionary : Dictionary}
    (h : ∀ t ∈ dictionary.tokens, t.Legible) (transforms : List Transform) :
    ∀ t ∈ (dictionary.transformed transforms).tokens, t.Legible := by
  unfold transformed
  split
  · exact h
  · intro t hmem
    obtain ⟨before, hbefore, rfl⟩ := List.mem_map.1 hmem
    exact (h before hbefore).applyAllTo transforms

theorem Dictionary.legible_filter {dictionary : Dictionary}
    (h : ∀ t ∈ dictionary.tokens, t.Legible) (keep : Token → Bool) :
    ∀ t ∈ (dictionary.filter keep).tokens, t.Legible :=
  fun t hmem => h t (List.mem_filter.1 hmem).1

end DesignTokens

import DesignTokens.Proofs.Reference.Referents
import Mathlib.Algebra.Order.BigOperators.Group.List
import Mathlib.Algebra.Order.Group.Nat

/-!
# Replacing one path after the other, and all placeholders at once

`Reference.substitute` gives each placeholder of an expression what `format` makes of the token that
this placeholder refers to, all at once. `Reference.expand?` goes through the referents and replaces
what spells their paths in the text so far. The two differ when a path is another one with `.value`
behind it and when a replacement looks like a placeholder.

They agree:

* for every `format`, exactly when the expression has one placeholder, and no `{}` that its path
  spells as well;
* for every `format` that writes no braces, when all braces of the expression belong to
  placeholders: exactly when each placeholder refers to the first referent whose path it spells.
-/

namespace DesignTokens.Reference

open Text (isBlank dropBlank trim)

/-! ### Simultaneous substitution -/

/-- A piece with its placeholder replaced by what `format` makes of the token it refers to. -/
def Piece.filled (dictionary : Dictionary) (format : Token → String) : Piece → List Char
  | .char c => [c]
  | .placeholder body =>
    match referent? dictionary body with
    | some t => (format t).toList
    | none => (Piece.placeholder body).chars

/-- An expression with all its placeholders replaced at once. -/
def substitute (dictionary : Dictionary) (format : Token → String) (raw : String) : String :=
  String.ofList ((scan raw.toList).flatMap (Piece.filled dictionary format))

/-- Every brace of the expression belongs to a placeholder. -/
def Tidy (raw : String) : Prop :=
  ∀ p ∈ scan raw.toList, p ≠ .char '\x7b' ∧ p ≠ .char '\x7d'

instance (raw : String) : Decidable (Tidy raw) := by
  unfold Tidy
  infer_instance

theorem Tidy.blocks_eq_scan {raw : String} (h : Tidy raw) :
    blocks raw.toList = scan raw.toList := by
  rw [scan_eq]
  have all : ∀ p ∈ blocks raw.toList, p.scanned = [p] := by
    rintro (c | _ | ⟨b, bs⟩) hp
    · rfl
    · have hc : .char '\x7b' ∈ scan raw.toList := by
        rw [scan_eq, List.mem_flatMap]
        exact ⟨_, hp, by simp [Piece.scanned]⟩
      exact absurd rfl (h _ hc).1
    · rfl
  rw [List.flatMap_congr all, List.flatMap_singleton']

theorem substitute_eq (dictionary : Dictionary) (format : Token → String) (raw : String) :
    substitute dictionary format raw = String.ofList ((blocks raw.toList).flatMap fun p =>
      p.scanned.flatMap (Piece.filled dictionary format)) := by
  rw [substitute, scan_eq, List.flatMap_assoc]

/-- Pieces that are nowhere longer and somewhere shorter spell another text. -/
theorem flatMap_ne_of_length {α β : Type} {xs : List α} {f g : α → List β}
    (le : ∀ x ∈ xs, (f x).length ≤ (g x).length) (lt : ∃ x ∈ xs, (f x).length < (g x).length) :
    xs.flatMap f ≠ xs.flatMap g := by
  intro h
  have := congrArg List.length h
  rw [List.length_flatMap, List.length_flatMap] at this
  exact absurd this (List.sum_lt_sum _ _ le lt).ne

/-! ### One placeholder, any format -/

theorem spells_nil_iff {path : List Char} : spells path [] ↔ path = [] := by
  rw [spells_iff]
  constructor
  · rintro ⟨suffix, -, after, -, h⟩
    have h : [] = path ++ suffix ++ after := h
    simp only [List.nil_eq_append_iff, List.append_eq_nil_iff] at h
    exact h.1.1
  · rintro rfl
    exact ⟨[], by simp, [], by simp, rfl⟩

section Any

variable {dictionary : Dictionary} {raw : String}

theorem expand?_eq_substitute_of_single {body : List Char} (single : placeholders raw = [body])
    {t : Token} (ht : referent? dictionary body = some t)
    (plain : t.dottedPath = "" → ¬ ['\x7b', '\x7d'] <:+: raw.toList) (format : Token → String) :
    expand? dictionary format raw = some (substitute dictionary format raw) := by
  have found : referents dictionary raw = [t] := by simp [referents, single, ht]
  have hp : Braceless t.dottedPath.toList :=
    braceless_of_mem_referents (found ▸ List.mem_singleton_self t)
  have text : (format t).toList = ((format t).toList.map Piece.char).flatMap Piece.chars := by
    simp [Piece.chars, List.flatMap_map]
  rw [expand?_of_resolved (by simp [single, ht]), if_neg (by simp [single]), found, List.foldl_cons,
    List.foldl_nil, replace, text, replaceFrom_blocks hp, List.flatMap_assoc, substitute_eq]
  congr 2
  refine List.flatMap_congr fun p hpiece => ?_
  obtain c | _ | ⟨b, bs⟩ := p
  · rfl
  · have : ¬ spells t.dottedPath.toList [] := by
      rw [spells_nil_iff, String.toList_eq_nil_iff]
      exact fun empty => plain empty (placeholder_nil_mem_blocks.1 hpiece)
    simp [Piece.swap, this, Piece.scanned, Piece.chars, Piece.filled]
  · have : b :: bs ∈ placeholders raw := mem_placeholders.2 ⟨by simp, hpiece⟩
    obtain rfl : b :: bs = body := by simpa [single] using this
    simp [Piece.swap, spells_of_referent? ht, Piece.scanned, Piece.filled, ht, ← text]

end Any

/-! ### A format that writes the placeholder of a path -/

/-- A placeholder for a path, and a letter behind it. -/
def echo (path : List Char) : List Piece :=
  [.placeholder (' ' :: path), .char 'x']

def echoText (path : List Char) : String :=
  String.ofList ((echo path).flatMap Piece.chars)

theorem settled_flatMap_swap {path : List Char} {new : List Piece}
    (reset : ∀ (opened : Bool) (qs : List Piece), Settled false qs → Settled opened (new ++ qs))
    {ps : List Piece} {opened : Bool} (h : Settled opened ps) :
    Settled opened (ps.flatMap (Piece.swap path new)) := by
  induction ps generalizing opened with
  | nil => trivial
  | cons p ps ih =>
    obtain c | body := p
    · exact h.char_cons ih
    · rw [List.flatMap_cons, Piece.swap]
      split
      · exact reset opened _ (ih h.2)
      · exact ⟨h.1, ih h.2⟩

theorem settled_echo_append {path : List Char} (hp : Braceless path) (opened : Bool)
    {qs : List Piece} (h : Settled false qs) : Settled opened (echo path ++ qs) := by
  refine ⟨braceless_cons.2 ⟨by decide, hp⟩, ?_⟩
  simpa [Settled] using h

section Echo

variable {path : List Char}

theorem spells_echo (front : ∀ c ∈ path.head?, isBlank c = false) : spells path (' ' :: path) := by
  refine spells_iff.2 ⟨[], by simp, [], by simp, ?_⟩
  have : dropBlank path = path := by
    cases path with
    | nil => rfl
    | cons c cs =>
      unfold dropBlank
      rw [List.dropWhile_cons_of_neg]
      simpa using front c (by simp)
  calc dropBlank (' ' :: path) = dropBlank path := rfl
    _ = path ++ [] ++ [] := by simp [this]

/-- The length of what becomes of a placeholder when `echo` is put in for every token. -/
def echoLength (path : List Char) (ts : List Token) (body : List Char) : ℕ :=
  ((Piece.fate (fun _ => echo path) ts (.placeholder body)).flatMap Piece.chars).length

theorem echoLength_nil (body : List Char) : echoLength path [] body = body.length + 2 := by
  simp [echoLength, Piece.fate, Piece.chars]

theorem echoLength_cons (t : Token) (ts : List Token) (body : List Char) :
    echoLength path (t :: ts) body =
      if spells t.dottedPath.toList body then echoLength path ts (' ' :: path) + 1
      else echoLength path ts body := by
  unfold echoLength
  rw [Piece.fate, Piece.swap]
  split <;> simp [echo, Piece.chars]

theorem echoLength_echo (ts : List Token) :
    echoLength path ts (' ' :: path) =
      path.length + 3 + ts.countP fun t => spells t.dottedPath.toList (' ' :: path) := by
  induction ts with
  | nil => simp [echoLength_nil]
  | cons t ts ih =>
    rw [echoLength_cons, List.countP_cons]
    split
    · simp [*]
      omega
    · simp [*]

theorem two_le_echoLength (ts : List Token) (body : List Char) : 2 ≤ echoLength path ts body := by
  induction ts generalizing body with
  | nil => simp [echoLength_nil]
  | cons t ts ih =>
    rw [echoLength_cons]
    split
    · exact Nat.le_succ_of_le (ih _)
    · exact ih _

theorem le_echoLength (path : List Char) {ts : List Token} {t : Token} (ht : t ∈ ts)
    {body : List Char} (h : spells t.dottedPath.toList body) :
    path.length + 4 ≤ echoLength path ts body := by
  induction ts with
  | nil => simp at ht
  | cons s ts ih =>
    rw [echoLength_cons]
    split
    · rw [echoLength_echo]
      omega
    · next hs =>
      rcases List.mem_cons.1 ht with rfl | ht
      · exact absurd h hs
      · exact ih ht

end Echo

theorem not_blank_head_of_mem_referents {dictionary : Dictionary} {raw : String} {t : Token}
    (h : t ∈ referents dictionary raw) : ∀ c ∈ t.dottedPath.toList.head?, isBlank c = false := by
  obtain ⟨body, -, ht⟩ := mem_referents.1 h
  obtain ⟨-, suffix, -, key⟩ := referent?_eq_some ht
  intro c hc
  obtain ⟨after, -, hafter⟩ := exists_dropBlank_eq_trim_append body
  have head : (dropBlank body).head? = some c := by
    obtain ⟨cs, hcs⟩ : ∃ cs, t.dottedPath.toList = c :: cs := List.head?_eq_some_iff.1 hc
    rw [hafter, key, hcs]
    rfl
  have := List.head?_dropWhile_not isBlank body
  rw [← dropBlank, head] at this
  simpa using this

section Several

variable {dictionary : Dictionary} {raw : String}
  (resolved : ∀ body ∈ placeholders raw, (referent? dictionary body).isSome)
include resolved

theorem expand?_echo {path : List Char} (hp : Braceless path)
    (some_placeholder : placeholders raw ≠ []) :
    expand? dictionary (fun _ => echoText path) raw =
      some (String.ofList ((blocks raw.toList).flatMap fun p =>
        (Piece.fate (fun _ => echo path) (referents dictionary raw) p).flatMap Piece.chars)) := by
  rw [expand?_of_resolved resolved, if_neg some_placeholder]
  have := foldl_replace (fun _ => echoText path) (fun _ => echo path) (Settled false)
    (fun _ h => h)
    (fun (t : Token) (ht : t ∈ referents dictionary raw) => braceless_of_mem_referents ht)
    (fun t _ => String.toList_ofList)
    (fun t _ ps h => settled_flatMap_swap (fun opened qs => settled_echo_append hp opened) h)
    (settled_blocks raw.toList)
  rw [flatMap_chars_blocks] at this
  rw [this, List.flatMap_assoc]

/-- **Two placeholders are one too many.** For the format that writes, for every token, a
placeholder of the last referent, all replacements but the last one are scanned again. -/
theorem expand?_echo_ne_substitute {last : Token}
    (hlast : (referents dictionary raw).getLast? = some last)
    (fails : ¬ ∃ body, placeholders raw = [body] ∧ ∀ t, referent? dictionary body = some t →
      t.dottedPath = "" → ¬ ['\x7b', '\x7d'] <:+: raw.toList) :
    expand? dictionary (fun _ => echoText last.dottedPath.toList) raw ≠
      some (substitute dictionary (fun _ => echoText last.dottedPath.toList) raw) := by
  have mem : last ∈ referents dictionary raw := List.mem_of_getLast? hlast
  have some_placeholder : placeholders raw ≠ [] := by
    obtain ⟨body, hbody, -⟩ := mem_referents.1 mem
    exact List.ne_nil_of_mem hbody
  have hspell : spells last.dottedPath.toList (' ' :: last.dottedPath.toList) :=
    spells_echo (not_blank_head_of_mem_referents mem)
  have own : ∀ {b}, b ∈ placeholders raw → ∃ t ∈ referents dictionary raw,
      referent? dictionary b = some t ∧ spells t.dottedPath.toList b := by
    intro b hb
    obtain ⟨t, ht⟩ := Option.isSome_iff_exists.1 (resolved b hb)
    exact ⟨t, mem_referents.2 ⟨b, hb, ht⟩, ht, spells_of_referent? ht⟩
  -- what `substitute` makes of a block is this long
  have filled : ∀ {b}, b ∈ placeholders raw → ((Piece.scanned (.placeholder b)).flatMap
      (Piece.filled dictionary fun _ => echoText last.dottedPath.toList)).length =
      last.dottedPath.toList.length + 4 := by
    intro b hb
    obtain ⟨t, -, ht, -⟩ := own hb
    obtain ⟨c, cs, rfl⟩ := List.exists_cons_of_ne_nil (mem_placeholders.1 hb).1
    simp [Piece.scanned, Piece.filled, ht, echoText, echo, Piece.chars]
  rw [expand?_echo resolved (braceless_of_mem_referents mem) some_placeholder, substitute_eq]
  intro h
  have h := (String.ofList_injective (Option.some.inj h)).symm
  refine flatMap_ne_of_length ?_ ?_ h
  · rintro (c | _ | ⟨c, cs⟩) hp
    · simp [Piece.scanned, Piece.filled, Piece.chars]
    · exact two_le_echoLength _ _
    · have hb : c :: cs ∈ placeholders raw := mem_placeholders.2 ⟨by simp, hp⟩
      obtain ⟨t, ht, -, hs⟩ := own hb
      rw [filled hb]
      exact le_echoLength _ ht hs
  · obtain ⟨b, bs, hbs⟩ := List.exists_cons_of_ne_nil some_placeholder
    have hb : b ∈ placeholders raw := by simp [hbs]
    obtain ⟨t, ht⟩ := Option.isSome_iff_exists.1 (resolved b hb)
    have found : referents dictionary raw = t :: bs.filterMap (referent? dictionary) := by
      simp [referents, hbs, ht]
    cases bs with
    | nil =>
      -- the only placeholder has the empty path, which `\x7b\x7d` spells
      have plain : t.dottedPath = "" ∧ ['\x7b', '\x7d'] <:+: raw.toList := by
        by_contra plain
        refine fails ⟨b, hbs, fun t' ht' empty braces => plain ⟨?_, braces⟩⟩
        rw [ht] at ht'
        rwa [Option.some.inj ht']
      refine ⟨.placeholder [], placeholder_nil_mem_blocks.2 plain.2, ?_⟩
      have mem_t : t ∈ referents dictionary raw := by simp [found]
      have spelled : spells t.dottedPath.toList [] :=
        spells_nil_iff.2 (String.toList_eq_nil_iff.2 plain.1)
      refine lt_of_lt_of_le ?_ (le_echoLength last.dottedPath.toList mem_t spelled)
      simp [Piece.scanned, Piece.filled]
    | cons b' bs =>
      refine ⟨.placeholder b, (mem_placeholders.1 hb).2, ?_⟩
      rw [filled hb, found]
      change _ < echoLength _ _ _
      rw [echoLength_cons, if_pos (spells_of_referent? ht)]
      have : last ∈ (b' :: bs).filterMap (referent? dictionary) := by
        obtain ⟨t', ht'⟩ := Option.isSome_iff_exists.1 (resolved b' (by simp [hbs]))
        rw [found, List.filterMap_cons, ht', List.getLast?_cons_cons] at hlast
        rw [List.filterMap_cons, ht']
        exact List.mem_of_getLast? hlast
      have := le_echoLength last.dottedPath.toList this hspell
      rw [echoLength_echo] at this ⊢
      omega

end Several

/-! ### Formats that write no braces -/

/-- A piece with its placeholder replaced by what `format` makes of the first of the tokens whose
path it spells. -/
def Piece.firstFilled (ts : List Token) (format : Token → String) : Piece → List Char
  | .char c => [c]
  | .placeholder body =>
    match ts.find? fun t => spells t.dottedPath.toList body with
    | some t => (format t).toList
    | none => (Piece.placeholder body).chars

/-- The pieces hold no brace outside of their blocks. -/
def Unbraced (ps : List Piece) : Prop :=
  ∀ p ∈ ps, match p with
    | .char c => c ≠ '\x7b' ∧ c ≠ '\x7d'
    | .placeholder body => Braceless body

theorem Unbraced.settled {ps : List Piece} (h : Unbraced ps) : Settled false ps := by
  induction ps with
  | nil => trivial
  | cons p ps ih =>
    have rest := ih fun q hq => h q (List.mem_cons_of_mem _ hq)
    have head := h p (by simp)
    obtain c | body := p
    · simpa [Settled, head.1, head.2] using rest
    · exact ⟨head, rest⟩

theorem Unbraced.flatMap_swap {ps : List Piece} (h : Unbraced ps) {cs : List Char}
    (hc : Braceless cs) (path : List Char) :
    Unbraced (ps.flatMap (Piece.swap path (cs.map .char))) := by
  intro q hq
  obtain ⟨p, hp, hq⟩ := List.mem_flatMap.1 hq
  obtain c | body := p
  · obtain rfl : q = .char c := by simpa [Piece.swap] using hq
    exact h _ hp
  · rw [Piece.swap] at hq
    split at hq
    · obtain ⟨c, hmem, rfl⟩ := List.mem_map.1 hq
      exact hc c hmem
    · obtain rfl : q = .placeholder body := by simpa using hq
      exact h _ hp

theorem Tidy.unbraced {raw : String} (h : Tidy raw) : Unbraced (blocks raw.toList) := by
  rintro (c | body) hp
  · rw [h.blocks_eq_scan] at hp
    simpa using h _ hp
  · exact braceless_of_settled (settled_blocks _) hp

section Plain

variable {dictionary : Dictionary} {raw : String}
  (resolved : ∀ body ∈ placeholders raw, (referent? dictionary body).isSome)
include resolved

/-- **What the loop computes** when no brace is loose: of the referents, the first one whose path a
placeholder spells takes its place. -/
theorem expand?_of_tidy (tidy : Tidy raw) {format : Token → String}
    (plain : ∀ t, Braceless (format t).toList) (some_placeholder : placeholders raw ≠ []) :
    expand? dictionary format raw = some (String.ofList
      ((scan raw.toList).flatMap (Piece.firstFilled (referents dictionary raw) format))) := by
  have chars : ∀ cs : List Char, (cs.map Piece.char).flatMap Piece.chars = cs := by
    intro cs
    simp [Piece.chars, List.flatMap_map]
  rw [expand?_of_resolved resolved, if_neg some_placeholder]
  have := foldl_replace format (fun t => (format t).toList.map .char) Unbraced
    (fun _ h => h.settled)
    (fun (t : Token) (ht : t ∈ referents dictionary raw) => braceless_of_mem_referents ht)
    (fun t _ => (chars _).symm)
    (fun t _ ps h => h.flatMap_swap (plain t) _) tidy.unbraced
  rw [flatMap_chars_blocks] at this
  rw [this, List.flatMap_assoc, tidy.blocks_eq_scan]
  congr 2
  refine List.flatMap_congr fun p _ => ?_
  obtain c | body := p
  · simp [Piece.firstFilled, Piece.chars]
  · rw [fate_placeholder_of_chars (fun t => (format t).toList), Piece.firstFilled]
    cases (referents dictionary raw).find? fun t => spells t.dottedPath.toList body with
    | none => simp
    | some t => exact chars _

end Plain

/-- How many tokens stand before the first one with the path of `t`. -/
def rank (ts : List Token) (t : Token) : ℕ :=
  ts.findIdx fun s => s.dottedPath == t.dottedPath

theorem rank_le_of_find? {ts : List Token} {body : List Char} {first t : Token}
    (h : (ts.find? fun s => spells s.dottedPath.toList body) = some first) (ht : t ∈ ts)
    (hs : spells t.dottedPath.toList body) :
    rank ts first ≤ rank ts t ∧ (rank ts first = rank ts t → first.dottedPath = t.dottedPath) := by
  obtain ⟨-, as, bs, rfl, has⟩ := List.find?_eq_some_iff_append.1 h
  have low : rank (as ++ first :: bs) first ≤ as.length := by
    rw [rank, List.findIdx_append]
    split
    · exact List.findIdx_le_length
    · simp [List.findIdx_cons]
  have high : ∀ a ∈ as, (a.dottedPath == t.dottedPath) = false := by
    intro a ha
    rw [beq_eq_false_iff_ne]
    intro same
    have := has a ha
    rw [same] at this
    simp [hs] at this
  have high' : rank (as ++ first :: bs) t =
      as.length + (first :: bs).findIdx fun s => s.dottedPath == t.dottedPath := by
    unfold rank
    rw [List.findIdx_append, List.findIdx_eq_length.2 (by simpa using high)]
    simp [Nat.add_comm]
  refine ⟨by omega, fun same => ?_⟩
  have zero : (first :: bs).findIdx (fun s => s.dottedPath == t.dottedPath) = 0 := by omega
  rw [List.findIdx_cons] at zero
  by_contra differs
  rw [beq_eq_false_iff_ne.2 differs] at zero
  simp at zero

/-! ### When the two agree -/

theorem mem_placeholders_of_mem_scan {raw : String} {body : List Char}
    (h : .placeholder body ∈ scan raw.toList) : body ∈ placeholders raw :=
  List.mem_filterMap.2 ⟨_, h, rfl⟩

section Agreement

variable {dictionary : Dictionary} {raw : String}
  (resolved : ∀ body ∈ placeholders raw, (referent? dictionary body).isSome)
include resolved

theorem exists_first {body : List Char} (hbody : body ∈ placeholders raw) :
    ∃ first t, ((referents dictionary raw).find? fun r => spells r.dottedPath.toList body) =
        some first ∧ referent? dictionary body = some t ∧
      rank (referents dictionary raw) first ≤ rank (referents dictionary raw) t ∧
      (rank (referents dictionary raw) first = rank (referents dictionary raw) t → first = t) := by
  obtain ⟨t, ht⟩ := Option.isSome_iff_exists.1 (resolved body hbody)
  have mem : t ∈ referents dictionary raw := mem_referents.2 ⟨body, hbody, ht⟩
  have own := spells_of_referent? ht
  obtain ⟨first, hfirst⟩ : ∃ first,
      ((referents dictionary raw).find? fun r => spells r.dottedPath.toList body) = some first :=
    Option.isSome_iff_exists.1 (List.find?_isSome.2 ⟨t, mem, own⟩)
  obtain ⟨le, same⟩ := rank_le_of_find? hfirst mem own
  exact ⟨first, t, hfirst, ht, le, fun h =>
    eq_of_dottedPath_eq (List.mem_of_find?_eq_some hfirst) mem (same h)⟩

/-- Whether the first referent is the own one is a matter of their paths. -/
theorem first_of_dottedPath
    (first : ∀ body ∈ placeholders raw,
      ((referents dictionary raw).find? fun r => spells r.dottedPath.toList body).map
          Token.dottedPath = (referent? dictionary body).map Token.dottedPath) :
    ∀ body ∈ placeholders raw,
      ((referents dictionary raw).find? fun r => spells r.dottedPath.toList body) =
        referent? dictionary body := by
  intro body hbody
  obtain ⟨r, t, hr, ht, -⟩ := exists_first resolved hbody
  have same := first body hbody
  rw [hr, ht] at same ⊢
  rw [eq_of_dottedPath_eq (List.mem_of_find?_eq_some hr) (mem_referents.2 ⟨body, hbody, ht⟩)
    (Option.some.inj same)]

theorem placeholders_ne_nil_of_expand? {format : Token → String} {text : String}
    (h : expand? dictionary format raw = some text) : placeholders raw ≠ [] := by
  intro none
  simp [expand?_of_resolved resolved, none] at h

/-- The formats that tell the referents apart by their rank catch every placeholder that another
referent takes. -/
theorem find?_eq_referent?_of_agree (tidy : Tidy raw)
    (all : ∀ format, (∀ r, Braceless (format r).toList) →
      expand? dictionary format raw = some (substitute dictionary format raw))
    {body : List Char} (hbody : body ∈ placeholders raw) :
    ((referents dictionary raw).find? fun r => spells r.dottedPath.toList body) =
      referent? dictionary body := by
  let format : Token → String := fun r =>
    String.ofList (List.replicate (rank (referents dictionary raw) r) 'x')
  have letters : ∀ r, Braceless (format r).toList := by
    intro r c hc
    rw [String.toList_ofList] at hc
    obtain rfl := List.eq_of_mem_replicate hc
    decide
  have length : ∀ r, (format r).toList.length = rank (referents dictionary raw) r := by
    simp [format]
  have h := all format letters
  rw [expand?_of_tidy resolved tidy letters (placeholders_ne_nil_of_expand? resolved h)] at h
  by_contra differs
  refine flatMap_ne_of_length ?_ ⟨.placeholder body, ?_, ?_⟩
    (String.ofList_injective (Option.some.inj h))
  · rintro (c | b) hp
    · exact le_rfl
    · obtain ⟨first, t, hfirst, ht, le, -⟩ :=
        exists_first resolved (mem_placeholders_of_mem_scan hp)
      simpa only [Piece.firstFilled, Piece.filled, hfirst, ht, length] using le
  · rw [← tidy.blocks_eq_scan]
    exact (mem_placeholders.1 hbody).2
  · obtain ⟨first, t, hfirst, ht, le, same⟩ := exists_first resolved hbody
    simp only [Piece.firstFilled, Piece.filled, hfirst, ht, length]
    refine lt_of_le_of_ne le fun h => differs ?_
    rw [hfirst, ht, same h]

theorem expand?_eq_substitute_of_first (tidy : Tidy raw) {format : Token → String}
    (plain : ∀ r, Braceless (format r).toList) (some_placeholder : placeholders raw ≠ [])
    (first : ∀ body ∈ placeholders raw,
      ((referents dictionary raw).find? fun r => spells r.dottedPath.toList body) =
        referent? dictionary body) :
    expand? dictionary format raw = some (substitute dictionary format raw) := by
  rw [expand?_of_tidy resolved tidy plain some_placeholder, substitute]
  congr 2
  refine List.flatMap_congr fun p hp => ?_
  obtain c | body := p
  · rfl
  · rw [Piece.firstFilled, Piece.filled, first body (mem_placeholders_of_mem_scan hp)]

theorem single_of_agree
    (all : ∀ format, expand? dictionary format raw = some (substitute dictionary format raw)) :
    ∃ body, placeholders raw = [body] ∧ ∀ r, referent? dictionary body = some r →
      r.dottedPath = "" → ¬ ['\x7b', '\x7d'] <:+: raw.toList := by
  by_contra fails
  have found : referents dictionary raw ≠ [] := by
    have length := length_referents resolved
    intro none
    rw [none] at length
    exact placeholders_ne_nil_of_expand? resolved (all fun _ => "")
      (List.eq_nil_of_length_eq_zero length.symm)
  exact expand?_echo_ne_substitute resolved (List.getLast?_eq_getLast_of_ne_nil found) fails (all _)

end Agreement

/-- **When replacing one path after the other is simultaneous substitution.** For every format:
exactly when there is one placeholder, and no `{}` in the expression if its path is empty. For every
format that writes no braces, if all braces of the expression belong to placeholders: exactly when
each placeholder refers to the first referent whose path it spells. -/
theorem resolve?_eq_substitute_iff (dictionary : Dictionary) (t : Token) (raw : String)
    (expression : t.expression? = some raw)
    (resolved : ∀ body ∈ placeholders raw, (referent? dictionary body).isSome) :
    ((∀ format, resolve? dictionary format t = some (substitute dictionary format raw)) ↔
      ∃ body, placeholders raw = [body] ∧ ∀ r, referent? dictionary body = some r →
        r.dottedPath = "" → ¬ ['\x7b', '\x7d'] <:+: raw.toList) ∧
    (Tidy raw →
      ((∀ format, (∀ r, Braceless (format r).toList) →
          resolve? dictionary format t = some (substitute dictionary format raw)) ↔
        placeholders raw ≠ [] ∧ ∀ body ∈ placeholders raw,
          ((referents dictionary raw).find? fun r => spells r.dottedPath.toList body) =
            referent? dictionary body)) := by
  have unfolded : ∀ format, resolve? dictionary format t = expand? dictionary format raw := by
    intro format
    rw [resolve?, expression, Option.bind_some]
  simp only [unfolded]
  refine ⟨⟨single_of_agree resolved, ?_⟩, fun tidy => ⟨fun all => ⟨?_, ?_⟩, ?_⟩⟩
  · rintro ⟨body, single, plain⟩ format
    obtain ⟨r, hr⟩ := Option.isSome_iff_exists.1 (resolved body (by simp [single]))
    exact expand?_eq_substitute_of_single single hr (plain r hr) format
  · exact placeholders_ne_nil_of_expand? resolved (all (fun _ => "") fun _ => braceless_nil)
  · exact fun body hbody => find?_eq_referent?_of_agree resolved tidy all hbody
  · rintro ⟨some_placeholder, first⟩ format plain
    exact expand?_eq_substitute_of_first resolved tidy plain some_placeholder first

/-- The two colors of a shadow stand for themselves in any format that writes no braces. -/
theorem resolve?_eq_substitute_shadow :
    let dictionary := Dictionary.ofTokens
      [.ofValue ["color", "red"] "red" (.string "#f00"),
        .ofValue ["color", "white"] "white" (.string "#fff")]
    let raw := "0 0 \x7bcolor.red\x7d \x7b color.white.value \x7d"
    let shadow := (Token.ofValue ["shadow"] "shadow" .null).writtenAs raw
    shadow.expression? = some raw ∧
      (∀ body ∈ placeholders raw, (referent? dictionary body).isSome) ∧ Tidy raw ∧
      ∀ format, (∀ r, Braceless (format r).toList) →
        resolve? dictionary format shadow = some (substitute dictionary format raw) := by
  intro dictionary raw shadow
  have resolved : ∀ body ∈ placeholders raw, (referent? dictionary body).isSome := by decide
  have tidy : Tidy raw := by decide
  refine ⟨rfl, resolved, tidy, ?_⟩
  exact ((resolve?_eq_substitute_iff dictionary shadow raw rfl resolved).2 tidy).2
    ⟨by decide, first_of_dottedPath resolved (by decide)⟩

/-- The first referent takes the place of the second, whose path is the same with `.value` behind
it; and what is put in for the first is replaced once more when it looks like a placeholder. -/
theorem resolve?_ne_substitute :
    let dictionary := Dictionary.ofTokens [.ofValue ["a"] "b" (.string "1"),
      .ofValue ["a", "value"] "two" (.string "2"), .ofValue ["b"] "three" (.string "3")]
    let written := (Token.ofValue ["probe"] "probe" .null).writtenAs
    let braces := fun t : Token => "\x7b" ++ t.name ++ "\x7d"
    (resolve? dictionary Token.name (written "\x7ba\x7d \x7ba.value\x7d") = some "b b" ∧
      substitute dictionary Token.name "\x7ba\x7d \x7ba.value\x7d" = "b two") ∧
    (resolve? dictionary braces (written "\x7ba\x7d \x7bb\x7d") =
        some "\x7bthree\x7d \x7bthree\x7d" ∧
      substitute dictionary braces "\x7ba\x7d \x7bb\x7d" = "\x7bb\x7d \x7bthree\x7d") := by
  decide

end DesignTokens.Reference

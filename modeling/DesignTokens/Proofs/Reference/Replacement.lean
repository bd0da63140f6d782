import DesignTokens.Proofs.Reference.Blocks
import Mathlib.Data.List.TakeWhile

/-!
# What a run of replacements does to a text

One replacement goes through the text from left to right and puts its text for every block that
spells the path (`replaceFrom_blocks`). A run of them does so for one path after the other, in the
text so far. Where the texts put in keep the pieces settled, every piece has a fate of its own
(`Piece.fate`): it is what the replacements make of it when nothing stands around it
(`foldl_replace`).
-/

namespace DesignTokens.Reference

open Text (isBlank dropBlank trim)

/-! ### Blanks -/

theorem exists_blanks_append_dropBlank (cs : List Char) :
    ∃ front : List Char, (∀ c ∈ front, isBlank c) ∧ front ++ dropBlank cs = cs :=
  ⟨cs.takeWhile isBlank, fun _ hc => List.mem_takeWhile_imp hc, List.takeWhile_append_dropWhile⟩

theorem dropBlank_blanks_append {front : List Char} (h : ∀ c ∈ front, isBlank c) (cs : List Char) :
    dropBlank (front ++ cs) = dropBlank cs :=
  List.dropWhile_append_of_pos h

theorem dropBlank_append_cons {c : Char} (hc : isBlank c = false) (body cs : List Char) :
    dropBlank (body ++ c :: cs) = dropBlank body ++ c :: cs := by
  unfold dropBlank
  rw [List.dropWhile_append]
  split
  · next h => simp [List.isEmpty_iff.1 h, hc]
  · rfl

theorem braceless_of_blanks {cs : List Char} (h : ∀ c ∈ cs, isBlank c) : Braceless cs := by
  intro c hc
  have := h c hc
  constructor <;> (rintro rfl; revert this; decide)

/-! ### Spelling a path -/

/-- Whether the text between two braces spells a path: blanks, the path, with or without `.value`,
and blanks. -/
def spells (path body : List Char) : Bool :=
  [path, path ++ valueSuffix].any fun word =>
    word.isPrefixOf (dropBlank body) && ((dropBlank body).drop word.length).all isBlank

theorem spells_iff {path body : List Char} :
    spells path body ↔ ∃ suffix ∈ [[], valueSuffix], ∃ after : List Char,
      (∀ c ∈ after, isBlank c) ∧ dropBlank body = path ++ suffix ++ after := by
  have one : ∀ word : List Char, (word.isPrefixOf (dropBlank body) &&
      ((dropBlank body).drop word.length).all isBlank) = true ↔
      ∃ after : List Char, (∀ c ∈ after, isBlank c) ∧ dropBlank body = word ++ after := by
    intro word
    rw [Bool.and_eq_true, List.isPrefixOf_iff_prefix, List.all_eq_true]
    constructor
    · rintro ⟨⟨after, h⟩, blank⟩
      exact ⟨after, by simpa [← h] using blank, h.symm⟩
    · rintro ⟨after, blank, h⟩
      exact ⟨⟨after, h.symm⟩, by simpa [h] using blank⟩
  simp only [spells, List.any_cons, List.any_nil, Bool.or_false, Bool.or_eq_true, one]
  simp

theorem after?_eq_some_iff {word cs rest : List Char} :
    after? word cs = some rest ↔ cs = word ++ rest := by
  induction word generalizing cs with
  | nil =>
    unfold after?
    exact Option.some_inj
  | cons w ws ih =>
    cases cs with
    | nil => simp only [after?, reduceCtorEq, List.cons_append]
    | cons c cs =>
      unfold after?
      split
      · next h => simp [ih, eq_of_beq h]
      · next h =>
        have : c ≠ w := fun hc => h (by simp [hc])
        simp [this]

theorem after?_eq_none_of_head_ne {w : Char} {ws cs : List Char} (h : cs.head? ≠ some w) :
    after? (w :: ws) cs = none := by
  cases cs with
  | nil => rfl
  | cons c cs =>
    have : (w == c) = false := beq_eq_false_iff_ne.2 fun hw => h (by simp [hw])
    simp [after?, this]

/-- What stands before a closing brace is the part of the text that has no brace. -/
theorem block_inj {body body' rest rest' : List Char} (hb : Braceless body) (hb' : Braceless body')
    (h : body ++ '\x7d' :: rest = body' ++ '\x7d' :: rest') : body = body' ∧ rest = rest' := by
  have cut : ∀ {b r : List Char}, Braceless b → (b ++ '\x7d' :: r).takeWhile (· != '\x7d') = b := by
    intro b r hb
    rw [List.takeWhile_append_of_pos fun c hc => by simpa using (hb c hc).2]
    simp
  obtain rfl : body = body' := by rw [← cut hb (r := rest), h, cut hb']
  exact ⟨rfl, (List.cons.inj (List.append_cancel_left h)).2⟩

/-- A placeholder for a path at the front of a text is a block that spells it. -/
theorem afterPlaceholder?_eq_some_iff {path : List Char} (hp : Braceless path)
    {cs rest : List Char} :
    afterPlaceholder? path cs = some rest ↔
      ∃ body, Braceless body ∧ spells path body ∧ cs = '\x7b' :: body ++ '\x7d' :: rest := by
  simp only [afterPlaceholder?, Option.bind_eq_bind, Option.bind_eq_some_iff, after?_eq_some_iff]
  constructor
  · rintro ⟨text, rfl, tail, htext, hrest⟩
    obtain ⟨front, hfront, hfront'⟩ := exists_blanks_append_dropBlank text
    obtain ⟨suffix, hsuffix, htail⟩ : ∃ suffix ∈ [[], valueSuffix],
        tail = suffix ++ (after? valueSuffix tail).getD tail := by
      cases h : after? valueSuffix tail with
      | none => exact ⟨[], by simp, rfl⟩
      | some tail' => exact ⟨valueSuffix, by simp, after?_eq_some_iff.1 h⟩
    obtain ⟨back, hback, hback'⟩ :=
      exists_blanks_append_dropBlank ((after? valueSuffix tail).getD tail)
    have hs : Braceless suffix := by
      rcases List.mem_pair.1 hsuffix with rfl | rfl
      exacts [braceless_nil, braceless_valueSuffix]
    have inner : dropBlank text = path ++ suffix ++ back ++ '\x7d' :: rest := by
      rw [htext, htail, ← hback', hrest]
      simp
    refine ⟨front ++ (path ++ suffix ++ back), ?_, ?_, ?_⟩
    · simp only [braceless_append]
      exact ⟨braceless_of_blanks hfront, ⟨hp, hs⟩, braceless_of_blanks hback⟩
    · refine spells_iff.2 ⟨suffix, hsuffix, back, hback, ?_⟩
      have := dropBlank_append_cons (c := '\x7d') (by decide)
        (front ++ (path ++ suffix ++ back)) rest
      rw [List.append_assoc, ← inner, hfront', inner] at this
      exact (List.append_cancel_right this).symm
    · rw [List.singleton_append, List.cons_append, List.append_assoc, ← inner, hfront']
  · rintro ⟨body, hb, hspell, rfl⟩
    obtain ⟨suffix, hsuffix, back, hback, hbody⟩ := spells_iff.1 hspell
    have hblank : isBlank '\x7d' = false := by decide
    refine ⟨body ++ '\x7d' :: rest, rfl, suffix ++ back ++ '\x7d' :: rest, ?_, ?_⟩
    · rw [dropBlank_append_cons hblank, hbody]
      simp
    · have tail : (after? valueSuffix (suffix ++ back ++ '\x7d' :: rest)).getD
          (suffix ++ back ++ '\x7d' :: rest) = back ++ '\x7d' :: rest := by
        rcases List.mem_pair.1 hsuffix with rfl | rfl
        · have none : after? valueSuffix ([] ++ back ++ '\x7d' :: rest) = none := by
            rw [valueSuffix_eq]
            apply after?_eq_none_of_head_ne
            cases back with
            | nil => simp
            | cons c back =>
              intro h
              have hc : isBlank c := hback c (by simp)
              obtain rfl : c = '.' := by simpa using h
              exact absurd hc (by decide)
          rw [none]
          rfl
        · rw [after?_eq_some_iff.2 (List.append_assoc valueSuffix back _)]
          rfl
      rw [tail, dropBlank_blanks_append hback, dropBlank,
        List.dropWhile_cons_of_neg (by simp [hblank])]
      rfl

/-! ### One replacement -/

/-- A piece after the blocks that spell a path were replaced by other pieces. -/
def Piece.swap (path : List Char) (new : List Piece) : Piece → List Piece
  | .char c => [.char c]
  | .placeholder body => if spells path body then new else [.placeholder body]

theorem flatMap_swap_loose (path : List Char) (new : List Piece) (behind : List Char) :
    (loose behind).flatMap (Piece.swap path new) = loose behind := by
  unfold loose
  induction '\x7b' :: behind with
  | nil => rfl
  | cons c cs ih => simpa [Piece.swap] using ih

theorem replaceFrom_drop (path replacement : List Char) (skip : ℕ) (cs : List Char) :
    replaceFrom path replacement skip cs = replaceFrom path replacement 0 (cs.drop skip) := by
  induction skip generalizing cs with
  | zero => rfl
  | succ skip ih =>
    cases cs with
    | nil => simp [replaceFrom]
    | cons c cs => simpa [replaceFrom] using ih cs

theorem replaceFrom_cons_of_none {path : List Char} (replacement : List Char) {c : Char}
    {cs : List Char} (h : afterPlaceholder? path (c :: cs) = none) :
    replaceFrom path replacement 0 (c :: cs) = c :: replaceFrom path replacement 0 cs := by
  rw [replaceFrom, h]

section Pass

variable {path : List Char} (hp : Braceless path) (replacement : List Char)
include hp

theorem replaceFrom_cons_of_ne {c : Char} (hc : c ≠ '\x7b') (cs : List Char) :
    replaceFrom path replacement 0 (c :: cs) = c :: replaceFrom path replacement 0 cs := by
  apply replaceFrom_cons_of_none
  by_contra h
  obtain ⟨rest, h⟩ := Option.ne_none_iff_exists'.1 h
  obtain ⟨body, -, -, h⟩ := (afterPlaceholder?_eq_some_iff hp).1 h
  exact hc (List.cons.inj h).1

theorem replaceFrom_braceless_append {body : List Char} (hb : Braceless body) (cs : List Char) :
    replaceFrom path replacement 0 (body ++ cs) = body ++ replaceFrom path replacement 0 cs := by
  induction body with
  | nil => rfl
  | cons c body ih =>
    obtain ⟨hc, hb⟩ := braceless_cons.1 hb
    rw [List.cons_append, replaceFrom_cons_of_ne hp _ hc.1, ih hb, List.cons_append]

/-- A brace without its counterpart stays, and so do the characters behind it. -/
theorem replaceFrom_open {body cs : List Char} (hb : Braceless body)
    (hcs : cs.head? ≠ some '\x7d') (hopen : ∀ c ∈ cs.head?, c = '\x7b') :
    replaceFrom path replacement 0 ('\x7b' :: body ++ cs) =
      '\x7b' :: body ++ replaceFrom path replacement 0 cs := by
  rw [List.cons_append, replaceFrom_cons_of_none, replaceFrom_braceless_append hp _ hb,
    List.cons_append]
  by_contra h
  obtain ⟨rest, h⟩ := Option.ne_none_iff_exists'.1 h
  obtain ⟨found, hfound, -, h⟩ := (afterPlaceholder?_eq_some_iff hp).1 h
  have h := (List.cons.inj h).2
  cases cs with
  | nil =>
    rw [List.append_nil] at h
    exact (hb '\x7d' (by rw [h]; simp)).2 rfl
  | cons c cs =>
    obtain rfl : c = '\x7b' := hopen c (by simp)
    rcases List.append_eq_append_iff.1 h with ⟨as, h1, h2⟩ | ⟨as, h1, h2⟩
    · cases as with
      | nil => simp at h2
      | cons a as =>
        obtain ⟨rfl, -⟩ := List.cons.inj h2
        exact (hfound '\x7b' (by rw [h1]; simp)).1 rfl
    · cases as with
      | nil => simp at h2
      | cons a as =>
        obtain ⟨rfl, -⟩ := List.cons.inj h2
        exact (hb '\x7d' (by rw [h1]; simp)).2 rfl

theorem replaceFrom_block {body : List Char} (hb : Braceless body) (cs : List Char) :
    replaceFrom path replacement 0 ('\x7b' :: body ++ '\x7d' :: cs) =
      (if spells path body then replacement else '\x7b' :: body ++ ['\x7d']) ++
        replaceFrom path replacement 0 cs := by
  split
  · next hspell =>
    have found : afterPlaceholder? path ('\x7b' :: (body ++ '\x7d' :: cs)) = some cs :=
      (afterPlaceholder?_eq_some_iff hp).2 ⟨body, hb, hspell, rfl⟩
    rw [List.cons_append, replaceFrom, found]
    have skip : (body ++ '\x7d' :: cs).length - cs.length = body.length + 1 := by
      simp; omega
    have rest : (body ++ '\x7d' :: cs).drop (body.length + 1) = cs := by simp
    simp only [skip]
    rw [replaceFrom_drop, rest]
  · next hspell =>
    have none : afterPlaceholder? path ('\x7b' :: (body ++ '\x7d' :: cs)) = none := by
      by_contra h
      obtain ⟨rest, h⟩ := Option.ne_none_iff_exists'.1 h
      obtain ⟨body', hb', hspell', h⟩ := (afterPlaceholder?_eq_some_iff hp).1 h
      obtain ⟨rfl, -⟩ := block_inj hb hb' (List.cons.inj h).2
      exact hspell hspell'
    rw [List.cons_append, replaceFrom_cons_of_none _ none, replaceFrom_braceless_append hp _ hb,
      replaceFrom_cons_of_ne hp _ (by decide)]
    simp

theorem replaceFrom_blocksFrom (new : List Piece) (cs : List Char) :
    replaceFrom path (new.flatMap Piece.chars) 0 cs =
        ((blocksFrom none cs).flatMap (Piece.swap path new)).flatMap Piece.chars ∧
      ∀ body : List Char, Braceless body →
        replaceFrom path (new.flatMap Piece.chars) 0 ('\x7b' :: body.reverse ++ cs) =
          ((blocksFrom (some body) cs).flatMap (Piece.swap path new)).flatMap Piece.chars := by
  induction cs with
  | nil =>
    refine ⟨rfl, fun body hb => ?_⟩
    rw [replaceFrom_open hp _ (braceless_reverse.2 hb) (by simp) (by simp), blocksFrom,
      flatMap_swap_loose, flatMap_chars_loose]
    simp [replaceFrom]
  | cons c cs ih =>
    constructor
    · unfold blocksFrom
      split
      · next hc => simpa [eq_of_beq hc] using ih.2 [] braceless_nil
      · next hc =>
        rw [replaceFrom_cons_of_ne hp _ (by simpa using hc), ih.1]
        rfl
    · intro body hb
      unfold blocksFrom
      split
      · next hc =>
        obtain rfl := eq_of_beq hc
        rw [replaceFrom_open hp _ (braceless_reverse.2 hb) (by simp) (by simp),
          List.flatMap_append, List.flatMap_append, flatMap_swap_loose, flatMap_chars_loose]
        simpa using ih.2 [] braceless_nil
      · split
        · next hc =>
          obtain rfl := eq_of_beq hc
          rw [replaceFrom_block hp _ (braceless_reverse.2 hb), ih.1, List.flatMap_cons,
            List.flatMap_append]
          congr 1
          by_cases hs : spells path body.reverse <;> simp [Piece.swap, Piece.chars, hs]
        · next h1 h2 =>
          have := ih.2 (c :: body)
            (braceless_cons.2 ⟨⟨by simpa using h1, by simpa using h2⟩, hb⟩)
          simpa using this

/-- A replacement puts its text for the blocks that spell the path. -/
theorem replaceFrom_blocks (new : List Piece) (cs : List Char) :
    replaceFrom path (new.flatMap Piece.chars) 0 cs =
      ((blocks cs).flatMap (Piece.swap path new)).flatMap Piece.chars :=
  (replaceFrom_blocksFrom hp new cs).1

end Pass

/-! ### A run of replacements -/

/-- What a run of replacements makes of a piece, where `new` is put in for a token. -/
def Piece.fate (new : Token → List Piece) : List Token → Piece → List Piece
  | [], p => [p]
  | t :: ts, p => (p.swap t.dottedPath.toList (new t)).flatMap (Piece.fate new ts)

/-- **The run of replacements, piece by piece.** `Kept` is an invariant that keeps the pieces
settled, so that no text that was put in makes a block with what stands around it. -/
theorem foldl_replace (format : Token → String) (new : Token → List Piece)
    (Kept : List Piece → Prop) (settled : ∀ ps, Kept ps → Settled false ps) {ts : List Token}
    (paths : ∀ t ∈ ts, Braceless t.dottedPath.toList)
    (texts : ∀ t ∈ ts, (format t).toList = (new t).flatMap Piece.chars)
    (keeps : ∀ t ∈ ts, ∀ ps, Kept ps → Kept (ps.flatMap (Piece.swap t.dottedPath.toList (new t))))
    {ps : List Piece} (h : Kept ps) :
    ts.foldl (fun text t => replace text t (format t)) (ps.flatMap Piece.chars) =
      (ps.flatMap (Piece.fate new ts)).flatMap Piece.chars := by
  induction ts generalizing ps with
  | nil =>
    have stay : ps.flatMap (Piece.fate new []) = ps := List.flatMap_singleton' ps
    rw [stay, List.foldl_nil]
  | cons t ts ih =>
    simp only [List.mem_cons, forall_eq_or_imp] at paths texts keeps
    have step : replace (ps.flatMap Piece.chars) t (format t) =
        (ps.flatMap (Piece.swap t.dottedPath.toList (new t))).flatMap Piece.chars := by
      unfold replace
      rw [texts.1, replaceFrom_blocks paths.1, blocks_flatMap_chars (settled ps h)]
    have split : ps.flatMap (Piece.fate new (t :: ts)) =
        (ps.flatMap (Piece.swap t.dottedPath.toList (new t))).flatMap (Piece.fate new ts) :=
      List.flatMap_assoc.symm
    rw [List.foldl_cons, step, ih paths.2 texts.2 keeps.2 (keeps.1 ps h), split]

@[simp] theorem fate_char (new : Token → List Piece) (ts : List Token) (c : Char) :
    Piece.fate new ts (.char c) = [.char c] := by
  induction ts with
  | nil => rfl
  | cons t ts ih => simp [Piece.fate, Piece.swap, ih]

theorem flatMap_fate_chars (new : Token → List Piece) (ts : List Token) (cs : List Char) :
    (cs.map Piece.char).flatMap (Piece.fate new ts) = cs.map Piece.char := by
  induction cs with
  | nil => rfl
  | cons c cs ih => simp [ih]

/-- Where plain text is put in, the first token counts whose path a block spells. -/
theorem fate_placeholder_of_chars (text : Token → List Char) (ts : List Token)
    (body : List Char) :
    Piece.fate (fun t => (text t).map .char) ts (.placeholder body) =
      match ts.find? fun t => spells t.dottedPath.toList body with
      | some t => (text t).map .char
      | none => [.placeholder body] := by
  induction ts with
  | nil => rfl
  | cons t ts ih =>
    rw [Piece.fate, Piece.swap, List.find?_cons]
    by_cases h : spells t.dottedPath.toList body
    · rw [if_pos h, h, flatMap_fate_chars]
    · rw [if_neg h, Bool.eq_false_iff.2 h]
      simpa using ih

end DesignTokens.Reference

import DesignTokens.Reference
import Mathlib.Data.List.Basic
import Mathlib.Tactic.SplitIfs

/-!
# Texts cut at their braces

`Reference.blocks` cuts a text into its blocks, a pair of braces with nothing but other characters
between them, and the characters outside. It is `Reference.scan` (`scan_eq`), but for `{}`, which is
a block and no placeholder. Blocks are what a replacement works on:

* `Settled` says of a list of pieces that it is what the text it spells is cut into
  (`blocks_flatMap_chars`, `settled_blocks`);
* `replaceFrom_blocks`: a replacement puts its text for the blocks that spell the path, and leaves
  all else alone;
* `foldl_replace`: several replacements after one another do so to each block by itself, as long as
  every text that is put in keeps the pieces settled.
-/

namespace DesignTokens.Reference

open Text (isBlank dropBlank trim)

/-! ### Characters without braces -/

/-- The text has no brace in it. -/
def Braceless (cs : List Char) : Prop :=
  ∀ c ∈ cs, c ≠ '\x7b' ∧ c ≠ '\x7d'

theorem braceless_nil : Braceless [] := by
  simp [Braceless]

theorem braceless_cons {c : Char} {cs : List Char} :
    Braceless (c :: cs) ↔ (c ≠ '\x7b' ∧ c ≠ '\x7d') ∧ Braceless cs := by
  simp [Braceless]

theorem braceless_append {cs ds : List Char} :
    Braceless (cs ++ ds) ↔ Braceless cs ∧ Braceless ds := by
  unfold Braceless
  exact List.forall_mem_append

theorem braceless_reverse {cs : List Char} : Braceless cs.reverse ↔ Braceless cs := by
  simp [Braceless]

theorem Braceless.of_subset {cs ds : List Char} (h : Braceless ds) (sub : cs ⊆ ds) :
    Braceless cs :=
  fun c hc => h c (sub hc)

theorem valueSuffix_eq : valueSuffix = ['.', 'v', 'a', 'l', 'u', 'e'] := by
  decide

theorem braceless_valueSuffix : Braceless valueSuffix := by
  simp [valueSuffix_eq, braceless_cons, braceless_nil]

/-! ### Blocks -/

/-- The blocks of a text and the characters outside. When a brace is open, `body` holds the
characters behind it, last one first. -/
def blocksFrom : Option (List Char) → List Char → List Piece
  | none, [] => []
  | some body, [] => loose body.reverse
  | none, c :: cs =>
    if c == '\x7b' then blocksFrom (some []) cs else .char c :: blocksFrom none cs
  | some body, c :: cs =>
    if c == '\x7b' then loose body.reverse ++ blocksFrom (some []) cs
    else if c == '\x7d' then .placeholder body.reverse :: blocksFrom none cs
    else blocksFrom (some (c :: body)) cs

/-- The blocks of a text and the characters outside. -/
def blocks (cs : List Char) : List Piece :=
  blocksFrom none cs

/-- What a block is for the scan: the block of nothing is two characters. -/
def Piece.scanned : Piece → List Piece
  | .placeholder [] => [.char '\x7b', .char '\x7d']
  | p => [p]

theorem flatMap_scanned_loose (behind : List Char) :
    (loose behind).flatMap Piece.scanned = loose behind := by
  unfold loose
  induction '\x7b' :: behind with
  | nil => rfl
  | cons c cs ih => simpa [Piece.scanned] using ih

theorem scanFrom_eq (cs : List Char) : ∀ opened : Option (List Char),
    scanFrom opened cs = (blocksFrom opened cs).flatMap Piece.scanned := by
  induction cs with
  | nil =>
    rintro (_ | body)
    · rfl
    · simp [scanFrom, blocksFrom, flatMap_scanned_loose]
  | cons c cs ih =>
    rintro (_ | body)
    · unfold scanFrom blocksFrom
      split
      · exact ih _
      · simpa [Piece.scanned] using ih none
    · unfold scanFrom blocksFrom
      split
      · rw [List.flatMap_append, flatMap_scanned_loose, ih]
      · split
        · split
          · next h => simp [Piece.scanned, List.isEmpty_iff.1 h, ih]
          · next h =>
            obtain ⟨b, bs, hb⟩ := List.exists_cons_of_ne_nil
              (show body.reverse ≠ [] by simpa [List.isEmpty_iff] using h)
            simp [Piece.scanned, hb, ih]
        · exact ih _

/-- The pieces that a scan finds are the blocks, those of nothing taken apart. -/
theorem scan_eq (cs : List Char) : scan cs = (blocks cs).flatMap Piece.scanned :=
  scanFrom_eq cs none

/-- The text of a placeholder. -/
def Piece.body? : Piece → Option (List Char)
  | .placeholder [] | .char _ => none
  | .placeholder (c :: cs) => some (c :: cs)

theorem placeholders_eq (raw : String) :
    placeholders raw = (blocks raw.toList).filterMap Piece.body? := by
  unfold placeholders
  rw [scan_eq]
  induction blocks raw.toList with
  | nil => rfl
  | cons p ps ih =>
    rw [List.flatMap_cons, List.filterMap_append, ih, List.filterMap_cons]
    obtain c | (_ | ⟨b, bs⟩) := p <;> simp [Piece.scanned, Piece.body?]

/-! ### Settled pieces -/

/-- Cutting the text of the pieces gives the pieces back; when `opened`, also behind an opening
brace that has no brace after it. -/
def Settled : Bool → List Piece → Prop
  | _, [] => True
  | opened, .char c :: ps =>
    if c = '\x7b' then Settled true ps
    else if c = '\x7d' then opened = false ∧ Settled false ps
    else Settled opened ps
  | _, .placeholder body :: ps => Braceless body ∧ Settled false ps

theorem Settled.close : ∀ {ps : List Piece} {opened : Bool}, Settled opened ps → Settled false ps
  | [], _, _ => trivial
  | .char c :: ps, opened, h => by
    unfold Settled at h ⊢
    split
    · simpa [*] using h
    · split
      · simp_all
      · simp only [*, if_false] at h
        exact h.close
  | .placeholder _ :: _, _, h => h

/-- Behind a character, pieces may be exchanged for others that are settled whenever these are. -/
theorem Settled.char_cons {c : Char} {ps qs : List Piece} {opened : Bool}
    (h : Settled opened (.char c :: ps)) (imp : ∀ {o : Bool}, Settled o ps → Settled o qs) :
    Settled opened (.char c :: qs) := by
  unfold Settled at h ⊢
  split_ifs at h ⊢
  exacts [imp h, ⟨h.1, imp h.2⟩, imp h]

theorem settled_map_char_append {cs : List Char} (h : Braceless cs) (ps : List Piece)
    (opened : Bool) : Settled opened (cs.map .char ++ ps) ↔ Settled opened ps := by
  induction cs with
  | nil => rfl
  | cons c cs ih =>
    obtain ⟨⟨h1, h2⟩, h⟩ := braceless_cons.1 h
    simpa [Settled, h1, h2] using ih h

theorem settled_loose_append {behind : List Char} (h : Braceless behind) (ps : List Piece)
    (opened : Bool) : Settled opened (loose behind ++ ps) ↔ Settled true ps := by
  have := settled_map_char_append h ps true
  simpa [loose, Settled] using this

theorem settled_blocksFrom (cs : List Char) :
    Settled false (blocksFrom none cs) ∧
      ∀ body : List Char, Braceless body → ∀ opened : Bool,
        Settled opened (blocksFrom (some body) cs) := by
  induction cs with
  | nil =>
    refine ⟨trivial, fun body hb opened => ?_⟩
    have := (settled_loose_append (braceless_reverse.2 hb) [] opened).2 trivial
    simpa [blocksFrom] using this
  | cons c cs ih =>
    constructor
    · unfold blocksFrom
      split
      · exact ih.2 [] braceless_nil false
      · next h =>
        unfold Settled
        rw [if_neg (by simpa using h)]
        split
        · exact ⟨rfl, ih.1⟩
        · exact ih.1
    · intro body hb opened
      unfold blocksFrom
      split
      · rw [settled_loose_append (braceless_reverse.2 hb)]
        exact ih.2 [] braceless_nil true
      · split
        · exact ⟨braceless_reverse.2 hb, ih.1⟩
        · next h1 h2 =>
          exact ih.2 _ (braceless_cons.2 ⟨⟨by simpa using h1, by simpa using h2⟩, hb⟩) opened

theorem settled_blocks (cs : List Char) : Settled false (blocks cs) :=
  (settled_blocksFrom cs).1

theorem blocksFrom_some_append {body : List Char} (hb : Braceless body) (behind cs : List Char) :
    blocksFrom (some behind) (body ++ cs) = blocksFrom (some (body.reverse ++ behind)) cs := by
  induction body generalizing behind with
  | nil => rfl
  | cons c body ih =>
    obtain ⟨⟨h1, h2⟩, hb⟩ := braceless_cons.1 hb
    rw [List.cons_append, blocksFrom, if_neg (by simpa using h1), if_neg (by simpa using h2), ih hb]
    simp

theorem blocksFrom_some_block {body : List Char} (hb : Braceless body) (cs : List Char) :
    blocksFrom (some []) (body ++ '\x7d' :: cs) = .placeholder body :: blocks cs := by
  rw [blocksFrom_some_append hb]
  simp [blocks, blocksFrom]

theorem blocksFrom_flatMap_chars (ps : List Piece) :
    (Settled false ps → blocksFrom none (ps.flatMap Piece.chars) = ps) ∧
      (Settled true ps → ∀ behind : List Char, Braceless behind →
        blocksFrom (some behind) (ps.flatMap Piece.chars) = loose behind.reverse ++ ps) := by
  induction ps with
  | nil => exact ⟨fun _ => rfl, fun _ behind _ => by simp [blocksFrom]⟩
  | cons p ps ih =>
    obtain c | body := p
    · constructor
      · intro h
        simp only [Settled] at h
        simp only [List.flatMap_cons, Piece.chars, List.singleton_append, blocksFrom, beq_iff_eq]
        split
        · next hc =>
          rw [if_pos hc] at h
          rw [ih.2 h [] braceless_nil, hc]
          rfl
        · next hc =>
          rw [if_neg hc] at h
          rw [ih.1 (by split at h; exacts [h.2, h])]
      · intro h behind hb
        simp only [Settled] at h
        simp only [List.flatMap_cons, Piece.chars, List.singleton_append, blocksFrom, beq_iff_eq]
        split
        · next hc =>
          rw [if_pos hc] at h
          rw [ih.2 h [] braceless_nil, hc]
          rfl
        · next hc =>
          rw [if_neg hc] at h
          split
          · next hd => simp [hd] at h
          · next hd =>
            rw [if_neg hd] at h
            rw [ih.2 h (c :: behind) (braceless_cons.2 ⟨⟨hc, hd⟩, hb⟩)]
            simp [loose]
    · constructor
      · intro h
        have := blocksFrom_some_block h.1 (ps.flatMap Piece.chars)
        rw [blocks, ih.1 h.2] at this
        simpa [Piece.chars, blocksFrom] using this
      · intro h behind _
        have := blocksFrom_some_block h.1 (ps.flatMap Piece.chars)
        rw [blocks, ih.1 h.2] at this
        simpa [Piece.chars, blocksFrom] using this

/-- Settled pieces are the blocks of the text that they spell. -/
theorem blocks_flatMap_chars {ps : List Piece} (h : Settled false ps) :
    blocks (ps.flatMap Piece.chars) = ps :=
  (blocksFrom_flatMap_chars ps).1 h

/-! ### Blocks and placeholders -/

theorem flatMap_chars_blocks (cs : List Char) : (blocks cs).flatMap Piece.chars = cs := by
  have same : ∀ p : Piece, p.scanned.flatMap Piece.chars = p.chars := by
    rintro (c | _ | ⟨b, bs⟩) <;> simp [Piece.scanned, Piece.chars]
  have := flatMap_chars_scan cs
  rw [scan_eq, List.flatMap_assoc] at this
  simpa [same] using this

theorem mem_placeholders {raw : String} {body : List Char} :
    body ∈ placeholders raw ↔ body ≠ [] ∧ .placeholder body ∈ blocks raw.toList := by
  rw [placeholders_eq, List.mem_filterMap]
  constructor
  · rintro ⟨c | _ | ⟨b, bs⟩, hp, h⟩
    · simp [Piece.body?] at h
    · simp [Piece.body?] at h
    · obtain rfl : b :: bs = body := by simpa [Piece.body?] using h
      exact ⟨by simp, hp⟩
  · rintro ⟨hne, hp⟩
    obtain ⟨b, bs, rfl⟩ := List.exists_cons_of_ne_nil hne
    exact ⟨_, hp, rfl⟩

theorem braceless_of_settled {ps : List Piece} {opened : Bool} (h : Settled opened ps)
    {body : List Char} (hb : .placeholder body ∈ ps) : Braceless body := by
  induction ps generalizing opened with
  | nil => simp at hb
  | cons p ps ih =>
    obtain c | body' := p
    · have hb : .placeholder body ∈ ps := by simpa using hb
      unfold Settled at h
      split at h
      · exact ih h hb
      · split at h
        · exact ih h.2 hb
        · exact ih h hb
    · rcases List.mem_cons.1 hb with heq | hb
      · obtain rfl : body = body' := by simpa using heq
        exact h.1
      · exact ih h.2 hb

theorem braceless_of_mem_placeholders {raw : String} {body : List Char}
    (h : body ∈ placeholders raw) : Braceless body :=
  braceless_of_settled (settled_blocks _) (mem_placeholders.1 h).2

theorem placeholder_nil_mem_blocksFrom (before after : List Char) : ∀ opened : Option (List Char),
    .placeholder [] ∈ blocksFrom opened (before ++ '\x7b' :: '\x7d' :: after) := by
  induction before with
  | nil =>
    rintro (_ | body) <;> simp [blocksFrom]
  | cons c before ih =>
    rintro (_ | body)
    · simp only [List.cons_append, blocksFrom]
      split
      · exact ih _
      · exact List.mem_cons_of_mem _ (ih _)
    · simp only [List.cons_append, blocksFrom]
      split
      · exact List.mem_append_right _ (ih _)
      · split
        · exact List.mem_cons_of_mem _ (ih _)
        · exact ih _

theorem placeholder_nil_mem_blocks {cs : List Char} :
    .placeholder [] ∈ blocks cs ↔ ['\x7b', '\x7d'] <:+: cs := by
  constructor
  · intro h
    obtain ⟨ps, qs, h⟩ := List.append_of_mem h
    refine ⟨ps.flatMap Piece.chars, qs.flatMap Piece.chars, ?_⟩
    have := flatMap_chars_blocks cs
    rw [h] at this
    simpa [Piece.chars] using this
  · rintro ⟨before, after, rfl⟩
    have := placeholder_nil_mem_blocksFrom before after none
    simpa [blocks] using this

end DesignTokens.Reference

import DesignTokens.Proofs.Text.CommentRemoval

/-!
# Where a block comment ends

Block comments are read in one of two ways (`BlockGrammar`): a flat one ends at its first `*/`, in a
nesting one every `/*` opens a level that has to be closed first. `afterComment?` is what is behind
the comment that a text begins with, and `IsComment` says of a text that it is one comment in front
of any other.

The body of a comment that is `Unclosed` closes nothing, so all that counts is how many levels it
opens (`openings`): `afterComment?_wrapped` says where the comment ends. Texts that `Comment.nested`
makes open none (`openings_nested`), texts that `Comment.block` makes as many as they did before
(`openings_block`).
-/

namespace DesignTokens.Text

/-- How block comments are read. -/
inductive BlockGrammar
  /-- A comment ends at the first `*/`. -/
  | flat
  /-- A comment may hold comments: `/*` opens a level, and `*/` closes one. -/
  | nesting

namespace BlockGrammar

/-- Whether two neighbours open a level in a comment. -/
def opens : BlockGrammar → Char → Char → Bool
  | flat, _, _ => false
  | nesting, c, d => c == '/' && d == '*'

/-- What is behind the comment in which a text is read, so many levels deep. -/
def leave? (grammar : BlockGrammar) : Nat → List Char → Option (List Char)
  | depth, c :: d :: cs =>
    if Comment.isClosing c d then
      match depth with
      | 0 => some cs
      | depth + 1 => grammar.leave? depth cs
    else if grammar.opens c d then grammar.leave? (depth + 1) cs
    else grammar.leave? depth (d :: cs)
  | _, [_] | _, [] => none

/-- What is behind the comment that a text begins with. -/
def afterComment? (grammar : BlockGrammar) : List Char → Option (List Char)
  | '/' :: '*' :: cs => grammar.leave? 0 cs
  | _ => none

/-- The text is one comment, whatever stands behind it. -/
def IsComment (grammar : BlockGrammar) (cs : List Char) : Prop :=
  ∀ rest, grammar.afterComment? (cs ++ rest) = some rest

example : flat.afterComment? "/* /* */ */".toList = some " */".toList := by decide

example : nesting.afterComment? "/* /* */ */".toList = some [] := by decide

/-! ### Steps of a reader -/

section Steps

variable {grammar : BlockGrammar} {c d : Char}

theorem opens_eq_false_of_ne (star : d ≠ '*') : grammar.opens c d = false := by
  cases grammar <;> simp [opens, star]

theorem leave?_cons (closing : Comment.isClosing c d = false) (opening : grammar.opens c d = false)
    (depth : Nat) (cs : List Char) :
    grammar.leave? depth (c :: d :: cs) = grammar.leave? depth (d :: cs) := by
  cases depth <;> simp [leave?, closing, opening]

theorem leave?_open (opening : grammar.opens c d) (depth : Nat) (cs : List Char) :
    grammar.leave? depth (c :: d :: cs) = grammar.leave? (depth + 1) cs := by
  cases grammar with
  | flat => cases opening
  | nesting =>
    obtain ⟨rfl, rfl⟩ : c = '/' ∧ d = '*' := by simpa [opens] using opening
    rfl

theorem leave?_star {cs : List Char} (h : Unclosed ('*' :: cs)) (depth : Nat) (e : Char)
    (slash : e ≠ '/') (rest : List Char) :
    grammar.leave? depth ('*' :: (cs ++ e :: rest)) = grammar.leave? depth (cs ++ e :: rest) := by
  have quiet (d : Char) : grammar.opens '*' d = false := by
    cases grammar <;> simp [opens]
  cases cs with
  | nil => exact leave?_cons (by simp [Comment.isClosing, slash]) (quiet e) depth rest
  | cons d cs => exact leave?_cons (List.isChain_cons_cons.1 h).1 (quiet d) depth _

theorem length_lt_of_leave? {depth : Nat} {cs rest : List Char}
    (h : grammar.leave? depth cs = some rest) : rest.length < cs.length := by
  have shorter (c d : Char) (cs : List Char) : cs.length < (c :: d :: cs).length := by
    simp only [List.length_cons]
    omega
  fun_induction leave? grammar depth cs with
  | case1 c d cs _ =>
    obtain rfl := Option.some.inj h
    exact shorter c d cs
  | case2 c d cs _ depth ih | case3 depth c d cs _ _ ih => exact (ih h).trans (shorter c d cs)
  | case4 depth c d cs _ _ ih => exact (ih h).trans (Nat.lt_succ_self _)
  | case5 => cases h
  | case6 => cases h

end Steps

/-! ### Levels that a text opens -/

/-- How many levels a text opens. -/
def openings (grammar : BlockGrammar) : List Char → Nat
  | [] => 0
  | c :: cs => (if cs.head?.any (grammar.opens c) then 1 else 0) + grammar.openings cs

section Openings

variable {grammar : BlockGrammar}

theorem openings_cons_cons (c d : Char) (cs : List Char) :
    grammar.openings (c :: d :: cs) =
      (if grammar.opens c d then 1 else 0) + grammar.openings (d :: cs) :=
  rfl

theorem openings_cons_of_ne {c : Char} (slash : c ≠ '/') (cs : List Char) :
    grammar.openings (c :: cs) = grammar.openings cs := by
  have quiet (d : Char) : grammar.opens c d = false := by
    cases grammar <;> simp [opens, slash]
  cases cs <;> simp [openings, quiet]

theorem openings_append {d : Char} (star : d ≠ '*') (cs ds : List Char) :
    grammar.openings (cs ++ d :: ds) = grammar.openings cs + grammar.openings (d :: ds) := by
  induction cs with
  | nil => simp [openings]
  | cons c cs ih =>
    cases cs with
    | nil => simp [openings_cons_cons, opens_eq_false_of_ne star, openings]
    | cons e cs =>
      rw [List.cons_append, List.cons_append, openings_cons_cons, ← List.cons_append, ih,
        openings_cons_cons, Nat.add_assoc]

theorem openings_starred (line more : List Char) :
    grammar.openings (" * ".toList ++ line ++ '\n' :: more) =
      grammar.openings line + grammar.openings more := by
  have blank (cs : List Char) : grammar.openings (" * ".toList ++ cs) = grammar.openings cs := by
    change grammar.openings (' ' :: '*' :: ' ' :: cs) = _
    iterate 3 rw [openings_cons_of_ne (by decide)]
  rw [openings_append (by decide), blank, openings_cons_of_ne (by decide)]

theorem openings_eq_zero_iff {cs : List Char} :
    grammar.openings cs = 0 ↔ cs.IsChain fun c d => grammar.opens c d = false := by
  induction cs with
  | nil => simp [openings]
  | cons c cs ih =>
    cases cs with
    | nil => simp [openings]
    | cons d cs => simp [openings_cons_cons, ih]

theorem openings_flat (cs : List Char) : flat.openings cs = 0 :=
  openings_eq_zero_iff.2 ((List.isChain_isInfix cs).imp fun _ _ _ => rfl)

/-- Where comments nest, a text opens no level if there is no `/*` in it. -/
theorem openings_nesting_eq_zero_iff {cs : List Char} :
    nesting.openings cs = 0 ↔ ¬ ['/', '*'] <:+: cs := by
  rw [openings_eq_zero_iff]
  constructor
  · intro quiet opening
    have closed := List.isChain_pair.1 <| List.IsChain.infix quiet opening
    exact absurd closed (by decide)
  · intro absent
    refine (List.isChain_isInfix cs).imp fun c d neighbours => ?_
    by_contra opening
    obtain ⟨rfl, rfl⟩ : c = '/' ∧ d = '*' := by simpa [opens] using opening
    exact absent neighbours

/-- A text in which the ends of comments are broken opens as many levels as before. -/
theorem openings_breakPairs (cs : List Char) :
    grammar.openings (Comment.breakPairs Comment.isClosing cs) = grammar.openings cs := by
  fun_induction Comment.breakPairs Comment.isClosing cs with
  | case1 => rfl
  | case2 c => rfl
  | case3 c d cs closing ih =>
    obtain ⟨rfl, rfl⟩ : c = '*' ∧ d = '/' := by simpa [Comment.isClosing] using closing
    rw [openings_cons_of_ne (by decide), openings_cons_of_ne (by decide), ih,
      openings_cons_of_ne (by decide : '*' ≠ '/')]
  | case4 c d cs _ ih =>
    rw [openings, head?_breakPairs, ih]
    rfl

theorem openings_block (text : String) :
    grammar.openings (Comment.block text).toList = grammar.openings text.toList := by
  rw [Comment.block, toList_onChars, openings_breakPairs]

end Openings

/-! ### Texts for comments that nest -/

theorem isChain_nested (text : String) :
    (Comment.nested text).toList.IsChain fun c d => Comment.isNesting c d = false := by
  rw [Comment.nested, toList_onChars]
  exact isChain_breakPairs brokenBySpace_isNesting _

theorem unclosed_nested (text : String) : Unclosed (Comment.nested text).toList := by
  refine (isChain_nested text).imp fun c d apart => ?_
  simp_all [Comment.isNesting, Comment.isClosing]

theorem openings_nested (grammar : BlockGrammar) (text : String) :
    grammar.openings (Comment.nested text).toList = 0 := by
  refine openings_eq_zero_iff.2 ((isChain_nested text).imp fun c d apart => ?_)
  cases grammar with
  | flat => rfl
  | nesting => simp_all [Comment.isNesting, opens]

/-! ### Where a comment ends -/

section Ends

variable {grammar : BlockGrammar}

/-- A text that closes nothing is left behind, deeper by the levels that it opens. -/
theorem leave?_unclosed {body : List Char} (h : Unclosed body) (depth : Nat) (rest : List Char) :
    grammar.leave? depth (body ++ ' ' :: rest) =
      grammar.leave? (depth + grammar.openings body) (' ' :: rest) := by
  induction body generalizing depth with
  | nil => rfl
  | cons c body ih =>
    have behind := (List.isChain_cons.1 h).2
    cases body with
    | nil =>
      rw [openings, openings]
      exact leave?_cons (by simp [Comment.isClosing]) (opens_eq_false_of_ne (by decide)) depth rest
    | cons d body =>
      have apart : Comment.isClosing c d = false := (List.isChain_cons_cons.1 h).1
      rw [openings_cons_cons]
      cases opening : grammar.opens c d with
      | false =>
        have passed := leave?_cons apart opening depth (body ++ ' ' :: rest)
        simpa using passed.trans (ih behind depth)
      | true =>
        -- the star of an opening is read with its slash, the levels of the rest count from it
        obtain rfl : d = '*' := by
          by_contra star
          simp [opens_eq_false_of_ne star] at opening
        have passed := @leave?_star grammar body behind (depth + 1) ' ' (by decide) rest
        calc grammar.leave? depth (c :: '*' :: (body ++ ' ' :: rest))
          _ = grammar.leave? (depth + 1) (body ++ ' ' :: rest) := leave?_open opening _ _
          _ = grammar.leave? (depth + 1) ('*' :: body ++ ' ' :: rest) := passed.symm
          _ = grammar.leave? (depth + 1 + grammar.openings ('*' :: body)) (' ' :: rest) :=
            ih behind (depth + 1)
          _ = _ := by rw [if_pos rfl, Nat.add_assoc]

/-- Behind its own end a comment is as many levels deep as its body opens. -/
theorem afterComment?_wrapped {body : List Char} (h : Unclosed body) (rest : List Char) :
    grammar.afterComment? (('/' :: '*' :: body ++ [' ', '*', '/']) ++ rest) =
      match grammar.openings body with
      | 0 => some rest
      | depth + 1 => grammar.leave? depth rest := by
  have inside := @leave?_unclosed grammar body h 0 ('*' :: '/' :: rest)
  rw [Nat.zero_add, leave?_cons (by decide) (by cases grammar <;> rfl)] at inside
  have read : grammar.afterComment? (('/' :: '*' :: body ++ [' ', '*', '/']) ++ rest) =
      grammar.leave? (grammar.openings body) ('*' :: '/' :: rest) := by
    simpa [afterComment?] using inside
  rw [read]
  cases grammar.openings body <;> rfl

/-- **Ends of comments.** A comment ends where it should, in front of whatever, exactly if its body
opens no level. -/
theorem afterComment?_wrapped_eq_iff {body : List Char} (h : Unclosed body) (rest : List Char) :
    grammar.afterComment? (('/' :: '*' :: body ++ [' ', '*', '/']) ++ rest) = some rest ↔
      grammar.openings body = 0 := by
  rw [afterComment?_wrapped h]
  cases grammar.openings body with
  | zero => simp
  | succ depth =>
    refine iff_of_false (fun left => ?_) (by simp)
    exact absurd (length_lt_of_leave? left) (Nat.lt_irrefl _)

/-- A text as the comment of a declaration. -/
def docComment (text : String) : String :=
  "/** " ++ text ++ " */"

theorem afterComment?_docComment_eq_iff {text : String} (h : Unclosed text.toList)
    (rest : List Char) :
    grammar.afterComment? ((docComment text).toList ++ rest) = some rest ↔
      grammar.openings text.toList = 0 := by
  have body : Unclosed ('*' :: ' ' :: text.toList) := .cons_cons rfl (h.cons (by decide))
  have ends := @afterComment?_wrapped_eq_iff grammar _ body rest
  rw [openings_cons_of_ne (by decide), openings_cons_of_ne (by decide)] at ends
  rw [← ends, docComment]
  simp

end Ends

end BlockGrammar

end DesignTokens.Text

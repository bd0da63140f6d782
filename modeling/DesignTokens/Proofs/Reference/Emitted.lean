import DesignTokens.Proofs.Reference.Referents
import Mathlib.Logic.Relation

/-!
# The references in what is emitted

A token names the tokens that the placeholders of its expression stand for. What is emitted for it
holds references to all of them or, when references are off or the expression does not expand, to
none (`emitted`): how references to other tokens are written does not matter (`emit_congr`).
-/

namespace DesignTokens.Reference

/-- The tokens that the placeholders of a token's expression stand for. -/
def named (dictionary : Dictionary) (t : Token) : List Token :=
  match t.expression? with
  | some raw => referents dictionary raw
  | none => []

/-- No chain of tokens, each named by the one before, returns to its start. -/
def Acyclic (dictionary : Dictionary) : Prop :=
  ∀ t, ¬ Relation.TransGen (fun t r => r ∈ named dictionary t) t t

/-- The tokens that what is emitted for a token refers to. -/
def emitted (dictionary : Dictionary) (on : Bool) (t : Token) : List Token :=
  if on && (resolve? dictionary Token.dottedPath t).isSome then named dictionary t else []

theorem mem_referents_of_mem_named {dictionary : Dictionary} {t r : Token}
    (h : r ∈ named dictionary t) : r ∈ dictionary.referents := by
  unfold named at h
  split at h
  · obtain ⟨body, -, found⟩ := mem_referents.1 h
    obtain ⟨known, -⟩ := referent?_eq_some found
    exact List.mem_reverse.1 (List.mem_of_find?_eq_some known)
  · simp at h

theorem mem_named_of_mem_emitted {dictionary : Dictionary} {on : Bool} {t r : Token}
    (h : r ∈ emitted dictionary on t) : r ∈ named dictionary t := by
  unfold emitted at h
  split at h
  · exact h
  · simp at h

/-- What is emitted for a token names tokens that the dictionary lists. -/
theorem mem_tokens_of_mem_emitted {dictionary : Dictionary}
    (own : dictionary.referents = dictionary.tokens) {t r : Token} {on : Bool}
    (h : r ∈ emitted dictionary on t) : r ∈ dictionary.tokens :=
  own ▸ mem_referents_of_mem_named (mem_named_of_mem_emitted h)

theorem acyclic_of_rank_lt {dictionary : Dictionary} (rank : Token → Nat)
    (falls : ∀ t ∈ dictionary.referents, ∀ r ∈ named dictionary t, rank r < rank t) :
    Acyclic dictionary := by
  have fallen : ∀ t r, Relation.TransGen (fun t r => r ∈ named dictionary t) t r →
      t ∈ dictionary.referents → rank r < rank t := by
    intro t r chain ht
    induction chain with
    | single step => exact falls t ht _ step
    | @tail s r chain step ih =>
      obtain ⟨_, _, into⟩ := Relation.TransGen.tail'_iff.1 chain
      exact (falls s (mem_referents_of_mem_named into) r step).trans ih
  intro t cycle
  obtain ⟨_, _, into⟩ := Relation.TransGen.tail'_iff.1 cycle
  exact (fallen t t cycle (mem_referents_of_mem_named into)).false

theorem isSome_resolve? (dictionary : Dictionary) (format other : Token → String) (t : Token) :
    (resolve? dictionary format t).isSome = (resolve? dictionary other t).isSome := by
  unfold resolve?
  cases t.expression? with
  | none => rfl
  | some raw =>
    simp only [Option.bind_some, expand?]
    split
    · rfl
    · rfl

/-- An expansion depends on how references are written only for the tokens that are named. -/
theorem resolve?_congr {dictionary : Dictionary} {format other : Token → String} {t : Token}
    (agree : ∀ r ∈ named dictionary t, format r = other r) :
    resolve? dictionary format t = resolve? dictionary other t := by
  unfold resolve?
  cases hraw : t.expression? with
  | none => rfl
  | some raw =>
    have same : ∀ text, ∀ r ∈ referents dictionary raw,
        replace text r (format r) = replace text r (other r) := by
      intro text r hr
      rw [agree r (by rwa [named, hraw])]
    simp only [Option.bind_some, expand?, List.foldl_ext _ _ _ same]

/-- **What is emitted** depends on how references are written only for the tokens that it refers
to. -/
theorem emit_congr {dictionary : Dictionary} {on : Bool} {format other : Token → String} {t : Token}
    (agree : ∀ r ∈ emitted dictionary on t, format r = other r) :
    emit dictionary on format t = emit dictionary on other t := by
  unfold emit
  split
  · next hon =>
    by_cases expands : (resolve? dictionary Token.dottedPath t).isSome
    · rw [resolve?_congr fun r hr => agree r (by simpa [emitted, hon, expands] using hr)]
    · have none_of : ∀ f, resolve? dictionary f t = none := by
        intro f
        rw [← Option.not_isSome_iff_eq_none, isSome_resolve? dictionary f Token.dottedPath t]
        exact expands
      rw [none_of format, none_of other]
  · rfl

end DesignTokens.Reference

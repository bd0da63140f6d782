import DesignTokens.Proofs.Identifier.Segments
import DesignTokens.Proofs.Mode.Counterpart
import DesignTokens.Proofs.Output.Declared
import DesignTokens.Proofs.Reference.Single

/-!
# Reading the chain off a qualified name

A qualified name is a root and a chain of identifiers behind dots. The root may be any text, but the
identifiers hold neither dots nor blanks, so that of two qualified names below one root the chains
are the same if the names are, also where blanks stand around them (`chain_eq_of_padded`).
-/

namespace DesignTokens.Identifier

open Reference (Padded)
open Text (isBlank)

/-- A name without blanks and dots. -/
def IsSolid (name : String) : Prop :=
  ∀ c ∈ name.toList, isBlank c = false ∧ c ≠ '.'

theorem isSolid_guardReserved (reserved : List String) {name : String} (h : IsPlain name) :
    IsSolid (guardReserved reserved name) := by
  refine forall_mem_guardReserved (by decide) (by decide) (fun c letter => ?_) reserved h
  exact of_isAlphanum (P := fun c => c.isAlphanum → isBlank c = false ∧ c ≠ '.') (by decide)
    letter letter

theorem isSolid_of_mem_chain {reserved : List String} {path : List String} :
    ∀ name ∈ chain (guardReserved reserved) path, IsSolid name := by
  by_cases named : path = []
  · simp [named, chain]
  · rw [chain_of_ne_nil _ named]
    simp only [List.forall_mem_append, List.forall_mem_map, List.forall_mem_singleton]
    exact ⟨fun segment _ => isSolid_guardReserved reserved (isPlain_pascalCase segment),
      isSolid_guardReserved reserved (isPlain_camelCase _)⟩

/-! ### Names behind dots -/

/-- Names, each behind a dot. -/
def behindDots (names : List String) : List Char :=
  names.flatMap fun name => '.' :: name.toList

theorem toList_intercalate_cons (root : String) (names : List String) :
    (".".intercalate (root :: names)).toList = root.toList ++ behindDots names := by
  induction names generalizing root with
  | nil => simp [behindDots]
  | cons name names ih =>
    rw [String.intercalate_cons_cons, String.toList_append, ih]
    simp [behindDots]

/-- Names without dots can be read off behind their dots. -/
theorem behindDots_inj {names others : List String} (solid : ∀ name ∈ names, IsSolid name)
    (solid' : ∀ name ∈ others, IsSolid name) (same : behindDots names = behindDots others) :
    names = others := by
  have dotFree : ∀ {list : List String}, (∀ name ∈ list, IsSolid name) → DotFree ("" :: list) :=
    fun h => ⟨by simp, List.forall_mem_cons.2 ⟨by simp, fun name hname dot =>
      (h name hname '.' dot).2 rfl⟩⟩
  have texts : ".".intercalate ("" :: names) = ".".intercalate ("" :: others) := by
    rw [← String.toList_inj, toList_intercalate_cons, toList_intercalate_cons, same]
  exact (List.cons.inj (dotted_injective (dotFree solid) (dotFree solid') texts)).2

theorem filter_behindDots {names : List String} (solid : ∀ name ∈ names, IsSolid name) :
    (behindDots names).filter (!isBlank ·) = behindDots names := by
  rw [List.filter_eq_self]
  intro c hc
  obtain ⟨name, hname, hc⟩ := List.mem_flatMap.1 hc
  rcases List.mem_cons.1 hc with rfl | hc
  · decide
  · simp [(solid name hname c hc).1]

theorem filter_of_padded {text core : List Char} (h : Padded text core) :
    text.filter (!isBlank ·) = core.filter (!isBlank ·) := by
  obtain ⟨left, right, hleft, hright, rfl⟩ := h
  have none : ∀ {cs : List Char}, (∀ c ∈ cs, isBlank c) → cs.filter (!isBlank ·) = [] :=
    fun h => List.filter_eq_nil_iff.2 fun c hc => by simp [h c hc]
  rw [List.filter_append, List.filter_append, none hleft, none hright, List.nil_append,
    List.append_nil]

/-- **One text names one chain.** If a text is two qualified names below one root, up to blanks
around them, their chains are the same. -/
theorem chain_eq_of_padded {reserved : List String} {root : String} {path other : List String}
    {text : List Char}
    (h : Padded text (qualified root path (guardReserved reserved)).toList)
    (h' : Padded text (qualified root other (guardReserved reserved)).toList) :
    chain (guardReserved reserved) path = chain (guardReserved reserved) other := by
  have same := (filter_of_padded h).symm.trans (filter_of_padded h')
  rw [qualified, qualified, toList_intercalate_cons, toList_intercalate_cons, List.filter_append,
    List.filter_append, filter_behindDots isSolid_of_mem_chain,
    filter_behindDots isSolid_of_mem_chain] at same
  exact behindDots_inj isSolid_of_mem_chain isSolid_of_mem_chain (List.append_cancel_left same)

end DesignTokens.Identifier

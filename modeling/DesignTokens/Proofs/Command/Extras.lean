import DesignTokens.Command.Extras
import DesignTokens.Proofs.SortedAssoc

/-!
# Extra parameters on a command line

Whether an argument names an extra parameter shows in the argument alone (`Extras.IsFlagFor`), and
whether it is the value of one shows in the argument before it, so that both are said of the places
of a command line (`Extras.Place`). `Extras.split` steps over one argument or two; what it leaves,
and the parameters that it finds, are those of the places (`Extras.splitPairs_eq`).

A command line can be split apart in front of an argument that is no value
(`Extras.keptAt_placesFrom_append`, `Extras.pairsAt_places_append`).
-/

namespace DesignTokens.Extras

open SortedAssoc (find?)

/-! ### Arguments -/

/-- The argument names the extra parameter `key`. -/
def IsFlagFor (key argument : String) : Prop :=
  argument = "--extra-" ++ key ∨ argument = "--extras-" ++ key

/-- The argument names an extra parameter. -/
def IsFlag (argument : String) : Prop :=
  ∃ key, IsFlagFor key argument

def IsDashed (argument : String) : Prop :=
  ∃ rest, argument = "-" ++ rest

theorem behind?_eq_some_iff {word text key : String} :
    behind? word text = some key ↔ text = word ++ key := by
  rw [behind?, ← String.toList_inj, String.toList_append]
  split
  · next starts =>
    obtain ⟨rest, spelled⟩ := List.isPrefixOf_iff_prefix.1 starts
    rw [← spelled, List.drop_left, Option.some.injEq, List.append_cancel_left_eq,
      ← String.toList_inj, String.toList_ofList]
  · next starts =>
    refine ⟨fun found => (Option.some_ne_none key found.symm).elim, fun spelled => ?_⟩
    exact (starts (List.isPrefixOf_iff_prefix.2 ⟨key.toList, spelled.symm⟩)).elim

theorem key?_eq_some_iff {argument key : String} :
    key? argument = some key ↔ IsFlagFor key argument := by
  rw [key?, Option.or_eq_some_iff, behind?_eq_some_iff, behind?_eq_some_iff, IsFlagFor]
  refine or_congr_right (and_iff_right_of_imp fun spelled => ?_)
  -- The words differ in the letter behind `--extra`.
  rw [Option.eq_none_iff_forall_ne_some]
  intro other found
  rw [behind?_eq_some_iff, spelled, ← String.toList_inj, String.toList_append,
    String.toList_append] at found
  simp at found

theorem key?_eq_none_iff {argument : String} : key? argument = none ↔ ¬ IsFlag argument := by
  simp [Option.eq_none_iff_forall_ne_some, key?_eq_some_iff, IsFlag]

theorem isOption_iff {argument : String} : isOption argument = true ↔ IsDashed argument := by
  rw [isOption, beq_iff_eq, List.head?_eq_some_iff]
  constructor
  · rintro ⟨rest, spelled⟩
    exact ⟨String.ofList rest, by rw [← String.toList_inj, spelled]; simp⟩
  · rintro ⟨rest, rfl⟩
    exact ⟨rest.toList, by simp⟩

instance (key argument : String) : Decidable (IsFlagFor key argument) :=
  inferInstanceAs (Decidable (_ ∨ _))

instance (argument : String) : Decidable (IsFlag argument) :=
  decidable_of_iff (key? argument).isSome
    (by simp [Option.isSome_iff_exists, key?_eq_some_iff, IsFlag])

instance (argument : String) : Decidable (IsDashed argument) :=
  decidable_of_iff (isOption argument) isOption_iff

theorem IsFlag.isDashed {argument : String} (h : IsFlag argument) : IsDashed argument := by
  obtain ⟨key, rfl | rfl⟩ := h
  · exact ⟨"-extra-" ++ key, by rw [← String.append_assoc]; rfl⟩
  · exact ⟨"-extras-" ++ key, by rw [← String.append_assoc]; rfl⟩

/-! ### Places -/

/-- An argument between the one before it and the one behind it. -/
structure Place where
  before : Option String
  argument : String
  behind : Option String

/-- The places of a command line that stands behind `before`. -/
def placesFrom (before : Option String) : List String → List Place
  | [] => []
  | argument :: rest =>
    ⟨before, argument, rest.head?⟩ :: placesFrom (some argument) rest

def places (arguments : List String) : List Place :=
  placesFrom none arguments

namespace Place

/-- The argument is the value of the one before it. -/
def IsValue (place : Place) : Prop :=
  (∃ flag ∈ place.before, IsFlag flag) ∧ ¬ IsDashed place.argument

/-- The argument is none of the extra parameters. -/
def IsKept (place : Place) : Prop :=
  ¬ IsFlag place.argument ∧ ¬ place.IsValue

instance (place : Place) : Decidable place.IsValue :=
  inferInstanceAs (Decidable (_ ∧ _))

instance (place : Place) : Decidable place.IsKept :=
  inferInstanceAs (Decidable (_ ∧ _))

/-- The value of an extra parameter that is named here. -/
def value (place : Place) : String :=
  match place.behind with
  | some next => if IsDashed next then "true" else next
  | none => "true"

/-- The extra parameter that is named here. -/
def pair? (place : Place) : Option (String × String) :=
  (key? place.argument).map (·, place.value)

end Place

/-- The arguments that are left. -/
def keptAt (places : List Place) : List String :=
  (places.filter (·.IsKept)).map Place.argument

/-- What the extra parameters are, in order. -/
def pairsAt (places : List Place) : List (String × String) :=
  places.filterMap Place.pair?

section Places

variable {before : Option String} {argument key next : String} {arguments rest : List String}

theorem keptAt_placesFrom_cons :
    keptAt (placesFrom before (argument :: rest)) =
      (if Place.IsKept ⟨before, argument, rest.head?⟩ then [argument] else []) ++
        keptAt (placesFrom (some argument) rest) := by
  rw [keptAt, placesFrom, List.filter_cons]
  split <;> simp_all [keptAt]

/-- What stands in front of a command line that does not begin with a value makes no difference. -/
theorem keptAt_placesFrom
    (h : (∃ flag ∈ before, IsFlag flag) → ∀ first ∈ arguments.head?, IsDashed first) :
    keptAt (placesFrom before arguments) = keptAt (places arguments) := by
  cases arguments with
  | nil => rfl
  | cons argument rest =>
    have same : Place.IsKept ⟨before, argument, rest.head?⟩ ↔
        Place.IsKept ⟨none, argument, rest.head?⟩ := by
      simpa [Place.IsKept, Place.IsValue] using fun _ flag there named => h ⟨flag, there, named⟩
    rw [places, keptAt_placesFrom_cons, keptAt_placesFrom_cons, if_congr same rfl rfl]

/-- What the parameters are does not depend on what stands in front. -/
theorem pairsAt_placesFrom :
    pairsAt (placesFrom before arguments) = pairsAt (places arguments) := by
  cases arguments <;> rfl

theorem keptAt_places_of_plain (plain : ¬ IsFlag argument) :
    keptAt (places (argument :: rest)) = argument :: keptAt (places rest) := by
  rw [places, keptAt_placesFrom_cons, if_pos ⟨plain, by simp [Place.IsValue]⟩,
    keptAt_placesFrom (by simp [plain])]
  rfl

theorem keptAt_places_of_flag (flag : IsFlag argument) :
    keptAt (places (argument :: rest)) = keptAt (placesFrom (some argument) rest) := by
  rw [places, keptAt_placesFrom_cons, if_neg fun kept => kept.1 flag]
  rfl

theorem keptAt_places_of_value (flag : IsFlag argument) (value : ¬ IsDashed next) :
    keptAt (places (argument :: next :: rest)) = keptAt (places rest) := by
  have plain : ¬ IsFlag next := fun named => value named.isDashed
  rw [keptAt_places_of_flag flag, keptAt_placesFrom_cons,
    if_neg fun kept => kept.2 ⟨⟨argument, rfl, flag⟩, value⟩, keptAt_placesFrom (by simp [plain])]
  rfl

theorem pairsAt_places_of_plain (plain : key? argument = none) :
    pairsAt (places (argument :: rest)) = pairsAt (places rest) := by
  have nothing : Place.pair? ⟨none, argument, rest.head?⟩ = none := by simp [Place.pair?, plain]
  exact (List.filterMap_cons_none nothing).trans pairsAt_placesFrom

theorem pairsAt_places_of_flag (found : key? argument = some key) :
    pairsAt (places (argument :: rest)) =
      (key, Place.value ⟨none, argument, rest.head?⟩) :: pairsAt (places rest) := by
  have named : Place.pair? ⟨none, argument, rest.head?⟩ =
      some (key, Place.value ⟨none, argument, rest.head?⟩) := by simp [Place.pair?, found]
  exact (List.filterMap_cons_some named).trans (congrArg _ pairsAt_placesFrom)

end Places

/-- Splitting leaves the arguments and finds the parameters that their places tell. -/
theorem splitPairs_eq (arguments : List String) :
    splitPairs arguments = (keptAt (places arguments), pairsAt (places arguments)) := by
  fun_induction splitPairs arguments with
  | case1 => rfl
  | case2 argument key found =>
    have flag : IsFlag argument := ⟨key, key?_eq_some_iff.1 found⟩
    rw [keptAt_places_of_flag flag, pairsAt_places_of_flag found]
    rfl
  | case3 argument plain =>
    rw [keptAt_places_of_plain (key?_eq_none_iff.1 plain), pairsAt_places_of_plain plain]
    rfl
  | case4 argument next rest key found dashed kept pairs split ih =>
    have flag : IsFlag argument := ⟨key, key?_eq_some_iff.1 found⟩
    have dash : IsDashed next := isOption_iff.1 dashed
    obtain ⟨rfl, rfl⟩ := Prod.mk.inj (split.symm.trans ih)
    have behind : keptAt (placesFrom (some argument) (next :: rest)) =
        keptAt (places (next :: rest)) := keptAt_placesFrom fun _ => by simpa using dash
    rw [keptAt_places_of_flag flag, behind, pairsAt_places_of_flag found]
    simp [Place.value, dash, defaultValue]
  | case5 argument next rest key found value kept pairs split ih =>
    have flag : IsFlag argument := ⟨key, key?_eq_some_iff.1 found⟩
    have bare : ¬ IsDashed next := fun dash => value (isOption_iff.2 dash)
    have plain : key? next = none := key?_eq_none_iff.2 fun named => bare named.isDashed
    obtain ⟨rfl, rfl⟩ := Prod.mk.inj (split.symm.trans ih)
    rw [keptAt_places_of_value flag bare, pairsAt_places_of_flag found,
      pairsAt_places_of_plain plain]
    simp [Place.value, bare]
  | case6 argument next rest plain kept pairs split ih =>
    obtain ⟨rfl, rfl⟩ := Prod.mk.inj (split.symm.trans ih)
    rw [keptAt_places_of_plain (key?_eq_none_iff.1 plain), pairsAt_places_of_plain plain]

/-! ### Splitting apart -/

theorem not_isFlag_of_mem_keptAt {argument : String} {arguments : List String}
    (h : argument ∈ keptAt (places arguments)) : ¬ IsFlag argument := by
  obtain ⟨place, there, rfl⟩ := List.mem_map.1 h
  exact (of_decide_eq_true (List.mem_filter.1 there).2).1

theorem splitPairs_of_forall_not_isFlag {arguments : List String}
    (plain : ∀ argument ∈ arguments, ¬ IsFlag argument) :
    splitPairs arguments = (arguments, []) := by
  rw [splitPairs_eq]
  induction arguments with
  | nil => rfl
  | cons argument rest ih =>
    obtain ⟨first, others⟩ := List.forall_mem_cons.1 plain
    obtain ⟨kept, pairs⟩ := Prod.mk.inj (ih others)
    rw [keptAt_places_of_plain first, pairsAt_places_of_plain (key?_eq_none_iff.2 first), kept,
      pairs]

/-- A command line can be split apart in front of an argument that is no value. -/
theorem keptAt_placesFrom_append (before : Option String) (xs : List String) {ys : List String}
    (h : ∀ first ∈ ys.head?, IsDashed first) :
    keptAt (placesFrom before (xs ++ ys)) =
      keptAt (placesFrom before xs) ++ keptAt (places ys) := by
  induction xs generalizing before with
  | nil => exact keptAt_placesFrom fun _ => h
  | cons argument rest ih =>
    have same : Place.IsKept ⟨before, argument, (rest ++ ys).head?⟩ ↔
        Place.IsKept ⟨before, argument, rest.head?⟩ := Iff.rfl
    rw [List.cons_append, keptAt_placesFrom_cons, keptAt_placesFrom_cons, if_congr same rfl rfl, ih,
      List.append_assoc]

theorem pairsAt_places_append (xs : List String) {ys : List String}
    (h : ∀ first ∈ ys.head?, IsDashed first) :
    pairsAt (places (xs ++ ys)) = pairsAt (places xs) ++ pairsAt (places ys) := by
  induction xs with
  | nil => rfl
  | cons argument rest ih =>
    rw [List.cons_append]
    cases found : key? argument with
    | none => rw [pairsAt_places_of_plain found, pairsAt_places_of_plain found, ih]
    | some key =>
      have same : Place.value ⟨none, argument, (rest ++ ys).head?⟩ =
          Place.value ⟨none, argument, rest.head?⟩ := by
        cases rest with
        | nil =>
          cases ys with
          | nil => rfl
          | cons first others => simp [Place.value, h first rfl]
        | cons next others => rfl
      rw [pairsAt_places_of_flag found, pairsAt_places_of_flag found, ih, same, List.cons_append]

/-! ### The parameters -/

/-- What the parameter is wherever it is named, in order. -/
def valuesAt (key : String) (places : List Place) : List String :=
  (places.filter fun place => IsFlagFor key place.argument).map Place.value

theorem map_filter_pairsAt (key : String) (places : List Place) :
    ((pairsAt places).filter (·.1 = key)).map Prod.snd = valuesAt key places := by
  induction places with
  | nil => rfl
  | cons place rest ih =>
    have named : IsFlagFor key place.argument ↔ key? place.argument = some key :=
      key?_eq_some_iff.symm
    simp only [pairsAt, valuesAt, List.filterMap_cons, List.filter_cons, Place.pair?, named] at ih ⊢
    cases key? place.argument with
    | none => simpa using ih
    | some other => by_cases same : other = key <;> simpa [same] using ih

/-- **Extra parameters.** What is left of a command line are the arguments that neither name a
parameter nor are the value of one named right before them; none of them names a parameter, and
splitting them again changes nothing. Each parameter is what the last place says where it is named.
A command line can be split apart in front of any argument with a dash; what the second part says
counts more. -/
theorem split_takes_parameters (xs : List String) :
    (split xs).1 = keptAt (places xs) ∧
    (∀ argument ∈ (split xs).1, ¬ IsFlag argument) ∧
    split (split xs).1 = ((split xs).1, []) ∧
    (∀ key, find? key (split xs).2 = (valuesAt key (places xs)).getLast?) ∧
    ∀ ys : List String, (∀ first ∈ ys.head?, IsDashed first) →
      (split (xs ++ ys)).1 = (split xs).1 ++ (split ys).1 ∧
      ∀ key, find? key (split (xs ++ ys)).2 =
        (find? key (split ys).2).or (find? key (split xs).2) := by
  have kept (zs : List String) : (split zs).1 = keptAt (places zs) := by
    rw [split, splitPairs_eq]
  have params (zs : List String) (key : String) :
      find? key (split zs).2 = (valuesAt key (places zs)).getLast? := by
    rw [split, splitPairs_eq, SortedAssoc.find?_ofList, ← List.getLast?_map, map_filter_pairsAt]
  have plain : ∀ argument ∈ (split xs).1, ¬ IsFlag argument := fun argument there =>
    not_isFlag_of_mem_keptAt (kept xs ▸ there)
  refine ⟨kept xs, plain, ?_, params xs, fun ys h => ⟨?_, fun key => ?_⟩⟩
  · conv_lhs => rw [split, splitPairs_of_forall_not_isFlag plain]
    rfl
  · rw [kept, kept, kept, places, keptAt_placesFrom_append none xs h]
    rfl
  · rw [params, params, params, ← map_filter_pairsAt, pairsAt_places_append xs h,
      List.filter_append, List.map_append, map_filter_pairsAt, map_filter_pairsAt,
      List.getLast?_append]

/-- The parameter `a` in both parts of a command line, the second of which ends in an empty key. -/
theorem split_takes_parameters_twice :
    (∀ first ∈ ["--extra-a", "2", "--extra-"].head?, IsDashed first) ∧
    (split (["in", "--extra-a", "1", "x", "--extras-b"] ++ ["--extra-a", "2", "--extra-"])).1 =
      ["in", "x"] ∧
    find? "a" (split (["in", "--extra-a", "1", "x", "--extras-b"] ++
      ["--extra-a", "2", "--extra-"])).2 = some "2" := by
  have dashed : ∀ first ∈ ["--extra-a", "2", "--extra-"].head?, IsDashed first := by decide
  obtain ⟨-, -, -, -, apart⟩ := split_takes_parameters ["in", "--extra-a", "1", "x", "--extras-b"]
  obtain ⟨kept, params⟩ := apart _ dashed
  refine ⟨dashed, kept.trans ?_, (params "a").trans ?_⟩ <;> decide

end DesignTokens.Extras

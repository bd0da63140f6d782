import DesignTokens.Mode.Detection
import Mathlib.Data.List.Dedup
import Mathlib.Data.List.Induction

/-!
# What a detector answers in the course of a run

In a run of a detector (`DetectorRun`) brands are detected and findings cleared while directories
come and go. The run keeps, beside the detector, the calls since the last clearing, each with the
directories that existed when it was made. What the detector remembers is what the first of these
calls found for each key (`DetectorRun.Faithful`): a call for a new key is added at the end of both,
and a call for a known key changes neither the findings nor what is first.
-/

namespace DesignTokens

/-! ### Calls -/

/-- A call that detects the modes of a brand, and the directories that exist when it is made. -/
structure DetectorCall where
  present : String → Bool
  brand : String
  directory : String

namespace DetectorCall

/-- What a finding of the call is remembered under. -/
def key (call : DetectorCall) : DetectionKey :=
  ⟨call.brand, Path.components call.directory⟩

/-- The directory of the light colors of the brand. -/
def light (call : DetectorCall) : String :=
  Path.join (Detector.colorDirectory call.brand call.directory) "light"

/-- The directory of the dark colors of the brand. -/
def dark (call : DetectorCall) : String :=
  Path.join (Detector.colorDirectory call.brand call.directory) "dark"

/-- The modes of the brand, from the directories that exist. -/
def modes (call : DetectorCall) : BrandModes :=
  if call.present call.light && call.present call.dark then .withBoth call.brand else .without

/-- The directories that are asked for, to find out. -/
def asked (call : DetectorCall) : List String :=
  call.light :: if call.present call.light then [call.dark] else []

theorem hasModes_modes (call : DetectorCall) :
    call.modes.hasModes = true ↔
      call.present call.light = true ∧ call.present call.dark = true := by
  unfold modes
  split
  · next both => simpa [BrandModes.withBoth] using both
  · next missing => simpa [BrandModes.without] using missing

end DetectorCall

/-! ### Runs -/

/-- What happens in a run: other directories exist from now on, a brand is detected, or the findings
are cleared. -/
inductive DetectorEvent
  | change (present : String → Bool)
  | detect (brand directory : String)
  | clear

/-- A detector in a run: the directories that exist, and the calls since the last clearing, the
first one first. -/
structure DetectorRun where
  present : String → Bool
  detector : Detector
  calls : List DetectorCall

namespace DetectorRun

/-- Tells whether a directory exists, and notes that it was asked for. -/
def ask (present : String → Bool) (path : String) : StateM (List String) Bool := do
  modify (· ++ [path])
  return present path

/-- The answer of the detector to a call, and the directories that it asks for. -/
def detect (s : DetectorRun) (brand directory : String) : (BrandModes × Detector) × List String :=
  (s.detector.detect (ask s.present) brand directory).run []

/-- What an event makes of the state of a run. -/
def step (s : DetectorRun) : DetectorEvent → DetectorRun
  | .change present => { s with present }
  | .detect brand directory =>
    { s with
      detector := (s.detect brand directory).1.2
      calls := s.calls ++ [⟨s.present, brand, directory⟩] }
  | .clear => { s with detector := s.detector.clear, calls := [] }

/-- The state after events, of a detector that has found nothing before. -/
def after (present : String → Bool) (events : List DetectorEvent) : DetectorRun :=
  events.foldl step ⟨present, .empty, []⟩

variable {s : DetectorRun}

/-! ### One call -/

/-- Looking asks for the light directory, and for the dark one if the light one exists. -/
theorem run_look (call : DetectorCall) (before : List String) :
    (Detector.look (ask call.present) call.brand call.directory).run before =
      pure (call.modes, before ++ call.asked) := by
  cases light : call.present call.light <;> cases dark : call.present call.dark <;>
    simp_all [Detector.look, ask, DetectorCall.modes, DetectorCall.asked, DetectorCall.light,
      DetectorCall.dark]

/-- A call for a known key answers what is known, and asks for nothing. -/
theorem detect_of_find? {brand directory : String} {modes : BrandModes}
    (known : s.detector.find? ⟨brand, Path.components directory⟩ = some modes) :
    s.detect brand directory = ((modes, s.detector), []) := by
  rw [detect, Detector.detect, known]
  rfl

/-- A call for a new key looks, and what it finds is remembered. -/
theorem detect_of_find?_eq_none {call : DetectorCall} (here : call.present = s.present)
    (new : s.detector.find? call.key = none) :
    s.detect call.brand call.directory =
      ((call.modes, ⟨(call.key, call.modes) :: s.detector.findings⟩), call.asked) := by
  rw [DetectorCall.key] at new
  rw [detect, Detector.detect, new, ← here]
  simp only [StateT.run_bind, run_look]
  rfl

/-! ### All calls -/

theorem isSome_find?_iff {detector : Detector} {key : DetectionKey} :
    (detector.find? key).isSome ↔ key ∈ detector.findings.map Prod.fst := by
  simp [Detector.find?]

theorem isSome_first_iff {calls : List DetectorCall} {key : DetectionKey} :
    (calls.find? (·.key = key)).isSome ↔ key ∈ calls.map DetectorCall.key := by
  simp

/-- The first call for a key stays the first one; only where there was none, the last call is. -/
theorem first_concat (calls : List DetectorCall) (call : DetectorCall) (key : DetectionKey) :
    (calls ++ [call]).find? (·.key = key) =
      (calls.find? (·.key = key)).or (if call.key = key then some call else none) := by
  rw [List.find?_append]
  congr 1
  split <;> simp_all

/-- The detector knows what the first call for each key found, and nothing else. -/
structure Faithful (s : DetectorRun) : Prop where
  find?_eq : ∀ key, s.detector.find? key = (s.calls.find? (·.key = key)).map DetectorCall.modes
  nodup : (s.detector.findings.map Prod.fst).Nodup

theorem Faithful.step (h : s.Faithful) (event : DetectorEvent) : (s.step event).Faithful := by
  cases event with
  | change present => exact ⟨h.find?_eq, h.nodup⟩
  | clear => exact ⟨fun _ => rfl, List.nodup_nil⟩
  | detect brand directory =>
    let call : DetectorCall := ⟨s.present, brand, directory⟩
    cases known : s.detector.find? call.key with
    | some modes =>
      -- The calls get longer, but not at a key that has no call yet.
      have stays : (s.step (.detect brand directory)).detector = s.detector := by
        rw [DetectorRun.step, detect_of_find? known]
      refine ⟨fun key => ?_, stays ▸ h.nodup⟩
      rw [stays, h.find?_eq]
      change _ = ((s.calls ++ [call]).find? _).map _
      rw [first_concat]
      by_cases same : call.key = key
      · rw [← same]
        have found : (s.calls.find? (·.key = call.key)).isSome := by
          rw [← Option.isSome_map, ← h.find?_eq, known, Option.isSome_some]
        rw [Option.or_of_isSome found]
      · rw [if_neg same, Option.or_none]
    | none =>
      have grows : (s.step (.detect brand directory)).detector =
          ⟨(call.key, call.modes) :: s.detector.findings⟩ := by
        rw [DetectorRun.step, @detect_of_find?_eq_none s call rfl known]
      refine ⟨fun key => ?_, ?_⟩
      · rw [grows]
        change _ = ((s.calls ++ [call]).find? _).map _
        rw [first_concat, Option.map_or, ← h.find?_eq]
        by_cases same : call.key = key
        · rw [← same, known]
          simp [Detector.find?]
        · simp [Detector.find?, same]
      · rw [grows, List.map_cons, List.nodup_cons, ← isSome_find?_iff, known]
        exact ⟨Bool.false_ne_true, h.nodup⟩

/-- So a detector is faithful in every run. -/
theorem faithful_after (present : String → Bool) (events : List DetectorEvent) :
    (after present events).Faithful := by
  induction events using List.reverseRecOn with
  | nil => exact ⟨fun _ => rfl, List.nodup_nil⟩
  | append_singleton events event ih =>
    rw [after, List.foldl_concat, ← after]
    exact ih.step event

theorem Faithful.size_eq (h : s.Faithful) :
    s.detector.size = (s.calls.map DetectorCall.key).dedup.length := by
  have perm : List.Perm (s.detector.findings.map Prod.fst)
      (s.calls.map DetectorCall.key).dedup := by
    refine (List.perm_ext_iff_of_nodup h.nodup (List.nodup_dedup _)).2 fun key => ?_
    rw [List.mem_dedup, ← isSome_find?_iff, ← isSome_first_iff, h.find?_eq, Option.isSome_map]
  rw [Detector.size, ← perm.length_eq, List.length_map]

/-! ### Main statement -/

/-- **Detection in a run.** In every run, a call answers what follows from the directories that
existed at the first call with its key since the last clearing, itself included: that there are
modes exactly if the directories of light and of dark colors both existed then. Only if it is that
first call itself it asks for directories: for the one of the light colors, and if that one exists
for the one of the dark colors. There are as many findings as keys among the calls. -/
theorem detect_answers_first (present : String → Bool) (events : List DetectorEvent) :
    let s := after present events
    s.detector.size = (s.calls.map DetectorCall.key).dedup.length ∧
    ∀ brand directory,
      let call : DetectorCall := ⟨s.present, brand, directory⟩
      ∃ first, (s.calls ++ [call]).find? (·.key = call.key) = some first ∧
        (s.detect brand directory).1.1 = first.modes ∧
        (first.modes.hasModes = true ↔
          first.present first.light = true ∧ first.present first.dark = true) ∧
        (s.detect brand directory).2 =
          if call.key ∈ s.calls.map DetectorCall.key then [] else call.asked := by
  intro s
  have faithful : s.Faithful := faithful_after present events
  refine ⟨faithful.size_eq, fun brand directory => ?_⟩
  intro call
  have known := faithful.find?_eq call.key
  cases found : s.calls.find? (·.key = call.key) with
  | some first =>
    have old : call.key ∈ s.calls.map DetectorCall.key := by
      rw [← isSome_first_iff, found, Option.isSome_some]
    rw [found, Option.map_some] at known
    refine ⟨first, ?_, ?_, first.hasModes_modes, ?_⟩
    · rw [first_concat, found, Option.some_or]
    · rw [detect_of_find? known]
    · rw [detect_of_find? known, if_pos old]
  | none =>
    have new : call.key ∉ s.calls.map DetectorCall.key := by
      rw [← isSome_first_iff, found]
      exact Bool.false_ne_true
    rw [found, Option.map_none] at known
    refine ⟨call, ?_, ?_, call.hasModes_modes, ?_⟩
    · rw [first_concat, found, if_pos rfl, Option.none_or]
    · rw [@detect_of_find?_eq_none s call rfl known]
    · rw [@detect_of_find?_eq_none s call rfl known, if_neg new]

end DetectorRun
end DesignTokens

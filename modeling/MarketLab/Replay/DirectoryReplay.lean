import MarketLab.Replay.FileReplay

/-!
# Replaying a directory

The scenario files of a directory are replayed in the order of their names, each with a runner of
its own, up to the first that does not load.
-/
namespace MarketLab.Replay
open MarketLab.Control MarketLab.Text

/-! ## Which files are scenarios -/

theorem findIdx?_reverse_dot {stem suffix : Bytes} (plain : ∀ c ∈ suffix, c ≠ 46) :
    (stem ++ 46 :: suffix).reverse.findIdx? (· == 46) = some suffix.length := by
  have silent : suffix.reverse.findIdx? (· == 46) = none :=
    List.findIdx?_eq_none_iff.mpr fun c member => by
      simpa using plain c (List.mem_reverse.mp member)
  rw [List.reverse_append, List.reverse_cons, List.append_assoc, List.findIdx?_append, silent]
  simp [List.findIdx?_cons]

/-- The extension of a name is what follows its last dot, behind a name that is not empty. -/
theorem extension_eq_iff {name suffix : Bytes} (plain : ∀ c ∈ suffix, c ≠ 46) :
    extension name = 46 :: suffix ↔ ∃ stem, stem ≠ [] ∧ name = stem ++ 46 :: suffix := by
  constructor
  · intro same
    unfold extension at same
    split at same
    next => cases same
    next behind found =>
      split at same
      next => cases same
      next inside =>
        obtain ⟨place, -, -⟩ := List.findIdx?_eq_some_iff_getElem.mp found
        rw [List.length_reverse] at place
        refine ⟨name.take (name.length - 1 - behind), ?_, ?_⟩
        · intro empty
          have length := congrArg List.length empty
          rw [List.length_take, List.length_nil] at length
          omega
        · rw [← same, List.take_append_drop]
  · rintro ⟨stem, nonempty, rfl⟩
    have positive := List.length_pos_iff.mpr nonempty
    have start : (stem ++ 46 :: suffix).length - 1 - suffix.length = stem.length := by
      rw [List.length_append, List.length_cons]
      omega
    rw [extension, findIdx?_reverse_dot plain]
    simp only
    rw [if_neg, start, List.drop_left]
    rw [List.length_append, List.length_cons]
    omega

/-- A name of at least one character and `.txt` behind it. -/
def ScenarioName (name : Bytes) : Prop := ∃ stem, stem ≠ [] ∧ name = stem ++ ascii ".txt"

theorem scenarioName_iff (name : Bytes) : extension name = ascii ".txt" ↔ ScenarioName name := by
  have split : ascii ".txt" = 46 :: ascii "txt" := by decide
  unfold ScenarioName
  rw [split]
  exact extension_eq_iff (forall_mem_of_all (by decide))

instance (name : Bytes) : Decidable (ScenarioName name) :=
  decidable_of_iff _ (scenarioName_iff name)

/-- The names of the scenario files among the entries of a directory. -/
def scenarioNames (entries : List DirectoryEntry) : List Bytes :=
  (entries.filter fun entry => entry.isRegularFile ∧ ScenarioName entry.name).map
    DirectoryEntry.name

theorem sortFiles_sorted (names : List Bytes) : (sortFiles names).Pairwise (· ≤ ·) := by
  have sorted := @List.pairwise_mergeSort _ (fun a b : Bytes => decide (a ≤ b))
    (fun a b c ab bc => by simpa using List.le_trans (of_decide_eq_true ab) (of_decide_eq_true bc))
    (fun a b => by simpa using List.le_total a b) names
  exact sorted.imp of_decide_eq_true

/-! ## One file after the other -/

/-- The file is there and every line of it is understood. -/
def loads (files : FileSystem) (path : Bytes) : Bool := (load path (files.text path)).isOk

/-- The records of a fresh engine's answers to a file. -/
def fileRecords (files : FileSystem) (path : Bytes) : List Record :=
  match load path (files.text path) with
  | .ok steps => (answers steps).flatMap recordsOf
  | .error _ => []

variable {files : FileSystem} {path : Bytes}

theorem runScenarioFile_loads (loaded : loads files path = true) :
    (runScenarioFile jsonlWriter files false path).thrown = none ∧
      (runScenarioFile jsonlWriter files false path).output =
        writeRecords (fileRecords files path) := by
  unfold loads at loaded
  unfold runScenarioFile fileRecords
  cases result : load path (files.text path) with
  | error failure =>
    rw [result] at loaded
    cases loaded
  | ok steps =>
    simp only [fileSession_json, session_runSteps, stepTexts_jsonl (length_answers steps).symm]
    trivial

theorem runScenarioFile_fails (failed : loads files path = false) :
    ∃ failure, load path (files.text path) = .error failure ∧
      runScenarioFile jsonlWriter files false path = { thrown := some (.failure failure) } := by
  unfold loads at failed
  cases result : load path (files.text path) with
  | error failure => exact ⟨failure, rfl, runScenarioFile_error result⟩
  | ok steps =>
    rw [result] at failed
    cases failed

/-- What ends a replay of files: the failure of the first that does not load. -/
def firstFailure (files : FileSystem) (paths : List Bytes) : Option Failure :=
  (paths.dropWhile (loads files)).head?.bind fun path =>
    match load path (files.text path) with
    | .ok _ => none
    | .error failure => some failure

theorem firstFailure_of_loads (loaded : loads files path = true) (paths : List Bytes) :
    firstFailure files (path :: paths) = firstFailure files paths := by
  rw [firstFailure, List.dropWhile_cons_of_pos loaded, firstFailure]

theorem firstFailure_of_error {failure : Failure}
    (failed : load path (files.text path) = .error failure) (paths : List Bytes) :
    firstFailure files (path :: paths) = some failure := by
  have stops : ¬ loads files path = true := by simp [loads, failed, Except.isOk, Except.toBool]
  rw [firstFailure, List.dropWhile_cons_of_neg stops, List.head?_cons, Option.bind_some, failed]

theorem runScenarioFiles_eq (files : FileSystem) (paths : List Bytes) :
    runScenarioFiles jsonlWriter files false paths =
      { output := writeRecords ((paths.takeWhile (loads files)).flatMap (fileRecords files))
        thrown := (firstFailure files paths).map .failure } := by
  induction paths with
  | nil => rfl
  | cons path paths ih =>
    rw [runScenarioFiles, ih]
    cases loaded : loads files path with
    | true =>
      obtain ⟨returned, output⟩ := runScenarioFile_loads loaded
      rw [Run.andThen, returned, output, List.takeWhile_cons_of_pos loaded, List.flatMap_cons,
        writeRecords_append, firstFailure_of_loads loaded]
    | false =>
      obtain ⟨failure, result, failed⟩ := runScenarioFile_fails loaded
      have stops : ¬ loads files path = true := by simp [loaded]
      rw [failed, firstFailure_of_error result, List.takeWhile_cons_of_neg stops]
      rfl

theorem firstFailure_eq_none {paths : List Bytes} :
    firstFailure files paths = none ↔ ∀ path ∈ paths, loads files path = true := by
  induction paths with
  | nil => simp [firstFailure]
  | cons path paths ih =>
    rw [List.forall_mem_cons]
    cases loaded : loads files path with
    | true => rw [firstFailure_of_loads loaded, ih, and_iff_right rfl]
    | false =>
      obtain ⟨failure, result, -⟩ := runScenarioFile_fails loaded
      simp [firstFailure_of_error result]

theorem named_fileRecords (files : FileSystem) (path : Bytes) :
    ∀ record ∈ fileRecords files path, record.Named := by
  unfold fileRecords
  split
  next steps loaded => exact named_answers steps
  next => exact fun _ => nofun

theorem scenarioFilesIn_ok {directory : Bytes} (present : files.pathExists directory = true)
    (listed : files.isDirectory directory = true) :
    ∃ names : List Bytes, scenarioFilesIn files directory = .ok (names.map (joined directory)) ∧
      names.Pairwise (· ≤ ·) ∧ names.Perm (scenarioNames (files.entries directory)) := by
  refine ⟨_, by rw [scenarioFilesIn, present, listed]; rfl, sortFiles_sorted _, ?_⟩
  refine (List.mergeSort_perm _ _).trans (List.Perm.of_eq ?_)
  rw [scenarioNames]
  congr 2
  funext entry
  simp only [scenarioName_iff, Bool.decide_and, Bool.decide_eq_true]

end MarketLab.Replay

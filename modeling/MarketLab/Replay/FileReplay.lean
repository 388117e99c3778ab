import MarketLab.Replay.ReplayOutput
import MarketLab.Replay.ScenarioLoad

/-!
# Replaying a file

A file that does not load is replayed without a word; one that does is replayed to its end,
whatever the schedule, and its lines of JSON are read back as the answers of a fresh engine.
What the file calls its instruments, its comments and its blanks do not show.
-/
namespace MarketLab.Replay
open MarketLab.Collections MarketLab.Control MarketLab.Text
open MarketLab.Matching (SymbolId)
open MarketLab.Runtime (Client Turn serve)

theorem fileSession_json (path : Bytes) (steps : List ScenarioStep) :
    fileSession jsonlWriter path steps false = runSteps jsonlWriter false steps := rfl

/-- A file is all that a replay of JSON lines with a file looks at. -/
theorem main_jsonl_file {files : FileSystem} {arguments : List Bytes} {options : CommandLineOptions}
    (parsed : parseCommandLine arguments = .ok options) (json : options.format = .jsonl)
    (given : options.scenarioFile ≠ []) :
    main files arguments = runScenarioFile jsonlWriter files false options.scenarioFile := by
  have named : options.scenarioFile.isEmpty = false := by simpa using given
  rw [main, parsed]
  simp only [json, runReplay, named, Bool.false_and, Bool.false_eq_true, ↓reduceIte,
    Bool.not_false]

theorem runScenarioFile_error {writer : Writer} {files : FileSystem} {printMetadata : Bool}
    {path : Bytes} {failure : Failure} (failed : load path (files.text path) = .error failure) :
    runScenarioFile writer files printMetadata path = { thrown := some (.failure failure) } := by
  rw [runScenarioFile, failed]

/-- The outcome of the session is what every schedule of its client comes to. -/
theorem session_of_schedule {body : Session Unit} {turns : List Turn} {client : Client UInt8 Fault Unit}
    (ran : turns.foldlM Client.step (.make 128 body) = some client) :
    client.printed <+: (session body).output ∧
      ((∀ turn, client.step turn = none) → client.printed = (session body).output) := by
  obtain ⟨left, -, standing⟩ := Client.run_standing (by decide) ran
  refine ⟨standing.printed_prefix, fun stuck => ?_⟩
  exact (Client.returned_of_stuck (by decide) ran stuck).printed

/-- A replay of a file as JSON lines: a file that does not load leaves only its failure; one that
does is replayed without an exception, its output is read back as the records of a fresh
engine's answers to its steps, and it is what any schedule of the client and the worker prints in
the end, and never anything else before. -/
theorem file_replay_read_back (files : FileSystem) {arguments : List Bytes}
    {options : CommandLineOptions} (parsed : parseCommandLine arguments = .ok options)
    (json : options.format = .jsonl) (given : options.scenarioFile ≠ []) :
    let path := options.scenarioFile
    let replay := main files arguments
    (∀ failure, load path (files.text path) = .error failure →
      replay = { thrown := some (.failure failure) }) ∧
    ∀ steps, load path (files.text path) = .ok steps →
      replay.thrown = none ∧ readRecords replay.output = some ((answers steps).flatMap recordsOf) ∧
      ∀ (turns : List Turn) (client : Client UInt8 Fault Unit),
        turns.foldlM Client.step (.make 128 (fileSession jsonlWriter path steps false)) = some client →
          client.printed <+: replay.output ∧
          ((∀ turn, client.step turn = none) → client.printed = replay.output) := by
  intro path replay
  have whole : replay = runScenarioFile jsonlWriter files false path :=
    main_jsonl_file parsed json given
  rw [whole]
  refine ⟨fun failure failed => runScenarioFile_error failed, fun steps loaded => ?_⟩
  have ran : runScenarioFile jsonlWriter files false path =
      session (fileSession jsonlWriter path steps false) := by
    rw [runScenarioFile, loaded]
  rw [ran]
  refine ⟨?_, ?_, fun turns client scheduled => session_of_schedule scheduled⟩
  · rw [fileSession_json, session_runSteps]
  · rw [fileSession_json]
    exact read_back_answers steps

/-- A submission, a snapshot and a comment, and a name that is no instrument of the file. -/
theorem file_replay_read_back_of_one_order :
    let text := ascii "submit limit 1 7 ETH buy 99 3 # rests\nsnapshot ETH 1\n"
    let files : FileSystem :=
      { text := fun path => if path = ascii "orders.txt" then some text else none
        pathExists := fun _ => true, isDirectory := fun _ => false, entries := fun _ => [] }
    let arguments := [ascii "--format", ascii "jsonl", ascii "--file", ascii "orders.txt"]
    (main files arguments).thrown = none ∧
      (readRecords (main files arguments).output).map List.length = some 3 := by
  intro text files arguments
  have parsed : parseCommandLine arguments =
      .ok { format := .jsonl, scenarioFile := ascii "orders.txt" } := rfl
  have loaded : load (ascii "orders.txt") (files.text (ascii "orders.txt")) = .ok _ := rfl
  obtain ⟨returned, read, -⟩ :=
    (file_replay_read_back files parsed rfl (by decide)).2 _ loaded
  refine ⟨returned, ?_⟩
  rw [read]
  rfl

/-! ## Renamed instruments -/

def Sentence.renamed (rename : Bytes → Bytes) : Sentence → Sentence
  | submitLimit user clientOrder name direction limitPrice size =>
    submitLimit user clientOrder (rename name) direction limitPrice size
  | submitMarket user clientOrder name direction size =>
    submitMarket user clientOrder (rename name) direction size
  | updateLimit user clientOrder limitPrice size => updateLimit user clientOrder limitPrice size
  | cancel user clientOrder => cancel user clientOrder
  | snapshot name depth => snapshot (rename name) depth

theorem Sentence.name_renamed (rename : Bytes → Bytes) (sentence : Sentence) :
    (sentence.renamed rename).name = sentence.name.map rename := by
  cases sentence <;> rfl

theorem Sentence.command_renamed (rename : Bytes → Bytes) (sentence : Sentence) (id : SymbolId) :
    (sentence.renamed rename).command id = sentence.command id := by
  cases sentence <;> rfl

section Renamed
variable {rename : Bytes → Bytes} {readings others : List Reading}
  (renamed : others.map Reading.sentence =
    readings.map fun reading => reading.sentence.renamed rename)
include renamed

theorem namesOf_renamed : namesOf others = (namesOf readings).map rename := by
  have names := congrArg (List.filterMap Sentence.name) renamed
  rw [List.filterMap_map, List.filterMap_map] at names
  refine names.trans ?_
  rw [namesOf, List.map_filterMap]
  exact List.filterMap_congr fun reading _ => reading.sentence.name_renamed rename

variable (apart : ∀ a ∈ namesOf readings, ∀ b ∈ namesOf readings, rename a = rename b → a = b)
include apart

/-- Names that are told apart alike give the same commands. -/
theorem commands_renamed :
    (stepsOf others).map ScenarioStep.command = (stepsOf readings).map ScenarioStep.command := by
  have names := namesOf_renamed renamed
  have same : ∀ reading ∈ readings,
      (reading.sentence.renamed rename).command (symbolOf (namesOf others)
        (reading.sentence.renamed rename)) =
      reading.sentence.command (symbolOf (namesOf readings) reading.sentence) := by
    intro reading member
    rw [Sentence.command_renamed]
    congr 1
    unfold symbolOf
    rw [Sentence.name_renamed, names]
    cases named : reading.sentence.name with
    | none => rfl
    | some name =>
      have known : name ∈ namesOf readings := List.mem_filterMap.mpr ⟨reading, member, named⟩
      simp only [Option.map_some, rank_map apart known]
  have commands := congrArg (List.map fun sentence : Sentence =>
    sentence.command (symbolOf (namesOf others) sentence)) renamed
  rw [List.map_map, List.map_map] at commands
  rw [stepsOf, stepsOf, List.map_map, List.map_map]
  exact commands.trans (List.map_congr_left same)

end Renamed

theorem stepTexts_congr {steps others : List ScenarioStep}
    (same : others.map ScenarioStep.command = steps.map ScenarioStep.command) :
    session (runSteps jsonlWriter false others) = session (runSteps jsonlWriter false steps) := by
  have asked : requests others = requests steps := by
    have requested := congrArg (List.map ScenarioCommand.request) same
    rwa [List.map_map, List.map_map] at requested
  have answered : answers others = answers steps := by rw [answers, asked, answers]
  have length : others.length = steps.length := by simpa using congrArg List.length same
  have count := (length_answers steps).symm
  rw [session_runSteps, session_runSteps, answered, stepTexts_jsonl count,
    stepTexts_jsonl (length.trans count)]

/-- A text whose lines read is loaded, when there is an ID for each of its names. -/
theorem load_of_reads (path : Bytes) {text : Bytes} (ordinary : ∀ c ∈ text, c ≠ 11 ∧ c ≠ 12)
    {readings : List Reading} (reads : Reads 0 (lines text) readings)
    (few : (namesOf readings).eraseDups.length < 2 ^ 32) :
    load path (some text) = .ok (stepsOf readings) := by
  obtain ⟨after, -, loaded⟩ :=
    loadLines_reads reads (plain_of_lines ordinary) .initial (by simpa using few) [] []
  rw [List.append_nil] at loaded
  rw [load, loaded, List.nil_append]
  simp [loadLines, stepsOf]

/-- Two files that say the same sentences, up to what they call their instruments and on whatever
lines, are replayed to the same bytes of JSON. -/
theorem renamed_file_same_output {files : FileSystem} {path other text otherText : Bytes}
    (opened : files.text path = some text) (openedToo : files.text other = some otherText)
    (ordinary : ∀ c ∈ text ++ otherText, c ≠ 11 ∧ c ≠ 12) {readings others : List Reading}
    (reads : Reads 0 (lines text) readings) (readsToo : Reads 0 (lines otherText) others)
    (few : (namesOf readings).eraseDups.length < 2 ^ 32) {rename : Bytes → Bytes}
    (renamed : others.map Reading.sentence =
      readings.map fun reading => reading.sentence.renamed rename)
    (apart : ∀ a ∈ namesOf readings, ∀ b ∈ namesOf readings, rename a = rename b → a = b) :
    runScenarioFile jsonlWriter files false other = runScenarioFile jsonlWriter files false path := by
  obtain ⟨ordinaryText, ordinaryOther⟩ := List.forall_mem_append.mp ordinary
  have fewToo : (namesOf others).eraseDups.length < 2 ^ 32 := by
    rwa [namesOf_renamed renamed, eraseDups_map apart, List.length_map]
  rw [runScenarioFile, runScenarioFile, opened, openedToo, load_of_reads path ordinaryText reads few,
    load_of_reads other ordinaryOther readsToo fewToo]
  exact stepTexts_congr (commands_renamed renamed apart)

/-- A snapshot of one name, and a comment and a snapshot of another. -/
theorem renamed_file_same_output_of_snapshot :
    let text := ascii "snapshot ETH 1\n"
    let otherText := ascii "# depth\n snapshot  BTC 1\n"
    let files : FileSystem :=
      { text := fun path => some (if path = ascii "a.txt" then text else otherText)
        pathExists := fun _ => true, isDirectory := fun _ => false, entries := fun _ => [] }
    runScenarioFile jsonlWriter files false (ascii "b.txt") =
      runScenarioFile jsonlWriter files false (ascii "a.txt") := by
  intro text otherText files
  let reading : Reading := ⟨1, ascii "snapshot ETH 1", .snapshot (ascii "ETH") 1⟩
  let other : Reading := ⟨2, ascii " snapshot  BTC 1", .snapshot (ascii "BTC") 1⟩
  have one : Numeral (ascii "1") 1 := ⟨by decide, List.all_eq_true.mp rfl, rfl⟩
  have first : tokens reading.text = [ascii "snapshot", ascii "ETH", ascii "1"] := by decide
  have comment : tokens (ascii "# depth") = [] := by decide
  have second : tokens other.text = [ascii "snapshot", ascii "BTC", ascii "1"] := by decide
  have split : lines text = [reading.text] := by decide
  have splitToo : lines otherText = [ascii "# depth", other.text] := by decide
  have reads : Reads 0 (lines text) [reading] := by
    rw [split]
    exact .sentence (first ▸ .snapshot (ascii "ETH") one) (.done 1)
  have readsToo : Reads 0 (lines otherText) [other] := by
    rw [splitToo]
    exact .nothing comment (.sentence (second ▸ .snapshot (ascii "BTC") one) (.done 2))
  have opened : files.text (ascii "a.txt") = some text := congrArg some (if_pos rfl)
  have openedToo : files.text (ascii "b.txt") = some otherText :=
    congrArg some (if_neg (by decide))
  have ordinary : ∀ c ∈ text ++ otherText, c ≠ 11 ∧ c ≠ 12 := forall_mem_of_all (by decide)
  have renamed : [other].map Reading.sentence =
      [reading].map fun reading => reading.sentence.renamed fun _ => ascii "BTC" := rfl
  have few : (namesOf [reading]).eraseDups.length < 2 ^ 32 := by decide
  refine renamed_file_same_output opened openedToo ordinary reads readsToo few renamed ?_
  intro a first b second _
  rw [List.mem_singleton.mp first, List.mem_singleton.mp second]

end MarketLab.Replay

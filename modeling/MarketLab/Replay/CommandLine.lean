import MarketLab.Replay.Application

/-!
# The command line of a replay

Every option takes a value. The last format counts; a file or a directory counts while the ones
in front of it are empty.
-/
namespace MarketLab.Replay
open MarketLab.Control MarketLab.Text

inductive Argument where
  | format (format : OutputFormat)
  | file (path : Bytes)
  | directory (path : Bytes)
  deriving DecidableEq, Repr

def OutputFormat.word : OutputFormat → Bytes
  | .text => ascii "text"
  | .jsonl => ascii "jsonl"

def Argument.item : Argument → Item Bytes
  | .format chosen => .valued (ascii "--format") chosen.word
  | .file path => .valued (ascii "--file") path
  | .directory path => .valued (ascii "--directory") path

/-- The path of a scenario source. -/
def Argument.source : Argument → Option Bytes
  | .format _ => none
  | .file path => some path
  | .directory path => some path

def CommandLineOptions.with (options : CommandLineOptions) : Argument → CommandLineOptions
  | .format chosen => { options with format := chosen }
  | .file path => { options with scenarioFile := path }
  | .directory path => { options with scenarioDirectory := path }

/-- Only the last source may be a path. -/
def OneSource (given : List Argument) : Prop :=
  given.Pairwise fun earlier later => later.source.isSome → earlier.source.getD [] = []

/-- No source has been given a path. -/
def CommandLineOptions.Unsourced (options : CommandLineOptions) : Prop :=
  options.scenarioFile = [] ∧ options.scenarioDirectory = []

/-! ## One argument -/

theorem proper_item (argument : Argument) : commandLine.Proper argument.item := by
  cases argument <;> rfl

theorem option_words : ascii "--file" ≠ ascii "--format" ∧ ascii "--directory" ≠ ascii "--format" ∧
    ascii "--directory" ≠ ascii "--file" ∧ ascii "jsonl" ≠ ascii "text" := by decide

/-- An item is applied when it is an argument, and a source only while there is none yet. -/
theorem applyArgument_ok {options after : CommandLineOptions} {item : Item Bytes}
    (proper : commandLine.Proper item) : applyArgument options item = .ok after ↔
      ∃ argument : Argument, item = argument.item ∧ (argument.source.isSome → options.Unsourced) ∧
        after = options.with argument := by
  obtain ⟨fileWord, directoryWord, apart, jsonlWord⟩ := option_words
  have sourced : (!options.scenarioFile.isEmpty || !options.scenarioDirectory.isEmpty) = true ↔
      ¬ options.Unsourced := by
    simp only [CommandLineOptions.Unsourced, Bool.or_eq_true, Bool.not_eq_true',
      List.isEmpty_eq_false_iff, not_and_or, ne_eq]
  constructor
  · intro applied
    cases item with
    | single argument => cases applied
    | valued name value =>
      simp only [applyArgument] at applied
      split_ifs at applied with format text jsonl given file
      · exact ⟨.format .text, by rw [format, text]; rfl, nofun, (Except.ok.inj applied).symm⟩
      · exact ⟨.format .jsonl, by rw [format, jsonl]; rfl, nofun, (Except.ok.inj applied).symm⟩
      · refine ⟨.file value, by rw [file]; rfl, fun _ => ?_, (Except.ok.inj applied).symm⟩
        exact not_not.mp (sourced.not.mp given)
      · have directory : name = ascii "--directory" := by
          have named : takesValue name = true := proper
          simpa [takesValue, isSource, format, file] using named
        refine ⟨.directory value, by rw [directory]; rfl, fun _ => ?_, (Except.ok.inj applied).symm⟩
        exact not_not.mp (sourced.not.mp given)
  · rintro ⟨argument, rfl, allowed, rfl⟩
    cases argument with
    | format chosen =>
      cases chosen with
      | text => simp only [Argument.item, OutputFormat.word, applyArgument, ↓reduceIte]; rfl
      | jsonl =>
        simp only [Argument.item, OutputFormat.word, applyArgument, ↓reduceIte, jsonlWord]
        rfl
    | file path =>
      have free := sourced.not.mpr (not_not.mpr (allowed rfl))
      simp only [Argument.item, applyArgument, fileWord, free, ↓reduceIte]
      rfl
    | directory path =>
      have free := sourced.not.mpr (not_not.mpr (allowed rfl))
      simp only [Argument.item, applyArgument, directoryWord, free, apart, ↓reduceIte]
      rfl

/-! ## Command lines -/

/-- A source is allowed while no path has been given. -/
def CommandLineOptions.Allows (options : CommandLineOptions) (argument : Argument) : Prop :=
  argument.source.isSome → options.Unsourced

theorem commandLine_reads : commandLine.Reads Argument.item CommandLineOptions.Allows .with where
  proper _ := proper_item _
  applied := applyArgument_ok

/-- Each source in turn finds none in front of it. -/
abbrev Allowed : CommandLineOptions → List Argument → Prop :=
  Options.Allowed CommandLineOptions.Allows .with

theorem with_unsourced {options : CommandLineOptions} {argument : Argument}
    (allowed : argument.source.isSome → options.Unsourced) :
    (options.with argument).Unsourced ↔ options.Unsourced ∧ argument.source.getD [] = [] := by
  cases argument with
  | format chosen => exact (and_iff_left rfl).symm
  | file path =>
    obtain ⟨noFile, noDirectory⟩ := allowed rfl
    simp [CommandLineOptions.with, CommandLineOptions.Unsourced, Argument.source, noFile, noDirectory]
  | directory path =>
    obtain ⟨noFile, noDirectory⟩ := allowed rfl
    simp [CommandLineOptions.with, CommandLineOptions.Unsourced, Argument.source, noFile, noDirectory]

theorem allowed_iff {options : CommandLineOptions} {given : List Argument} :
    Allowed options given ↔ OneSource given ∧
      ((∃ argument ∈ given, argument.source.isSome) → options.Unsourced) := by
  induction given generalizing options with
  | nil => simp [Options.Allowed, OneSource]
  | cons argument given ih =>
    have split : OneSource (argument :: given) ↔ (∀ other ∈ given, other.source.isSome →
        argument.source.getD [] = []) ∧ OneSource given := List.pairwise_cons
    change (argument.source.isSome → options.Unsourced) ∧ Allowed (options.with argument) given ↔ _
    rw [ih, split]
    constructor
    · rintro ⟨here, one, later⟩
      refine ⟨⟨fun other member source => ?_, one⟩, ?_⟩
      · exact ((with_unsourced here).mp (later ⟨other, member, source⟩)).2
      · rintro ⟨other, member, source⟩
        rcases List.mem_cons.mp member with rfl | behind
        · exact here source
        · exact ((with_unsourced here).mp (later ⟨other, behind, source⟩)).1
    · rintro ⟨⟨first, one⟩, free⟩
      have here : argument.source.isSome → options.Unsourced := fun source =>
        free ⟨argument, List.mem_cons_self, source⟩
      refine ⟨here, one, fun ⟨other, member, source⟩ => (with_unsourced here).mpr ⟨?_, ?_⟩⟩
      · exact free ⟨other, List.mem_cons_of_mem _ member, source⟩
      · exact first other member source

/-- Accepted options name no file beside a directory. -/
theorem one_source_of_allowed {options : CommandLineOptions} {given : List Argument}
    (allowed : Allowed options given)
    (one : options.scenarioFile = [] ∨ options.scenarioDirectory = []) :
    (given.foldl .with options).scenarioFile = [] ∨
      (given.foldl .with options).scenarioDirectory = [] := by
  induction given generalizing options with
  | nil => exact one
  | cons argument given ih =>
    obtain ⟨here, later⟩ := allowed
    refine ih later ?_
    cases argument with
    | format chosen => exact one
    | file path => exact .inr (here rfl).2
    | directory path => exact .inl (here rfl).1

theorem parseCommandLine_ok {arguments : List Bytes} {options : CommandLineOptions} :
    parseCommandLine arguments = .ok options ↔
      ∃ given : List Argument, arguments = given.flatMap (fun argument => argument.item.words) ∧
        Allowed {} given ∧ options = given.foldl .with {} :=
  commandLine_reads.parse_ok

/-- A command line is accepted exactly when it is a sequence of the three options with their values
in which only the last source may be a path; the options are then those given last, and they
never name both a file and a directory. -/
theorem command_line_accepts_its_grammar (arguments : List Bytes) (options : CommandLineOptions) :
    (parseCommandLine arguments = .ok options ↔
      ∃ given : List Argument, arguments = given.flatMap (fun argument => argument.item.words) ∧
        OneSource given ∧ options = given.foldl .with {}) ∧
    (parseCommandLine arguments = .ok options →
      options.scenarioFile = [] ∨ options.scenarioDirectory = []) := by
  have fresh : ∀ given, Allowed {} given ↔ OneSource given := fun given =>
    allowed_iff.trans (and_iff_left fun _ => ⟨rfl, rfl⟩)
  constructor
  · rw [parseCommandLine_ok]
    exact exists_congr fun given => and_congr_right fun _ => and_congr_left fun _ => fresh given
  · intro parsed
    obtain ⟨given, -, allowed, rfl⟩ := parseCommandLine_ok.mp parsed
    exact one_source_of_allowed allowed (.inl rfl)

end MarketLab.Replay

import MarketLab.Replay.Application
import MarketLab.Replay.JsonLines
import MarketLab.Runtime.Linearizable
import MarketLab.Runtime.Sequential

/-!
# What a replay writes

The session of a replay writes what its writer makes of the engine's answers to the steps, one
after the other, and ends without an exception. The lines of a JSON replay are read back as the
records of these answers.
-/
namespace MarketLab.Replay
open MarketLab.Control MarketLab.Text
open MarketLab.Matching (Engine SymbolId)
open MarketLab.Runtime (Request Response Client Turn respond respond_command respond_answers answersTo
  serve)

def requests (steps : List ScenarioStep) : List Request := steps.map fun step => step.command.request

/-- A fresh engine's answers to the steps, in order. -/
def answers (steps : List ScenarioStep) : List Response := answersTo (requests steps)

def Writer.write (writer : Writer) : Response → Bytes
  | .events events => writer.writeEvents (events.map .ofEvent)
  | .snapshot snapshot => writer.writeSnapshot snapshot
  | .exception _ => []

/-- What is written for a step that is answered. -/
def stepText (writer : Writer) (printStepLabels : Bool) (step : ScenarioStep) (response : Response) :
    Bytes :=
  (if printStepLabels then stepLabel step else []) ++ writer.write response

def stepTexts (writer : Writer) (printStepLabels : Bool) (steps : List ScenarioStep)
    (responses : List Response) : Bytes :=
  (steps.zip responses).flatMap fun answered =>
    stepText writer printStepLabels answered.1 answered.2

/-! ## Sessions -/

section Steps
variable {writer : Writer} {printStepLabels : Bool} {engine : Engine}

theorem outcome_executeCommand (sound : engine.Sound) (command : ScenarioCommand)
    (rest : Unit → Session Unit) :
    (executeCommand writer command >>= rest).outcome serve engine =
      ((rest ()).outcome serve (respond engine command.request).1).behind
        (writer.write (respond engine command.request).2) := by
  have answered := (respond_answers sound command.request).2
  change Program.outcome serve (respond engine command.request).1
    (writeAnswer writer (.ok (respond engine command.request).2) >>= rest) = _
  cases response : (respond engine command.request).2 with
  | events events => rfl
  | snapshot snapshot => rfl
  | exception fault => exact absurd response (answered fault)

theorem outcome_executeStep (sound : engine.Sound) (step : ScenarioStep)
    (rest : Unit → Session Unit) :
    (executeStep writer step printStepLabels >>= rest).outcome serve engine =
      ((rest ()).outcome serve (respond engine step.command.request).1).behind
        (stepText writer printStepLabels step (respond engine step.command.request).2) := by
  cases printStepLabels with
  | false => exact outcome_executeCommand sound step.command rest
  | true =>
    have labelled : (executeStep writer step true >>= rest).outcome serve engine =
        ((executeCommand writer step.command >>= rest).outcome serve engine).behind
          (stepLabel step) := rfl
    rw [labelled, outcome_executeCommand sound]
    simp only [Outcome.behind, stepText, ↓reduceIte, List.append_assoc]

theorem respond_sound (sound : engine.Sound) (request : Request) :
    (respond engine request).1.Sound :=
  (respond_answers sound request).1

/-- A sound engine answers every step, and the session returns. -/
theorem outcome_runSteps (sound : engine.Sound) (steps : List ScenarioStep) :
    (runSteps writer printStepLabels steps).outcome serve engine =
      { server := (serial respond engine (requests steps)).1
        printed := stepTexts writer printStepLabels steps (serial respond engine (requests steps)).2
        result := .ok () } := by
  induction steps generalizing engine with
  | nil => rfl
  | cons step steps ih =>
    rw [runSteps, outcome_executeStep sound, ih (respond_sound sound step.command.request)]
    rfl

end Steps

theorem session_runSteps (writer : Writer) (printStepLabels : Bool) (steps : List ScenarioStep) :
    session (runSteps writer printStepLabels steps) =
      { output := stepTexts writer printStepLabels steps (answers steps) } := by
  rw [session, outcome_runSteps Matching.Engine.initial_sound]
  rfl

/-! ## JSON lines -/

/-- The records the writer is given for an answer. -/
def recordsOf : Response → List Record
  | .events events => events.map recordOf
  | .snapshot snapshot => [.snapshot snapshot]
  | .exception _ => []

theorem write_jsonl (response : Response) :
    jsonlWriter.write response = writeRecords (recordsOf response) := by
  cases response with
  | events events =>
    refine (writeEvents_eq _).trans ?_
    rw [List.map_map]
    rfl
  | snapshot snapshot => exact (List.append_nil _).symm
  | exception fault => rfl

theorem writeRecords_append (front back : List Record) :
    writeRecords (front ++ back) = writeRecords front ++ writeRecords back := List.flatMap_append

theorem stepTexts_jsonl {steps : List ScenarioStep} {responses : List Response}
    (answered : steps.length = responses.length) :
    stepTexts jsonlWriter false steps responses = writeRecords (responses.flatMap recordsOf) := by
  induction steps generalizing responses with
  | nil =>
    obtain rfl := List.eq_nil_of_length_eq_zero answered.symm
    rfl
  | cons step steps ih =>
    cases responses with
    | nil => cases answered
    | cons response responses =>
      have rest := ih (Nat.succ.inj answered)
      rw [stepTexts, List.zip_cons_cons, List.flatMap_cons, ← stepTexts, rest, List.flatMap_cons,
        writeRecords_append, ← write_jsonl]
      rfl

theorem length_serial (engine : Engine) (asked : List Request) :
    (serial respond engine asked).2.length = asked.length := by
  induction asked generalizing engine with
  | nil => rfl
  | cons request asked ih =>
    rw [serial]
    exact congrArg (· + 1) (ih _)

theorem length_answers (steps : List ScenarioStep) : (answers steps).length = steps.length := by
  rw [answers, answersTo, length_serial, requests, List.length_map]

/-- An engine answers with records of named sides. -/
theorem named_respond {engine : Engine} (sound : engine.Sound) (request : Request) :
    ∀ record ∈ recordsOf (respond engine request).2, record.Named := by
  cases request with
  | snapshot instrument depth =>
    exact List.forall_mem_singleton.mpr trivial
  | command command =>
    obtain ⟨after, events, applied, -, step⟩ := engine.apply_step sound command
    rw [respond_command applied]
    intro record member
    obtain ⟨event, emitted, rfl⟩ := List.mem_map.mp member
    exact named_of_step step event emitted

theorem named_answers (steps : List ScenarioStep) :
    ∀ record ∈ (answers steps).flatMap recordsOf, record.Named := by
  intro record member
  obtain ⟨response, answered, inside⟩ := List.mem_flatMap.mp member
  have all := (serial_induct respond Engine.Sound (fun response => ∀ record ∈ recordsOf response,
    record.Named) (fun engine request sound => ⟨respond_sound sound request,
      named_respond sound request⟩) Matching.Engine.initial_sound (requests steps)).2
  exact all response answered record inside

/-- Records of named sides are read back as they are. -/
theorem readRecords_named {records : List Record} (named : ∀ record ∈ records, record.Named) :
    readRecords (writeRecords records) = some records := by
  rw [readRecords_writeRecords, List.map_congr_left fun record member => (named record member).shown,
    List.map_id']

/-- A session of JSON lines is read back as the records of the answers. -/
theorem read_back_answers (steps : List ScenarioStep) :
    readRecords (session (runSteps jsonlWriter false steps)).output =
      some ((answers steps).flatMap recordsOf) := by
  rw [session_runSteps, stepTexts_jsonl (length_answers steps).symm]
  exact readRecords_named (named_answers steps)

end MarketLab.Replay

import MarketLab.Control.Options
import MarketLab.Replay.ConsoleWriter
import MarketLab.Replay.ScenarioParser
import MarketLab.Runtime.Client

/-!
# The replay application

`main.cpp` of `market_replay`. The file system is what it says of paths. A session is what the
client of a fresh runner does between `start` and `stop`; it is run against an engine that answers
at once, as every schedule of the client and its worker runs it.
-/
namespace MarketLab.Replay
open MarketLab.Control MarketLab.Text
open MarketLab.Matching (CancelOrder Quantity Side SubmitOrder SymbolId)
open MarketLab.Runtime (Raised Request Response Body serve)

inductive OutputFormat where
  | text
  | jsonl
  deriving DecidableEq, Repr

structure CommandLineOptions where
  format : OutputFormat := .text
  scenarioFile : Bytes := []
  scenarioDirectory : Bytes := []
  deriving DecidableEq, Repr

/-- What is thrown out of the blocks of `main`. -/
inductive Fault where
  | failure (failure : Failure)
  | runner (raised : Raised)
  | engine (fault : Matching.Fault)

def runtimeError (what : String) : Fault := .failure (.runtimeError (ascii what))

/-! ## The command line -/

def isSource (name : Bytes) : Bool := name = ascii "--file" || name = ascii "--directory"

/-- `--format`, `--file` and `--directory`. -/
def takesValue (name : Bytes) : Bool := name = ascii "--format" || isSource name

def applyArgument (options : CommandLineOptions) : Item Bytes → Except Fault CommandLineOptions
  | .single _ => .error (runtimeError "unexpected positional argument")
  | .valued name value =>
    if name = ascii "--format" then
      if value = ascii "text" then .ok { options with format := .text }
      else if value = ascii "jsonl" then .ok { options with format := .jsonl }
      else .error (runtimeError "expected --format to be 'text' or 'jsonl'")
    else if !options.scenarioFile.isEmpty || !options.scenarioDirectory.isEmpty then
      .error (runtimeError "only one scenario source can be provided")
    else if name = ascii "--file" then .ok { options with scenarioFile := value }
    else .ok { options with scenarioDirectory := value }

/-- The loop over `argv`. -/
def commandLine : Options Bytes Fault CommandLineOptions where
  takesValue
  missing name := .failure (.runtimeError (ascii "missing value for " ++ name))
  apply := applyArgument

def parseCommandLine (arguments : List Bytes) : Except Fault CommandLineOptions :=
  commandLine.parse {} arguments

/-! ## Sessions -/

/-- The two writers have the functions that the templates call. -/
structure Writer where
  writeEvents : List EmittedEvent → Bytes
  writeSnapshot : Option Matching.OrderBookSnapshot → Bytes

def consoleWriter : Writer where
  writeEvents := Console.writeEvents
  writeSnapshot := Console.writeSnapshot

def jsonlWriter : Writer where
  writeEvents := writeEvents
  writeSnapshot := writeSnapshot

abbrev Session (α : Type) := Body UInt8 Fault α

def print (text : Bytes) : Session Unit := .print text (.pure ())

def ScenarioCommand.request : ScenarioCommand → Request
  | .submit order => .command (.submit order)
  | .cancel order => .command (.cancel order)
  | .update order => .command (.update order)
  | .snapshot instrument depth => .snapshot instrument depth

section Steps
variable (writer : Writer)

/-- What `get()` on a future yields goes to the writer. -/
def writeAnswer : Except Raised Response → Session Unit
  | .ok (.events events) => print (writer.writeEvents (events.map .ofEvent))
  | .ok (.snapshot snapshot) => print (writer.writeSnapshot snapshot)
  | .ok (.exception fault) => .throw (.engine fault)
  | .error raised => .throw (.runner raised)

/-- The `execute_command` overloads. -/
def executeCommand (command : ScenarioCommand) : Session Unit :=
  .ask command.request (writeAnswer writer)

def stepLabel (step : ScenarioStep) : Bytes :=
  if step.lineNumber = 0 then ascii "\n" ++ step.text ++ ascii "\n"
  else ascii "\nline " ++ decimal step.lineNumber ++ ascii ": " ++ step.text ++ ascii "\n"

def executeStep (step : ScenarioStep) (printStepLabels : Bool) : Session Unit := do
  if printStepLabels then print (stepLabel step)
  executeCommand writer step.command

def runSteps (printStepLabels : Bool) : List ScenarioStep → Session Unit
  | [] => pure ()
  | step :: steps => do
    executeStep writer step printStepLabels
    runSteps printStepLabels steps

end Steps

def ethUsd : SymbolId := ⟨1⟩

def defaultScenario : List ScenarioStep :=
  [{ lineNumber := 0, text := ascii "1. Rest a sell limit order at 100"
     command := .submit (makeLimitOrder 1 10 ethUsd .sell ⟨100, Matching.Price.hundred_ne_zero⟩
       ⟨5, by decide⟩) },
   { lineNumber := 0, text := ascii "2. Rest a buy limit order at 99"
     command := .submit (makeLimitOrder 2 20 ethUsd .buy ⟨99, by decide⟩ ⟨3, by decide⟩) },
   { lineNumber := 0, text := ascii "3. Snapshot depth 5", command := .snapshot ethUsd 5 },
   { lineNumber := 0, text := ascii "4. Submit a buy limit order that crosses the ask"
     command := .submit (makeLimitOrder 3 30 ethUsd .buy ⟨101, Matching.Price.hundredOne_ne_zero⟩
       ⟨4, by decide⟩) },
   { lineNumber := 0, text := ascii "5. Snapshot depth 5", command := .snapshot ethUsd 5 },
   { lineNumber := 0, text := ascii "6. Reduce the resting bid size"
     command := .update (makeLimitUpdate 2 20 ⟨99, by decide⟩ ⟨2, by decide⟩) },
   { lineNumber := 0, text := ascii "7. Cancel the resting bid"
     command := .cancel (makeCancelOrder 2 20) },
   { lineNumber := 0, text := ascii "8. Final snapshot depth 5", command := .snapshot ethUsd 5 }]

/-- The session of `run_default_demo`. -/
def defaultSession (writer : Writer) (printMetadata : Bool) : Session Unit := do
  if printMetadata then
    print (ascii "Scenario: build an ETH-USD book, cross the ask side, then cancel the bid.\n")
  runSteps writer printMetadata defaultScenario

/-- The session of `run_scenario_file`. -/
def fileSession (writer : Writer) (path : Bytes) (steps : List ScenarioStep)
    (printMetadata : Bool) : Session Unit := do
  if printMetadata then
    print (ascii "Scenario file: " ++ path ++ ascii "\n")
    print (ascii "Commands: " ++ decimal steps.length ++ ascii "\n")
  runSteps writer printMetadata steps

/-! ## Files -/

structure DirectoryEntry where
  name : Bytes
  isRegularFile : Bool
  deriving DecidableEq, Repr

/-- What can be learned of a path. -/
structure FileSystem where
  text : Bytes → Option Bytes
  pathExists : Bytes → Bool
  isDirectory : Bytes → Bool
  entries : Bytes → List DirectoryEntry

/-- `extension()` of the name of an entry: what starts at its last dot, unless the name does. -/
def extension (name : Bytes) : Bytes :=
  match name.reverse.findIdx? (· == 46) with
  | none => []
  | some behind => if behind + 1 = name.length then [] else name.drop (name.length - 1 - behind)

/-- `directory / name`. -/
def joined (directory name : Bytes) : Bytes :=
  if directory.getLast? = some 47 then directory ++ name else directory ++ ascii "/" ++ name

/-- `operator<` for paths in one directory. -/
def sortFiles (names : List Bytes) : List Bytes := names.mergeSort fun a b => decide (a ≤ b)

def scenarioFilesIn (files : FileSystem) (directory : Bytes) : Except Fault (List Bytes) :=
  if !files.pathExists directory then .error (runtimeError "scenario path does not exist")
  else if !files.isDirectory directory then .error (runtimeError "scenario path is not a directory")
  else
    let found := (files.entries directory).filter fun entry =>
      entry.isRegularFile && extension entry.name = ascii ".txt"
    .ok ((sortFiles (found.map DirectoryEntry.name)).map (joined directory))

/-- What a part of the program wrote, and what it threw. -/
structure Run where
  output : Bytes := []
  thrown : Option Fault := none

def Run.andThen (first rest : Run) : Run :=
  match first.thrown with
  | some _ => first
  | none => { rest with output := first.output ++ rest.output }

/-- A runner is constructed, started, used and stopped. -/
def session (body : Session Unit) : Run :=
  let outcome := body.outcome serve {}
  { output := outcome.printed
    thrown := match outcome.result with
      | .ok () => none
      | .error thrown => some thrown }

section Application
variable (writer : Writer) (files : FileSystem) (printMetadata : Bool)

def runDefaultDemo : Run := session (defaultSession writer printMetadata)

def runScenarioFile (path : Bytes) : Run :=
  match load path (files.text path) with
  | .error failure => { thrown := some (.failure failure) }
  | .ok steps => session (fileSession writer path steps printMetadata)

/-- The loop over the files of a directory. -/
def runScenarioFiles : List Bytes → Run
  | [] => {}
  | path :: paths =>
    (runScenarioFile writer files printMetadata path).andThen (runScenarioFiles paths)

def runScenarioDirectory (directory : Bytes) : Run :=
  match scenarioFilesIn files directory with
  | .error thrown => { thrown := some thrown }
  | .ok paths =>
    let metadata := ascii "Scenario directory: " ++ directory ++ ascii "\n" ++
      (ascii "Files: " ++ decimal paths.length ++ ascii "\n")
    Run.andThen { output := if printMetadata then metadata else [] }
      (runScenarioFiles writer files printMetadata paths)

def runReplay (options : CommandLineOptions) : Run :=
  if options.scenarioFile.isEmpty && options.scenarioDirectory.isEmpty then
    runDefaultDemo writer printMetadata
  else if !options.scenarioFile.isEmpty then
    runScenarioFile writer files printMetadata options.scenarioFile
  else runScenarioDirectory writer files printMetadata options.scenarioDirectory

end Application

/-- `arguments` are those behind the name of the program. -/
def main (files : FileSystem) (arguments : List Bytes) : Run :=
  match parseCommandLine arguments with
  | .error thrown => { thrown := some thrown }
  | .ok options =>
    match options.format with
    | .text =>
      Run.andThen { output := ascii "Obz Market Lab replay demo\n" }
        (runReplay consoleWriter files true options)
    | .jsonl => runReplay jsonlWriter files false options

def Run.exitCode (run : Run) : Nat := if run.thrown.isSome then 1 else 0

end MarketLab.Replay

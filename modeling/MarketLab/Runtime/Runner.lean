import Mathlib.Logic.Function.Basic
import MarketLab.Collections.BlockingQueue
import MarketLab.Control.Transitions
import MarketLab.Matching.Engine

/-!
# The matching runner

`commands.hpp`, `runner.hpp` and `runner.cpp` as interleavings of their atomic steps. Any
number of threads call `start`, `stop` and the four requests; the queue connects them to the
worker. A call is where it stands between two steps that other threads can see.
-/
namespace MarketLab.Runtime
open MarketLab.Collections MarketLab.Control
open MarketLab.Matching (Command Engine Event Fault OrderBookSnapshot SymbolId)

inductive Request where
  | command (command : Command)
  | snapshot (instrument : SymbolId) (depth : Nat)
  deriving DecidableEq, Repr

/-- What a promise is set to. -/
inductive Response where
  | events (events : List Event)
  | snapshot (snapshot : Option OrderBookSnapshot)
  | exception (fault : Fault)

abbrev Thread := Nat

/-- A `queued_command`. Its promise is told apart by the number of the call that made it. -/
structure Queued where
  ticket : Nat
  client : Thread
  request : Request
  deriving DecidableEq, Repr

/-- The statement a thread's call is in front of. -/
inductive Control where
  | idle
  | compareAccepting
  | spawnWorker
  | assignWorker (worker : Nat)
  | setClosed
  | closeQueue
  | testJoinable
  | join
  | push (queued : Queued)
  deriving DecidableEq, Repr

/-- Where a worker thread stands in `run`. -/
inductive Worker where
  | popping
  | processing (queued : Queued)
  | finished
  deriving DecidableEq, Repr

/-- What has happened so far. No step reads it. -/
structure Record where
  /-- Calls of `start` that found `closed` false. -/
  starts : Nat := 0
  /-- Requests that found `accepting` true, by ticket. -/
  issued : List (Thread × Request) := []
  appended : List Queued := []
  responses : List (Queued × Response) := []
  /-- A `join` has returned. -/
  joined : Bool := false
  /-- A `stop` that set `closed` has returned. -/
  stopped : Bool := false

/-- `worker` is the thread the handle holds while it is joinable. -/
structure Runner where
  accepting : Bool := false
  closed : Bool := false
  commands : BlockingQueue Queued
  matchingEngine : Engine := {}
  worker : Option Nat := none
  threads : List Worker := []
  control : Thread → Control := fun _ => .idle
  terminated : Bool := false
  record : Record := {}

inductive Action where
  | start (thread : Thread)
  | stop (thread : Thread)
  | issue (thread : Thread) (request : Request)
  /-- The next step of the call the thread is in. -/
  | proceed (thread : Thread)
  /-- The next step of a worker thread. -/
  | work (worker : Nat)

/-- The `process` overloads. -/
def process (engine : Engine) (queued : Queued) : Engine × Response :=
  match queued.request with
  | .command command =>
    match engine.apply command with
    | .ok (after, events) => (after, .events events)
    | .error fault => (engine, .exception fault)
  | .snapshot instrument depth => (engine, .snapshot (engine.snapshot instrument depth))

namespace Runner

def make (commandCapacity : Nat) : Runner := { commands := { capacity := commandCapacity } }

def running (runner : Runner) : Bool := runner.accepting

/-- The thread's call goes on to its next statement. -/
def goto (runner : Runner) (thread : Thread) (control : Control) : Runner :=
  { runner with control := Function.update runner.control thread control }

/-- `start` throws on a closed runner. -/
def start (runner : Runner) (thread : Thread) : Runner :=
  if runner.closed then runner
  else { runner with record := { runner.record with starts := runner.record.starts + 1 } }.goto
    thread .compareAccepting

/-- `stop` returns when there is nothing to stop. -/
def stop (runner : Runner) (thread : Thread) : Runner :=
  if runner.accepting then { runner with accepting := false }.goto thread .setClosed else runner

/-- A request throws when the runner does not accept. -/
def issue (runner : Runner) (thread : Thread) (request : Request) : Runner :=
  if runner.accepting then
    { runner with
      record := { runner.record with issued := runner.record.issued ++ [(thread, request)] } }.goto
        thread (.push { ticket := runner.record.issued.length, client := thread, request })
  else runner

/-- One statement of a call. Calls that wait cannot proceed; assigning to a handle that is
joinable terminates the program, and joining one that is not throws. -/
def proceed (runner : Runner) (thread : Thread) : Option Runner :=
  match runner.control thread with
  | .idle => none
  | .compareAccepting =>
    if runner.accepting then some (runner.goto thread .idle)
    else some ({ runner with accepting := true }.goto thread .spawnWorker)
  | .spawnWorker =>
    some ({ runner with threads := runner.threads ++ [Worker.popping] }.goto thread
      (.assignWorker runner.threads.length))
  | .assignWorker worker =>
    if runner.worker.isSome then some { runner with terminated := true }
    else some ({ runner with worker := some worker }.goto thread .idle)
  | .setClosed => some ({ runner with closed := true }.goto thread .closeQueue)
  | .closeQueue =>
    some ({ runner with commands := runner.commands.close }.goto thread .testJoinable)
  | .testJoinable =>
    if runner.worker.isSome then some (runner.goto thread .join)
    else some ({ runner with record := { runner.record with stopped := true } }.goto thread .idle)
  | .join =>
    match runner.worker with
    | none => some (runner.goto thread .idle)
    | some worker =>
      if runner.threads[worker]? = some .finished then
        some ({ runner with
          worker := none
          record := { runner.record with joined := true, stopped := true } }.goto thread .idle)
      else none
  | .push queued =>
    match runner.commands.push queued with
    | none => none
    | some .threw => some (runner.goto thread .idle)
    | some (.appended commands) =>
      some ({ runner with
        commands
        record := { runner.record with
          appended := runner.record.appended ++ [queued] } }.goto thread .idle)

/-- One round of a worker's loop takes a command and then processes it. -/
def work (runner : Runner) (worker : Nat) : Option Runner :=
  match runner.threads[worker]? with
  | none => none
  | some .finished => none
  | some .popping =>
    match runner.commands.waitAndPop with
    | none => none
    | some .drained => some { runner with threads := runner.threads.set worker .finished }
    | some (.popped queued commands) =>
      some { runner with commands, threads := runner.threads.set worker (.processing queued) }
  | some (.processing queued) =>
    let answered := process runner.matchingEngine queued
    some { runner with
      matchingEngine := answered.1
      threads := runner.threads.set worker .popping
      record := { runner.record with
        responses := runner.record.responses ++ [(queued, answered.2)] } }

/-- A thread makes one call at a time; a terminated program makes no step. -/
def step (runner : Runner) (action : Action) : Option Runner :=
  if runner.terminated then none
  else
    match action with
    | .start thread => if runner.control thread = .idle then some (runner.start thread) else none
    | .stop thread => if runner.control thread = .idle then some (runner.stop thread) else none
    | .issue thread request =>
      if runner.control thread = .idle then some (runner.issue thread request) else none
    | .proceed thread => runner.proceed thread
    | .work worker => runner.work worker

end Runner
end MarketLab.Runtime

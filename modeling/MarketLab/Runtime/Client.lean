import MarketLab.Control.Program
import MarketLab.Runtime.RunnerSteps
import MarketLab.Runtime.SequentialEngine

/-!
# A synchronous client

The applications use a runner from one thread: it starts the runner, waits on the future of each
request before it makes the next one, and stops the runner, by a statement or by the destructor
when an exception leaves the block. Thread zero is that client; the worker runs beside it.
-/
namespace MarketLab.Runtime
open MarketLab.Collections MarketLab.Control
open MarketLab.Matching (Engine)

/-- What a call of the runner throws itself. -/
inductive Raised where
  | runtimeError (what : String)
  | queueClosed
  | notJoinable
  deriving DecidableEq, Repr

/-- What a client does between `start` and `stop`. -/
abbrev Body (ω ε α : Type) := Program Request (Except Raised Response) ω ε α

/-- The statement the client is in front of, or the call it is in. -/
inductive Place (ω ε α : Type) where
  | created (body : Body ω ε α)
  | starting (body : Body ω ε α)
  | running (body : Body ω ε α)
  | requesting (ticket : Nat) (next : Except Raised Response → Body ω ε α)
  /-- In `get()`. -/
  | waiting (ticket : Nat) (next : Except Raised Response → Body ω ε α)
  | leaving (result : Except Raised (Except ε α))
  | stopping (result : Except Raised (Except ε α))
  | finished (result : Except Raised (Except ε α))

structure Client (ω ε α : Type) where
  runner : Runner
  place : Place ω ε α
  printed : List ω := []

inductive Turn where
  | client
  | worker (worker : Nat)
  deriving DecidableEq, Repr

/-- What the next statement of a thread's call throws. -/
def Runner.raises (runner : Runner) (thread : Thread) : Option Raised :=
  match runner.control thread with
  | .compareAccepting =>
    if runner.accepting then some (.runtimeError "runner is already running") else none
  | .push _ => if runner.commands.closed then some .queueClosed else none
  | .join => if runner.worker.isNone then some .notJoinable else none
  | _ => none

/-- An engine that answers every request at once. -/
def serve (engine : Engine) (request : Request) : Engine × Except Raised Response :=
  let answered := respond engine request
  (answered.1, .ok answered.2)

namespace Client
variable {ω ε α : Type}

def make (commandCapacity : Nat) (body : Body ω ε α) : Client ω ε α where
  runner := .make commandCapacity
  place := .created body

/-- The first statement of a call. -/
def enter (client : Client ω ε α) (action : Action) (place : Place ω ε α) : Option (Client ω ε α) :=
  (client.runner.step action).map fun runner => { client with runner, place }

/-- The next statement of the call the client is in, and where it goes on when the call is over. -/
def resume (client : Client ω ε α) (arrives : Option Raised → Place ω ε α) : Option (Client ω ε α) :=
  (client.runner.step (.proceed 0)).map fun runner =>
    { client with
      runner
      place := if runner.control 0 = .idle then arrives (client.runner.raises 0) else client.place }

def advance (client : Client ω ε α) : Option (Client ω ε α) :=
  match client.place with
  | .created body =>
    client.enter (.start 0)
      (if client.runner.closed then
        .leaving (.error (.runtimeError "runner cannot be restarted after stop"))
      else .starting body)
  | .starting body =>
    client.resume fun
      | some raised => .leaving (.error raised)
      | none => .running body
  | .running (.pure value) => some { client with place := .leaving (.ok (.ok value)) }
  | .running (.throw thrown) => some { client with place := .leaving (.ok (.error thrown)) }
  | .running (.print text next) =>
    some { client with place := .running next, printed := client.printed ++ text }
  | .running (.ask request next) =>
    client.enter (.issue 0 request)
      (if client.runner.accepting then .requesting client.runner.record.issued.length next
      else .running (next (.error (.runtimeError "runner is not running"))))
  | .requesting ticket next =>
    client.resume fun
      | some raised => .running (next (.error raised))
      | none => .waiting ticket next
  | .waiting ticket next =>
    (client.runner.record.responses.find? fun answer => answer.1.ticket = ticket).map fun answer =>
      { client with place := .running (next (.ok answer.2)) }
  | .leaving result =>
    client.enter (.stop 0) (if client.runner.accepting then .stopping result else .finished result)
  | .stopping result =>
    client.resume fun
      | some raised => .finished (.error raised)
      | none => .finished result
  | .finished _ => none

def step (client : Client ω ε α) (turn : Turn) : Option (Client ω ε α) :=
  if client.runner.terminated then none
  else
    match turn with
    | .client => client.advance
    | .worker worker =>
      (client.runner.step (.work worker)).map fun runner => { client with runner }

end Client
end MarketLab.Runtime

import MarketLab.Control.Serial
import MarketLab.Runtime.Runner

/-!
# The engine called directly

What an engine answers when its member functions are called one after the other, without a runner:
the meaning that the runner, its queue and its worker are compared with.
-/
namespace MarketLab.Runtime
open MarketLab.Control
open MarketLab.Matching (Command Engine Event Fault)

/-- What a member function leaves and returns; one that throws leaves the engine as it was. -/
def returned (engine : Engine) : Except Fault (Engine × List Event) → Engine × Response
  | .ok (after, events) => (after, .events events)
  | .error fault => (engine, .exception fault)

/-- The call that a request stands for. -/
def respond (engine : Engine) : Request → Engine × Response
  | .command (.submit order) => returned engine (engine.submit order)
  | .command (.update order) => returned engine (engine.update order)
  | .command (.cancel order) => returned engine (engine.cancel order)
  | .snapshot instrument depth => (engine, .snapshot (engine.snapshot instrument depth))

/-- A fresh engine that is asked one request after the other. -/
def answersTo (requests : List Request) : List Response := (serial respond {} requests).2

/-- The state that leaves a fresh engine in. -/
def engineAfter (requests : List Request) : Engine := (serial respond {} requests).1

/-- The worker makes the call that the request stands for. -/
theorem process_eq (engine : Engine) (queued : Queued) :
    process engine queued = respond engine queued.request := by
  unfold process
  cases queued.request with
  | snapshot instrument depth => rfl
  | command command =>
    cases command with
    | submit order =>
      unfold respond Matching.Engine.apply
      cases engine.submit order <;> rfl
    | update order =>
      unfold respond Matching.Engine.apply
      cases engine.update order <;> rfl
    | cancel order =>
      unfold respond Matching.Engine.apply
      cases engine.cancel order <;> rfl

theorem respond_command {engine after : Engine} {command : Command} {events : List Event}
    (applied : engine.apply command = .ok (after, events)) :
    respond engine (.command command) = (after, .events events) := by
  have called := process_eq engine { ticket := 0, client := 0, request := .command command }
  rw [← called]
  simp only [process, applied]

theorem serial_process (engine : Engine) (requests : List Queued) :
    serial process engine requests = serial respond engine (requests.map Queued.request) :=
  serial_map process respond Queued.request process_eq engine requests

end MarketLab.Runtime

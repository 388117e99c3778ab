import MarketLab.Runtime.Client

/-!
# The runner of a synchronous client

With one client there are few situations the client and the worker can be in together. Each
statement of either leads from one of them to the next.
-/
namespace MarketLab.Runtime
open MarketLab.Collections MarketLab.Control
open MarketLab.Matching (Engine)

/-- What a step looks at, apart from the engine and the history. -/
structure Situation where
  control : Control
  accepting : Bool
  closed : Bool
  queue : List Queued
  shut : Bool
  worker : Option Nat
  threads : List Worker

structure Runner.Stands (runner : Runner) (engine : Engine) (situation : Situation) : Prop where
  control : runner.control 0 = situation.control
  accepting : runner.accepting = situation.accepting
  closed : runner.closed = situation.closed
  queue : runner.commands.items = situation.queue
  shut : runner.commands.closed = situation.shut
  worker : runner.worker = situation.worker
  threads : runner.threads = situation.threads
  engine : runner.matchingEngine = engine
  alive : runner.terminated = false
  room : 0 < runner.commands.capacity
  tickets : ∀ answer ∈ runner.record.responses, answer.1.ticket < runner.record.issued.length

/-- Before the worker is spawned. -/
@[simp] def Situation.outset (control : Control) (accepting : Bool) : Situation :=
  { control, accepting, closed := false, queue := [], shut := false, worker := none, threads := [] }

/-- While the runner accepts. -/
@[simp] def Situation.open (control : Control) (queue : List Queued) (worker : Worker) : Situation :=
  { control, accepting := true, closed := false, queue, shut := false, worker := some 0,
    threads := [worker] }

/-- In `stop`. -/
@[simp] def Situation.ending (control : Control) (closed shut : Bool) (worker : Worker) : Situation :=
  { control, accepting := false, closed, queue := [], shut, worker := some 0, threads := [worker] }

namespace Runner
section Stands
variable {runner : Runner} {engine : Engine} {situation : Situation} {control : Control}
  {queued : Queued} {worker : Worker}

theorem Stands.goto (stands : runner.Stands engine situation) (control : Control) :
    (runner.goto 0 control).Stands engine { situation with control } :=
  { stands with control := by simp [goto_control] }

/-! ### Starting -/

theorem Stands.starts (stands : runner.Stands engine (.outset .idle false)) :
    ∃ after, runner.step (.start 0) = some after ∧
      after.Stands engine (.outset .compareAccepting false) := by
  have counted : Stands { runner with
      record := { runner.record with starts := runner.record.starts + 1 } } engine
      (.outset .idle false) := { stands with }
  refine ⟨_, ?_, counted.goto .compareAccepting⟩
  simp [step, start, stands.alive, stands.control, stands.closed]

theorem Stands.claims (stands : runner.Stands engine (.outset .compareAccepting false)) :
    ∃ after, runner.step (.proceed 0) = some after ∧ runner.raises 0 = none ∧
      after.Stands engine (.outset .spawnWorker true) := by
  have accepts : Stands { runner with accepting := true } engine
      (.outset .compareAccepting true) := { stands with accepting := rfl }
  refine ⟨_, ?_, ?_, accepts.goto .spawnWorker⟩
  · simp [step, proceed, stands.alive, stands.control, stands.accepting]
  · simp [raises, stands.control, stands.accepting]

theorem Stands.spawns (stands : runner.Stands engine (.outset .spawnWorker true)) :
    ∃ after, runner.step (.proceed 0) = some after ∧ runner.raises 0 = none ∧
      after.Stands engine { Situation.outset (.assignWorker 0) true with threads := [.popping] } := by
  have spawned : Stands { runner with threads := runner.threads ++ [Worker.popping] } engine
      { Situation.outset .spawnWorker true with threads := [.popping] } :=
    { stands with threads := by simp [stands.threads] }
  refine ⟨_, ?_, ?_, spawned.goto (.assignWorker 0)⟩
  · simp [step, proceed, stands.alive, stands.control, stands.threads]
  · simp [raises, stands.control]

theorem Stands.assigns (stands : runner.Stands engine
      { Situation.outset (.assignWorker 0) true with threads := [.popping] }) :
    ∃ after, runner.step (.proceed 0) = some after ∧ runner.raises 0 = none ∧
      after.Stands engine (.open .idle [] .popping) := by
  have held : Stands { runner with worker := some 0 } engine
      (.open (.assignWorker 0) [] .popping) := { stands with worker := rfl }
  refine ⟨_, ?_, ?_, held.goto .idle⟩
  · simp [step, proceed, stands.alive, stands.control, stands.worker]
  · simp [raises, stands.control]

/-! ### A request -/

/-- The history of a request that has not been answered. -/
structure Unanswered (runner : Runner) (queued : Queued) : Prop where
  issued : queued.ticket < runner.record.issued.length
  new : ∀ answer ∈ runner.record.responses, answer.1.ticket ≠ queued.ticket

/-- The future of an unanswered request is not ready. -/
theorem Unanswered.unset (unanswered : runner.Unanswered queued) :
    runner.record.responses.find? (fun answer => answer.1.ticket = queued.ticket) = none :=
  List.find?_eq_none.mpr fun answer member => by simpa using unanswered.new answer member

theorem Stands.issues (stands : runner.Stands engine (.open .idle [] .popping)) (request : Request) :
    ∃ after queued, runner.step (.issue 0 request) = some after ∧
      queued.ticket = runner.record.issued.length ∧ queued.request = request ∧
      after.Stands engine (.open (.push queued) [] .popping) ∧ after.Unanswered queued := by
  have counted : Stands { runner with
      record := { runner.record with issued := runner.record.issued ++ [(0, request)] } } engine
      (.open .idle [] .popping) :=
    { stands with
      tickets := fun answer member => by
        simpa using Nat.lt_succ_of_lt (stands.tickets answer member) }
  refine ⟨_, { ticket := runner.record.issued.length, client := 0, request }, ?_, rfl, rfl,
    counted.goto _, ?_, fun answer member => Nat.ne_of_lt (stands.tickets answer member)⟩
  · simp [step, issue, stands.alive, stands.control, stands.accepting]
  · simp

theorem Stands.pushes (stands : runner.Stands engine (.open (.push queued) [] .popping))
    (unanswered : runner.Unanswered queued) :
    ∃ after, runner.step (.proceed 0) = some after ∧ runner.raises 0 = none ∧
      after.Stands engine (.open .idle [queued] .popping) ∧ after.Unanswered queued := by
  have appended : Stands { runner with
      commands := { runner.commands with items := runner.commands.items ++ [queued] }
      record := { runner.record with appended := runner.record.appended ++ [queued] } } engine
      (.open (.push queued) [queued] .popping) :=
    { stands with queue := by simp [stands.queue] }
  refine ⟨_, ?_, ?_, appended.goto .idle, unanswered.issued, unanswered.new⟩
  · simp [step, proceed, BlockingQueue.push, stands.alive, stands.control, stands.shut,
      stands.queue, stands.room]
  · simp [raises, stands.control, stands.shut]

theorem Stands.pops (stands : runner.Stands engine (.open control [queued] .popping))
    (unanswered : runner.Unanswered queued) :
    ∃ after, runner.step (.work 0) = some after ∧
      after.Stands engine (.open control [] (.processing queued)) ∧ after.Unanswered queued := by
  refine ⟨{ runner with
    commands := { runner.commands with items := [] }, threads := [.processing queued] }, ?_,
    { stands with queue := rfl, threads := rfl }, unanswered.issued, unanswered.new⟩
  simp [step, work, BlockingQueue.waitAndPop, stands.alive, stands.threads, stands.queue]

theorem Stands.answers (stands : runner.Stands engine (.open control [] (.processing queued)))
    (unanswered : runner.Unanswered queued) :
    ∃ after, runner.step (.work 0) = some after ∧
      after.Stands (respond engine queued.request).1 (.open control [] .popping) ∧
      after.record.responses.find? (fun answer => answer.1.ticket = queued.ticket) =
        some (queued, (respond engine queued.request).2) := by
  rw [← process_eq]
  refine ⟨{ runner with
    matchingEngine := (process engine queued).1
    threads := [.popping]
    record := { runner.record with
      responses := runner.record.responses ++ [(queued, (process engine queued).2)] } }, ?_,
    { stands with threads := rfl, engine := rfl, tickets := fun answer member => ?_ }, ?_⟩
  · simp [step, work, stands.alive, stands.threads, stands.engine]
  · rcases List.mem_append.mp member with old | new
    · exact stands.tickets answer old
    · rw [List.mem_singleton.mp new]
      exact unanswered.issued
  · simp [unanswered.unset]

/-! ### Stopping -/

theorem Stands.stops (stands : runner.Stands engine (.open .idle [] .popping)) :
    ∃ after, runner.step (.stop 0) = some after ∧
      after.Stands engine (.ending .setClosed false false .popping) := by
  have taken : Stands { runner with accepting := false } engine
      (.ending .idle false false .popping) := { stands with accepting := rfl }
  refine ⟨_, ?_, taken.goto .setClosed⟩
  simp [step, stop, stands.alive, stands.control, stands.accepting]

theorem Stands.closes (stands : runner.Stands engine (.ending .setClosed false false .popping)) :
    ∃ after, runner.step (.proceed 0) = some after ∧ runner.raises 0 = none ∧
      after.Stands engine (.ending .closeQueue true false .popping) := by
  have closed : Stands { runner with closed := true } engine
      (.ending .setClosed true false .popping) := { stands with closed := rfl }
  refine ⟨_, ?_, ?_, closed.goto .closeQueue⟩
  · simp [step, proceed, stands.alive, stands.control]
  · simp [raises, stands.control]

theorem Stands.shuts (stands : runner.Stands engine (.ending .closeQueue true false .popping)) :
    ∃ after, runner.step (.proceed 0) = some after ∧ runner.raises 0 = none ∧
      after.Stands engine (.ending .testJoinable true true .popping) := by
  have shut : Stands { runner with commands := runner.commands.close } engine
      (.ending .closeQueue true true .popping) := { stands with shut := rfl }
  refine ⟨_, ?_, ?_, shut.goto .testJoinable⟩
  · simp [step, proceed, stands.alive, stands.control]
  · simp [raises, stands.control]

theorem Stands.tests (stands : runner.Stands engine (.ending .testJoinable true true worker)) :
    ∃ after, runner.step (.proceed 0) = some after ∧ runner.raises 0 = none ∧
      after.Stands engine (.ending .join true true worker) := by
  refine ⟨_, ?_, ?_, stands.goto .join⟩
  · simp [step, proceed, stands.alive, stands.control, stands.worker]
  · simp [raises, stands.control]

/-- The worker finds the queue closed and empty. -/
theorem Stands.drains (stands : runner.Stands engine (.ending control true true .popping)) :
    ∃ after, runner.step (.work 0) = some after ∧
      after.Stands engine (.ending control true true .finished) := by
  refine ⟨{ runner with threads := [.finished] }, ?_, { stands with threads := rfl }⟩
  simp [step, work, BlockingQueue.waitAndPop, stands.alive, stands.threads, stands.queue,
    stands.shut]

theorem Stands.joins (stands : runner.Stands engine (.ending .join true true .finished)) :
    ∃ after, runner.step (.proceed 0) = some after ∧ runner.raises 0 = none ∧
      after.Stands engine { Situation.ending .idle true true .finished with worker := none } := by
  have joined : Stands { runner with
      worker := none, record := { runner.record with joined := true, stopped := true } } engine
      { Situation.ending .join true true .finished with worker := none } :=
    { stands with worker := rfl }
  refine ⟨_, ?_, ?_, joined.goto .idle⟩
  · simp [step, proceed, stands.alive, stands.control, stands.worker, stands.threads]
  · simp [raises, stands.control, stands.worker]

/-! ### Waiting -/

/-- No worker but the one there is. -/
theorem Stands.work_alone (stands : runner.Stands engine situation) {k : Nat}
    (beyond : situation.threads.length ≤ k) : runner.step (.work k) = none := by
  simp [step, work, stands.alive, stands.threads, beyond]

theorem Stands.work_waits (stands : runner.Stands engine situation) (empty : situation.queue = [])
    (opened : situation.shut = false) (popping : situation.threads = [.popping]) (k : Nat) :
    runner.step (.work k) = none := by
  cases k <;> simp [step, work, BlockingQueue.waitAndPop, stands.alive, stands.threads, popping,
    stands.queue, empty, stands.shut, opened]

theorem Stands.work_finished (stands : runner.Stands engine situation)
    (finished : situation.threads = [.finished]) (k : Nat) : runner.step (.work k) = none := by
  cases k <;> simp [step, work, stands.alive, stands.threads, finished]

theorem Stands.join_waits (stands : runner.Stands engine (.ending .join true true .popping)) :
    runner.step (.proceed 0) = none := by
  simp [step, proceed, stands.alive, stands.control, stands.worker, stands.threads]

end Stands
end Runner
end MarketLab.Runtime

import MarketLab.Control.Serial
import MarketLab.Runtime.Lifecycle

/-!
# What the worker answers

While claims come in order there is one worker. What was appended is what it has answered, then
the command it holds, then the queue; so it has served the first of the appended commands.
-/
namespace MarketLab.Runtime
open MarketLab.Collections MarketLab.Control

/-- The commands the workers have taken and not answered. -/
def inHand (threads : List Worker) : List Queued :=
  threads.flatMap fun
    | .popping => []
    | .processing queued => [queued]
    | .finished => []

namespace Runner

/-- There is a worker, or a `start` is about to spawn one. -/
def Awaited (runner : Runner) : Prop :=
  runner.threads ≠ [] ∨ ∃ thread, runner.control thread = .spawnWorker

/-- A request was accepted, or can be. -/
def Wanted (runner : Runner) : Prop :=
  runner.accepting = true ∨ runner.record.appended ≠ [] ∨
    ∃ thread queued, runner.control thread = .push queued

structure OneWorker (runner : Runner) : Prop where
  one : runner.threads.length ≤ 1
  spawned : runner.threads ≠ [] → runner.Claimed ∧ ∀ thread, runner.control thread ≠ .spawnWorker
  awaited : runner.Wanted → runner.Awaited

variable {runner after changed : Runner} {action : Action} {thread : Thread} {control : Control}

theorem Awaited.goto (awaited : runner.Awaited) (threads : changed.threads = runner.threads)
    (same : changed.control = runner.control) (ready : runner.control thread ≠ .spawnWorker) :
    (changed.goto thread control).Awaited :=
  awaited.imp (threads ▸ id) fun ⟨other, there⟩ => ⟨other, goto_of_control same ready there⟩

theorem Wanted.of_goto (wanted : (changed.goto thread control).Wanted)
    (accepting : changed.accepting = true → runner.Wanted)
    (appended : changed.record.appended = runner.record.appended)
    (same : changed.control = runner.control) (unlike : ∀ queued, control ≠ .push queued) :
    runner.Wanted := by
  rcases wanted with accepts | some | ⟨other, queued, there⟩
  · exact accepting accepts
  · exact .inr (.inl (appended ▸ some))
  · exact .inr (.inr ⟨other, queued, control_of_goto there same (unlike queued)⟩)

/-- A step that spawns no worker, and makes no `start` go on to spawn one. -/
theorem OneWorker.frame (single : runner.OneWorker) (length : after.threads.length = runner.threads.length)
    (claimed : runner.Claimed → after.Claimed)
    (spawning : ∀ thread, after.control thread = .spawnWorker → runner.control thread = .spawnWorker)
    (awaited : after.Wanted → runner.Awaited → after.Awaited)
    (wanted : after.Wanted → runner.Wanted) : after.OneWorker where
  one := length.trans_le single.one
  spawned some := by
    have before : runner.threads ≠ [] := by
      rw [← List.length_pos_iff, length] at *
      exact some
    exact ⟨claimed (single.spawned before).1, fun thread there =>
      (single.spawned before).2 thread (spawning thread there)⟩
  awaited asked := awaited asked (single.awaited (wanted asked))

theorem OneWorker.step (single : runner.OneWorker) (life : runner.Lifecycle)
    (order : runner.ClaimsInOrder action) (moves : runner.Moves action after) :
    after.OneWorker := by
  have kept := fun claimed : runner.Claimed => claimed.step moves
  have before := single
  obtain ⟨one, spawned, awaited⟩ := single
  cases moves with
  | declined => exact before
  | terminated thread worker => exact ⟨one, spawned, awaited⟩
  | claimed thread ready unclaimed =>
    have none : runner.threads = [] := by
      by_contra some
      exact (spawned some).1.elim (by rw [unclaimed]; exact nofun) (· (order ready unclaimed))
    exact ⟨one, (absurd none ·), fun _ => .inr ⟨thread, by rw [goto_control, if_pos rfl]⟩⟩
  | spawned thread ready =>
    have mine : (runner.control thread).claiming = true := by rw [ready]; rfl
    have none : runner.threads = [] := by
      by_contra some
      exact (spawned some).2 thread ready
    refine ⟨by rw [goto_threads, none]; rfl, fun _ => ⟨kept (life.claimed (.inr ⟨thread, mine⟩)), ?_⟩,
      fun _ => .inl (by simp)⟩
    intro other there
    have holds := control_of_goto there rfl nofun
    have same := (life.claiming thread mine).2 other (by rw [holds]; rfl)
    rw [goto_control, if_pos same] at there
    cases there
  | started thread ready | assigned thread worker ready | queueClosed thread ready
  | closed thread ready | joining thread ready | unjoined thread ready | joined thread ready =>
    exact before.frame rfl kept (fun _ there => control_of_goto there rfl nofun)
      (fun _ waits => waits.goto rfl rfl (by rw [ready]; exact nofun))
      (fun asked => asked.of_goto .inl rfl rfl nofun)
  | threw thread ready =>
    refine before.frame rfl kept (fun _ there => control_of_goto there rfl nofun)
      (fun _ waits => waits.goto rfl rfl ?_) (fun asked => asked.of_goto .inl rfl rfl nofun)
    rcases ready with ⟨ready, -⟩ | ⟨ready, -⟩ | ⟨queued, ready, -⟩ <;> rw [ready] <;> exact nofun
  | stopping thread ready accepted =>
    exact before.frame rfl kept (fun _ there => control_of_goto there rfl nofun)
      (fun _ waits => waits.goto rfl rfl (by rw [ready]; exact nofun)) (fun _ => .inl accepted)
  | issued thread request ready accepted =>
    exact before.frame rfl kept (fun _ there => control_of_goto there rfl nofun)
      (fun _ waits => waits.goto rfl rfl (by rw [ready]; exact nofun)) (fun _ => .inl accepted)
  | pushed thread queued commands ready =>
    exact before.frame rfl kept (fun _ there => control_of_goto there rfl nofun)
      (fun _ waits => waits.goto rfl rfl (by rw [ready]; exact nofun))
      (fun _ => .inr (.inr ⟨thread, queued, ready⟩))
  | drained | popped | answered =>
    exact before.frame (by simp) kept (fun _ there => there)
      (fun _ => .imp_left (by simp)) (fun asked => asked)

theorem OneWorker.initial (commandCapacity : Nat) : (make commandCapacity).OneWorker where
  one := Nat.zero_le _
  spawned some := absurd rfl some
  awaited wanted := by
    rcases wanted with accepts | some | ⟨thread, queued, there⟩
    · cases accepts
    · exact absurd rfl some
    · cases there

/-- A worker that is there is the only one. -/
theorem OneWorker.alone (single : runner.OneWorker) {worker : Nat} {stands : Worker}
    (there : runner.threads[worker]? = some stands) : worker = 0 ∧ runner.threads = [stands] := by
  obtain ⟨bound, rfl⟩ := List.getElem?_eq_some_iff.mp there
  have one := single.one
  obtain rfl : worker = 0 := by omega
  obtain ⟨only, all⟩ := List.length_eq_one_iff.mp (show runner.threads.length = 1 by omega)
  simp [all]

/-- Where every appended command is, and what the worker has answered. -/
structure Answering (runner : Runner) : Prop where
  appended : runner.record.appended = runner.record.responses.map Prod.fst ++
    (inHand runner.threads ++ runner.commands.items)
  serves : Serves process {} runner.record.appended runner.record.responses runner.matchingEngine
  finished : .finished ∈ runner.threads →
    runner.commands.closed = true ∧ runner.commands.items = []
  joined : runner.record.joined = true → runner.threads = [.finished]

theorem Answering.step (answering : runner.Answering) (single : runner.OneWorker)
    (moves : runner.Moves action after) : after.Answering := by
  obtain ⟨appended, serves, finished, joined⟩ := answering
  cases moves with
  | spawned thread ready =>
    have none : runner.threads = [] := by
      by_contra some
      exact (single.spawned some).2 thread ready
    refine ⟨?_, serves, ?_, fun done => ?_⟩
    · simpa [none, inHand] using appended
    · simp [none]
    · exact absurd (none.symm.trans (joined done)) (List.cons_ne_nil _ _).symm
  | queueClosed thread ready =>
    exact ⟨appended, serves, fun done => ⟨rfl, (finished done).2⟩, joined⟩
  | joined thread ready worker held done =>
    exact ⟨appended, serves, finished, fun _ => (single.alone done).2⟩
  | pushed thread queued commands ready opened still items =>
    refine ⟨?_, serves.accept queued, fun done => ?_, joined⟩
    · simp [appended, items]
    · exact absurd (opened.symm.trans (finished done).1) (by decide)
  | drained worker ready shut empty =>
    obtain ⟨rfl, alone⟩ := single.alone ready
    refine ⟨?_, serves, fun _ => ⟨shut, empty⟩, fun _ => by simp [alone]⟩
    simpa [alone, inHand] using appended
  | popped worker ready queued commands items same =>
    obtain ⟨rfl, alone⟩ := single.alone ready
    refine ⟨?_, serves, by simp [alone], fun done => ?_⟩
    · simpa [alone, inHand, items] using appended
    · exact absurd (alone.symm.trans (joined done)) (by simp)
  | answered worker queued ready =>
    obtain ⟨rfl, alone⟩ := single.alone ready
    have next : runner.record.appended =
        runner.record.responses.map Prod.fst ++ queued :: runner.commands.items := by
      simpa [alone, inHand] using appended
    refine ⟨?_, serves.answer next, by simp [alone], fun done => ?_⟩
    · simpa [alone, inHand] using next
    · exact absurd (alone.symm.trans (joined done)) (by simp)
  | _ => exact ⟨appended, serves, finished, joined⟩

theorem Answering.initial (commandCapacity : Nat) : (make commandCapacity).Answering where
  appended := rfl
  serves := .initial
  finished := (nomatch ·)
  joined := (nomatch ·)

/-- Everything has been answered once the worker is gone. -/
theorem Answering.drained (answering : runner.Answering) (joined : runner.record.joined = true) :
    runner.record.responses.map Prod.fst = runner.record.appended := by
  have alone := answering.joined joined
  have empty := (answering.finished (by simp [alone])).2
  simp [answering.appended, alone, empty, inHand]

/-! ## Progress -/

/-- A step of a worker, or the one that spawns it. -/
def WorkerStep (runner : Runner) : Action → Prop
  | .work _ => True
  | .proceed thread => runner.control thread = .spawnWorker
  | _ => False

/-- How far the worker is from having answered everything. -/
def unanswered (runner : Runner) : Nat :=
  (if runner.threads = [] then 3 else 2) * runner.commands.items.length +
    (inHand runner.threads).length

section Steps
variable (alive : runner.terminated = false)
include alive

theorem step_spawns (ready : runner.control thread = .spawnWorker) :
    runner.step (.proceed thread) = some ({ runner with
      threads := runner.threads ++ [Worker.popping] }.goto thread
        (.assignWorker runner.threads.length)) := by
  simp [step, alive, proceed, ready]

theorem step_pops {queued : Queued} {items : List Queued} (alone : runner.threads = [.popping])
    (held : runner.commands.items = queued :: items) :
    runner.step (.work 0) = some { runner with
      commands := { runner.commands with items }
      threads := [.processing queued] } := by
  simp [step, alive, work, alone, BlockingQueue.waitAndPop, held]

theorem step_answers {queued : Queued} (alone : runner.threads = [.processing queued]) :
    ∃ after, runner.step (.work 0) = some after ∧ after.threads = [.popping] ∧
      after.commands = runner.commands ∧ after.record.appended = runner.record.appended := by
  refine ⟨{ runner with
    matchingEngine := (process runner.matchingEngine queued).1
    threads := [.popping]
    record := { runner.record with
      responses := runner.record.responses ++
        [(queued, (process runner.matchingEngine queued).2)] } }, ?_, rfl, rfl, rfl⟩
  simp [step, alive, work, alone]

end Steps

/-- While a command is unanswered, a worker, or the `start` that spawns it, can go on. -/
theorem Answering.progress (answering : runner.Answering) (single : runner.OneWorker)
    (alive : runner.terminated = false) (positive : 0 < runner.unanswered) :
    ∃ action after, runner.WorkerStep action ∧ runner.step action = some after ∧
      after.record.appended = runner.record.appended ∧ after.unanswered < runner.unanswered := by
  cases threads : runner.threads with
  | nil =>
    have queued : 0 < runner.commands.items.length := by
      simpa [unanswered, threads, inHand] using positive
    have some : runner.record.appended ≠ [] := by
      rw [answering.appended]
      simp [List.ne_nil_of_length_pos queued]
    obtain ⟨thread, ready⟩ := (single.awaited (.inr (.inl some))).resolve_left (· threads)
    refine ⟨.proceed thread, _, ready, step_spawns alive ready, rfl, ?_⟩
    simp [unanswered, threads, inHand]
    omega
  | cons stands rest =>
    have there : runner.threads[0]? = Option.some stands := by simp [threads]
    have alone := (single.alone there).2
    cases stands with
    | popping =>
      cases items : runner.commands.items with
      | nil => simp [unanswered, alone, items, inHand] at positive
      | cons queued rest =>
        refine ⟨.work 0, _, trivial, step_pops alive alone items, rfl, ?_⟩
        simp [unanswered, alone, items, inHand]
        omega
    | processing queued =>
      obtain ⟨after, taken, popping, commands, appended⟩ := step_answers alive alone
      refine ⟨.work 0, after, trivial, taken, appended, ?_⟩
      simp [unanswered, alone, popping, commands, inHand]
    | finished =>
      have empty := (answering.finished (by simp [alone])).2
      simp [unanswered, alone, empty, inHand] at positive

end Runner
end MarketLab.Runtime

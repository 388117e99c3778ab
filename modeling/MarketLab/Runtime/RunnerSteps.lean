import MarketLab.Runtime.Runner

/-!
# What one step of the runner can do

Every invariant of the runner is a case analysis over `Moves`, with one case for each effect a
step can have.
-/
namespace MarketLab.Runtime
open MarketLab.Collections MarketLab.Control

namespace Runner
variable {runner after : Runner}

section Goto
variable (runner) (thread other : Thread) (control : Control)

@[simp, grind =] theorem goto_accepting : (runner.goto thread control).accepting = runner.accepting := rfl
@[simp, grind =] theorem goto_closed : (runner.goto thread control).closed = runner.closed := rfl
@[simp, grind =] theorem goto_commands : (runner.goto thread control).commands = runner.commands := rfl
@[simp, grind =] theorem goto_matchingEngine :
    (runner.goto thread control).matchingEngine = runner.matchingEngine := rfl
@[simp, grind =] theorem goto_worker : (runner.goto thread control).worker = runner.worker := rfl
@[simp, grind =] theorem goto_threads : (runner.goto thread control).threads = runner.threads := rfl
@[simp, grind =] theorem goto_terminated : (runner.goto thread control).terminated = runner.terminated := rfl
@[simp, grind =] theorem goto_record : (runner.goto thread control).record = runner.record := rfl

@[grind =] theorem goto_control : (runner.goto thread control).control other =
    if other = thread then control else runner.control other := Function.update_apply ..

variable {runner thread other control}

/-- A thread that stands elsewhere than the one that moved stood there before. -/
theorem control_of_goto {changed : Runner} {place : Control}
    (there : (changed.goto thread control).control other = place)
    (same : changed.control = runner.control) (unlike : control ≠ place) :
    runner.control other = place := by
  rw [goto_control, same] at there
  split_ifs at there
  · exact absurd there unlike
  · exact there

/-- A thread that stood elsewhere than the one that moved still stands there. -/
theorem goto_of_control {changed : Runner} {place : Control} (same : changed.control = runner.control)
    (unlike : runner.control thread ≠ place) (there : runner.control other = place) :
    (changed.goto thread control).control other = place := by
  rw [goto_control, same]
  split_ifs with here
  · exact absurd (here ▸ there) unlike
  · exact there

end Goto

/-- The effects of a step. -/
inductive Moves (runner : Runner) : Action → Runner → Prop
  /-- A call that throws or returns in its first step. -/
  | declined (action : Action) : Moves runner action runner
  /-- A call that throws later. -/
  | threw (thread : Thread) (ready :
      runner.control thread = .compareAccepting ∧ runner.accepting = true ∨
      runner.control thread = .join ∧ runner.worker = none ∨
      ∃ queued, runner.control thread = .push queued ∧ runner.commands.closed = true) :
      Moves runner (.proceed thread) (runner.goto thread .idle)
  | started (thread : Thread) (ready : runner.control thread = .idle)
      (opened : runner.closed = false) :
      Moves runner (.start thread) ({ runner with
        record := { runner.record with starts := runner.record.starts + 1 } }.goto thread
          .compareAccepting)
  | claimed (thread : Thread) (ready : runner.control thread = .compareAccepting)
      (unclaimed : runner.accepting = false) :
      Moves runner (.proceed thread) ({ runner with accepting := true }.goto thread .spawnWorker)
  | spawned (thread : Thread) (ready : runner.control thread = .spawnWorker) :
      Moves runner (.proceed thread) ({ runner with
        threads := runner.threads ++ [Worker.popping] }.goto thread
          (.assignWorker runner.threads.length))
  | terminated (thread : Thread) (worker : Nat)
      (ready : runner.control thread = .assignWorker worker) (held : runner.worker ≠ none) :
      Moves runner (.proceed thread) { runner with terminated := true }
  | assigned (thread : Thread) (worker : Nat)
      (ready : runner.control thread = .assignWorker worker) (free : runner.worker = none) :
      Moves runner (.proceed thread) ({ runner with worker := some worker }.goto thread .idle)
  | stopping (thread : Thread) (ready : runner.control thread = .idle)
      (accepted : runner.accepting = true) :
      Moves runner (.stop thread) ({ runner with accepting := false }.goto thread .setClosed)
  | closed (thread : Thread) (ready : runner.control thread = .setClosed) :
      Moves runner (.proceed thread) ({ runner with closed := true }.goto thread .closeQueue)
  | queueClosed (thread : Thread) (ready : runner.control thread = .closeQueue) :
      Moves runner (.proceed thread)
        ({ runner with commands := runner.commands.close }.goto thread .testJoinable)
  | joining (thread : Thread) (ready : runner.control thread = .testJoinable)
      (held : runner.worker ≠ none) :
      Moves runner (.proceed thread) (runner.goto thread .join)
  | unjoined (thread : Thread) (ready : runner.control thread = .testJoinable)
      (free : runner.worker = none) :
      Moves runner (.proceed thread) ({ runner with
        record := { runner.record with stopped := true } }.goto thread .idle)
  | joined (thread : Thread) (ready : runner.control thread = .join) (worker : Nat)
      (held : runner.worker = some worker) (finished : runner.threads[worker]? = some .finished) :
      Moves runner (.proceed thread) ({ runner with
        worker := none
        record := { runner.record with joined := true, stopped := true } }.goto thread .idle)
  | issued (thread : Thread) (request : Request) (ready : runner.control thread = .idle)
      (accepted : runner.accepting = true) :
      Moves runner (.issue thread request) ({ runner with
        record := { runner.record with issued := runner.record.issued ++ [(thread, request)] } }.goto
          thread (.push { ticket := runner.record.issued.length, client := thread, request }))
  | pushed (thread : Thread) (queued : Queued) (commands : BlockingQueue Queued)
      (ready : runner.control thread = .push queued)
      (opened : runner.commands.closed = false) (still : commands.closed = false)
      (items : commands.items = runner.commands.items ++ [queued]) :
      Moves runner (.proceed thread) ({ runner with
        commands
        record := { runner.record with
          appended := runner.record.appended ++ [queued] } }.goto thread .idle)
  | drained (worker : Nat) (ready : runner.threads[worker]? = some .popping)
      (shut : runner.commands.closed = true) (empty : runner.commands.items = []) :
      Moves runner (.work worker) { runner with threads := runner.threads.set worker .finished }
  | popped (worker : Nat) (ready : runner.threads[worker]? = some .popping) (queued : Queued)
      (commands : BlockingQueue Queued) (items : runner.commands.items = queued :: commands.items)
      (same : commands.closed = runner.commands.closed) :
      Moves runner (.work worker) { runner with
        commands, threads := runner.threads.set worker (.processing queued) }
  | answered (worker : Nat) (queued : Queued)
      (ready : runner.threads[worker]? = some (.processing queued)) :
      Moves runner (.work worker) { runner with
        matchingEngine := (process runner.matchingEngine queued).1
        threads := runner.threads.set worker .popping
        record := { runner.record with
          responses := runner.record.responses ++
            [(queued, (process runner.matchingEngine queued).2)] } }

theorem proceed_moves {thread : Thread} (taken : runner.proceed thread = some after) :
    runner.Moves (.proceed thread) after := by
  unfold proceed at taken
  split at taken
  next => cases taken
  next ready =>
    split_ifs at taken with accepted <;> obtain rfl := Option.some.inj taken
    · exact .threw thread (.inl ⟨ready, accepted⟩)
    · exact .claimed thread ready (Bool.eq_false_iff.mpr accepted)
  next ready =>
    obtain rfl := Option.some.inj taken
    exact .spawned thread ready
  next worker ready =>
    split_ifs at taken with held <;> obtain rfl := Option.some.inj taken
    · exact .terminated thread worker ready (Option.isSome_iff_ne_none.mp held)
    · exact .assigned thread worker ready (by simpa using held)
  next ready =>
    obtain rfl := Option.some.inj taken
    exact .closed thread ready
  next ready =>
    obtain rfl := Option.some.inj taken
    exact .queueClosed thread ready
  next ready =>
    split_ifs at taken with held <;> obtain rfl := Option.some.inj taken
    · exact .joining thread ready (Option.isSome_iff_ne_none.mp held)
    · exact .unjoined thread ready (by simpa using held)
  next ready =>
    split at taken
    next free =>
      obtain rfl := Option.some.inj taken
      exact .threw thread (.inr (.inl ⟨ready, free⟩))
    next worker held =>
      split_ifs at taken with finished
      obtain rfl := Option.some.inj taken
      exact .joined thread ready worker held finished
  next queued ready =>
    split at taken
    next => cases taken
    next threw =>
      obtain rfl := Option.some.inj taken
      exact .threw thread (.inr (.inr ⟨queued, ready, BlockingQueue.push_threw threw⟩))
    next commands pushed =>
      obtain rfl := Option.some.inj taken
      obtain ⟨opened, still, items⟩ := BlockingQueue.push_appended pushed
      exact .pushed thread queued commands ready opened still items

theorem work_moves {worker : Nat} (taken : runner.work worker = some after) :
    runner.Moves (.work worker) after := by
  unfold work at taken
  split at taken
  next => cases taken
  next => cases taken
  next ready =>
    split at taken
    next => cases taken
    next drained =>
      obtain rfl := Option.some.inj taken
      obtain ⟨shut, empty⟩ := BlockingQueue.waitAndPop_drained drained
      exact .drained worker ready shut empty
    next queued commands popped =>
      obtain rfl := Option.some.inj taken
      obtain ⟨items, same⟩ := BlockingQueue.waitAndPop_popped popped
      exact .popped worker ready queued commands items same
  next queued ready =>
    obtain rfl := Option.some.inj taken
    exact .answered worker queued ready

theorem step_moves {action : Action} (taken : runner.step action = some after) :
    runner.Moves action after := by
  unfold step at taken
  split_ifs at taken with terminated
  cases action with
  | start thread =>
    simp only [Option.ite_none_right_eq_some, Option.some.injEq] at taken
    obtain ⟨ready, rfl⟩ := taken
    unfold start
    split_ifs with shut
    · exact .declined _
    · exact .started thread ready (Bool.eq_false_iff.mpr shut)
  | stop thread =>
    simp only [Option.ite_none_right_eq_some, Option.some.injEq] at taken
    obtain ⟨ready, rfl⟩ := taken
    unfold stop
    split_ifs with accepted
    · exact .stopping thread ready accepted
    · exact .declined _
  | issue thread request =>
    simp only [Option.ite_none_right_eq_some, Option.some.injEq] at taken
    obtain ⟨ready, rfl⟩ := taken
    unfold issue
    split_ifs with accepted
    · exact .issued thread request ready accepted
    · exact .declined _
  | proceed thread => exact proceed_moves taken
  | work worker => exact work_moves taken

/-- The thread whose call an action goes on with. -/
def caller : Action → Option Thread
  | .start thread => some thread
  | .stop thread => some thread
  | .issue thread _ => some thread
  | .proceed thread => some thread
  | .work _ => none

/-- A step moves no other thread's call. -/
theorem Moves.elsewhere {action : Action} (moves : runner.Moves action after) {other : Thread}
    (different : caller action ≠ some other) : after.control other = runner.control other := by
  have apart : ∀ {changed : Runner} {thread : Thread} {control : Control},
      some thread ≠ some other → changed.control = runner.control →
        (changed.goto thread control).control other = runner.control other := by
    intro changed thread control unlike same
    rw [goto_control, if_neg fun here => unlike (congrArg some here.symm), same]
  cases moves <;> first | rfl | exact apart different rfl

theorem run_elsewhere {actions : List Action} (ran : actions.foldlM step runner = some after)
    {other : Thread} (different : ∀ action ∈ actions, caller action ≠ some other) :
    after.control other = runner.control other := by
  induction actions generalizing runner with
  | nil =>
    obtain rfl := Option.some.inj ran
    rfl
  | cons action actions ih =>
    obtain ⟨here, later⟩ := List.forall_mem_cons.mp different
    cases taken : runner.step action with
    | none => simp [taken] at ran
    | some next =>
      have rest : actions.foldlM step next = some after := by simpa [taken] using ran
      exact (ih rest later).trans ((step_moves taken).elsewhere here)

end Runner
end MarketLab.Runtime

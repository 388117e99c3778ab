import MarketLab.Runtime.Lifecycle

/-!
# A stopped runner stays stopped

A claim of `accepting` after a `stop` has taken it, and a test of the worker between a claim and
the assignment of its worker, are the two gaps; runs that hit neither are told by a condition on
their steps.
-/
namespace MarketLab.Runtime
open MarketLab.Control

/-- No part of a `start` or a `stop`. -/
def Control.elsewhere : Control → Prop
  | .idle | .push _ => True
  | _ => False

namespace Runner

/-- A `stop` tests `worker.joinable()` only while no `start` is between its claim and its
assignment. -/
def TestsInOrder (runner : Runner) : Action → Prop
  | .proceed thread =>
    runner.control thread = .testJoinable → ∀ other, ¬ (runner.control other).claiming
  | _ => True

def InOrder (runner : Runner) (action : Action) : Prop :=
  runner.ClaimsInOrder action ∧ runner.TestsInOrder action

/-- Once a `stop` that set `closed` has returned the runner does not run and every `start`
throws; a joinable worker is never assigned over; and at rest no worker is left joinable. -/
structure StaysStopped (runner : Runner) : Prop where
  stopped : runner.record.stopped = true →
    runner.running = false ∧ ∀ thread, runner.start thread = runner
  assigned : runner.terminated = false ∧
    ∀ thread worker, runner.control thread = .assignWorker worker → runner.worker = none
  settled : (∀ thread, (runner.control thread).elsewhere) → runner.accepting = false →
    runner.worker = none

/-- While a worker is held, or about to be, and the runner does not accept, a `stop` is on its way
to join it. -/
def Attended (runner : Runner) : Prop :=
  runner.accepting = false → runner.worker ≠ none ∨ (∃ thread, (runner.control thread).claiming) →
    ∃ thread, (runner.control thread).stopping

variable {runner after changed : Runner} {action : Action} {thread : Thread} {control : Control}

theorem Lifecycle.staysStopped (life : runner.Lifecycle) (attended : runner.Attended) :
    runner.StaysStopped where
  stopped stopped := by
    have shut := life.stopped stopped
    exact ⟨life.closed shut, fun thread => if_pos shut⟩
  assigned := by
    refine ⟨life.alive, fun thread worker ready => (life.claiming thread ?_).1⟩
    rw [ready]
    rfl
  settled rest idle := by
    by_contra held
    obtain ⟨thread, stopping⟩ := attended idle (.inl held)
    have elsewhere := rest thread
    cases control : runner.control thread with
    | idle => rw [control] at stopping; cases stopping
    | push queued => rw [control] at stopping; cases stopping
    | _ => rw [control] at elsewhere; exact elsewhere

/-- Another thread's `stop` is still in progress. -/
theorem still_stopping (stopping : ∃ other, (runner.control other).stopping = true)
    (same : changed.control = runner.control) (mine : (runner.control thread).stopping = false) :
    ∃ other, ((changed.goto thread control).control other).stopping = true := by
  obtain ⟨other, busy⟩ := stopping
  refine ⟨other, ?_⟩
  rw [goto_control, same]
  split_ifs with here
  · rw [here, mine] at busy
    cases busy
  · exact busy

theorem goes_on_stopping (stopping : control.stopping = true) :
    ∃ other, ((changed.goto thread control).control other).stopping = true :=
  ⟨thread, by rw [goto_control, if_pos rfl]; exact stopping⟩

theorem Attended.frame (attended : runner.Attended) (accepting : after.accepting = runner.accepting)
    (worker : after.worker = runner.worker) (aside : runner.Aside after) : after.Attended := by
  simpa only [Attended, accepting, worker, aside.stopping, aside.claiming] using attended

theorem Attended.step (attended : runner.Attended) (life : runner.Lifecycle)
    (order : runner.InOrder action) (moves : runner.Moves action after) : after.Attended := by
  cases moves with
  | claimed thread ready unclaimed => intro idle; cases idle
  | spawned thread ready =>
    have mine : (runner.control thread).claiming = true := by rw [ready]; rfl
    have waiting : (runner.control thread).stopping = false := by rw [ready]; rfl
    exact fun idle _ => still_stopping (attended idle (.inr ⟨thread, mine⟩)) rfl waiting
  | terminated thread worker ready taken => exact attended
  | assigned thread worker ready free =>
    have mine : (runner.control thread).claiming = true := by rw [ready]; rfl
    have waiting : (runner.control thread).stopping = false := by rw [ready]; rfl
    exact fun idle _ => still_stopping (attended idle (.inr ⟨thread, mine⟩)) rfl waiting
  | stopping thread ready accepted => exact fun _ _ => goes_on_stopping rfl
  | closed thread ready => exact fun _ _ => goes_on_stopping rfl
  | queueClosed thread ready => exact fun _ _ => goes_on_stopping rfl
  | joining thread ready taken => exact fun _ _ => goes_on_stopping rfl
  | unjoined thread ready free =>
    rintro - (held | ⟨other, claiming⟩)
    · exact absurd free held
    · rw [goto_control] at claiming
      split_ifs at claiming
      · cases claiming
      · exact absurd claiming (order.2 ready other)
  | joined thread ready worker taken finished =>
    rintro - (held | ⟨other, claiming⟩)
    · exact absurd rfl held
    · rw [goto_control] at claiming
      split_ifs at claiming
      · cases claiming
      · exact absurd (life.claiming other claiming).1 (by rw [taken]; exact nofun)
  | threw thread ready => exact attended.frame rfl rfl (life.threw_aside ready)
  | started thread ready opened =>
    exact attended.frame rfl rfl (aside_goto rfl (by rw [ready]; exact ⟨rfl, rfl⟩) ⟨rfl, rfl⟩)
  | issued thread request ready accepted =>
    exact attended.frame rfl rfl (aside_goto rfl (by rw [ready]; exact ⟨rfl, rfl⟩) ⟨rfl, rfl⟩)
  | pushed thread queued commands ready opened still items =>
    exact attended.frame rfl rfl (aside_goto rfl (by rw [ready]; exact ⟨rfl, rfl⟩) ⟨rfl, rfl⟩)
  | _ => exact attended

theorem Attended.initial (commandCapacity : Nat) : (make commandCapacity).Attended := by
  rintro - (held | ⟨thread, claiming⟩)
  · exact absurd rfl held
  · cases claiming

/-- Interleavings of any calls from any threads, unless a `start` claims `accepting` after a
`stop` took it or a `stop` tests the worker while a `start` is about to assign it, leave a
stopped runner stopped. -/
theorem stopped_stays_stopped (commandCapacity : Nat) (runner : Runner)
    (reached : Reachable step InOrder (make commandCapacity) runner) : runner.StaysStopped := by
  have kept : runner.Lifecycle ∧ runner.Attended :=
    reached.invariant (fun runner => runner.Lifecycle ∧ runner.Attended)
      ⟨Lifecycle.initial commandCapacity, Attended.initial commandCapacity⟩
      fun _ _ _ order taken ⟨life, attended⟩ =>
        ⟨life.step order.1 (step_moves taken), attended.step life order (step_moves taken)⟩
  exact kept.1.staysStopped kept.2

/-- One `start` and one `stop`, in order. -/
theorem stopped_stays_stopped_after_one_stop :
    ∃ runner, Reachable step InOrder (make 1) runner ∧ runner.record.stopped = true ∧
      runner.StaysStopped := by
  have begun : Reachable step InOrder (make 1) _ :=
    .step .start (show InOrder _ (.start 0) from ⟨trivial, trivial⟩) rfl
  have claimed : Reachable step InOrder (make 1) _ :=
    .step begun (show InOrder _ (.proceed 0) from ⟨fun _ _ => ⟨rfl, fun other => by
      rw [start, if_neg (by decide), goto_control]
      split_ifs <;> exact nofun⟩, nofun⟩) rfl
  have spawned : Reachable step InOrder (make 1) _ :=
    .step claimed (show InOrder _ (.proceed 0) from ⟨nofun, nofun⟩) rfl
  have assigned : Reachable step InOrder (make 1) _ :=
    .step spawned (show InOrder _ (.proceed 0) from ⟨nofun, nofun⟩) rfl
  have stopping : Reachable step InOrder (make 1) _ :=
    .step assigned (show InOrder _ (.stop 0) from ⟨trivial, trivial⟩) rfl
  have closed : Reachable step InOrder (make 1) _ :=
    .step stopping (show InOrder _ (.proceed 0) from ⟨nofun, nofun⟩) rfl
  have queueClosed : Reachable step InOrder (make 1) _ :=
    .step closed (show InOrder _ (.proceed 0) from ⟨nofun, nofun⟩) rfl
  have joining : Reachable step InOrder (make 1) _ :=
    .step queueClosed (show InOrder _ (.proceed 0) from ⟨nofun, fun _ other => by
      cases other <;> exact nofun⟩) rfl
  have drained : Reachable step InOrder (make 1) _ :=
    .step joining (show InOrder _ (.work 0) from ⟨trivial, trivial⟩) rfl
  have stopped : Reachable step InOrder (make 1) _ :=
    .step drained (show InOrder _ (.proceed 0) from ⟨nofun, nofun⟩) rfl
  exact ⟨_, stopped, rfl, stopped_stays_stopped 1 _ stopped⟩

/-- A `start` that read `closed` before a whole `stop` claims the runner after it. -/
def startAcrossStop : List Action :=
  [.start 1, .start 0, .proceed 0, .proceed 0, .proceed 0, .stop 0, .proceed 0, .proceed 0, .work 0,
    .proceed 0, .proceed 0, .proceed 1]

/-- It claims the runner, and assigns its worker, before the `stop` has joined the first one. -/
def startWithinStop : List Action :=
  [.start 1, .start 0, .proceed 0, .proceed 0, .proceed 0, .stop 0, .proceed 1, .proceed 1, .proceed 1]

/-- A whole `stop` between a `start`'s claim and its assignment finds nothing to join. -/
def stopWithinStart : List Action :=
  [.start 0, .proceed 0, .stop 1, .proceed 1, .proceed 1, .proceed 1, .proceed 0, .proceed 0]

/-- Out of order a runner accepts again after a `stop` has returned, a joinable worker is assigned
over, and a stopped runner is left with a joinable worker. -/
theorem stopped_runner_restarts :
    (∃ runner, Reachable step (fun _ _ => True) (make 1) runner ∧
      runner.record.stopped = true ∧ runner.running = true) ∧
    (∃ runner, Reachable step (fun _ _ => True) (make 1) runner ∧ runner.terminated = true) ∧
    ∃ runner, Reachable step (fun _ _ => True) (make 1) runner ∧
      (∀ thread, (runner.control thread).elsewhere) ∧ runner.accepting = false ∧
        runner.worker ≠ none := by
  have reach : ∀ (actions : List Action) {runner : Runner},
      actions.foldlM step (make 1) = some runner →
        Reachable step (fun _ _ => True) (make 1) runner :=
    fun _ _ ran => Reachable.start.run (fun _ _ _ => trivial) ran
  have ran : stopWithinStart.foldlM step (make 1) = some _ := rfl
  refine ⟨⟨_, reach startAcrossStop rfl, rfl, rfl⟩, ⟨_, reach startWithinStop rfl, rfl⟩,
    ⟨_, reach stopWithinStart ran, fun thread => ?_, rfl, nofun⟩⟩
  match thread with
  | 0 => trivial
  | 1 => trivial
  | other + 2 =>
    rw [run_elsewhere ran (by simp [stopWithinStart, caller])]
    trivial

end Runner
end MarketLab.Runtime

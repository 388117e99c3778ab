import MarketLab.Runtime.RunnerSteps

/-!
# Starting and stopping

`start` reads `closed` and claims `accepting` in two steps. While no claim comes after a `stop`
has taken `accepting`, there is one claim in a run, and one `stop` that shuts the runner down.
-/
namespace MarketLab.Runtime
open MarketLab.Control

/-- A call of `stop` that has taken `accepting`. -/
@[grind] def Control.stopping : Control → Bool
  | .idle => false
  | .compareAccepting => false
  | .spawnWorker => false
  | .assignWorker _ => false
  | .setClosed => true
  | .closeQueue => true
  | .testJoinable => true
  | .join => true
  | .push _ => false

/-- A call of `start` that has claimed `accepting` and not assigned the worker yet. -/
@[grind] def Control.claiming : Control → Bool
  | .idle => false
  | .compareAccepting => false
  | .spawnWorker => true
  | .assignWorker _ => true
  | .setClosed => false
  | .closeQueue => false
  | .testJoinable => false
  | .join => false
  | .push _ => false

namespace Runner

/-- No `stop` has taken `accepting` yet. -/
def Unstopped (runner : Runner) : Prop :=
  runner.closed = false ∧ ∀ thread, runner.control thread ≠ .setClosed

/-- A `start` claims `accepting` only while no `stop` has taken it. -/
def ClaimsInOrder (runner : Runner) : Action → Prop
  | .proceed thread =>
    runner.control thread = .compareAccepting → runner.accepting = false → runner.Unstopped
  | _ => True

/-- A `start` has claimed `accepting`, and if it was taken since, that is to be seen. -/
def Claimed (runner : Runner) : Prop :=
  runner.accepting = true ∨ ¬ runner.Unstopped

/-- Where the calls of `start` and `stop` stand. -/
structure Lifecycle (runner : Runner) : Prop where
  stopping : ∀ thread, (runner.control thread).stopping → runner.accepting = false ∧
    (runner.control thread = .setClosed ∨ runner.closed = true) ∧
    (runner.control thread = .join → runner.worker ≠ none) ∧
    ∀ other, (runner.control other).stopping → other = thread
  claiming : ∀ thread, (runner.control thread).claiming → runner.worker = none ∧
    ∀ other, (runner.control other).claiming → other = thread
  closed : runner.closed = true → runner.accepting = false
  stopped : runner.record.stopped = true → runner.closed = true
  claimed : runner.worker ≠ none ∨ (∃ thread, (runner.control thread).claiming) → runner.Claimed
  alive : runner.terminated = false

variable {runner after : Runner} {action : Action}

theorem Claimed.goto {changed : Runner} {thread : Thread} {control : Control}
    (claimed : runner.Claimed) (accepting : changed.accepting = runner.accepting)
    (closed : changed.closed = runner.closed) (same : changed.control = runner.control)
    (ready : runner.control thread ≠ .setClosed) : (changed.goto thread control).Claimed := by
  refine claimed.imp (accepting ▸ id) fun taken unstopped => taken ⟨closed ▸ unstopped.1, ?_⟩
  exact fun other there => unstopped.2 other (goto_of_control same ready there)

/-- A runner is claimed once and for all. -/
theorem Claimed.step (claimed : runner.Claimed) (moves : runner.Moves action after) :
    after.Claimed := by
  cases moves with
  | claimed thread ready unclaimed => exact .inl rfl
  | stopping thread ready accepted =>
    exact .inr fun unstopped => unstopped.2 thread (by rw [goto_control, if_pos rfl])
  | closed thread ready => exact .inr fun unstopped => nomatch unstopped.1
  | spawned thread ready | assigned thread worker ready | started thread ready
  | queueClosed thread ready | joining thread ready | unjoined thread ready
  | joined thread ready | issued thread request ready | pushed thread queued commands ready =>
    exact claimed.goto rfl rfl rfl (by rw [ready]; exact nofun)
  | threw thread ready =>
    refine claimed.goto rfl rfl rfl ?_
    rcases ready with ⟨ready, -⟩ | ⟨ready, -⟩ | ⟨queued, ready, -⟩ <;> rw [ready] <;> exact nofun
  | declined | terminated | drained | popped | answered => exact claimed

/-- Every call of `start` and `stop` stands where it stood. -/
def Aside (runner after : Runner) : Prop :=
  ∀ thread, after.control thread = runner.control thread ∨
    ((runner.control thread).stopping = false ∧ (runner.control thread).claiming = false) ∧
      (after.control thread).stopping = false ∧ (after.control thread).claiming = false

theorem Aside.stopping (aside : runner.Aside after) (thread : Thread) :
    (after.control thread).stopping = (runner.control thread).stopping := by
  rcases aside thread with same | ⟨⟨before, -⟩, later, -⟩
  · rw [same]
  · rw [before, later]

theorem Aside.claiming (aside : runner.Aside after) (thread : Thread) :
    (after.control thread).claiming = (runner.control thread).claiming := by
  rcases aside thread with same | ⟨⟨-, before⟩, -, later⟩
  · rw [same]
  · rw [before, later]

/-- A call that is no part of a `start` or a `stop` goes on to another such place. -/
theorem aside_goto {changed : Runner} {thread : Thread} {control : Control}
    (same : changed.control = runner.control)
    (before : (runner.control thread).stopping = false ∧ (runner.control thread).claiming = false)
    (later : control.stopping = false ∧ control.claiming = false) :
    runner.Aside (changed.goto thread control) := by
  intro other
  rw [goto_control, same]
  split_ifs with here
  · exact .inr ⟨here ▸ before, later⟩
  · exact .inl rfl

theorem Lifecycle.frame (life : runner.Lifecycle) (accepting : after.accepting = runner.accepting)
    (closed : after.closed = runner.closed) (worker : after.worker = runner.worker)
    (stopped : after.record.stopped = runner.record.stopped)
    (terminated : after.terminated = runner.terminated) (aside : runner.Aside after)
    (moves : runner.Moves action after) : after.Lifecycle := by
  have stands : ∀ thread, (runner.control thread).stopping = true →
      after.control thread = runner.control thread := by
    intro thread busy
    rcases aside thread with same | ⟨⟨before, -⟩, -⟩
    · exact same
    · exact absurd (before.symm.trans busy) (by decide)
  constructor
  · intro thread busy
    rw [aside.stopping] at busy
    simp only [aside.stopping, accepting, closed, worker, stands thread busy]
    exact life.stopping thread busy
  · simpa only [aside.claiming, worker] using life.claiming
  · simpa only [closed, accepting] using life.closed
  · simpa only [stopped, closed] using life.stopped
  · intro held
    simp only [aside.claiming, worker] at held
    exact (life.claimed held).step moves
  · exact terminated.trans life.alive

/-- No call of `start` or `stop` that has claimed or taken `accepting` throws. -/
theorem Lifecycle.threw_aside (life : runner.Lifecycle) {thread : Thread}
    (ready : runner.control thread = .compareAccepting ∧ runner.accepting = true ∨
      runner.control thread = .join ∧ runner.worker = none ∨
      ∃ queued, runner.control thread = .push queued ∧ runner.commands.closed = true) :
    runner.Aside (runner.goto thread .idle) := by
  refine aside_goto rfl ?_ ⟨rfl, rfl⟩
  rcases ready with ⟨ready, -⟩ | ⟨ready, free⟩ | ⟨queued, ready, -⟩
  · rw [ready]; exact ⟨rfl, rfl⟩
  · have mine : (runner.control thread).stopping = true := by rw [ready]; rfl
    exact absurd free ((life.stopping thread mine).2.2.1 ready)
  · rw [ready]; exact ⟨rfl, rfl⟩

section Goes
variable {changed : Runner} {thread : Thread} {control : Control}

/-- The `start` that claimed the runner goes on, and stops claiming it when it is done. -/
theorem Lifecycle.claim_goes_on (life : runner.Lifecycle)
    (mine : (runner.control thread).claiming = true) (same : changed.control = runner.control)
    (accepting : changed.accepting = runner.accepting) (closed : changed.closed = runner.closed)
    (stopped : changed.record.stopped = runner.record.stopped)
    (terminated : changed.terminated = runner.terminated)
    (worker : control.claiming = true → changed.worker = none) (unstopping : control.stopping = false)
    (claimed : (changed.goto thread control).Claimed) : (changed.goto thread control).Lifecycle := by
  have stops : ∀ {other : Thread}, ((changed.goto thread control).control other).stopping = true →
      other ≠ thread ∧ (runner.control other).stopping = true := by
    intro other busy
    rw [goto_control, same] at busy
    split_ifs at busy with here
    · exact absurd (unstopping.symm.trans busy) (by decide)
    · exact ⟨here, busy⟩
  have claims : ∀ {other : Thread}, ((changed.goto thread control).control other).claiming = true →
      other = thread ∧ control.claiming = true := by
    intro other holds
    rw [goto_control, same] at holds
    split_ifs at holds with here
    · exact ⟨here, holds⟩
    · exact absurd ((life.claiming thread mine).2 other holds) here
  refine ⟨fun other busy => ?_, fun other holds => ?_, ?_, ?_, fun _ => claimed,
    terminated.trans life.alive⟩
  · obtain ⟨apart, before⟩ := stops busy
    obtain ⟨idle, taken, waits, alone⟩ := life.stopping other before
    rw [goto_control, if_neg apart, same, goto_accepting, goto_closed, accepting, closed]
    exact ⟨idle, taken, fun joins => absurd (life.claiming thread mine).1 (waits joins),
      fun another there => alone another (stops there).2⟩
  · obtain ⟨here, holding⟩ := claims holds
    exact ⟨worker holding, fun another there => (claims there).1.trans here.symm⟩
  · rw [goto_closed, goto_accepting, closed, accepting]
    exact life.closed
  · rw [goto_record, goto_closed, stopped, closed]
    exact life.stopped

/-- The `stop` that took `accepting` goes on, behind its setting of `closed`. -/
theorem Lifecycle.stop_goes_on (life : runner.Lifecycle)
    (mine : (runner.control thread).stopping = true) (same : changed.control = runner.control)
    (accepting : changed.accepting = runner.accepting) (shut : changed.closed = true)
    (worker : changed.worker = runner.worker ∨ changed.worker = none)
    (terminated : changed.terminated = runner.terminated)
    (waits : control = .join → changed.worker ≠ none) (unclaiming : control.claiming = false)
    (claimed : (changed.goto thread control).Claimed) : (changed.goto thread control).Lifecycle := by
  have idle : changed.accepting = false := accepting.trans (life.stopping thread mine).1
  have alone : ∀ {other : Thread}, ((changed.goto thread control).control other).stopping = true →
      other = thread := by
    intro other busy
    rw [goto_control, same] at busy
    split_ifs at busy with here
    · exact here
    · exact (life.stopping thread mine).2.2.2 other busy
  have claims : ∀ {other : Thread}, ((changed.goto thread control).control other).claiming = true →
      (runner.control other).claiming = true := by
    intro other holds
    rw [goto_control, same] at holds
    split_ifs at holds
    · exact absurd (unclaiming.symm.trans holds) (by decide)
    · exact holds
  refine ⟨fun other busy => ?_, fun other holds => ?_, fun _ => idle, fun _ => shut,
    fun _ => claimed, terminated.trans life.alive⟩
  · have here := alone busy
    refine ⟨idle, .inr shut, fun joins => ?_, fun another there => (alone there).trans here.symm⟩
    rw [goto_control, if_pos here] at joins
    exact waits joins
  · obtain ⟨free, unique⟩ := life.claiming other (claims holds)
    refine ⟨?_, fun another there => unique another (claims there)⟩
    rcases worker with unchanged | none
    · exact unchanged.trans free
    · exact none

/-- A `stop` in progress that is not about to set `closed` has set it. -/
theorem Lifecycle.behind_closed (life : runner.Lifecycle)
    (mine : (runner.control thread).stopping = true)
    (behind : runner.control thread ≠ .setClosed) :
    (runner.control thread).stopping = true ∧ runner.closed = true ∧ runner.Claimed := by
  have shut := (life.stopping thread mine).2.1.resolve_left behind
  refine ⟨mine, shut, .inr fun unstopped => ?_⟩
  exact absurd (unstopped.1.symm.trans shut) (by decide)

end Goes

theorem Lifecycle.step (life : runner.Lifecycle) (order : runner.ClaimsInOrder action)
    (moves : runner.Moves action after) : after.Lifecycle := by
  have kept := fun claimed : runner.Claimed => claimed.step moves
  cases moves with
  | claimed thread ready unclaimed =>
    have unstopped := order ready unclaimed
    have fresh : ¬ runner.Claimed := fun held =>
      held.elim (by rw [unclaimed]; exact nofun) (· unstopped)
    have nobody : ∀ other, ¬ (runner.control other).stopping = true := fun other busy =>
      (life.stopping other busy).2.1.elim (unstopped.2 other) (by rw [unstopped.1]; exact nofun)
    have free : runner.worker = none := by_contra fun held => fresh (life.claimed (.inl held))
    have unheld : ∀ other, ¬ (runner.control other).claiming = true := fun other holds =>
      fresh (life.claimed (.inr ⟨other, holds⟩))
    refine ⟨by grind, by grind, fun shut => ?_, life.stopped, fun _ => .inl rfl, life.alive⟩
    exact absurd (unstopped.1.symm.trans shut) (by decide)
  | spawned thread ready =>
    have mine : (runner.control thread).claiming = true := by rw [ready]; rfl
    exact life.claim_goes_on mine rfl rfl rfl rfl rfl (fun _ => (life.claiming thread mine).1) rfl
      (kept (life.claimed (.inr ⟨thread, mine⟩)))
  | terminated thread worker ready taken =>
    have mine : (runner.control thread).claiming = true := by rw [ready]; rfl
    exact absurd (life.claiming thread mine).1 taken
  | assigned thread worker ready free =>
    have mine : (runner.control thread).claiming = true := by rw [ready]; rfl
    exact life.claim_goes_on mine rfl rfl rfl rfl rfl nofun rfl
      (kept (life.claimed (.inr ⟨thread, mine⟩)))
  | stopping thread ready accepted =>
    have nobody : ∀ other, ¬ (runner.control other).stopping = true := fun other busy =>
      absurd ((life.stopping other busy).1.symm.trans accepted) (by decide)
    have unheld : (runner.control thread).claiming = false := by rw [ready]; rfl
    have claiming := life.claiming
    refine ⟨by grind, by grind, fun _ => rfl, life.stopped, fun _ => kept (.inl accepted), life.alive⟩
  | closed thread ready =>
    have mine : (runner.control thread).stopping = true := by rw [ready]; rfl
    exact life.stop_goes_on mine rfl rfl rfl (.inl rfl) rfl nofun rfl
      (kept (.inr fun unstopped => unstopped.2 thread ready))
  | queueClosed thread ready =>
    obtain ⟨mine, shut, taken⟩ := life.behind_closed (by rw [ready]; rfl) (by rw [ready]; exact nofun)
    exact life.stop_goes_on mine rfl rfl shut (.inl rfl) rfl nofun rfl (kept taken)
  | joining thread ready held =>
    obtain ⟨mine, shut, taken⟩ := life.behind_closed (by rw [ready]; rfl) (by rw [ready]; exact nofun)
    exact life.stop_goes_on mine rfl rfl shut (.inl rfl) rfl (fun _ => held) rfl (kept taken)
  | unjoined thread ready free =>
    obtain ⟨mine, shut, taken⟩ := life.behind_closed (by rw [ready]; rfl) (by rw [ready]; exact nofun)
    exact life.stop_goes_on mine rfl rfl shut (.inl rfl) rfl nofun rfl (kept taken)
  | joined thread ready worker held finished =>
    obtain ⟨mine, shut, taken⟩ := life.behind_closed (by rw [ready]; rfl) (by rw [ready]; exact nofun)
    exact life.stop_goes_on mine rfl rfl shut (.inr rfl) rfl nofun rfl (kept taken)
  | declined => exact life
  | threw thread ready =>
    exact life.frame rfl rfl rfl rfl rfl (life.threw_aside ready) (.threw thread ready)
  | started thread ready opened =>
    exact life.frame rfl rfl rfl rfl rfl (aside_goto rfl (by rw [ready]; exact ⟨rfl, rfl⟩) ⟨rfl, rfl⟩)
      (.started thread ready opened)
  | issued thread request ready accepted =>
    exact life.frame rfl rfl rfl rfl rfl (aside_goto rfl (by rw [ready]; exact ⟨rfl, rfl⟩) ⟨rfl, rfl⟩)
      (.issued thread request ready accepted)
  | pushed thread queued commands ready opened still items =>
    exact life.frame rfl rfl rfl rfl rfl (aside_goto rfl (by rw [ready]; exact ⟨rfl, rfl⟩) ⟨rfl, rfl⟩)
      (.pushed thread queued commands ready opened still items)
  | drained worker ready shut empty =>
    exact life.frame rfl rfl rfl rfl rfl (fun _ => .inl rfl) (.drained worker ready shut empty)
  | popped worker ready queued commands items same =>
    exact life.frame rfl rfl rfl rfl rfl (fun _ => .inl rfl)
      (.popped worker ready queued commands items same)
  | answered worker queued ready =>
    exact life.frame rfl rfl rfl rfl rfl (fun _ => .inl rfl) (.answered worker queued ready)

theorem Lifecycle.initial (commandCapacity : Nat) : (make commandCapacity).Lifecycle where
  stopping _ := (nomatch ·)
  claiming _ := (nomatch ·)
  closed := (nomatch ·)
  stopped := (nomatch ·)
  claimed held := by
    rcases held with held | ⟨thread, claiming⟩
    · exact absurd rfl held
    · cases claiming
  alive := rfl

/-! ## One start -/

/-- `start` is called once. -/
def OneStart (runner : Runner) : Action → Prop
  | .start _ => runner.record.starts = 0
  | _ => True

/-- The one `start` has not been called, or it is in front of its claim, or nobody is. -/
structure Once (runner : Runner) : Prop where
  uncalled : runner.record.starts = 0 → ∀ thread, runner.control thread ≠ .compareAccepting
  unique : ∀ thread other, runner.control thread = .compareAccepting →
    runner.control other = .compareAccepting → other = thread
  fresh : runner.record.starts = 0 ∨ (∃ thread, runner.control thread = .compareAccepting) →
    ¬ runner.Claimed

theorem Claimed.of_goto {changed : Runner} {thread : Thread} {control : Control}
    (claimed : (changed.goto thread control).Claimed)
    (accepting : changed.accepting = runner.accepting) (closed : changed.closed = runner.closed)
    (same : changed.control = runner.control) (unlike : control ≠ .setClosed) : runner.Claimed := by
  refine claimed.imp (accepting ▸ id) fun taken unstopped => taken ⟨closed ▸ unstopped.1, ?_⟩
  exact fun other there => unstopped.2 other (control_of_goto there same unlike)

/-- A step after which no other thread is in front of a claim. -/
theorem Once.frame (once : runner.Once) (starts : after.record.starts = runner.record.starts)
    (waiting : ∀ thread, after.control thread = .compareAccepting →
      runner.control thread = .compareAccepting)
    (claimed : after.Claimed → runner.Claimed) : after.Once where
  uncalled none thread there := once.uncalled (starts ▸ none) thread (waiting thread there)
  unique thread other there here := once.unique thread other (waiting _ there) (waiting _ here)
  fresh either held := once.fresh
    (either.imp (starts ▸ id) fun ⟨thread, there⟩ => ⟨thread, waiting thread there⟩) (claimed held)

theorem Once.step (once : runner.Once) (order : runner.OneStart action)
    (moves : runner.Moves action after) : after.Once := by
  cases moves with
  | started thread ready opened =>
    have nobody := once.uncalled order
    have here : ∀ {other : Thread}, ({ runner with
        record := { runner.record with starts := runner.record.starts + 1 } }.goto thread
          .compareAccepting).control other = .compareAccepting → other = thread := by
      intro other there
      rw [goto_control] at there
      split_ifs at there with same
      · exact same
      · exact absurd there (nobody other)
    refine ⟨nofun, fun _ _ there same => (here same).trans (here there).symm, fun _ held => ?_⟩
    exact once.fresh (.inl order) (held.of_goto rfl rfl rfl nofun)
  | claimed thread ready unclaimed =>
    have nobody : ∀ {other : Thread}, ({ runner with accepting := true }.goto thread
        .spawnWorker).control other ≠ .compareAccepting := by
      intro other there
      have same := once.unique thread other ready (control_of_goto there rfl nofun)
      rw [goto_control, if_pos same] at there
      cases there
    refine ⟨fun _ _ => nobody, fun _ _ there => absurd there nobody, fun either => ?_⟩
    rcases either with none | ⟨other, there⟩
    · exact absurd ready (once.uncalled none thread)
    · exact absurd there nobody
  | stopping thread ready accepted =>
    exact once.frame rfl (fun _ there => control_of_goto there rfl nofun) fun _ => .inl accepted
  | closed thread ready =>
    exact once.frame rfl (fun _ there => control_of_goto there rfl nofun)
      fun _ => .inr fun unstopped => unstopped.2 thread ready
  | spawned | assigned | queueClosed | joining | unjoined | joined | threw | issued | pushed =>
    exact once.frame rfl (fun _ there => control_of_goto there rfl nofun)
      (·.of_goto rfl rfl rfl nofun)
  | declined | terminated | drained | popped | answered =>
    exact once.frame rfl (fun _ there => there) fun held => held

theorem Once.claims_in_order (once : runner.Once) (action : Action) :
    runner.ClaimsInOrder action := by
  cases action with
  | proceed thread =>
    intro ready _
    by_contra taken
    exact once.fresh (.inr ⟨thread, ready⟩) (.inr taken)
  | _ => trivial

/-- With one `start`, and any number of `stop`s and requests, claims are in order. -/
theorem claims_in_order_of_one_start {commandCapacity : Nat}
    (reached : Reachable step OneStart (make commandCapacity) runner) :
    Reachable step ClaimsInOrder (make commandCapacity) runner ∧ runner.Once := by
  induction reached with
  | start =>
    refine ⟨.start, ⟨fun _ _ => (nomatch ·), fun _ _ => (nomatch ·), fun _ held => ?_⟩⟩
    exact held.elim nofun (· ⟨rfl, fun _ => (nomatch ·)⟩)
  | step reached order taken ih =>
    obtain ⟨inOrder, once⟩ := ih
    exact ⟨.step inOrder (once.claims_in_order _) taken, once.step order (step_moves taken)⟩

end Runner
end MarketLab.Runtime

import Mathlib.Algebra.BigOperators.Group.Finset.Basic
import MarketLab.Runtime.Linearizable

/-!
# Every call ends

Calls wait for room in the queue and for the worker, and the worker waits for commands. In whatever
order the threads go on, the calls in progress and the workers make finitely many steps without a
new call, and they cannot all wait for each other.
-/
namespace MarketLab.Runtime
open MarketLab.Collections MarketLab.Control

/-- The steps of a call still to come, with those of the command it pushes or the worker it
spawns. -/
def Control.remaining : Control → Nat
  | .idle => 0
  | .compareAccepting => 4
  | .spawnWorker => 3
  | .assignWorker _ => 1
  | .setClosed => 4
  | .closeQueue => 3
  | .testJoinable => 2
  | .join => 1
  | .push _ => 3

def Worker.remaining : Worker → Nat
  | .popping => 1
  | .processing _ => 2
  | .finished => 0

/-- About to join the worker, if there is one. -/
def Control.Joins (control : Control) : Prop := control = .testJoinable ∨ control = .join

/-- An action that begins no call. -/
def Action.Continues : Action → Prop
  | .start _ => False
  | .stop _ => False
  | .issue _ _ => False
  | .proceed _ => True
  | .work _ => True

/-- A thread among others, and the others with something in its place. -/
theorem split_of_getElem? {α : Type} {items : List α} {n : Nat} {item : α} (there : items[n]? = some item) :
    ∃ front back, items = front ++ item :: back ∧ ∀ other, items.set n other = front ++ other :: back := by
  obtain ⟨bound, rfl⟩ := List.getElem?_eq_some_iff.mp there
  refine ⟨items.take n, items.drop (n + 1), ?_, fun other => ?_⟩
  · rw [← List.drop_eq_getElem_cons bound, List.take_append_drop]
  · rw [List.set_eq_take_append_cons_drop, if_pos bound]

namespace Runner

/-- The steps of the workers still to come. -/
def working (runner : Runner) : Nat :=
  (runner.threads.map Worker.remaining).sum + 2 * runner.commands.items.length

/-- The steps still to come while no call begins, with these threads in calls. -/
def remaining (callers : Finset Thread) (runner : Runner) : Nat :=
  if runner.terminated then 0
  else ∑ thread ∈ callers, (runner.control thread).remaining + runner.working + 1

/-- No other threads are in calls. -/
def Within (callers : Finset Thread) (runner : Runner) : Prop :=
  ∀ thread, runner.control thread ≠ .idle → thread ∈ callers

variable {runner after changed : Runner} {action : Action} {thread : Thread} {control : Control}
variable {callers : Finset Thread}

/-! ## The steps to come -/

theorem sum_goto (control : Control) (same : changed.control = runner.control) (member : thread ∈ callers) :
    ∑ other ∈ callers, ((changed.goto thread control).control other).remaining +
        (runner.control thread).remaining =
      ∑ other ∈ callers, (runner.control other).remaining + control.remaining := by
  have others : ∑ other ∈ callers.erase thread, ((changed.goto thread control).control other).remaining =
      ∑ other ∈ callers.erase thread, (runner.control other).remaining := by
    apply Finset.sum_congr rfl
    intro other inside
    rw [goto_control, if_neg (Finset.ne_of_mem_erase inside), same]
  rw [← Finset.add_sum_erase callers _ member, others,
    ← Finset.add_sum_erase callers (fun other => (runner.control other).remaining) member,
    goto_control, if_pos rfl]
  omega

/-- A call goes on, and what it adds to the work is less than what it has done. -/
theorem remaining_goto (alive : runner.terminated = false) (within : runner.Within callers)
    (busy : runner.control thread ≠ .idle) (same : changed.control = runner.control)
    (terminated : changed.terminated = runner.terminated)
    (less : changed.working + control.remaining < runner.working + (runner.control thread).remaining) :
    (changed.goto thread control).remaining callers < runner.remaining callers := by
  have sums := sum_goto control same (within thread busy)
  have work : (changed.goto thread control).working = changed.working := rfl
  unfold remaining
  rw [goto_terminated, terminated, alive, work]
  simp only [Bool.false_eq_true, if_false]
  omega

theorem proceed_lowers (alive : runner.terminated = false) (within : runner.Within callers)
    (taken : runner.proceed thread = some after) :
    after.remaining callers < runner.remaining callers := by
  have lowers : ∀ {changed : Runner} {control : Control}, runner.control thread ≠ .idle →
      changed.control = runner.control → changed.terminated = runner.terminated →
      changed.working + control.remaining < runner.working + (runner.control thread).remaining →
      (changed.goto thread control).remaining callers < runner.remaining callers :=
    fun busy same terminated less => remaining_goto alive within busy same terminated less
  unfold proceed at taken
  split at taken
  next => cases taken
  next ready =>
    split_ifs at taken with accepted <;> obtain rfl := Option.some.inj taken
    · exact lowers (by simp [ready]) rfl rfl (by simp [ready, Control.remaining])
    · exact lowers (by simp [ready]) rfl rfl (by simp [ready, Control.remaining, working])
  next ready =>
    obtain rfl := Option.some.inj taken
    refine lowers (by simp [ready]) rfl rfl ?_
    simp only [ready, working, List.map_append, List.sum_append, List.map_singleton, List.sum_singleton,
      Control.remaining, Worker.remaining]
    omega
  next worker ready =>
    split_ifs at taken with held <;> obtain rfl := Option.some.inj taken
    · unfold remaining
      rw [alive]
      simp only [if_true, Bool.false_eq_true, if_false]
      omega
    · exact lowers (by simp [ready]) rfl rfl (by simp [ready, Control.remaining, working])
  next ready =>
    obtain rfl := Option.some.inj taken
    exact lowers (by simp [ready]) rfl rfl (by simp [ready, Control.remaining, working])
  next ready =>
    obtain rfl := Option.some.inj taken
    exact lowers (by simp [ready]) rfl rfl
      (by simp [ready, Control.remaining, working, BlockingQueue.close])
  next ready =>
    split_ifs at taken with held <;> obtain rfl := Option.some.inj taken
    · exact lowers (by simp [ready]) rfl rfl (by simp [ready, Control.remaining])
    · exact lowers (by simp [ready]) rfl rfl (by simp [ready, Control.remaining, working])
  next ready =>
    split at taken
    next free =>
      obtain rfl := Option.some.inj taken
      exact lowers (by simp [ready]) rfl rfl (by simp [ready, Control.remaining])
    next worker held =>
      split_ifs at taken with finished
      obtain rfl := Option.some.inj taken
      exact lowers (by simp [ready]) rfl rfl (by simp [ready, Control.remaining, working])
  next queued ready =>
    split at taken
    next => cases taken
    next threw =>
      obtain rfl := Option.some.inj taken
      exact lowers (by simp [ready]) rfl rfl (by simp [ready, Control.remaining])
    next commands pushed =>
      obtain rfl := Option.some.inj taken
      obtain ⟨-, -, items⟩ := BlockingQueue.push_appended pushed
      refine lowers (by simp [ready]) rfl rfl ?_
      simp only [ready, working, items, List.length_append, List.length_singleton, Control.remaining]
      omega

/-- What a worker does is work that has been done. -/
theorem working_set {worker : Nat} {stands next : Worker} (commands : BlockingQueue Queued)
    (there : runner.threads[worker]? = some stands)
    (less : next.remaining + 2 * commands.items.length <
      stands.remaining + 2 * runner.commands.items.length) :
    ((runner.threads.set worker next).map Worker.remaining).sum + 2 * commands.items.length <
      runner.working := by
  obtain ⟨front, back, before, set⟩ := split_of_getElem? there
  unfold working
  rw [set, before]
  simp only [List.map_append, List.map_cons, List.sum_append, List.sum_cons]
  omega

theorem remaining_lowers (alive : runner.terminated = false)
    (terminated : changed.terminated = runner.terminated) (same : changed.control = runner.control)
    (less : changed.working < runner.working) :
    changed.remaining callers < runner.remaining callers := by
  unfold remaining
  rw [terminated, alive, same]
  simp only [Bool.false_eq_true, if_false]
  omega

theorem work_lowers (alive : runner.terminated = false) {worker : Nat}
    (taken : runner.work worker = some after) :
    after.remaining callers < runner.remaining callers := by
  unfold work at taken
  split at taken
  next => cases taken
  next => cases taken
  next ready =>
    split at taken
    next => cases taken
    next drained =>
      obtain rfl := Option.some.inj taken
      refine remaining_lowers alive rfl rfl (working_set runner.commands ready ?_)
      simp [Worker.remaining]
    next queued commands popped =>
      obtain rfl := Option.some.inj taken
      obtain ⟨items, -⟩ := BlockingQueue.waitAndPop_popped popped
      refine remaining_lowers alive rfl rfl (working_set commands ready ?_)
      simp only [items, List.length_cons, Worker.remaining]
      omega
  next queued ready =>
    obtain rfl := Option.some.inj taken
    refine remaining_lowers alive rfl rfl (working_set runner.commands ready ?_)
    simp [Worker.remaining]

theorem busy_of_proceed (taken : runner.step (.proceed thread) = some after) :
    runner.control thread ≠ .idle := by
  intro idle
  have waits : runner.proceed thread = none := by
    unfold proceed
    rw [idle]
  simp [step, waits] at taken

/-- A step that begins no call brings no other thread into one. -/
theorem Within.step (within : runner.Within callers) (continues : action.Continues)
    (taken : runner.step action = some after) : after.Within callers := by
  intro other busy
  by_cases caller : caller action = some other
  · cases action with
    | start => cases continues
    | stop => cases continues
    | issue => cases continues
    | proceed thread =>
      obtain rfl := Option.some.inj caller
      exact within thread (busy_of_proceed taken)
    | work worker => cases caller
  · rw [(step_moves taken).elsewhere caller] at busy
    exact within other busy

theorem step_lowers (continues : action.Continues) (taken : runner.step action = some after)
    (within : runner.Within callers) :
    after.Within callers ∧ after.remaining callers < runner.remaining callers := by
  refine ⟨within.step continues taken, ?_⟩
  unfold step at taken
  split_ifs at taken with terminated
  have alive := Bool.eq_false_iff.mpr terminated
  cases action with
  | start => cases continues
  | stop => cases continues
  | issue => cases continues
  | proceed thread => exact proceed_lowers alive within taken
  | work worker => exact work_lowers alive taken

/-- Only finitely many threads are in calls. -/
theorem exists_within {commandCapacity : Nat} {meets : Runner → Action → Prop}
    (reached : Reachable Runner.step meets (make commandCapacity) runner) :
    ∃ callers, runner.Within callers := by
  refine reached.invariant (fun runner => ∃ callers, runner.Within callers)
    ⟨∅, fun thread busy => absurd rfl busy⟩ ?_
  rintro before action after - taken ⟨callers, within⟩
  refine ⟨match caller action with | some thread => insert thread callers | none => callers, ?_⟩
  intro other busy
  have moves := step_moves taken
  cases called : caller action with
  | none =>
    rw [moves.elsewhere (by rw [called]; exact nofun)] at busy
    exact within other busy
  | some thread =>
    by_cases here : other = thread
    · exact here ▸ Finset.mem_insert_self _ _
    · rw [moves.elsewhere (by rw [called]; exact fun same => here (Option.some.inj same).symm)] at busy
      exact Finset.mem_insert_of_mem (within other busy)

/-! ## What never waits -/

/-- What a call has to wait for is there, or will be brought by somebody else. -/
structure Provided (runner : Runner) : Prop where
  closing : ∀ thread, (runner.control thread).Joins → runner.commands.closed = true
  handled : ∀ worker, runner.worker = some worker ∨
    (∃ thread, runner.control thread = .assignWorker worker) → worker < runner.threads.length
  finished : .finished ∈ runner.threads → runner.commands.closed = true ∧ runner.commands.items = []
  awaited : runner.Wanted → runner.Awaited

theorem joins_of_goto {other : Thread} (joins : ((changed.goto thread control).control other).Joins)
    (same : changed.control = runner.control) (apart : ¬control.Joins) :
    (runner.control other).Joins := by
  rw [goto_control, same] at joins
  split_ifs at joins
  · exact absurd joins apart
  · exact joins

theorem closing_step
    (closing : ∀ thread, (runner.control thread).Joins → runner.commands.closed = true)
    (moves : runner.Moves action after) :
    ∀ thread, (after.control thread).Joins → after.commands.closed = true := by
  intro other joins
  cases moves with
  | queueClosed => rfl
  | joining thread ready => exact closing thread (.inl ready)
  | pushed thread queued commands ready opened =>
    have before := closing other (joins_of_goto joins rfl (by rintro (same | same) <;> cases same))
    exact absurd (opened.symm.trans before) (by decide)
  | popped worker ready queued commands items same => exact same.trans (closing other joins)
  | declined | terminated | drained | answered => exact closing other joins
  | threw | started | claimed | spawned | assigned | stopping | closed | unjoined | joined | issued =>
    exact closing other (joins_of_goto joins rfl (by rintro (same | same) <;> cases same))

theorem handled_step
    (handled : ∀ worker, runner.worker = some worker ∨
      (∃ thread, runner.control thread = .assignWorker worker) → worker < runner.threads.length)
    (moves : runner.Moves action after) :
    ∀ worker, after.worker = some worker ∨ (∃ thread, after.control thread = .assignWorker worker) →
      worker < after.threads.length := by
  intro worker held
  cases moves with
  | spawned thread ready =>
    rw [goto_threads, List.length_append, List.length_singleton]
    rcases held with held | ⟨other, there⟩
    · exact Nat.lt_succ_of_lt (handled worker (.inl held))
    · rw [goto_control] at there
      split_ifs at there
      · obtain rfl := Control.assignWorker.inj there
        exact Nat.lt_succ_self _
      · exact Nat.lt_succ_of_lt (handled worker (.inr ⟨other, there⟩))
  | assigned thread assigned ready =>
    rcases held with held | ⟨other, there⟩
    · obtain rfl := Option.some.inj held
      exact handled _ (.inr ⟨thread, ready⟩)
    · exact handled worker (.inr ⟨other, control_of_goto there rfl nofun⟩)
  | joined thread =>
    rcases held with held | ⟨other, there⟩
    · cases held
    · exact handled worker (.inr ⟨other, control_of_goto there rfl nofun⟩)
  | declined | terminated => exact handled worker held
  | drained | popped | answered =>
    simp only [List.length_set]
    exact handled worker held
  | threw | started | claimed | stopping | closed | queueClosed | joining | unjoined | issued | pushed =>
    exact handled worker (held.imp_right fun ⟨other, there⟩ => ⟨other, control_of_goto there rfl nofun⟩)

theorem finished_step
    (finished : .finished ∈ runner.threads →
      runner.commands.closed = true ∧ runner.commands.items = [])
    (moves : runner.Moves action after) :
    .finished ∈ after.threads → after.commands.closed = true ∧ after.commands.items = [] := by
  intro member
  cases moves with
  | spawned thread ready =>
    rcases List.mem_append.mp member with old | new
    · exact finished old
    · cases List.mem_singleton.mp new
  | queueClosed thread ready => exact ⟨rfl, (finished member).2⟩
  | pushed thread queued commands ready opened =>
    exact absurd (opened.symm.trans (finished member).1) (by decide)
  | drained worker ready shut empty => exact ⟨shut, empty⟩
  | popped worker ready queued commands items =>
    have old := (List.mem_or_eq_of_mem_set member).resolve_right nofun
    exact absurd (items.symm.trans (finished old).2) (List.cons_ne_nil _ _)
  | answered worker queued ready =>
    exact finished ((List.mem_or_eq_of_mem_set member).resolve_right nofun)
  | _ => exact finished member

/-- Once a request was accepted a worker is there or about to be spawned. -/
theorem awaited_step (awaited : runner.Wanted → runner.Awaited) (moves : runner.Moves action after) :
    after.Wanted → after.Awaited := by
  intro wanted
  cases moves with
  | declined => exact awaited wanted
  | terminated => exact awaited wanted
  | claimed thread => exact .inr ⟨thread, by rw [goto_control, if_pos rfl]⟩
  | spawned => exact .inl (by simp)
  | started thread ready | assigned thread worker ready | queueClosed thread ready
  | closed thread ready | joining thread ready | unjoined thread ready | joined thread ready =>
    exact (awaited (wanted.of_goto .inl rfl rfl nofun)).goto rfl rfl (by simp [ready])
  | threw thread ready =>
    refine (awaited (wanted.of_goto .inl rfl rfl nofun)).goto rfl rfl ?_
    rcases ready with ⟨ready, -⟩ | ⟨ready, -⟩ | ⟨queued, ready, -⟩ <;> rw [ready] <;> exact nofun
  | stopping thread ready accepted | issued thread request ready accepted =>
    exact (awaited (.inl accepted)).goto rfl rfl (by simp [ready])
  | pushed thread queued commands ready =>
    exact (awaited (.inr (.inr ⟨thread, queued, ready⟩))).goto rfl rfl (by simp [ready])
  | drained | popped | answered => exact (awaited wanted).imp_left (by simp)

theorem Provided.step (provided : runner.Provided) (moves : runner.Moves action after) :
    after.Provided where
  closing := closing_step provided.closing moves
  handled := handled_step provided.handled moves
  finished := finished_step provided.finished moves
  awaited := awaited_step provided.awaited moves

theorem Provided.initial (commandCapacity : Nat) : (make commandCapacity).Provided where
  closing _ there := by rcases there with there | there <;> cases there
  handled worker held := by
    rcases held with held | ⟨thread, there⟩
    · cases held
    · cases there
  finished member := by cases member
  awaited wanted := (OneWorker.initial commandCapacity).awaited wanted

/-! ## Where the commands are -/

/-- Every command that was appended is answered, in a worker's hand or in the queue; a request that
was accepted is appended, or it is being pushed, unless the queue is closed. -/
structure Held (runner : Runner) : Prop where
  appended : (runner.record.responses.map Prod.fst ++
    (inHand runner.threads ++ runner.commands.items)).Perm runner.record.appended
  issued : runner.commands.closed = false → ∀ ticket < runner.record.issued.length,
    (∃ queued ∈ runner.record.appended, queued.ticket = ticket) ∨
      ∃ thread queued, runner.control thread = .push queued ∧ queued.ticket = ticket

/-- What a worker has in its hand. -/
theorem inHand_set {threads : List Worker} {worker : Nat} {stands : Worker}
    (there : threads[worker]? = some stands) (next : Worker) :
    (inHand [stands] ++ inHand (threads.set worker next)).Perm (inHand [next] ++ inHand threads) := by
  obtain ⟨front, back, before, set⟩ := split_of_getElem? there
  rw [set, before]
  rw [List.perm_iff_count]
  intro queued
  simp only [inHand, List.flatMap_append, List.flatMap_cons, List.flatMap_nil, List.count_append,
    List.count_nil]
  omega

theorem held_appended
    (appended : (runner.record.responses.map Prod.fst ++
      (inHand runner.threads ++ runner.commands.items)).Perm runner.record.appended)
    (moves : runner.Moves action after) :
    (after.record.responses.map Prod.fst ++
      (inHand after.threads ++ after.commands.items)).Perm after.record.appended := by
  rw [List.perm_iff_count] at appended ⊢
  intro queued
  have before := appended queued
  simp only [List.count_append] at before ⊢
  cases moves with
  | spawned thread ready =>
    have same : inHand (runner.threads ++ [Worker.popping]) = inHand runner.threads := by simp [inHand]
    rw [goto_threads, same]
    exact before
  | pushed thread pushed commands ready opened still items =>
    simp only [goto_record, goto_threads, goto_commands, items, List.count_append]
    omega
  | drained worker ready =>
    have counts := (inHand_set ready .finished).count_eq queued
    simp only [inHand, List.flatMap_cons, List.flatMap_nil, List.nil_append] at counts before ⊢
    omega
  | popped worker ready taken commands items =>
    have counts := (inHand_set ready (.processing taken)).count_eq queued
    rw [items, ← List.singleton_append, List.count_append] at before
    simp only [inHand, List.flatMap_cons, List.flatMap_nil, List.nil_append, List.append_nil,
      List.count_append] at counts before ⊢
    omega
  | answered worker taken ready =>
    have counts := (inHand_set ready .popping).count_eq queued
    simp only [inHand, List.flatMap_cons, List.flatMap_nil, List.nil_append, List.append_nil,
      List.count_append, List.map_append, List.map_cons, List.map_nil] at counts before ⊢
    omega
  | _ => exact before

theorem held_issued
    (issued : runner.commands.closed = false → ∀ ticket < runner.record.issued.length,
      (∃ queued ∈ runner.record.appended, queued.ticket = ticket) ∨
        ∃ thread queued, runner.control thread = .push queued ∧ queued.ticket = ticket)
    (moves : runner.Moves action after) :
    after.commands.closed = false → ∀ ticket < after.record.issued.length,
      (∃ queued ∈ after.record.appended, queued.ticket = ticket) ∨
        ∃ thread queued, after.control thread = .push queued ∧ queued.ticket = ticket := by
  intro opened ticket below
  cases moves with
  | queueClosed => cases opened
  | issued thread request ready accepted =>
    rw [goto_record, List.length_append, List.length_singleton] at below
    rcases Nat.lt_succ_iff_lt_or_eq.mp below with before | rfl
    · refine (issued opened ticket before).imp_right fun ⟨other, queued, pushes, same⟩ => ?_
      exact ⟨other, queued, goto_of_control rfl (by simp [ready]) pushes, same⟩
    · exact .inr ⟨thread, _, by rw [goto_control, if_pos rfl], rfl⟩
  | pushed thread queued commands ready wasOpened =>
    rcases issued wasOpened ticket below with ⟨other, member, same⟩ | ⟨other, pushing, pushes, same⟩
    · exact .inl ⟨other, List.mem_append_left _ member, same⟩
    · by_cases here : other = thread
      · subst here
        obtain rfl := Control.push.inj (pushes.symm.trans ready)
        exact .inl ⟨pushing, List.mem_append_right _ (List.mem_singleton_self _), same⟩
      · exact .inr ⟨other, pushing, by rw [goto_control, if_neg here]; exact pushes, same⟩
  | popped worker ready queued commands items same => exact issued (same.symm.trans opened) ticket below
  | declined | terminated | drained | answered => exact issued opened ticket below
  | threw thread ready =>
    refine (issued opened ticket below).imp_right fun ⟨other, queued, pushes, same⟩ => ?_
    refine ⟨other, queued, goto_of_control rfl (fun mine => ?_) pushes, same⟩
    rcases ready with ⟨ready, -⟩ | ⟨ready, -⟩ | ⟨queued, ready, shut⟩
    · rw [ready] at mine; cases mine
    · rw [ready] at mine; cases mine
    · exact absurd (shut.symm.trans opened) (by decide)
  | started thread ready | claimed thread ready | spawned thread ready | assigned thread worker ready
  | stopping thread ready | closed thread ready | joining thread ready | unjoined thread ready
  | joined thread ready =>
    refine (issued opened ticket below).imp_right fun ⟨other, queued, pushes, same⟩ => ?_
    exact ⟨other, queued, goto_of_control rfl (by simp [ready]) pushes, same⟩

/-! ## Progress -/

theorem capacity_step (taken : runner.step action = some after) :
    after.commands.capacity = runner.commands.capacity := by
  unfold step at taken
  split_ifs at taken
  cases action with
  | start thread =>
    simp only [Option.ite_none_right_eq_some, Option.some.injEq] at taken
    obtain ⟨-, rfl⟩ := taken
    unfold start
    split_ifs <;> rfl
  | stop thread =>
    simp only [Option.ite_none_right_eq_some, Option.some.injEq] at taken
    obtain ⟨-, rfl⟩ := taken
    unfold stop
    split_ifs <;> rfl
  | issue thread request =>
    simp only [Option.ite_none_right_eq_some, Option.some.injEq] at taken
    obtain ⟨-, rfl⟩ := taken
    unfold issue
    split_ifs <;> rfl
  | proceed thread =>
    simp only [proceed] at taken
    split at taken
    next => cases taken
    next => split_ifs at taken <;> (obtain rfl := Option.some.inj taken; rfl)
    next => obtain rfl := Option.some.inj taken; rfl
    next => split_ifs at taken <;> (obtain rfl := Option.some.inj taken; rfl)
    next => obtain rfl := Option.some.inj taken; rfl
    next => obtain rfl := Option.some.inj taken; rfl
    next => split_ifs at taken <;> (obtain rfl := Option.some.inj taken; rfl)
    next =>
      split at taken
      next => obtain rfl := Option.some.inj taken; rfl
      next => split_ifs at taken; obtain rfl := Option.some.inj taken; rfl
    next =>
      split at taken
      next => cases taken
      next => obtain rfl := Option.some.inj taken; rfl
      next commands pushed =>
        obtain rfl := Option.some.inj taken
        exact BlockingQueue.push_capacity pushed
  | work worker =>
    simp only [work] at taken
    split at taken
    next => cases taken
    next => cases taken
    next =>
      split at taken
      next => cases taken
      next => obtain rfl := Option.some.inj taken; rfl
      next popped =>
        obtain rfl := Option.some.inj taken
        exact BlockingQueue.waitAndPop_capacity popped
    next => obtain rfl := Option.some.inj taken; rfl

/-- A worker waits for an open empty queue only. -/
theorem worker_steps (alive : runner.terminated = false) {worker : Nat} {stands : Worker}
    (there : runner.threads[worker]? = some stands) (unfinished : stands ≠ .finished)
    (something : stands = .popping → runner.commands.closed = true ∨ runner.commands.items ≠ []) :
    ∃ after, runner.step (.work worker) = some after := by
  have stepped : runner.step (.work worker) = runner.work worker := by simp [step, alive]
  rw [stepped]
  unfold work
  rw [there]
  cases stands with
  | finished => exact absurd rfl unfinished
  | processing queued => exact ⟨_, rfl⟩
  | popping =>
    cases waits : runner.commands.waitAndPop with
    | none =>
      obtain ⟨opened, empty⟩ := BlockingQueue.waitAndPop_waits waits
      rcases something rfl with shut | some
      · exact absurd (opened.symm.trans shut) (by decide)
      · exact absurd empty some
    | some popped => cases popped <;> exact ⟨_, rfl⟩

/-- Where a thread is in a call, it or another thread or a worker can go on. -/
theorem Provided.progress (provided : runner.Provided) (room : 0 < runner.commands.capacity)
    (alive : runner.terminated = false) (busy : runner.control thread ≠ .idle) :
    ∃ action after, action.Continues ∧ runner.step action = some after := by
  have proceeds : ∀ other after, runner.proceed other = some after →
      ∃ action after, action.Continues ∧ runner.step action = some after :=
    fun other after taken => ⟨.proceed other, after, trivial, by simpa [Runner.step, alive] using taken⟩
  cases taken : runner.proceed thread with
  | some after => exact proceeds thread after taken
  | none =>
    unfold proceed at taken
    split at taken
    next idle => exact absurd idle busy
    next => split_ifs at taken
    next => cases taken
    next => split_ifs at taken
    next => cases taken
    next => cases taken
    next => split_ifs at taken
    next ready =>
      split at taken
      next => cases taken
      next worker held =>
        split_ifs at taken with running
        have inside := provided.handled worker (.inl held)
        have there := List.getElem?_eq_getElem inside
        rw [there] at running
        obtain ⟨after, stepped⟩ := worker_steps alive there (fun done => running (congrArg some done))
          fun _ => .inl (provided.closing thread (.inr ready))
        exact ⟨.work worker, after, trivial, stepped⟩
    next queued ready =>
      split at taken
      next full =>
        obtain ⟨-, whole⟩ := BlockingQueue.push_waits full
        have some : runner.commands.items ≠ [] := by
          rw [← List.length_pos_iff]
          omega
        rcases provided.awaited (.inr (.inr ⟨thread, queued, ready⟩)) with workers | ⟨other, spawns⟩
        · obtain ⟨stands, rest, split⟩ := List.exists_cons_of_ne_nil workers
          have there : runner.threads[0]? = .some stands := by rw [split]; rfl
          have unfinished : stands ≠ .finished := by
            rintro rfl
            exact some (provided.finished (by rw [split]; exact List.mem_cons_self)).2
          obtain ⟨after, stepped⟩ := worker_steps alive there unfinished fun _ => .inr some
          exact ⟨.work 0, after, trivial, stepped⟩
        · exact proceeds other _ (by unfold proceed; rw [spawns])
      next => cases taken
      next => cases taken

/-! ## At rest -/

/-- Every call has returned, and everything that was appended is answered; while the queue is open
that is every request that was accepted, once each. -/
structure AtRest (runner : Runner) : Prop where
  idle : ∀ thread, runner.control thread = .idle
  answered : (runner.record.responses.map Prod.fst).Perm runner.record.appended
  whole : runner.commands.closed = false →
    (runner.record.responses.map fun answer => answer.1.ticket).Perm
      (List.range runner.record.issued.length)

section Stuck
variable (provided : runner.Provided) (held : runner.Held) (clients : runner.ClientOrder)
  (alive : runner.terminated = false)
  (stuck : ∀ action : Action, action.Continues → runner.step action = none)
include alive stuck

/-- No worker has anything to do. -/
theorem Stuck.waits {worker : Nat} {stands : Worker} (there : runner.threads[worker]? = some stands)
    (unfinished : stands ≠ .finished) :
    stands = .popping ∧ runner.commands.closed = false ∧ runner.commands.items = [] := by
  have still : ¬∃ after, runner.step (.work worker) = some after := by
    rintro ⟨after, taken⟩
    exact Option.some_ne_none after (taken.symm.trans (stuck (.work worker) trivial))
  by_contra busy
  refine still (worker_steps alive there unfinished fun pops => ?_)
  by_contra nothing
  rw [not_or, Bool.not_eq_true, not_not] at nothing
  exact busy ⟨pops, nothing⟩

include provided

theorem Stuck.idle (room : 0 < runner.commands.capacity) (thread : Thread) :
    runner.control thread = .idle := by
  by_contra busy
  obtain ⟨action, after, continues, taken⟩ := provided.progress room alive busy
  exact Option.some_ne_none after (taken.symm.trans (stuck action continues))

include held

theorem Stuck.answered (idle : ∀ thread, runner.control thread = .idle) :
    (runner.record.responses.map Prod.fst).Perm runner.record.appended := by
  have hands : inHand runner.threads = [] := by
    apply List.flatMap_eq_nil_iff.mpr
    intro stands member
    obtain ⟨worker, there⟩ := List.getElem?_of_mem member
    cases stands with
    | popping => rfl
    | finished => rfl
    | processing queued => cases (waits alive stuck there nofun).1
  have answered := held.appended
  rw [hands, List.nil_append] at answered
  have items : runner.commands.items = [] := by
    by_contra some
    have appended : runner.record.appended ≠ [] := by
      rintro none
      rw [none, List.perm_nil, List.append_eq_nil_iff] at answered
      exact some answered.2
    rcases provided.awaited (.inr (.inl appended)) with workers | ⟨other, spawns⟩
    · obtain ⟨stands, rest, split⟩ := List.exists_cons_of_ne_nil workers
      have there : runner.threads[0]? = .some stands := by rw [split]; rfl
      by_cases finished : stands = .finished
      · subst finished
        exact some (provided.finished (by rw [split]; exact List.mem_cons_self)).2
      · exact some (waits alive stuck there finished).2.2
    · rw [idle other] at spawns
      cases spawns
  rwa [items, List.append_nil] at answered

include clients

theorem Stuck.atRest (room : 0 < runner.commands.capacity) : runner.AtRest := by
  have idle := Stuck.idle provided alive stuck room
  have answered := Stuck.answered provided held alive stuck idle
  refine ⟨idle, answered, fun opened => ?_⟩
  have tickets := answered.map Queued.ticket
  rw [List.map_map] at tickets
  refine tickets.trans ((List.perm_ext_iff_of_nodup clients.tickets List.nodup_range).mpr fun ticket => ?_)
  rw [List.mem_range, List.mem_map]
  constructor
  · rintro ⟨queued, member, rfl⟩
    exact (List.getElem?_eq_some_iff.mp (clients.issued queued member)).1
  · intro below
    refine (held.issued opened ticket below).resolve_right ?_
    rintro ⟨thread, queued, pushes, -⟩
    rw [idle thread] at pushes
    cases pushes

end Stuck

theorem Held.initial (commandCapacity : Nat) : (make commandCapacity).Held where
  appended := List.Perm.nil
  issued _ _ below := absurd below (Nat.not_lt_zero _)

end Runner
end MarketLab.Runtime

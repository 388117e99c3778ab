import MarketLab.Matching.EngineSteps
import MarketLab.Runtime.Answering
import MarketLab.Runtime.SequentialEngine

/-!
# The runner is linearizable

Whatever the order in which clients, the worker and `stop` take their steps, the responses are
those of a fresh engine that is given the appended commands one after the other.
-/
namespace MarketLab.Runtime
open MarketLab.Control
open MarketLab.Matching (Engine)

/-- A sound engine answers a command without an exception, and stays sound. -/
theorem respond_answers {engine : Engine} (sound : engine.Sound) (request : Request) :
    (respond engine request).1.Sound ∧ ∀ fault, (respond engine request).2 ≠ .exception fault := by
  cases request with
  | command command =>
    obtain ⟨after, events, applied, afterSound, -⟩ := engine.apply_step sound command
    rw [respond_command applied]
    exact ⟨afterSound, by simp⟩
  | snapshot instrument depth => exact ⟨sound, by simp [respond]⟩

namespace Runner
variable {runner after : Runner} {action : Action}

/-- The requests of a client are appended in the order it issued them. -/
structure ClientOrder (runner : Runner) : Prop where
  issued : ∀ queued ∈ runner.record.appended,
    runner.record.issued[queued.ticket]? = some (queued.client, queued.request)
  order : runner.record.appended.Pairwise fun earlier later =>
    earlier.client = later.client → earlier.ticket < later.ticket
  pending : ∀ thread queued, runner.control thread = .push queued → queued.client = thread ∧
    runner.record.issued[queued.ticket]? = some (thread, queued.request) ∧
    ∀ earlier ∈ runner.record.appended, earlier.client = thread → earlier.ticket < queued.ticket

theorem ClientOrder.tickets (clients : runner.ClientOrder) :
    (runner.record.appended.map Queued.ticket).Nodup := by
  rw [List.Nodup, List.pairwise_map]
  refine clients.order.imp_of_mem fun {earlier later} before after less same => ?_
  have issued := clients.issued earlier before
  rw [same, clients.issued later after] at issued
  obtain ⟨client, -⟩ := Prod.mk.inj (Option.some.inj issued)
  exact absurd (less client.symm) (by omega)

/-- A step that issues and appends nothing. -/
theorem ClientOrder.frame (clients : runner.ClientOrder)
    (issued : after.record.issued = runner.record.issued)
    (appended : after.record.appended = runner.record.appended)
    (pending : ∀ thread queued, after.control thread = .push queued →
      runner.control thread = .push queued) : after.ClientOrder where
  issued := by rw [issued, appended]; exact clients.issued
  order := by rw [appended]; exact clients.order
  pending thread queued there := by
    rw [issued, appended]
    exact clients.pending thread queued (pending thread queued there)

theorem ClientOrder.step (clients : runner.ClientOrder) (moves : runner.Moves action after) :
    after.ClientOrder := by
  cases moves with
  | issued thread request ready accepted =>
    have kept : ∀ {ticket : Nat} {call : Thread × Request}, runner.record.issued[ticket]? = some call →
        (runner.record.issued ++ [(thread, request)])[ticket]? = some call := by
      intro ticket call found
      rw [List.getElem?_append_left (List.getElem?_eq_some_iff.mp found).1]
      exact found
    refine ⟨fun queued member => kept (clients.issued queued member), clients.order, ?_⟩
    intro other queued there
    rw [goto_control] at there
    split_ifs at there with here
    · obtain rfl := Control.push.inj there
      refine ⟨here.symm, by simp [here], fun earlier member _ => ?_⟩
      exact (List.getElem?_eq_some_iff.mp (clients.issued earlier member)).1
    · obtain ⟨client, found, later⟩ := clients.pending other queued there
      exact ⟨client, kept found, later⟩
  | pushed thread queued commands ready opened still items =>
    obtain ⟨client, found, later⟩ := clients.pending thread queued ready
    refine ⟨fun other member => ?_, ?_, fun other pushed there => ?_⟩
    · rcases List.mem_append.mp member with before | new
      · exact clients.issued other before
      · obtain rfl := List.mem_singleton.mp new
        rw [client]
        exact found
    · refine List.pairwise_append.mpr ⟨clients.order, List.pairwise_singleton _ _, ?_⟩
      intro earlier member last new same
      obtain rfl := List.mem_singleton.mp new
      exact later earlier member (same.trans client)
    · have different : other ≠ thread := by
        intro here
        rw [goto_control, if_pos here] at there
        cases there
      have before := control_of_goto there rfl nofun
      obtain ⟨otherClient, otherFound, otherLater⟩ := clients.pending other pushed before
      refine ⟨otherClient, otherFound, fun earlier member same => ?_⟩
      rcases List.mem_append.mp member with old | new
      · exact otherLater earlier old same
      · obtain rfl := List.mem_singleton.mp new
        exact absurd (same.symm.trans client) different
  | started | assigned | queueClosed | closed | joining | unjoined | joined | threw | stopping
  | claimed | spawned =>
    exact clients.frame rfl rfl fun _ _ there => control_of_goto there rfl nofun
  | declined | terminated | drained | popped | answered =>
    exact clients.frame rfl rfl fun _ _ there => there

theorem ClientOrder.initial (commandCapacity : Nat) : (make commandCapacity).ClientOrder where
  issued _ := (nomatch ·)
  order := List.Pairwise.nil
  pending _ _ := (nomatch ·)

/-- Every appended command is answered at most once, in the order of the queue and as a fresh
engine answers it; nothing else reaches the engine; after a `join` nothing is left to answer,
and the worker never waits for anything but commands. -/
structure Linearized (runner : Runner) : Prop where
  tickets : (runner.record.appended.map Queued.ticket).Nodup
  issued : ∀ queued ∈ runner.record.appended,
    runner.record.issued[queued.ticket]? = some (queued.client, queued.request)
  order : runner.record.appended.Pairwise fun earlier later =>
    earlier.client = later.client → earlier.ticket < later.ticket
  responses : runner.record.responses = (runner.record.appended.zip
    (answersTo (runner.record.appended.map Queued.request))).take runner.record.responses.length
  returned : ∀ answer ∈ runner.record.responses, ∀ fault, answer.2 ≠ .exception fault
  engine : runner.matchingEngine =
    engineAfter ((runner.record.appended.take runner.record.responses.length).map Queued.request)
  joined : runner.record.joined = true →
    runner.record.responses.map Prod.fst = runner.record.appended
  answered : ∃ final, Reachable step WorkerStep runner final ∧
    final.record.appended = runner.record.appended ∧
    final.record.responses.map Prod.fst = runner.record.appended

/-- What holds in every state of a run whose claims come in order. -/
structure Linear (runner : Runner) : Prop where
  life : runner.Lifecycle
  single : runner.OneWorker
  answering : runner.Answering
  clients : runner.ClientOrder

theorem Linear.step (linear : runner.Linear) (order : runner.ClaimsInOrder action)
    (moves : runner.Moves action after) : after.Linear where
  life := linear.life.step order moves
  single := linear.single.step linear.life order moves
  answering := linear.answering.step linear.single moves
  clients := linear.clients.step moves

theorem Linear.initial (commandCapacity : Nat) : (make commandCapacity).Linear where
  life := .initial commandCapacity
  single := .initial commandCapacity
  answering := .initial commandCapacity
  clients := .initial commandCapacity

/-- The worker answers everything when the other threads do nothing. -/
theorem Linear.answered (linear : runner.Linear) :
    ∃ final, Reachable Runner.step WorkerStep runner final ∧
    final.record.appended = runner.record.appended ∧
    final.record.responses.map Prod.fst = runner.record.appended := by
  have progress : ∀ between : Runner,
      (between.Linear ∧ between.record.appended = runner.record.appended) → 0 < between.unanswered →
      ∃ action next, between.WorkerStep action ∧ between.step action = some next ∧
        (next.Linear ∧ next.record.appended = runner.record.appended) ∧
        next.unanswered < between.unanswered := by
    rintro between ⟨kept, same⟩ positive
    obtain ⟨action, next, ours, taken, appended, less⟩ :=
      kept.answering.progress kept.single kept.life.alive positive
    have order : between.ClaimsInOrder action := by
      cases action with
      | proceed thread => exact fun ready => nomatch (ready.symm.trans ours)
      | _ => trivial
    exact ⟨action, next, ours, taken,
      ⟨kept.step order (step_moves taken), appended.trans same⟩, less⟩
  obtain ⟨final, reached, ⟨kept, same⟩, done⟩ :=
    Reachable.start.descend _ unanswered progress ⟨linear, rfl⟩
  refine ⟨final, reached, same, ?_⟩
  simp only [unanswered, Nat.add_eq_zero_iff, Nat.mul_eq_zero, List.length_eq_zero_iff] at done
  have empty := done.1.resolve_left (by split_ifs <;> decide)
  rw [← same, kept.answering.appended, done.2, empty, List.append_nil, List.append_nil]

theorem Linear.returned (linear : runner.Linear) :
    ∀ answer ∈ runner.record.responses, ∀ fault, answer.2 ≠ .exception fault := by
  intro answer member
  have answers := (serial_induct respond Engine.Sound (∀ fault, · ≠ .exception fault)
    (fun _ request sound => respond_answers sound request) Engine.initial_sound
    ((runner.record.responses.map Prod.fst).map Queued.request)).2
  rw [← serial_process, ← linear.answering.serves.served] at answers
  exact answers answer.2 (List.mem_map_of_mem member)

/-- Interleavings of any number of clients with the worker, and with any calls of `start` and
`stop` among which no `start` claims the runner after a `stop` has taken it. -/
theorem runner_is_linearizable (commandCapacity : Nat) (runner : Runner)
    (reached : Reachable step ClaimsInOrder (make commandCapacity) runner) : runner.Linearized := by
  have linear : runner.Linear := reached.invariant Linear (.initial commandCapacity)
    fun _ _ _ order taken linear => linear.step order (step_moves taken)
  exact {
    tickets := linear.clients.tickets
    issued := linear.clients.issued
    order := linear.clients.order
    responses := by
      rw [answersTo, ← serial_process]
      exact linear.answering.serves.answers_eq
    returned := linear.returned
    engine := by
      rw [engineAfter, ← serial_process]
      exact linear.answering.serves.state_eq
    joined := linear.answering.drained
    answered := linear.answered }

/-- Two clients whose requests a `stop` finds in the queue. -/
theorem runner_is_linearizable_with_two_clients :
    ∃ runner, Reachable step ClaimsInOrder (make 2) runner ∧ runner.record.appended.length = 2 ∧
      runner.record.joined = true ∧ runner.Linearized := by
  have started : Reachable step ClaimsInOrder (make 2) _ :=
    .step .start (show ClaimsInOrder _ (.start 0) from trivial) rfl
  have claimed : Reachable step ClaimsInOrder (make 2) _ :=
    .step started (show ClaimsInOrder _ (.proceed 0) from fun _ _ => ⟨rfl, fun other => by
      cases other <;> exact nofun⟩) rfl
  have spawned : Reachable step ClaimsInOrder (make 2) _ :=
    .step claimed (show ClaimsInOrder _ (.proceed 0) from nofun) rfl
  have assigned : Reachable step ClaimsInOrder (make 2) _ :=
    .step spawned (show ClaimsInOrder _ (.proceed 0) from nofun) rfl
  have cancels : Reachable step ClaimsInOrder (make 2) _ :=
    .step assigned (show ClaimsInOrder _ (.issue 1 (.command (.cancel { key := {} }))) from trivial)
      rfl
  have asks : Reachable step ClaimsInOrder (make 2) _ :=
    .step cancels (show ClaimsInOrder _ (.issue 2 (.snapshot {} 1)) from trivial) rfl
  have secondFirst : Reachable step ClaimsInOrder (make 2) _ :=
    .step asks (show ClaimsInOrder _ (.proceed 2) from nofun) rfl
  have stopping : Reachable step ClaimsInOrder (make 2) _ :=
    .step secondFirst (show ClaimsInOrder _ (.stop 0) from trivial) rfl
  have firstSecond : Reachable step ClaimsInOrder (make 2) _ :=
    .step stopping (show ClaimsInOrder _ (.proceed 1) from nofun) rfl
  have closed : Reachable step ClaimsInOrder (make 2) _ :=
    .step firstSecond (show ClaimsInOrder _ (.proceed 0) from nofun) rfl
  have queueClosed : Reachable step ClaimsInOrder (make 2) _ :=
    .step closed (show ClaimsInOrder _ (.proceed 0) from nofun) rfl
  have joining : Reachable step ClaimsInOrder (make 2) _ :=
    .step queueClosed (show ClaimsInOrder _ (.proceed 0) from nofun) rfl
  have drained : Reachable step ClaimsInOrder (make 2) _ :=
    joining.run (fun _ action member => by
      obtain ⟨-, rfl⟩ := List.mem_replicate.mp member
      trivial) (show (List.replicate 5 (.work 0)).foldlM step _ = some _ from rfl)
  have joined : Reachable step ClaimsInOrder (make 2) _ :=
    .step drained (show ClaimsInOrder _ (.proceed 0) from nofun) rfl
  exact ⟨_, joined, rfl, rfl, runner_is_linearizable 2 _ joined⟩

end Runner
end MarketLab.Runtime

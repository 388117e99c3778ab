import MarketLab.Runtime.Situations

/-!
# A synchronous client runs sequentially

However the client and the worker take turns, they take the same number of steps, never come to
a stop before the client has returned, and do what the program does with an engine that
answers at once.
-/
namespace MarketLab.Runtime
open MarketLab.Collections MarketLab.Control
open MarketLab.Matching (Engine)

namespace Client
variable {ω ε α : Type}

/-- What is printed and what is still to come are the outcome of the sequential program. -/
def Leads (expected : Outcome Engine ω ε α) (engine : Engine) (printed : List ω)
    (body : Body ω ε α) : Prop :=
  (body.outcome serve engine).behind printed = expected

/-- A client on its way to an outcome, with the number of steps that are still to be taken. -/
inductive Standing (expected : Outcome Engine ω ε α) : Client ω ε α → Nat → Prop
  | created {runner : Runner} {body : Body ω ε α} {printed : List ω}
      (stands : runner.Stands {} (.outset .idle false)) (leads : Leads expected {} printed body) :
      Standing expected ⟨runner, .created body, printed⟩ (body.steps serve 5 {} + 11)
  | comparing {runner : Runner} {body : Body ω ε α} {printed : List ω}
      (stands : runner.Stands {} (.outset .compareAccepting false))
      (leads : Leads expected {} printed body) :
      Standing expected ⟨runner, .starting body, printed⟩ (body.steps serve 5 {} + 10)
  | spawning {runner : Runner} {body : Body ω ε α} {printed : List ω}
      (stands : runner.Stands {} (.outset .spawnWorker true))
      (leads : Leads expected {} printed body) :
      Standing expected ⟨runner, .starting body, printed⟩ (body.steps serve 5 {} + 9)
  | assigning {runner : Runner} {body : Body ω ε α} {printed : List ω}
      (stands : runner.Stands {}
        { Situation.outset (.assignWorker 0) true with threads := [.popping] })
      (leads : Leads expected {} printed body) :
      Standing expected ⟨runner, .starting body, printed⟩ (body.steps serve 5 {} + 8)
  | running {runner : Runner} {engine : Engine} {body : Body ω ε α} {printed : List ω}
      (stands : runner.Stands engine (.open .idle [] .popping))
      (leads : Leads expected engine printed body) :
      Standing expected ⟨runner, .running body, printed⟩ (body.steps serve 5 engine + 7)
  | pushing {runner : Runner} {engine : Engine} {queued : Queued}
      {next : Except Raised Response → Body ω ε α} {printed : List ω}
      (stands : runner.Stands engine (.open (.push queued) [] .popping))
      (unanswered : runner.Unanswered queued)
      (leads : Leads expected engine printed (.ask queued.request next)) :
      Standing expected ⟨runner, .requesting queued.ticket next, printed⟩
        ((Program.ask queued.request next).steps serve 5 engine + 6)
  | queued {runner : Runner} {engine : Engine} {queued : Queued}
      {next : Except Raised Response → Body ω ε α} {printed : List ω}
      (stands : runner.Stands engine (.open .idle [queued] .popping))
      (unanswered : runner.Unanswered queued)
      (leads : Leads expected engine printed (.ask queued.request next)) :
      Standing expected ⟨runner, .waiting queued.ticket next, printed⟩
        ((Program.ask queued.request next).steps serve 5 engine + 5)
  | taken {runner : Runner} {engine : Engine} {queued : Queued}
      {next : Except Raised Response → Body ω ε α} {printed : List ω}
      (stands : runner.Stands engine (.open .idle [] (.processing queued)))
      (unanswered : runner.Unanswered queued)
      (leads : Leads expected engine printed (.ask queued.request next)) :
      Standing expected ⟨runner, .waiting queued.ticket next, printed⟩
        ((Program.ask queued.request next).steps serve 5 engine + 4)
  | answered {runner : Runner} {engine : Engine} {ticket : Nat} {answer : Queued × Response}
      {next : Except Raised Response → Body ω ε α} {printed : List ω}
      (stands : runner.Stands engine (.open .idle [] .popping))
      (set : runner.record.responses.find? (fun answer => answer.1.ticket = ticket) = some answer)
      (leads : Leads expected engine printed (next (.ok answer.2))) :
      Standing expected ⟨runner, .waiting ticket next, printed⟩
        ((next (.ok answer.2)).steps serve 5 engine + 8)
  | leaving {runner : Runner}
      (stands : runner.Stands expected.server (.open .idle [] .popping)) :
      Standing expected ⟨runner, .leaving (.ok expected.result), expected.printed⟩ 6
  | closing {runner : Runner}
      (stands : runner.Stands expected.server (.ending .setClosed false false .popping)) :
      Standing expected ⟨runner, .stopping (.ok expected.result), expected.printed⟩ 5
  | shutting {runner : Runner}
      (stands : runner.Stands expected.server (.ending .closeQueue true false .popping)) :
      Standing expected ⟨runner, .stopping (.ok expected.result), expected.printed⟩ 4
  | testing {runner : Runner}
      (stands : runner.Stands expected.server (.ending .testJoinable true true .popping)) :
      Standing expected ⟨runner, .stopping (.ok expected.result), expected.printed⟩ 3
  | testingDrained {runner : Runner}
      (stands : runner.Stands expected.server (.ending .testJoinable true true .finished)) :
      Standing expected ⟨runner, .stopping (.ok expected.result), expected.printed⟩ 2
  | joining {runner : Runner}
      (stands : runner.Stands expected.server (.ending .join true true .popping)) :
      Standing expected ⟨runner, .stopping (.ok expected.result), expected.printed⟩ 2
  | joiningDrained {runner : Runner}
      (stands : runner.Stands expected.server (.ending .join true true .finished)) :
      Standing expected ⟨runner, .stopping (.ok expected.result), expected.printed⟩ 1
  | finished {runner : Runner}
      (stands : runner.Stands expected.server
        { Situation.ending .idle true true .finished with worker := none }) :
      Standing expected ⟨runner, .finished (.ok expected.result), expected.printed⟩ 0

variable {expected : Outcome Engine ω ε α} {client after : Client ω ε α} {n : Nat}

theorem Leads.print {engine : Engine} {printed text : List ω} {rest : Body ω ε α}
    (leads : Leads expected engine printed (.print text rest)) :
    Leads expected engine (printed ++ text) rest := by
  rw [← leads, Leads, Program.outcome]
  simp only [Outcome.behind, List.append_assoc]

/-- Where the program has ended, the client is about to stop the runner. -/
theorem standing_leaving {runner : Runner} {engine : Engine} {printed : List ω}
    {result : Except ε α} (stands : runner.Stands engine (.open .idle [] .popping))
    (ended : Outcome.behind { server := engine, printed := [], result } printed = expected) :
    Standing expected ⟨runner, .leaving (.ok result), printed⟩ 6 := by
  rw [Outcome.behind, List.append_nil] at ended
  subst ended
  exact .leaving stands

theorem Standing.alive (standing : Standing expected client n) :
    client.runner.terminated = false := by
  cases standing <;> exact Runner.Stands.alive ‹_›

/-- A turn that brings the client one step nearer to its outcome. -/
def Nearer (expected : Outcome Engine ω ε α) (client : Client ω ε α) (n : Nat) (turn : Turn) : Prop :=
  ∃ after less, client.step turn = some after ∧ n = less + 1 ∧ Standing expected after less

/-- What a worker's turn does to the client. -/
theorem nearer_of_work {runner next : Runner} {place : Place ω ε α} {printed : List ω} {less k : Nat}
    (alive : runner.terminated = false) (stepped : runner.step (.work k) = some next)
    (standing : Standing expected ⟨next, place, printed⟩ less) :
    Nearer expected ⟨runner, place, printed⟩ (less + 1) (.worker k) := by
  refine ⟨_, less, ?_, rfl, standing⟩
  simp [step, alive, stepped]

theorem waits_of_work {runner : Runner} {place : Place ω ε α} {printed : List ω} {k : Nat}
    (blocked : runner.step (.work k) = none) :
    step ⟨runner, place, printed⟩ (.worker k) = none := by
  simp [step, blocked]

/-- A turn of a worker is one step nearer or has to wait. -/
theorem Standing.worker_turn (standing : Standing expected client n) (k : Nat) :
    Nearer expected client n (.worker k) ∨ client.step (.worker k) = none := by
  have alive := standing.alive
  cases standing with
  | created stands | comparing stands | spawning stands =>
    exact .inr (waits_of_work (stands.work_alone (Nat.zero_le k)))
  | assigning stands | running stands | pushing stands | answered stands | leaving stands
  | closing stands | shutting stands =>
    exact .inr (waits_of_work (stands.work_waits rfl rfl rfl k))
  | testingDrained stands | joiningDrained stands | finished stands =>
    exact .inr (waits_of_work (stands.work_finished rfl k))
  | queued stands unanswered leads =>
    cases k with
    | succ k => exact .inr (waits_of_work (stands.work_alone (Nat.succ_le_succ (Nat.zero_le k))))
    | zero =>
      obtain ⟨next, stepped, taken, still⟩ := stands.pops unanswered
      exact .inl (nearer_of_work alive stepped (.taken taken still leads))
  | taken stands unanswered leads =>
    cases k with
    | succ k => exact .inr (waits_of_work (stands.work_alone (Nat.succ_le_succ (Nat.zero_le k))))
    | zero =>
      obtain ⟨next, stepped, answered, set⟩ := stands.answers unanswered
      exact .inl (nearer_of_work alive stepped (.answered answered set leads))
  | testing stands =>
    cases k with
    | succ k => exact .inr (waits_of_work (stands.work_alone (Nat.succ_le_succ (Nat.zero_le k))))
    | zero =>
      obtain ⟨next, stepped, drained⟩ := stands.drains
      exact .inl (nearer_of_work alive stepped (.testingDrained drained))
  | joining stands =>
    cases k with
    | succ k => exact .inr (waits_of_work (stands.work_alone (Nat.succ_le_succ (Nat.zero_le k))))
    | zero =>
      obtain ⟨next, stepped, drained⟩ := stands.drains
      exact .inl (nearer_of_work alive stepped (.joiningDrained drained))

/-- The client goes on, or waits for the worker, or has returned. -/
theorem Standing.client_turn (standing : Standing expected client n) :
    Nearer expected client n .client ∨
      client.step .client = none ∧ (Nearer expected client n (.worker 0) ∨ n = 0) := by
  have alive := standing.alive
  cases standing with
  | created stands leads =>
    obtain ⟨next, stepped, started⟩ := stands.starts
    refine .inl ⟨_, _, ?_, rfl, .comparing started leads⟩
    simp [step, advance, enter, stands.alive, stands.closed, stepped]
  | comparing stands leads =>
    obtain ⟨next, stepped, quiet, claimed⟩ := stands.claims
    refine .inl ⟨_, _, ?_, rfl, .spawning claimed leads⟩
    simp [step, advance, resume, stands.alive, stepped, claimed.control]
  | spawning stands leads =>
    obtain ⟨next, stepped, quiet, spawned⟩ := stands.spawns
    refine .inl ⟨_, _, ?_, rfl, .assigning spawned leads⟩
    simp [step, advance, resume, stands.alive, stepped, spawned.control]
  | assigning stands leads =>
    obtain ⟨next, stepped, quiet, assigned⟩ := stands.assigns
    refine .inl ⟨_, _, ?_, rfl, .running assigned leads⟩
    simp [step, advance, resume, stands.alive, stepped, quiet, assigned.control]
  | @running runner engine body printed stands leads =>
    cases body with
    | pure value =>
      refine .inl ⟨_, _, ?_, rfl, standing_leaving stands leads⟩
      simp [step, advance, stands.alive]
    | throw thrown =>
      refine .inl ⟨_, _, ?_, rfl, standing_leaving stands leads⟩
      simp [step, advance, stands.alive]
    | print text rest =>
      refine .inl ⟨_, rest.steps serve 5 engine + 7, ?_, Nat.add_right_comm _ _ _,
        .running stands leads.print⟩
      simp [step, advance, stands.alive]
    | ask request rest =>
      obtain ⟨next, queued, stepped, ticket, rfl, pushing, unanswered⟩ := stands.issues request
      refine .inl ⟨_, _, ?_, rfl, .pushing pushing unanswered leads⟩
      simp [step, advance, enter, stands.alive, stands.accepting, stepped, ticket]
  | pushing stands unanswered leads =>
    obtain ⟨next, stepped, quiet, pushed, still⟩ := stands.pushes unanswered
    refine .inl ⟨_, _, ?_, rfl, .queued pushed still leads⟩
    simp [step, advance, resume, stands.alive, stepped, quiet, pushed.control]
  | @queued runner engine queued rest printed stands unanswered leads =>
    obtain ⟨next, stepped, taken, still⟩ := stands.pops unanswered
    refine .inr ⟨?_, .inl (nearer_of_work alive stepped (.taken taken still leads))⟩
    simp [step, advance, stands.alive, unanswered.unset]
  | @taken runner engine queued rest printed stands unanswered leads =>
    obtain ⟨next, stepped, answered, set⟩ := stands.answers unanswered
    refine .inr ⟨?_, .inl (nearer_of_work alive stepped (.answered answered set leads))⟩
    simp [step, advance, stands.alive, unanswered.unset]
  | answered stands set leads =>
    refine .inl ⟨_, _, ?_, rfl, .running stands leads⟩
    simp [step, advance, stands.alive, set]
  | leaving stands =>
    obtain ⟨next, stepped, closing⟩ := stands.stops
    refine .inl ⟨_, _, ?_, rfl, .closing closing⟩
    simp [step, advance, enter, stands.alive, stands.accepting, stepped]
  | closing stands =>
    obtain ⟨next, stepped, quiet, closed⟩ := stands.closes
    refine .inl ⟨_, _, ?_, rfl, .shutting closed⟩
    simp [step, advance, resume, stands.alive, stepped, closed.control]
  | shutting stands =>
    obtain ⟨next, stepped, quiet, shut⟩ := stands.shuts
    refine .inl ⟨_, _, ?_, rfl, .testing shut⟩
    simp [step, advance, resume, stands.alive, stepped, shut.control]
  | testing stands =>
    obtain ⟨next, stepped, quiet, tested⟩ := stands.tests
    refine .inl ⟨_, _, ?_, rfl, .joining tested⟩
    simp [step, advance, resume, stands.alive, stepped, tested.control]
  | testingDrained stands =>
    obtain ⟨next, stepped, quiet, tested⟩ := stands.tests
    refine .inl ⟨_, _, ?_, rfl, .joiningDrained tested⟩
    simp [step, advance, resume, stands.alive, stepped, tested.control]
  | joining stands =>
    obtain ⟨next, stepped, drained⟩ := stands.drains
    refine .inr ⟨?_, .inl (nearer_of_work alive stepped (.joiningDrained drained))⟩
    simp [step, advance, resume, stands.join_waits]
  | joiningDrained stands =>
    obtain ⟨next, stepped, quiet, joined⟩ := stands.joins
    refine .inl ⟨_, _, ?_, rfl, .finished joined⟩
    simp [step, advance, resume, stands.alive, stepped, quiet, joined.control]
  | finished stands =>
    refine .inr ⟨?_, .inr rfl⟩
    simp [step, advance]

/-- Every turn taken is one step nearer. -/
theorem Standing.step (standing : Standing expected client n) {turn : Turn}
    (taken : client.step turn = some after) :
    ∃ less, n = less + 1 ∧ Standing expected after less := by
  have nearer : Nearer expected client n turn := by
    cases turn with
    | client =>
      refine standing.client_turn.resolve_right fun waits => ?_
      exact Option.some_ne_none after (taken.symm.trans waits.1)
    | worker k =>
      refine (standing.worker_turn k).resolve_right fun waits => ?_
      exact Option.some_ne_none after (taken.symm.trans waits)
  obtain ⟨next, less, stepped, count, still⟩ := nearer
  obtain rfl := Option.some.inj (taken.symm.trans stepped)
  exact ⟨less, count, still⟩

/-- While there is a step to go, one of the two can take it. -/
theorem Standing.progress (standing : Standing expected client n) (positive : n ≠ 0) :
    ∃ turn after, client.step turn = some after := by
  rcases standing.client_turn with ⟨after, less, stepped, -⟩ | ⟨-, ⟨after, less, stepped, -⟩ | none⟩
  · exact ⟨_, after, stepped⟩
  · exact ⟨_, after, stepped⟩
  · exact absurd none positive

/-- A schedule of any length. -/
theorem Standing.run (standing : Standing expected client n) {turns : List Turn}
    (ran : turns.foldlM Client.step client = some after) :
    ∃ less, n = less + turns.length ∧ Standing expected after less := by
  induction turns generalizing client n with
  | nil =>
    obtain rfl := Option.some.inj ran
    exact ⟨n, rfl, standing⟩
  | cons turn turns ih =>
    rw [List.foldlM_cons] at ran
    obtain ⟨next, taken, rest⟩ := Option.bind_eq_some_iff.mp ran
    obtain ⟨less, rfl, nearer⟩ := standing.step taken
    obtain ⟨last, rfl, reached⟩ := ih nearer rest
    exact ⟨last, by rw [List.length_cons]; omega, reached⟩

theorem standing_make {commandCapacity : Nat} (room : 0 < commandCapacity) (body : Body ω ε α) :
    Standing (body.outcome serve {}) (make commandCapacity body) (body.steps serve 5 {} + 11) := by
  refine .created ?_ rfl
  constructor <;> first | rfl | exact room | exact fun _ => nofun

/-- What a client has printed is the beginning of what the program prints. -/
theorem Standing.printed_prefix (standing : Standing expected client n) :
    client.printed <+: expected.printed := by
  cases standing with
  | created _ leads | comparing _ leads | spawning _ leads | assigning _ leads | running _ leads
  | pushing _ _ leads | queued _ _ leads | taken _ _ leads | answered _ _ leads =>
    exact ⟨_, congrArg Outcome.printed leads⟩
  | _ => exact List.prefix_refl _

/-- A client that has nothing left to do. -/
structure Returned (client : Client ω ε α) (expected : Outcome Engine ω ε α) : Prop where
  place : client.place = .finished (.ok expected.result)
  printed : client.printed = expected.printed
  engine : client.runner.matchingEngine = expected.server
  threads : client.runner.threads = [.finished]
  stopped : client.runner.running = false ∧ client.runner.closed = true

theorem Standing.returned (standing : Standing expected client 0) : client.Returned expected := by
  generalize none : 0 = left at standing
  cases standing with
  | finished stands =>
    exact ⟨rfl, rfl, stands.engine, stands.threads, stands.accepting, stands.closed⟩
  | _ => cases none

theorem run_standing {commandCapacity : Nat} (room : 0 < commandCapacity) {body : Body ω ε α}
    {turns : List Turn} (ran : turns.foldlM step (make commandCapacity body) = some client) :
    ∃ left, body.steps serve 5 {} + 11 = left + turns.length ∧
      Standing (body.outcome serve {}) client left :=
  (standing_make room body).run ran

/-- Some schedule brings a client to its end. -/
theorem Standing.finishes (standing : Standing expected client n) :
    ∃ turns after, List.foldlM Client.step client turns = some after ∧ after.Returned expected := by
  induction n generalizing client with
  | zero => exact ⟨[], client, rfl, standing.returned⟩
  | succ n ih =>
    obtain ⟨turn, next, taken⟩ := standing.progress (Nat.succ_ne_zero n)
    obtain ⟨less, count, stands⟩ := standing.step taken
    obtain rfl := Nat.succ.inj count
    obtain ⟨turns, after, ran, returned⟩ := ih stands
    exact ⟨turn :: turns, after, by rw [List.foldlM_cons, taken]; exact ran, returned⟩

/-- A client that has finished has the result of its program. -/
theorem Standing.result_of_finished (standing : Standing expected client n)
    {result : Except Raised (Except ε α)} (finished : client.place = .finished result) :
    result = .ok expected.result := by
  cases standing with
  | finished stands => exact (Place.finished.inj finished).symm
  | _ => cases finished

/-- A client that nobody can bring further has returned. -/
theorem returned_of_stuck {commandCapacity : Nat} (room : 0 < commandCapacity) {body : Body ω ε α}
    {turns : List Turn} (ran : turns.foldlM step (make commandCapacity body) = some client)
    (stuck : ∀ turn, client.step turn = none) : client.Returned (body.outcome serve {}) := by
  obtain ⟨left, -, standing⟩ := run_standing room ran
  have none : left = 0 := by
    by_contra positive
    obtain ⟨turn, after, taken⟩ := standing.progress positive
    exact Option.some_ne_none after (taken.symm.trans (stuck turn))
  subst none
  exact standing.returned

/-- Nobody can bring a client that has returned further. -/
theorem Returned.stuck {expected : Outcome Engine ω ε α} (returned : client.Returned expected)
    (turn : Turn) : client.step turn = none := by
  cases turn with
  | client =>
    unfold step advance
    rw [returned.place]
    exact ite_self none
  | worker worker =>
    have work : client.runner.work worker = none := by
      unfold Runner.work
      rw [returned.threads]
      cases worker <;> rfl
    unfold step Runner.step
    simp only
    rw [work]
    simp

/-- Under every schedule of the client and its worker the program does what it does with an engine
that answers at once: what has been printed is the beginning of the program's output, somebody
can go on until the client has returned from `stop` with the program's result and with the
worker gone, and every schedule that comes so far has the same length. -/
theorem client_runs_sequentially {commandCapacity : Nat} (room : 0 < commandCapacity)
    (body : Body ω ε α) {turns : List Turn} {client : Client ω ε α}
    (ran : turns.foldlM Client.step (make commandCapacity body) = some client) :
    let expected := body.outcome serve {}
    let total := body.steps serve 5 {} + 11
    client.runner.terminated = false ∧ client.printed <+: expected.printed ∧
    turns.length ≤ total ∧
    (turns.length = total → client.Returned expected) ∧
    (turns.length < total → ∃ turn after, client.step turn = some after) := by
  intro expected total
  obtain ⟨left, count, standing⟩ := run_standing room ran
  refine ⟨standing.alive, standing.printed_prefix, by omega, fun whole => ?_, fun short => ?_⟩
  · obtain rfl : left = 0 := by omega
    exact standing.returned
  · exact standing.progress (by omega)

/-- A client that asks for one book and prints, with one turn of the worker at the last moment. -/
theorem client_of_one_question_returns :
    let body : Body Nat Empty Unit := .ask (.snapshot ⟨0⟩ 1) fun _ => .print [7] (.pure ())
    let turns := List.replicate 6 Turn.client ++ List.replicate 2 (.worker 0) ++
      List.replicate 7 .client ++ [.worker 0, .client]
    ∃ client, turns.foldlM Client.step (make 1 body) = some client ∧
      client.Returned (body.outcome serve {}) := by
  intro body turns
  obtain ⟨client, ran⟩ : ∃ client, turns.foldlM Client.step (make 1 body) = some client :=
    Option.isSome_iff_exists.1 (by decide)
  have whole : turns.length = body.steps serve 5 {} + 11 := by decide
  exact ⟨client, ran, (client_runs_sequentially Nat.zero_lt_one body ran).2.2.2.1 whole⟩

end Client
end MarketLab.Runtime

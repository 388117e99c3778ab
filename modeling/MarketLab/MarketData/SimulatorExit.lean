import MarketLab.MarketData.SimulatorCommandLine
import MarketLab.MarketData.SimulatorRuns
import MarketLab.Runtime.Sequential

/-!
# The exit code of the simulator

Behind a command line of the grammar and an opened socket the process is the client of a runner.
With or without a load, it exits with zero just when the network takes all of its messages and a
vector holds the events of a burst.
-/
namespace MarketLab.MarketData.Simulator
open MarketLab.Control MarketLab.Control.Options MarketLab.Text
open MarketLab.Matching (Engine Event)
open MarketLab.Runtime (Client Raised Request serve)

/-- What `main` runs, or what its handler catches before a runner exists. Opening makes the socket
of the publisher. -/
def main (endian : Endian) (network : Network) (maximumEvents : Nat) (arguments : List Bytes)
    (opened : SimulatorOptions → Except Bytes Unit) (timing : Timing) :
    Except Bytes (Client Emission Fault Unit) :=
  match parseOptions arguments with
  | .error what => .error what
  | .ok options =>
    match opened options with
    | .error what => .error what
    | .ok () => .ok (.make commandCapacity (simulate endian network maximumEvents options timing))

/-- The exit code behind what the block of `main` ended with. -/
def exitCode : Except Raised (Except Fault Unit) → Nat
  | .ok (.ok ()) => 0
  | _ => 1

/-- How the process can exit. -/
inductive Exits : Except Bytes (Client Emission Fault Unit) → Nat → Prop
  | refused (what : Bytes) : Exits (.error what) 1
  | finished {client final : Client Emission Fault Unit} {turns : List Runtime.Turn}
      (ran : turns.foldlM Client.step client = some final) {result : Except Raised (Except Fault Unit)}
      (place : final.place = .finished result) : Exits (.ok client) (exitCode result)

/-- The messages a simulation publishes. -/
def messages (options : SimulatorOptions) : Nat :=
  match options.messageCount with
  | some count => count.1.toNat
  | none => 3

/-- A vector holds the events of each burst, where there is a load. -/
def BurstsHeld (maximumEvents : Nat) (options : SimulatorOptions) : Prop :=
  ∀ count, options.messageCount = some count →
    Holds maximumEvents count.1.toNat options.burstSize.1.toNat

/-! ## The demonstration -/

def Succeeds {α : Type} (program : Simulation α) (engine : Engine) : Prop :=
  ∃ value, (program.outcome serve engine).result = .ok value

theorem not_succeeds {α : Type} {program : Simulation α} {engine : Engine} {fault : Fault}
    (threw : (program.outcome serve engine).result = .error fault) : ¬Succeeds program engine := by
  rintro ⟨value, returned⟩
  rw [threw] at returned
  cases returned

/-- Printing what a program returns goes as the program does. -/
theorem succeeds_print {α : Type} (program : Simulation α) (text : α → Bytes) {engine : Engine} :
    Succeeds (do let result ← program; print (text result)) engine ↔ Succeeds program engine := by
  unfold Succeeds
  rw [Program.outcome_bind]
  obtain ⟨server, printed, result⟩ := program.outcome serve engine
  cases result with
  | error fault => exact iff_of_false (by simp) (by simp)
  | ok value => exact iff_of_true ⟨(), rfl⟩ ⟨value, rfl⟩

section Demonstration
variable {endian : Endian} {network : Network} {n : Nat} {publisher : MulticastPublisher}

/-- The publisher has sent some updates and can number another one. -/
structure Ready (network : Network) (n : Nat) (publisher : MulticastPublisher) : Prop where
  sequenced : publisher.Sequenced network
  count : publisher.sends.length = n
  more : publisher.encoder.sequenceExhausted = false

/-- What a command of the demonstration is answered with. -/
inductive OneUpdate : List Event → Prop
  | mk {answer update : Event} (other : isBookUpdated answer = false)
      (updates : isBookUpdated update = true) (publishable : update.Publishable) : OneUpdate [answer, update]

theorem Ready.publishEvents (endian : Endian) (ready : Ready network n publisher)
    (room : n + 2 < 2 ^ 64) {events : List Event} (one : OneUpdate events) :
    ∃ after outcome, MulticastPublisher.publishEvents endian network events publisher {} =
        (after, outcome) ∧
      (network.Completes n → Ready network (n + 1) after ∧ ∃ result, outcome = .ok result) ∧
      (¬network.Completes n → ∃ fault, outcome = .error fault) := by
  have sequenced : (MulticastPublisher.publishEvents endian network events publisher {}).1.Sequenced
      network := ready.sequenced.publishEvents {}
  cases one with
  | @mk answer update other updates publishable =>
    cases update with
    | bookUpdated instrument direction bestPrice totalSize =>
      obtain ⟨l, rfl⟩ := publishable.2.1
      obtain ⟨bytes, encoded, decoded⟩ := FeedEncoder.encode_update endian publishable ready.more
      have size : bytes.length = packetSize := length_encode endian (encode_decode endian decoded)
      have ignored : publisher.encoder.encode endian answer = .ok (publisher.encoder, none) := by
        cases answer with
        | bookUpdated => cases other
        | _ => rfl
      have number := ready.sequenced.next ready.more
      have notLast : publisher.encoder.nextSequence ≠ maximumSequence := by
        intro last
        rw [last, SequencedBuffer.toNat_maximumSequence, ready.count] at number
        omega
      have more : publisher.encoder.advance.sequenceExhausted = false := by
        rw [FeedEncoder.advance, dif_neg notLast]
        exact ready.more
      rw [MulticastPublisher.publishEvents, ignored] at sequenced ⊢
      simp only at sequenced ⊢
      rw [MulticastPublisher.publishEvents, encoded, ready.count] at sequenced ⊢
      simp only at sequenced ⊢
      cases answered : network n with
      | threw what =>
        refine ⟨_, _, rfl, fun completes => ?_, fun _ => ⟨_, rfl⟩⟩
        rw [Network.Completes, answered] at completes
        cases completes
      | sent bytesSent =>
        rw [answered] at sequenced
        simp only [Network.Completes, answered, SendAnswer.sent.injEq, size] at sequenced ⊢
        by_cases whole : bytesSent = packetSize
        · subst whole
          rw [if_neg (not_not.mpr rfl)] at sequenced ⊢
          refine ⟨_, _, rfl, fun _ => ⟨⟨sequenced, ?_, more⟩, _, rfl⟩, fun short => absurd rfl short⟩
          rw [List.length_append, List.length_singleton, ready.count]
        · rw [if_pos whole]
          exact ⟨_, _, rfl, fun same => absurd same whole, fun _ => ⟨_, rfl⟩⟩
    | _ => cases updates

theorem publishEvents_returned {events : List Event} {after : MulticastPublisher}
    {result : PublishResult}
    (sent : MulticastPublisher.publishEvents endian network events publisher {} = (after, .ok result))
    (engine : Engine) : ∃ printed,
      (Simulator.publishEvents endian network publisher events).outcome serve engine =
        { server := engine, printed, result := .ok after } := by
  unfold Simulator.publishEvents
  rw [Program.outcome_bind, publish_returned sent]
  simp only
  split <;> exact ⟨_, rfl⟩

theorem publishEvents_threw {events : List Event} {after : MulticastPublisher} {fault : PublishFault}
    (sent : MulticastPublisher.publishEvents endian network events publisher {} = (after, .error fault))
    (engine : Engine) : ∃ printed,
      (Simulator.publishEvents endian network publisher events).outcome serve engine =
        { server := engine, printed, result := .error (.publisher fault) } := by
  unfold Simulator.publishEvents
  rw [Program.outcome_bind, publish_threw sent]
  exact ⟨_, rfl⟩

/-- A command and the publication of its events, with the rest of the demonstration behind it. -/
theorem Ready.stage (endian : Endian) (ready : Ready network n publisher) (room : n + 2 < 2 ^ 64)
    {engine after : Engine} {request : Request} {events : List Event}
    (served : serve engine request = (after, .ok (.events events))) (one : OneUpdate events)
    (next : MulticastPublisher → Simulation Unit) :
    ∃ published, (network.Completes n → Ready network (n + 1) published) ∧
      (Succeeds (do next (← Simulator.publishEvents endian network publisher
          (← Program.ask request emitted))) engine ↔
        network.Completes n ∧ Succeeds (next published) after) := by
  obtain ⟨published, outcome, sent, goes, ends⟩ := ready.publishEvents endian room one
  refine ⟨published, fun completes => (goes completes).1, ?_⟩
  have asked : (Program.ask request emitted).outcome serve engine =
      { server := after, printed := [], result := .ok events } := by
    rw [Program.outcome, served]
    rfl
  unfold Succeeds
  rw [Program.outcome_bind, asked]
  simp only [Outcome.behind]
  rw [Program.outcome_bind]
  by_cases completes : network.Completes n
  · obtain ⟨result, rfl⟩ := (goes completes).2
    obtain ⟨printed, ran⟩ := publishEvents_returned sent after
    rw [ran]
    exact (and_iff_right completes).symm
  · obtain ⟨fault, rfl⟩ := ends completes
    obtain ⟨printed, ran⟩ := publishEvents_threw sent after
    rw [ran]
    exact iff_of_false (by simp) fun both => completes both.1

def buy : Request :=
  .command (.submit (makeLimitOrder 1 1 .buy ⟨100, Matching.Price.hundred_ne_zero⟩ ⟨10⟩))
def sell : Request :=
  .command (.submit (makeLimitOrder 2 1 .sell ⟨101, Matching.Price.hundredOne_ne_zero⟩ ⟨8⟩))
def withdraw : Request := .command (.cancel { key := { user := ⟨1⟩, clientOrder := ⟨1⟩ } })

/-- The answers to the three commands. -/
theorem demonstration_served : ∃ bought sold withdrawn,
    serve {} buy = (bought, .ok (.events [.submitAccepted { user := ⟨1⟩, clientOrder := ⟨1⟩ },
      .bookUpdated ⟨1⟩ .buy (some ⟨100, by decide⟩) 10])) ∧
    serve bought sell = (sold, .ok (.events [.submitAccepted { user := ⟨2⟩, clientOrder := ⟨1⟩ },
      .bookUpdated ⟨1⟩ .sell (some ⟨101, by decide⟩) 8])) ∧
    serve sold withdraw = (withdrawn, .ok (.events [.orderCancelled { user := ⟨1⟩, clientOrder := ⟨1⟩ },
      .bookUpdated ⟨1⟩ .buy none 0])) :=
  ⟨_, _, _, rfl, rfl, rfl⟩

theorem demonstrate_succeeds (endian : Endian) (network : Network) :
    Succeeds (demonstrate endian network) {} ↔ ∀ n < 3, network.Completes n := by
  have ready : Ready network 0 {} := ⟨MulticastPublisher.sequenced_initial network, rfl, rfl⟩
  obtain ⟨bought, sold, withdrawn, servedBuy, servedSell, servedCancel⟩ := demonstration_served
  have all : (∀ n < 3, network.Completes n) ↔
      network.Completes 0 ∧ network.Completes 1 ∧ network.Completes 2 := by
    constructor
    · intro completes
      exact ⟨completes 0 (by omega), completes 1 (by omega), completes 2 (by omega)⟩
    · intro ⟨first, second, third⟩ n below
      match n, below with
      | 0, _ => exact first
      | 1, _ => exact second
      | 2, _ => exact third
  rw [all]
  unfold demonstrate
  obtain ⟨one, readyOne, first⟩ := ready.stage endian (by omega) servedBuy
    (.mk rfl rfl ⟨symbol_positive, ⟨.bids, rfl⟩, by decide⟩) _
  apply first.trans
  apply and_congr_right
  intro completes
  obtain ⟨two, readyTwo, second⟩ := (readyOne completes).stage endian (by omega) servedSell
    (.mk rfl rfl ⟨symbol_positive, ⟨.asks, rfl⟩, by decide⟩) _
  apply second.trans
  apply and_congr_right
  intro completes
  obtain ⟨three, -, third⟩ := (readyTwo completes).stage endian (by omega) servedCancel
    (.mk rfl rfl ⟨symbol_positive, ⟨.bids, rfl⟩, by decide⟩) _
  exact third.trans (and_iff_left ⟨(), rfl⟩)

end Demonstration

/-! ## The process -/

/-- How the messages of a load go on a network. -/
theorem exists_course (network : Network) (stop : Nat) : ∃ reached ok,
    Course network 0 stop reached ok ∧ (ok = true ↔ ∀ n < stop, network.Completes n) := by
  classical
  by_cases all : ∀ n < stop, network.Completes n
  · exact ⟨stop, true, .completes fun n _ below => all n below, iff_of_true rfl all⟩
  · have fails : ∃ n, n < stop ∧ ¬network.Completes n := by
      simpa only [not_forall, exists_prop] using all
    obtain ⟨below, incomplete⟩ := Nat.find_spec fails
    refine ⟨_, false, .fails (Nat.zero_le _) below (fun m _ before => ?_) incomplete, by simp [all]⟩
    by_contra short
    exact Nat.find_min fails before ⟨by omega, short⟩

theorem publishLoad_succeeds (endian : Endian) (network : Network) (maximumEvents : Nat)
    (options : SimulatorOptions) (count : { count : UInt64 // count ≠ 0 })
    (fits : Fits count.1.toNat options.burstSize.1.toNat) :
    Succeeds (publishLoad endian network maximumEvents options count) {} ↔
      Holds maximumEvents count.1.toNat options.burstSize.1.toNat ∧
        ∀ n < count.1.toNat, network.Completes n := by
  by_cases holds : Holds maximumEvents count.1.toNat options.burstSize.1.toNat
  case neg =>
    obtain ⟨after, threw⟩ := publishLoad_throws endian network options count holds
    exact iff_of_false (not_succeeds (congrArg Outcome.result threw)) fun both => holds both.1
  rw [and_iff_right holds]
  obtain ⟨reached, ok, course, all⟩ := exists_course network count.1.toNat
  obtain ⟨after, printed, outcome, ran, -, succeeds, fails⟩ :=
    publishLoad_outcome endian options count fits holds course
  have ended := congrArg Outcome.result ran
  rw [← all]
  cases ok with
  | true => exact iff_of_true ⟨_, ended.trans (succeeds rfl)⟩ rfl
  | false =>
    obtain ⟨fault, rfl⟩ := fails rfl
    exact iff_of_false (not_succeeds ended) (by decide)

/-- A simulation returns just when its bursts are held and the network takes all of its messages. -/
theorem simulate_succeeds (endian : Endian) (network : Network) (maximumEvents : Nat)
    (options : SimulatorOptions) (fits : ∀ count, options.messageCount = some count →
      Fits count.1.toNat options.burstSize.1.toNat) (timing : Timing) :
    Succeeds (simulate endian network maximumEvents options timing) {} ↔
      BurstsHeld maximumEvents options ∧ ∀ n < messages options, network.Completes n := by
  unfold simulate messages BurstsHeld
  cases configured : options.messageCount with
  | none => exact (demonstrate_succeeds endian network).trans (and_iff_right (by simp)).symm
  | some count =>
    have load := publishLoad_succeeds endian network maximumEvents options count
      (fits count configured)
    simp only [Option.some.injEq, forall_eq']
    exact (succeeds_print _ (summary options timing)).trans load

theorem main_ok {endian : Endian} {network : Network} {maximumEvents : Nat} {arguments : List Bytes}
    {opened : SimulatorOptions → Except Bytes Unit} {timing : Timing}
    {client : Client Emission Fault Unit} :
    main endian network maximumEvents arguments opened timing = .ok client ↔
      ∃ options, parseOptions arguments = .ok options ∧ opened options = .ok () ∧
        client = .make commandCapacity (simulate endian network maximumEvents options timing) := by
  unfold main
  cases parseOptions arguments with
  | error what => exact ⟨nofun, nofun⟩
  | ok options =>
    simp only [Except.ok.injEq, exists_eq_left']
    cases opened options with
    | error what => exact ⟨nofun, nofun⟩
    | ok opened =>
      exact ⟨fun same => ⟨rfl, (Except.ok.inj same).symm⟩, fun same => congrArg _ same.2.symm⟩

/-- Whatever the threads do, the process has one exit code, if the counter of its bursts does not
wrap, and it is zero exactly when the command line is accepted, the socket opens for its options, a
vector holds the events of each burst, and the network takes each of the messages. -/
theorem simulator_exits_zero_iff (endian : Endian) (network : Network) (maximumEvents : Nat)
    (arguments : List Bytes) (opened : SimulatorOptions → Except Bytes Unit) (timing : Timing)
    (fits : ∀ options count, parseOptions arguments = .ok options →
      options.messageCount = some count → Fits count.1.toNat options.burstSize.1.toNat) :
    ∃ code, (∀ other, Exits (main endian network maximumEvents arguments opened timing) other ↔
        other = code) ∧
      (code = 0 ↔ ∃ options, parseOptions arguments = .ok options ∧ opened options = .ok () ∧
        BurstsHeld maximumEvents options ∧ ∀ n < messages options, network.Completes n) := by
  cases started : main endian network maximumEvents arguments opened timing with
  | error what =>
    refine ⟨1, fun other => ⟨fun exits => ?_, fun same => same ▸ .refused what⟩, nofun, ?_⟩
    · cases exits
      rfl
    · rintro ⟨options, parsed, opens, -⟩
      have runs : main endian network maximumEvents arguments opened timing =
          .ok (.make commandCapacity (simulate endian network maximumEvents options timing)) :=
        main_ok.mpr ⟨options, parsed, opens, rfl⟩
      rw [started] at runs
      cases runs
  | ok client =>
    obtain ⟨options, parsed, opens, rfl⟩ := main_ok.mp started
    generalize simulation : simulate endian network maximumEvents options timing = body
    have room : 0 < commandCapacity := by decide
    have standing := Client.standing_make room body
    refine ⟨exitCode (.ok (body.outcome serve {}).result), fun other => ⟨fun exits => ?_, ?_⟩, ?_⟩
    · cases exits with
      | finished ran place =>
        obtain ⟨left, -, stands⟩ := standing.run ran
        rw [stands.result_of_finished place]
    · rintro rfl
      obtain ⟨turns, final, ran, returned⟩ := standing.finishes
      exact .finished ran returned.place
    · have succeeds := simulate_succeeds endian network maximumEvents options
        (fun count configured => fits options count parsed configured) timing
      rw [simulation] at succeeds
      have zero : exitCode (.ok (body.outcome serve {}).result) = 0 ↔ Succeeds body {} := by
        unfold Succeeds
        cases (body.outcome serve {}).result with
        | error fault => exact ⟨nofun, nofun⟩
        | ok value => exact iff_of_true rfl ⟨value, rfl⟩
      rw [zero, succeeds, parsed]
      constructor
      · exact fun both => ⟨options, rfl, opens, both⟩
      · rintro ⟨other, same, -, both⟩
        obtain rfl := Except.ok.inj same
        exact both

theorem simulator_of_two_exits_zero :
    Exits (main networkOrder (fun _ => .sent packetSize) 4 [ascii "--messages", ascii "2"]
      (fun _ => .ok ()) ⟨[], []⟩) 0 := by
  let options : SimulatorOptions := { messageCount := some ⟨2, by decide⟩ }
  have parsed : parseOptions [ascii "--messages", ascii "2"] = .ok options := by decide
  obtain ⟨code, exits, zero⟩ := simulator_exits_zero_iff networkOrder (fun _ => .sent packetSize) 4
    [ascii "--messages", ascii "2"] (fun _ => .ok ()) ⟨[], []⟩ fun other count same configured => by
      obtain rfl := Except.ok.inj (parsed.symm.trans same)
      obtain rfl := Option.some.inj configured
      exact fits_of_le (by decide)
  have held : BurstsHeld 4 options := by
    intro count configured
    obtain rfl := Option.some.inj configured
    unfold Holds
    decide
  have succeeds : code = 0 := zero.mpr ⟨options, parsed, rfl, held, fun _ _ => rfl⟩
  exact (exits 0).mpr succeeds.symm

end MarketLab.MarketData.Simulator

import MarketLab.MarketData.ListenerOutcome
import MarketLab.MarketData.SimulatorRuns
import MarketLab.Runtime.Sequential

/-!
# From the simulator to a listener

A load goes through the runner, the encoder, the socket and whatever order the network brings the
datagrams in, to a listener that waits for as many packets as the load has messages.
-/
namespace MarketLab.MarketData.Simulator
open MarketLab.Collections MarketLab.Control MarketLab.Runtime MarketLab.Text

/-- The packets of a load, in order. -/
def loadPackets (messages : Nat) : List Packet := (List.range' 1 messages).map loadPacket

section Load
variable {endian : Endian} {network : Network}

/-- The whole simulation with a load and a network that takes everything. -/
theorem simulate_outcome (endian : Endian) {maximumEvents : Nat} {options : SimulatorOptions}
    {count : { count : UInt64 // count ≠ 0 }} (configured : options.messageCount = some count)
    (fits : Fits count.1.toNat options.burstSize.1.toNat)
    (holds : Holds maximumEvents count.1.toNat options.burstSize.1.toNat)
    (completes : ∀ n < count.1.toNat, network.Completes n) (timing : Timing) :
    let outcome := (simulate endian network maximumEvents options timing).outcome serve {}
    outcome.result = .ok () ∧
      outcome.printed.filterMap Emission.send? = loadSends endian network count.1.toNat := by
  obtain ⟨after, printed, result, ran, sends, succeeds, -⟩ := publishLoad_outcome endian options count
    fits holds (.completes fun n _ below => completes n below)
  obtain rfl := succeeds rfl
  unfold simulate
  rw [configured]
  simp only
  rw [Program.outcome_bind, ran]
  refine ⟨rfl, ?_⟩
  rw [← sends]
  simp only [print, Program.outcome, Outcome.behind, List.filterMap_append]
  exact List.append_nil _

theorem loadPackets_sequences {messages : Nat} (bounded : messages < 2 ^ 64) :
    (loadPackets messages).map (fun packet => packet.sequence.toNat) = List.range' 1 messages := by
  unfold loadPackets
  rw [List.map_map]
  refine (List.map_congr_left fun message member => ?_).trans (List.map_id _)
  have inside := List.mem_range'_1.mp member
  exact UInt64.toNat_ofNat_of_lt' (by rw [UInt64.size]; omega)

theorem loadPackets_increase {messages : Nat} (bounded : messages < 2 ^ 64) :
    (loadPackets messages).Pairwise fun earlier later => earlier.sequence < later.sequence := by
  have increase : (List.range' 1 messages).Pairwise (· < ·) := List.pairwise_lt_range'
  rw [← loadPackets_sequences bounded, List.pairwise_map] at increase
  exact increase.imp UInt64.lt_iff_toNat_lt.mpr

section Arrivals
variable {arrivals : List Datagram}

/-- Whole datagrams with the bytes that were sent carry the packets that were sent. -/
theorem packets_of_load {messages : Nat} (bounded : messages < 2 ^ 64)
    (whole : ∀ datagram ∈ arrivals, datagram.status = .complete)
    (sent : (arrivals.map Datagram.bytes).Perm
      ((loadSends endian network messages).map fun send => send.datagram.bytes)) :
    (Listener.packets endian arrivals).Perm (loadPackets messages) := by
  have read : Listener.packets endian arrivals =
      (arrivals.map Datagram.bytes).filterMap fun bytes => (decode endian bytes).toOption := by
    rw [List.filterMap_map]
    refine List.filterMap_congr fun datagram member => ?_
    unfold Datagram.packet?
    rw [whole datagram member]
    rfl
  have written : ((loadSends endian network messages).map fun send => send.datagram.bytes).filterMap
      (fun bytes => (decode endian bytes).toOption) = loadPackets messages := by
    unfold loadSends loadPackets
    rw [List.map_map, List.filterMap_map, ← List.filterMap_eq_map]
    refine List.filterMap_congr fun message member => ?_
    have inside := List.mem_range'_1.mp member
    have encoded := encode_loadPacket endian message (by omega) (by omega)
    simp only [Function.comp_apply, loadSend, decode_encode endian encoded]
    rfl
  rw [read, ← written]
  exact sent.filterMap _

/-- The packets of a load begin with the first and none overtakes another by more than the gap. -/
structure InTime (packets : List Packet) : Prop where
  begins : packets.head?.map Packet.sequence = some 1
  tolerated : packets.Pairwise (WithinGap maximumSequenceGap)

theorem load_carried {messages : Nat} (count : (Listener.packets endian arrivals).length = messages)
    (received : arrivals.length = messages) :
    List.Forall₂ (Datagram.Carries endian) arrivals (Listener.packets endian arrivals) :=
  Listener.forall₂_carries_iff.mpr ⟨rfl, count.trans received.symm⟩

theorem oneStretch_load {messages : Nat} (bounded : messages < 2 ^ 64) (some_ : 0 < messages)
    {packets : List Packet} (load : packets.Perm (loadPackets messages)) :
    OneStretch packets ↔ packets.head?.map Packet.sequence = some 1 := by
  have numbers := load.map fun packet => packet.sequence.toNat
  rw [loadPackets_sequences bounded] at numbers
  have length : packets.length = messages := by
    rw [load.length_eq, loadPackets, List.length_map, List.length_range']
  cases packets with
  | nil =>
    rw [← length] at some_
    exact absurd some_ (Nat.lt_irrefl 0)
  | cons first rest =>
    constructor
    · intro stretch
      have own := stretch first rfl
      -- One is among the sequences, and the first packet's is the least of them.
      have least : 1 ∈ List.range' first.sequence.toNat (first :: rest).length := by
        rw [← own.mem_iff, numbers.mem_iff]
        exact List.mem_range'_1.mpr ⟨Nat.le_refl 1, by omega⟩
      have positive : first.sequence.toNat ∈ List.range' 1 messages := by
        rw [← numbers.mem_iff]
        exact List.mem_cons_self
      rw [List.mem_range'_1] at least positive
      exact congrArg some (UInt64.toNat_inj.mp (Nat.le_antisymm least.1 positive.1))
    · intro begins packet head
      obtain rfl := Option.some.inj head
      rw [Option.some.inj begins, length]
      exact numbers

theorem deliveredOf_le (endian : Endian) (arrivals : List Datagram) :
    Listener.deliveredOf endian arrivals ≤ (Listener.packets endian arrivals).length := by
  obtain ⟨buffer, calls, ordered, -⟩ :=
    Session.run_ordered listenerConfig (Listener.packets endian arrivals)
  have accepted := ordered.accepted.length_eq
  have called := congrArg List.length ordered.called
  have atMost := List.length_filter_le ProcessCall.Accepted calls
  rw [List.length_map, List.length_append] at accepted
  rw [List.length_map] at called
  unfold Listener.deliveredOf
  omega

/-- Where everything that arrived is delivered, the session is clean. -/
theorem clean_of_delivered {packets : List Packet}
    (all : packets.length ≤ (listenerConfig.deliveries packets).length) :
    (Session.run listenerConfig record [] packets).Clean := by
  obtain ⟨buffer, calls, ordered, ran⟩ := Session.run_ordered listenerConfig packets
  have accepted := ordered.accepted.length_eq
  have called := congrArg List.length ordered.called
  have atMost := List.length_filter_le ProcessCall.Accepted calls
  rw [List.length_map, List.length_append, List.length_map] at accepted
  rw [List.length_map] at called
  have none : buffer.pending.entries.length = 0 := by omega
  have every : ∀ call ∈ calls, call.Accepted = true :=
    List.length_filter_eq_length_iff.mp (by omega)
  rw [ran]
  exact ⟨every, none⟩

/-- A load comes through just when it arrives in time. -/
theorem comesThrough_iff_inTime {messages : Nat} (bounded : messages < 2 ^ 64) (some_ : 0 < messages)
    (received : arrivals.length = messages)
    (load : (Listener.packets endian arrivals).Perm (loadPackets messages)) :
    Listener.ComesThrough endian arrivals (Listener.packets endian arrivals) ↔
      InTime (Listener.packets endian arrivals) := by
  have length : (Listener.packets endian arrivals).length = messages := by
    rw [load.length_eq, loadPackets, List.length_map, List.length_range']
  have begins := oneStretch_load bounded some_ load
  constructor
  · rintro ⟨-, stretch, tolerated⟩
    exact ⟨begins.mp stretch, tolerated⟩
  · rintro ⟨first, tolerated⟩
    exact ⟨load_carried length received, begins.mpr first, tolerated⟩

/-- A listener that waits for the whole load leaves its loop just when the load arrives in time,
and then with everything received. -/
theorem left_iff_inTime (options : ListenerOptions) {count : { count : UInt64 // count ≠ 0 }}
    (received : arrivals.length = count.1.toNat)
    (load : (Listener.packets endian arrivals).Perm (loadPackets count.1.toNat)) :
    let waiting := { options with stopAfter := some count }
    let phase := listen endian waiting (arrivals.map .datagram)
    ((∃ listener, phase = .left listener) ↔ InTime (Listener.packets endian arrivals)) ∧
      ∀ listener, phase = .left listener → listener.Accounts endian waiting arrivals ∧
        Listener.ComesThrough endian arrivals (Listener.packets endian arrivals) := by
  intro waiting phase
  have through := comesThrough_iff_inTime count.1.toNat_lt (count_positive count) received load
  have length : (Listener.packets endian arrivals).length = count.1.toNat := by
    rw [load.length_eq, loadPackets, List.length_map, List.length_range']
  rcases Listener.listen_datagrams endian waiting arrivals with
    ⟨listener, listening, accounts, below⟩ |
      ⟨listener, front, later, other, left, split, accounts, configured, reaches⟩
  · have short := below count rfl arrivals List.prefix_rfl
    have never : ∀ other, phase ≠ .left other := fun other left => by
      cases listening.symm.trans left
    refine ⟨⟨fun ⟨other, left⟩ => absurd left (never other), fun inTime => ?_⟩,
      fun other left => absurd left (never other)⟩
    have all := (Listener.clean_of_comesThrough (through.mpr inTime) record []).2.length_eq
    unfold Listener.deliveredOf at short
    omega
  · obtain rfl := Option.some.inj configured
    -- What reached the count is everything that arrived.
    have enough := reaches.1
    have atMost := deliveredOf_le endian front
    have fewer : (Listener.packets endian front).length ≤ front.length := List.length_filterMap_le _ _
    have lengths := congrArg List.length split
    rw [List.length_append] at lengths
    obtain rfl : later = [] := List.eq_nil_of_length_eq_zero (by omega)
    rw [List.append_nil] at split
    subst split
    have clean := clean_of_delivered (length.trans_le enough)
    obtain ⟨stretch, tolerated⟩ := Session.stretch_of_clean clean
    have comes : Listener.ComesThrough endian arrivals (Listener.packets endian arrivals) :=
      ⟨load_carried length received, stretch, tolerated⟩
    refine ⟨⟨fun _ => through.mp comes, fun _ => ⟨listener, left⟩⟩, fun other same => ?_⟩
    obtain rfl := Phase.left.inj (left.symm.trans same)
    exact ⟨accounts, comes⟩

end Arrivals
end Load

/-- Under every schedule of the simulator and its engine's worker that comes to an end, with bursts
whose counter does not wrap and that a vector holds, and over a network that takes every send, whole
datagrams with what was sent come, each once and in any order, to a listener that stops after as many
packets. It stops just when the first packet comes first and none overtakes another by more than the
gap limit; then it has printed the messages in order, counts all of them, reports no error and exits
with zero. -/
theorem load_reaches_the_listener (endian : Endian) (network : Network) (maximumEvents : Nat)
    (options : SimulatorOptions) {count : { count : UInt64 // count ≠ 0 }}
    (configured : options.messageCount = some count)
    (fits : Fits count.1.toNat options.burstSize.1.toNat)
    (holds : Holds maximumEvents count.1.toNat options.burstSize.1.toNat)
    (completes : ∀ n < count.1.toNat, network.Completes n) (timing : Timing)
    {turns : List Turn} {client : Client Emission Fault Unit}
    (ran : turns.foldlM Client.step
      (Client.make commandCapacity (simulate endian network maximumEvents options timing)) = some client)
    (stuck : ∀ turn, client.step turn = none) {arrivals : List Datagram}
    (whole : ∀ datagram ∈ arrivals, datagram.status = .complete)
    (sent : (arrivals.map Datagram.bytes).Perm
      ((client.printed.filterMap Emission.send?).map fun send => send.datagram.bytes))
    (listenerOptions : ListenerOptions) (clock : MarketData.Timing) :
    let waiting := { listenerOptions with stopAfter := some count }
    let phase := listen endian waiting (arrivals.map .datagram)
    client.place = .finished (.ok (.ok ())) ∧
    ((∃ listener, phase = .left listener) ↔ InTime (Listener.packets endian arrivals)) ∧
    ∀ listener, phase = .left listener → listener.finish clock =
      { printed := Listener.banner waiting ++
          (if waiting.quiet then [] else (loadPackets count.1.toNat).flatMap packetLine) ++
          Listener.summary { datagrams := count.1.toNat, decoded := count.1.toNat
                             delivered := count.1.toNat
                             buffered := listener.counters.buffered } clock
        errors := []
        exitCode := 0 } := by
  intro waiting phase
  obtain ⟨result, sends⟩ := simulate_outcome endian configured fits holds completes timing
  have returned := Client.returned_of_stuck (by decide) ran stuck
  rw [returned.printed, sends] at sent
  have load := packets_of_load count.1.toNat_lt whole sent
  have received : arrivals.length = count.1.toNat := by
    have lengths := sent.length_eq
    rwa [List.length_map, List.length_map, loadSends, List.length_map, List.length_range'] at lengths
  obtain ⟨stops, leaves⟩ := left_iff_inTime listenerOptions received load
  refine ⟨by rw [returned.place, result], stops, fun listener left => ?_⟩
  obtain ⟨accounts, through⟩ := leaves listener left
  obtain ⟨delivered, same, increasing, finished⟩ := accounts.finish_of_comesThrough through clock
  have inOrder : delivered = loadPackets count.1.toNat :=
    List.Perm.eq_of_pairwise (fun _ _ _ _ less more => absurd more (UInt64.lt_asymm less)) increasing
      (loadPackets_increase count.1.toNat_lt) (same.trans load)
  have length : (Listener.packets endian arrivals).length = count.1.toNat := by
    rw [load.length_eq, loadPackets, List.length_map, List.length_range']
  rw [finished, inOrder, length]

/-- Two messages in bursts of one, which arrive as they were sent. -/
theorem load_of_two_reaches_the_listener :
    let count : { count : UInt64 // count ≠ 0 } := ⟨2, by decide⟩
    let options : SimulatorOptions := { messageCount := some count, burstSize := ⟨1, by decide⟩ }
    let network : Network := fun _ => .sent packetSize
    let turns := List.replicate 6 Turn.client ++ List.replicate 2 (.worker 0) ++
      List.replicate 5 .client ++ List.replicate 2 (.worker 0) ++ List.replicate 9 .client ++
      [.worker 0, .client]
    let datagram (message : Nat) : Datagram :=
      { bytes := (loadDatagram networkOrder message).bytes.take packetSize
        fits := Nat.le_trans (List.length_take_le _ _) (by decide)
        status := .complete
        sender := { address := ascii "10.0.0.1", port := 30001 } }
    ∃ client listener, turns.foldlM Client.step (Client.make commandCapacity
        (simulate networkOrder network 2 options ⟨[], []⟩)) = some client ∧
      listen networkOrder { stopAfter := some count } ([1, 2].map fun message =>
        .datagram (datagram message)) = .left listener ∧
      (listener.finish ⟨[], []⟩).exitCode = 0 := by
  intro count options network turns datagram
  have configured : options.messageCount = some count := rfl
  have fits : Fits count.1.toNat options.burstSize.1.toNat := fits_of_le (by decide)
  have holds : Holds 2 count.1.toNat options.burstSize.1.toNat := by
    unfold Holds
    decide
  have completes : ∀ n < count.1.toNat, network.Completes n := fun _ _ => rfl
  obtain ⟨client, ran⟩ : ∃ client, turns.foldlM Client.step (Client.make commandCapacity
      (simulate networkOrder network 2 options ⟨[], []⟩)) = some client :=
    Option.isSome_iff_exists.1 (by decide)
  obtain ⟨left, steps, standing⟩ := Client.run_standing (by decide) ran
  obtain rfl : left = 0 := by
    have whole : turns.length =
        (simulate networkOrder network 2 options ⟨[], []⟩).steps serve 5 {} + 11 := by decide
    omega
  have returned := standing.returned
  have whole : ∀ arrival ∈ [datagram 1, datagram 2], arrival.status = .complete := by
    simp [datagram]
  have sends := (simulate_outcome networkOrder configured fits holds completes ⟨[], []⟩).2
  have sent : ([datagram 1, datagram 2].map Datagram.bytes).Perm
      ((client.printed.filterMap Emission.send?).map fun send => send.datagram.bytes) := by
    rw [returned.printed, sends]
    decide
  have inTime : InTime (Listener.packets networkOrder [datagram 1, datagram 2]) :=
    ⟨by decide, by decide⟩
  have reaches := load_reaches_the_listener networkOrder network 2 options configured fits holds completes
    ⟨[], []⟩ ran returned.stuck whole sent {} ⟨[], []⟩
  obtain ⟨listener, stops⟩ := reaches.2.1.mpr inTime
  exact ⟨client, listener, ran, stops, congrArg Report.exitCode (reaches.2.2 listener stops)⟩

end MarketLab.MarketData.Simulator

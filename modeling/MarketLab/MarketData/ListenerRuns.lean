import MarketLab.MarketData.Listener
import MarketLab.MarketData.Reordering

/-!
# Runs of the listener

The loop of the listener is a session of its processor: what has arrived decides the session, and
the session the counters, the output and the exit code. Where the loop ends is decided by the
signals and by what was delivered.
-/
namespace MarketLab.MarketData
open MarketLab.Collections MarketLab.Text

/-- The packet a datagram carries. -/
def Datagram.packet? (endian : Endian) (datagram : Datagram) : Option Packet :=
  match datagram.status with
  | .truncated => none
  | .complete => (decode endian datagram.bytes).toOption

theorem Datagram.packet?_eq_some {endian : Endian} {datagram : Datagram} {packet : Packet} :
    datagram.packet? endian = some packet ↔ datagram.Carries endian packet := by
  unfold packet? Carries
  cases datagram.status with
  | truncated => simp
  | complete =>
    constructor
    · intro read
      cases decoded : decode endian datagram.bytes with
      | error error => simp [decoded, Except.toOption] at read
      | ok value =>
        obtain rfl : value = packet := by simpa [decoded, Except.toOption] using read
        exact ⟨rfl, encode_decode endian decoded⟩
    · rintro ⟨-, encoded⟩
      simp [decode_encode endian encoded, Except.toOption]

namespace Listener

/-- The packets among the arrivals. -/
def packets (endian : Endian) (arrivals : List Datagram) : List Packet :=
  arrivals.filterMap (Datagram.packet? endian)

/-- The session the listener's processor has with the packets. -/
def session (endian : Endian) (options : ListenerOptions) (arrivals : List Datagram) : Session Bytes :=
  .run listenerConfig options.consume (banner options) (packets endian arrivals)

/-- The listener has received these arrivals. -/
structure Accounts (endian : Endian) (options : ListenerOptions) (arrivals : List Datagram)
    (listener : Listener) : Prop where
  processor : listener.packetProcessor = (session endian options arrivals).processor
  printed : listener.printed = (session endian options arrivals).state
  datagrams : listener.counters.datagrams = arrivals.length
  decoded : listener.counters.decoded = (packets endian arrivals).length
  whole : listener.counters.decoded + listener.counters.truncated + listener.counters.malformed =
    arrivals.length
  delivered : listener.counters.delivered =
    ((session endian options arrivals).calls.map fun call => call.result.packetsDelivered).sum
  buffered : listener.counters.buffered =
    (session endian options arrivals).calls.countP fun call => call.result.ordering = .buffered
  rejected : listener.counters.rejected =
    listener.counters.truncated + listener.counters.malformed +
      (session endian options arrivals).calls.countP fun call => !call.Accepted
  invalid : listener.receivedInvalidPacket = decide (0 < listener.counters.rejected)
  silent : listener.counters.rejected = 0 → listener.errors = []

section Receive
variable {endian : Endian} {options : ListenerOptions} {arrivals : List Datagram}
  {listener : Listener} {datagram : Datagram}

theorem accounts_start (endian : Endian) (options : ListenerOptions) :
    Accounts endian options [] (start options) where
  processor := rfl
  printed := rfl
  datagrams := rfl
  decoded := rfl
  whole := rfl
  delivered := rfl
  buffered := rfl
  rejected := rfl
  invalid := rfl
  silent _ := rfl

theorem packets_snoc (endian : Endian) (arrivals : List Datagram) (datagram : Datagram) :
    packets endian (arrivals ++ [datagram]) =
      packets endian arrivals ++ (datagram.packet? endian).toList := by
  rw [packets, List.filterMap_append, packets]
  cases found : datagram.packet? endian <;> simp [found]

/-- A packet goes to the session. -/
theorem session_snoc (options : ListenerOptions) (arrivals : List Datagram) {packet : Packet}
    (carries : datagram.Carries endian packet) :
    session endian options (arrivals ++ [datagram]) =
      (session endian options arrivals).receive options.consume packet := by
  rw [session, packets_snoc, Datagram.packet?_eq_some.mpr carries, Option.toList_some,
    Session.run_snoc, session]

theorem session_same (options : ListenerOptions) (arrivals : List Datagram)
    (nothing : ∀ packet, ¬datagram.Carries endian packet) :
    session endian options (arrivals ++ [datagram]) = session endian options arrivals ∧
      packets endian (arrivals ++ [datagram]) = packets endian arrivals := by
  have none : datagram.packet? endian = none := Option.eq_none_iff_forall_ne_some.mpr
    fun packet found => nothing packet (Datagram.packet?_eq_some.mp found)
  have same : packets endian (arrivals ++ [datagram]) = packets endian arrivals := by
    rw [packets_snoc, none, Option.toList_none, List.append_nil]
  rw [session, same]
  exact ⟨rfl, rfl⟩

/-- A datagram without a packet is counted twice over and changes nothing else. -/
theorem Accounts.discard (accounts : listener.Accounts endian options arrivals)
    (nothing : ∀ packet, ¬datagram.Carries endian packet) {receiver : MulticastReceiver}
    {truncated malformed : Nat} (one : truncated + malformed =
      listener.counters.truncated + listener.counters.malformed + 1) (errors : Bytes) :
    Accounts endian options (arrivals ++ [datagram])
      { listener with
        receiver
        errors
        receivedInvalidPacket := true
        counters := { listener.counters with
          datagrams := listener.counters.datagrams + 1
          rejected := listener.counters.rejected + 1
          truncated
          malformed } } := by
  obtain ⟨same, packetsSame⟩ := session_same options arrivals nothing
  have whole := accounts.whole
  have rejected := accounts.rejected
  constructor
  · rw [same]
    exact accounts.processor
  · rw [same]
    exact accounts.printed
  · rw [List.length_append, accounts.datagrams]
    rfl
  · rw [packetsSame]
    exact accounts.decoded
  · rw [List.length_append, List.length_singleton]
    simp only
    omega
  · rw [same]
    exact accounts.delivered
  · rw [same]
    exact accounts.buffered
  · rw [same]
    simp only
    omega
  · simp
  · intro none
    simp at none

theorem Accounts.receive (accounts : listener.Accounts endian options arrivals) (datagram : Datagram) :
    (listener.receive endian options datagram).Accounts endian options (arrivals ++ [datagram]) := by
  unfold Listener.receive
  rcases listener.receiver.receive_cases endian datagram with
    ⟨packet, carries, received⟩ | ⟨nothing, ⟨-, received⟩ | ⟨-, error, -, received⟩⟩
  · have next := session_snoc options arrivals carries
    have more : packets endian (arrivals ++ [datagram]) = packets endian arrivals ++ [packet] := by
      rw [packets_snoc, Datagram.packet?_eq_some.mpr carries, Option.toList_some]
    simp only [received, handle]
    rw [accounts.processor, accounts.printed]
    unfold Session.receive at next
    split at next
    next processor printed result outcome =>
      rw [outcome]
      have whole := accounts.whole
      have decoded := accounts.decoded
      have rejected := accounts.rejected
      constructor
      · rw [next]
      · rw [next]
      · rw [List.length_append, accounts.datagrams, List.length_singleton]
      · rw [more, List.length_append, List.length_singleton, accounts.decoded]
      · rw [List.length_append, List.length_singleton]
        simp only
        omega
      · rw [next]
        simp [accounts.delivered]
      · rw [next]
        simp [accounts.buffered, List.countP_cons]
      · rw [next]
        simp only [rejected, List.countP_append, List.countP_singleton, ProcessCall.Accepted]
        cases result.ordering <;> simp <;> omega
      · rw [accounts.invalid]
        cases ordering : result.ordering <;> simp [ordering]
      · simp only
        intro none
        obtain ⟨before, accepted⟩ := Nat.add_eq_zero_iff.mp none
        rw [accounts.silent before, List.nil_append]
        cases ordering : result.ordering <;> simp [ordering, processingError] at accepted ⊢
    next thrown outcome => exact thrown.elim
  · simp only [received, handle]
    exact accounts.discard nothing (by omega) _
  · simp only [received, handle]
    exact accounts.discard nothing (by omega) _

end Receive
end Listener

/-! ## Clean sessions -/

/-- A processor without a configured start is one that was told its first packet's sequence. -/
theorem Session.run_first {σ : Type} (limits : SequencedBufferLimits) (consume : Consumer Empty σ)
    (start : σ) (packet : Packet) (rest : List Packet) :
    Session.run { sequenceLimits := limits, firstSequence := none } consume start (packet :: rest) =
      Session.run (.startingAt limits packet.sequence) consume start (packet :: rest) := by
  have pushed : ∀ first, first = none ∨ first = some packet.sequence →
      ({ limits, nextSequence := first } : SequencedBuffer Packet).push packet.sequence
        (fun _ => packet) = (SequencedBuffer.advanceAfter { limits, nextSequence := none }
          packet.sequence, .ready) := by
    rintro first (rfl | rfl)
    · rfl
    · simp [SequencedBuffer.push, SequencedBuffer.advanceAfter, UInt64.lt_irrefl]
  unfold run
  rw [List.foldl_cons, List.foldl_cons]
  unfold receive Processor.process Processor.initial ProcessorConfig.startingAt
  rw [pushed none (.inl rfl), pushed (some packet.sequence) (.inr rfl)]

/-- The packets are a stretch of the stream, once each, and its beginning comes first. -/
def OneStretch (packets : List Packet) : Prop :=
  ∀ first ∈ packets.head?, (packets.map fun packet => packet.sequence.toNat).Perm
    (List.range' first.sequence.toNat packets.length)

/-- A session is clean when nothing was discarded and nothing is left pending. -/
structure Session.Clean {σ : Type} (session : Session σ) : Prop where
  accepted : ∀ call ∈ session.calls, call.Accepted = true
  resolved : session.processor.pendingSize = 0

section Clean
variable {limits : SequencedBufferLimits} {packets : List Packet}

theorem Session.clean_of_stretch
    (covers : limits.maximumSequenceGap.toNat ≤ limits.maximumPendingValues)
    (stretch : OneStretch packets) (tolerated : packets.Pairwise (WithinGap limits.maximumSequenceGap))
    {σ : Type} (consume : Consumer Empty σ) (start : σ) :
    let config : ProcessorConfig := { sequenceLimits := limits, firstSequence := none }
    (Session.run config consume start packets).Clean ∧ (config.deliveries packets).Perm packets := by
  intro config
  cases packets with
  | nil => exact ⟨⟨fun call member => (by cases member), rfl⟩, .nil⟩
  | cons first rest =>
    have once := stretch first rfl
    have same : config.deliveries (first :: rest) =
        (ProcessorConfig.startingAt limits first.sequence).deliveries (first :: rest) :=
      congrArg Session.state (Session.run_first limits record [] first rest)
    rw [Session.run_first, same]
    have accepted := Session.accepts_all once covers tolerated consume start
    obtain ⟨buffer, calls, ordered, ran⟩ :=
      Session.run_ordered (.startingAt limits first.sequence) (first :: rest)
    rw [ran] at accepted ⊢
    have delivers := (ordered.delivers_all once accepted).1
    have whole := ordered.accepted
    rw [List.filter_eq_self.mpr accepted, ordered.called] at whole
    have lengths := (delivers.trans whole).length_eq
    rw [List.length_append, List.length_map] at lengths
    have none : buffer.pending.entries.length = 0 := by omega
    exact ⟨⟨accepted, none⟩, delivers⟩

theorem Session.stretch_of_clean {σ : Type} {consume : Consumer Empty σ} {start : σ}
    (clean : (Session.run { sequenceLimits := limits, firstSequence := none } consume start
      packets).Clean) :
    OneStretch packets ∧ packets.Pairwise (WithinGap limits.maximumSequenceGap) := by
  obtain ⟨buffer, calls, ordered, ran⟩ :=
    Session.run_ordered { sequenceLimits := limits, firstSequence := none } packets
  rw [ran] at clean
  have empty : buffer.pending.entries = [] := List.eq_nil_of_length_eq_zero clean.resolved
  have whole := ordered.accepted
  rw [List.filter_eq_self.mpr clean.accepted, ordered.called, empty, List.map_nil,
    List.append_nil] at whole
  have stretch : OneStretch packets := by
    intro first head
    have sequences := ordered.sequences first.sequence (by rw [ProcessorConfig.expected, head]; rfl)
    rw [whole.length_eq, ← sequences]
    exact whole.map _
  refine ⟨stretch, ?_⟩
  by_contra overtaken
  rw [List.pairwise_iff_forall_sublist] at overtaken
  push Not at overtaken
  obtain ⟨value, missed, pair, overtakes⟩ := overtaken
  cases packets with
  | nil => cases pair
  | cons first rest =>
    obtain ⟨call, made, -, ordering⟩ :=
      Session.refuses_one (stretch first rfl) pair overtakes consume start
    rw [← Session.run_first, ran] at made
    have accepted := clean.accepted call made
    rw [ProcessCall.Accepted, ordering] at accepted
    cases accepted

end Clean

/-- A call delivers its packet and what was pending. -/
theorem Session.delivers_at_most (config : ProcessorConfig) (packets : List Packet) (packet : Packet) :
    (config.deliveries (packets ++ [packet])).length ≤
      (config.deliveries packets).length + config.sequenceLimits.maximumSequenceGap.toNat + 1 := by
  obtain ⟨buffer, calls, ordered, windowed, -, ran⟩ := Session.run_windowed config packets
  obtain ⟨after, callsAfter, orderedAfter, ranAfter⟩ :=
    Session.run_ordered config (packets ++ [packet])
  have pending := windowed.pending_le_gap ordered
  have accepted := ordered.accepted.length_eq
  have acceptedAfter := orderedAfter.accepted.length_eq
  have more : ∃ call, callsAfter = calls ++ [call] := by
    have next := Session.run_snoc config record [] packets packet
    rw [ran, ranAfter, receive] at next
    split at next
    next result outcome => exact ⟨_, congrArg Session.calls next⟩
    next thrown outcome => exact thrown.elim
  obtain ⟨call, rfl⟩ := more
  have atMostOne : ([call].filter ProcessCall.Accepted).length ≤ 1 := List.length_filter_le _ _
  rw [SequencedBuffer.pendingSize, OrderedMap.size] at pending
  rw [List.length_map, List.length_append, List.length_map] at accepted acceptedAfter
  rw [List.filter_append, List.length_append] at acceptedAfter
  omega

/-! ## The loop -/

def Occurrence.datagram? : Occurrence → Option Datagram
  | .datagram arrival => some arrival
  | _ => none

theorem Occurrence.datagrams (arrivals : List Datagram) :
    (arrivals.map Occurrence.datagram).filterMap Occurrence.datagram? = arrivals := by
  rw [List.filterMap_map]
  exact List.filterMap_some

namespace Listener

/-- How many packets are delivered of what has arrived. -/
def deliveredOf (endian : Endian) (arrivals : List Datagram) : Nat :=
  (listenerConfig.deliveries (packets endian arrivals)).length

/-- What the session delivers is printed, unless the listener is quiet. -/
theorem consume_after (options : ListenerOptions) (printed : Bytes) (delivered : List Packet) :
    options.consume.after printed delivered =
      printed ++ if options.quiet then [] else delivered.flatMap packetLine := by
  unfold Consumer.after ListenerOptions.consume
  cases options.quiet with
  | true => simp
  | false =>
    induction delivered generalizing printed with
    | nil => simp
    | cons packet delivered ih =>
      rw [List.foldl_cons, ih]
      simp

section Loop
variable {endian : Endian} {options : ListenerOptions} {arrivals : List Datagram}
  {listener : Listener}

theorem Accounts.delivered_eq (accounts : listener.Accounts endian options arrivals) :
    listener.counters.delivered = deliveredOf endian arrivals := by
  obtain ⟨buffer, calls, ordered, ran⟩ :=
    Session.run_ordered listenerConfig (packets endian arrivals)
  rw [accounts.delivered, session, ran, deliveredOf]
  exact ordered.counted

/-- No prefix of the arrivals reaches the count. -/
def Below (endian : Endian) (options : ListenerOptions) (arrivals : List Datagram) : Prop :=
  ∀ count ∈ options.stopAfter, ∀ shorter, shorter <+: arrivals →
    deliveredOf endian shorter < count.1.toNat

/-- The arrivals reach the count, and no shorter prefix of them does. -/
def Reaches (endian : Endian) (count : Nat) (arrivals : List Datagram) : Prop :=
  count ≤ deliveredOf endian arrivals ∧
    ∀ shorter, shorter <+: arrivals → shorter ≠ arrivals → deliveredOf endian shorter < count

/-- How the loop stands to what has happened. -/
inductive Stands (endian : Endian) (options : ListenerOptions) : List Occurrence → Phase → Prop
  | listening {arrivals : List Datagram} {listener : Listener}
      (accounts : listener.Accounts endian options arrivals) (below : Below endian options arrivals) :
      Stands endian options (arrivals.map .datagram) (.listening listener)
  | interrupted {arrivals : List Datagram} {listener : Listener}
      (accounts : listener.Accounts endian options arrivals) (below : Below endian options arrivals)
      (rest : List Occurrence) {occurrence : Occurrence} (other : occurrence.datagram? = none) :
      Stands endian options (arrivals.map .datagram ++ occurrence :: rest) (.left listener)
  | stopped {arrivals : List Datagram} {listener : Listener}
      (accounts : listener.Accounts endian options arrivals)
      {count : { count : UInt64 // count ≠ 0 }} (configured : options.stopAfter = some count)
      (reaches : Reaches endian count.1.toNat arrivals) (rest : List Occurrence) :
      Stands endian options (arrivals.map .datagram ++ rest) (.left listener)
  | threw {arrivals : List Datagram} {listener : Listener}
      (accounts : listener.Accounts endian options arrivals) (below : Below endian options arrivals)
      (rest : List Occurrence) {occurrence : Occurrence} (other : occurrence.datagram? = none)
      (what : Bytes) :
      Stands endian options (arrivals.map .datagram ++ occurrence :: rest) (.threw listener what)

theorem Below.snoc (below : Below endian options arrivals) {datagram : Datagram}
    (short : ∀ count ∈ options.stopAfter,
      deliveredOf endian (arrivals ++ [datagram]) < count.1.toNat) :
    Below endian options (arrivals ++ [datagram]) := by
  intro count configured shorter front
  rcases List.prefix_concat_iff.mp front with rfl | before
  · exact short count configured
  · exact below count configured shorter before

/-- A datagram that stops the listener reaches the count. -/
theorem Below.stopped (below : Below endian options arrivals) {datagram : Datagram}
    {after : Listener} (accounts : after.Accounts endian options (arrivals ++ [datagram]))
    {result : MulticastReceiveResult} (stop : after.stops options result = true) :
    ∃ count, options.stopAfter = some count ∧
      Reaches endian count.1.toNat (arrivals ++ [datagram]) := by
  unfold stops at stop
  split at stop
  next =>
    obtain ⟨count, configured, enough⟩ := (Option.any_eq_true _ _).mp stop
    rw [accounts.delivered_eq] at enough
    refine ⟨count, configured, of_decide_eq_true enough, fun shorter front other => ?_⟩
    rcases List.prefix_concat_iff.mp front with same | before
    · exact absurd same other
    · exact below count configured shorter before
  next => cases stop

/-- A datagram that does not stop the listener leaves it below the count. -/
theorem Below.unstopped (below : Below endian options arrivals) {datagram : Datagram}
    {after : Listener} (accounts : after.Accounts endian options (arrivals ++ [datagram]))
    {receiver : MulticastReceiver}
    (goes : after.stops options (receiver.receive endian datagram).2 = false) :
    Below endian options (arrivals ++ [datagram]) := by
  apply below.snoc
  intro count configured
  rcases receiver.receive_cases endian datagram with
    ⟨packet, -, received⟩ | ⟨nothing, -⟩
  · rw [received, stops, configured] at goes
    rw [← accounts.delivered_eq]
    simpa using goes
  · unfold deliveredOf
    rw [(session_same options arrivals nothing).2]
    exact below count configured arrivals List.prefix_rfl

theorem Stands.next {occurrences : List Occurrence} {phase : Phase}
    (stands : Stands endian options occurrences phase) (occurrence : Occurrence) :
    Stands endian options (occurrences ++ [occurrence]) (phase.next endian options occurrence) := by
  cases stands with
  | @listening arrivals listener accounts below =>
    unfold Phase.next turn
    cases occurrence with
    | shutdownSignal => exact .interrupted accounts below [] rfl
    | failed interrupted signalReceived what =>
      simp only
      split
      · exact .interrupted accounts below [] rfl
      · exact .threw accounts below [] rfl what
    | datagram datagram =>
      have received := accounts.receive datagram
      have more : arrivals.map Occurrence.datagram ++ [.datagram datagram] =
          (arrivals ++ [datagram]).map .datagram := by rw [List.map_append, List.map_singleton]
      simp only [more]
      split
      next stop =>
        obtain ⟨count, configured, reaches⟩ := below.stopped received stop
        rw [← List.append_nil (List.map _ _)]
        exact .stopped received configured reaches []
      next goes => exact .listening received (below.unstopped received (by simpa using goes))
  | interrupted accounts below rest other =>
    rw [List.append_assoc, List.cons_append]
    exact .interrupted accounts below _ other
  | stopped accounts configured reaches rest =>
    rw [List.append_assoc]
    exact .stopped accounts configured reaches _
  | threw accounts below rest other what =>
    rw [List.append_assoc, List.cons_append]
    exact .threw accounts below _ other what

/-- In every phase the listener has received the first datagrams there were. -/
theorem Stands.received {occurrences : List Occurrence} {phase : Phase}
    (stands : Stands endian options occurrences phase) :
    phase.listener.Accounts endian options
      ((occurrences.filterMap Occurrence.datagram?).take phase.listener.counters.datagrams) := by
  have front : ∀ {arrivals : List Datagram} {listener : Listener} (rest : List Occurrence),
      listener.Accounts endian options arrivals → listener.Accounts endian options
        (((arrivals.map Occurrence.datagram ++ rest).filterMap Occurrence.datagram?).take
          listener.counters.datagrams) := by
    intro arrivals listener rest accounts
    rw [List.filterMap_append, Occurrence.datagrams, List.take_left' accounts.datagrams.symm]
    exact accounts
  cases stands with
  | listening accounts below =>
    rw [← List.append_nil (List.map _ _)]
    exact front [] accounts
  | interrupted accounts below rest other => exact front _ accounts
  | stopped accounts configured reaches rest => exact front rest accounts
  | threw accounts below rest other what => exact front _ accounts

theorem listen_stands (endian : Endian) (options : ListenerOptions) (occurrences : List Occurrence) :
    Stands endian options occurrences (listen endian options occurrences) := by
  induction occurrences using List.reverseRecOn with
  | nil =>
    refine .listening (accounts_start endian options) fun count configured shorter front => ?_
    rw [List.prefix_nil.mp front]
    exact Nat.pos_of_ne_zero fun zero => count.2 (UInt64.toNat_inj.mp zero)
  | append_singleton occurrences occurrence ih =>
    unfold listen
    rw [List.foldl_concat]
    exact ih.next occurrence

end Loop
end Listener
end MarketLab.MarketData

import MarketLab.MarketData.ListenerRuns
import MarketLab.MarketData.PacketLines

/-!
# What the listener reports

Three results about every run of the loop: its counters and its output account for each datagram,
its exit code says exactly whether a gapless stretch of the stream came through, and
`--stop-after` ends it at the first packet that reaches the count.
-/
namespace MarketLab.MarketData.Listener
open MarketLab.Collections MarketLab.Text

/-! ## Accounts -/

section Accounts
variable {endian : Endian} {options : ListenerOptions} {arrivals : List Datagram}
  {listener : Listener}

/-- What was decoded was delivered, is pending or was discarded for its order. -/
theorem Accounts.balance (accounts : listener.Accounts endian options arrivals) :
    listener.counters.datagrams = listener.counters.delivered +
      listener.packetProcessor.pendingSize + listener.counters.rejected := by
  obtain ⟨buffer, calls, ordered, ran⟩ :=
    Session.run_ordered listenerConfig (packets endian arrivals)
  have split := (List.filter_append_perm ProcessCall.Accepted calls).length_eq
  have accepted := ordered.accepted.length_eq
  have called := congrArg List.length ordered.called
  have whole := accounts.whole
  have decoded := accounts.decoded
  have rejected := accounts.rejected
  have pending : listener.packetProcessor.pendingSize = buffer.pending.entries.length := by
    rw [accounts.processor, session, ran]
    rfl
  rw [session, ran] at rejected
  simp only [List.countP_eq_length_filter] at rejected
  rw [List.length_append] at split
  rw [List.length_map, List.length_append, List.length_map] at accepted
  rw [List.length_map] at called
  rw [accounts.datagrams, accounts.delivered_eq, pending, deliveredOf]
  omega

/-- The deliveries of a session are in the order of their sequences. -/
theorem deliveries_increase (config : ProcessorConfig) (packets : List Packet) :
    (config.deliveries packets).Pairwise fun earlier later => earlier.sequence < later.sequence := by
  obtain ⟨buffer, calls, ordered, -⟩ := Session.run_ordered config packets
  cases known : config.expected packets with
  | none =>
    have unknown := ordered.position
    rw [known] at unknown
    rw [(ordered.fresh unknown).2.2]
    exact .nil
  | some first =>
    have increase : (List.range' first.toNat (config.deliveries packets).length).Pairwise (· < ·) :=
      List.pairwise_lt_range'
    rw [← ordered.sequences first known, List.pairwise_map] at increase
    exact increase.imp UInt64.lt_iff_toNat_lt.mpr

theorem Accounts.printed_eq (accounts : listener.Accounts endian options arrivals) :
    listener.printed = banner options ++ if options.quiet then []
      else (listenerConfig.deliveries (packets endian arrivals)).flatMap packetLine := by
  obtain ⟨buffer, calls, -, ran⟩ := Session.run_ordered listenerConfig (packets endian arrivals)
  rw [accounts.printed, session, ran, consume_after]

theorem canonical_packets (endian : Endian) (arrivals : List Datagram) :
    ∀ packet ∈ packets endian arrivals, packet.Canonical := by
  intro packet member
  obtain ⟨datagram, -, read⟩ := List.mem_filterMap.mp member
  exact canonical_of_encode endian (Datagram.packet?_eq_some.mp read).2

theorem canonical_deliveries (endian : Endian) (arrivals : List Datagram) :
    ∀ packet ∈ listenerConfig.deliveries (packets endian arrivals), packet.Canonical := by
  intro packet member
  obtain ⟨buffer, calls, ordered, -⟩ := Session.run_ordered listenerConfig (packets endian arrivals)
  exact canonical_packets endian arrivals packet (ordered.received (List.mem_append_left _ member))

/-- What a listener has printed, unless it is quiet, tells what was delivered. -/
theorem Accounts.delivered_of_printed (accounts : listener.Accounts endian options arrivals)
    {other : Listener} {others : List Datagram} (accountsToo : other.Accounts endian options others)
    (loud : options.quiet = false) (same : listener.printed = other.printed) :
    listenerConfig.deliveries (packets endian arrivals) =
      listenerConfig.deliveries (packets endian others) := by
  rw [accounts.printed_eq, accountsToo.printed_eq, loud] at same
  exact packetLines_inj (canonical_deliveries endian arrivals) (canonical_deliveries endian others)
    (List.append_cancel_left same)

theorem Accounts.exitCode_eq_zero (accounts : listener.Accounts endian options arrivals)
    (timing : Timing) : (listener.finish timing).exitCode = 0 ↔
      listener.counters.rejected = 0 ∧ listener.packetProcessor.pendingSize = 0 := by
  unfold finish
  rw [accounts.invalid]
  simp only [Bool.or_eq_true, decide_eq_true_eq]
  split
  · omega
  · omega

end Accounts

/-- At every moment of every run, each datagram received so far is one that was delivered, one
that is pending or one that was rejected, and one that was decoded, truncated or malformed. The
deliveries, and unless the listener is quiet the lines it has printed, are the packets with the
sequences from the first one received on, without a gap; no more than the limit are pending;
and a listener that leaves its loop now exits with zero just when it has rejected nothing and
nothing is pending. -/
theorem listener_accounts_for_every_datagram (endian : Endian) (options : ListenerOptions)
    (occurrences : List Occurrence) :
    let listener := (listen endian options occurrences).listener
    let counters := listener.counters
    let received := (occurrences.filterMap Occurrence.datagram?).take counters.datagrams
    let decoded := packets endian received
    let delivered := listenerConfig.deliveries decoded
    received.length = counters.datagrams ∧
    counters.datagrams =
      counters.delivered + listener.packetProcessor.pendingSize + counters.rejected ∧
    counters.datagrams = counters.decoded + counters.truncated + counters.malformed ∧
    counters.decoded = decoded.length ∧
    counters.delivered = delivered.length ∧
    (∀ first ∈ decoded.head?, delivered.map (fun packet => packet.sequence.toNat) =
      List.range' first.sequence.toNat delivered.length) ∧
    delivered ⊆ decoded ∧
    listener.printed =
      banner options ++ (if options.quiet then [] else delivered.flatMap packetLine) ∧
    listener.packetProcessor.pendingSize ≤ maximumPendingPackets ∧
    ∀ timing, (listener.finish timing).exitCode = 0 ↔
      counters.rejected = 0 ∧ listener.packetProcessor.pendingSize = 0 := by
  intro listener counters received decoded delivered
  have accounts : listener.Accounts endian options received :=
    (listen_stands endian options occurrences).received
  obtain ⟨buffer, calls, ordered, windowed, -, ran⟩ := Session.run_windowed listenerConfig decoded
  refine ⟨accounts.datagrams.symm, accounts.balance, ?_, accounts.decoded, accounts.delivered_eq,
    ?_, ?_, accounts.printed_eq, ?_, accounts.exitCode_eq_zero⟩
  · rw [accounts.whole]
    exact accounts.datagrams
  · intro first head
    exact ordered.sequences first.sequence (by rw [ProcessorConfig.expected, head]; rfl)
  · exact fun packet member => ordered.received (List.mem_append_left _ member)
  · rw [accounts.processor, session, ran]
    exact windowed.held

/-! ## The exit code -/

/-- Every arrival carries its packet. -/
theorem forall₂_carries_iff {endian : Endian} {arrivals : List Datagram} {carried : List Packet} :
    List.Forall₂ (Datagram.Carries endian) arrivals carried ↔
      packets endian arrivals = carried ∧ carried.length = arrivals.length := by
  induction arrivals generalizing carried with
  | nil =>
    rw [List.forall₂_nil_left_iff]
    exact ⟨fun none => none ▸ ⟨rfl, rfl⟩, fun same => same.1.symm⟩
  | cons datagram arrivals ih =>
    rw [List.forall₂_cons_left_iff]
    constructor
    · rintro ⟨packet, rest, carries, others, rfl⟩
      obtain ⟨rfl, lengths⟩ := ih.mp others
      refine ⟨?_, by rw [List.length_cons, List.length_cons, lengths]⟩
      exact List.filterMap_cons_some (Datagram.packet?_eq_some.mpr carries)
    · rintro ⟨rfl, lengths⟩
      have fewer : (packets endian arrivals).length ≤ arrivals.length := List.length_filterMap_le _ _
      unfold packets at lengths ⊢
      cases found : datagram.packet? endian with
      | none =>
        rw [List.filterMap_cons_none found, List.length_cons] at lengths
        unfold packets at fewer
        omega
      | some packet =>
        rw [List.filterMap_cons_some found, List.length_cons, List.length_cons] at lengths
        rw [List.filterMap_cons_some found]
        exact ⟨packet, _, Datagram.packet?_eq_some.mp found, ih.mpr ⟨rfl, by
          unfold packets
          omega⟩, rfl⟩

/-- The arrivals carry the packets of a stretch of the stream, once each and no further out of
order than the processor waits for. -/
structure ComesThrough (endian : Endian) (arrivals : List Datagram) (carried : List Packet) : Prop where
  whole : List.Forall₂ (Datagram.Carries endian) arrivals carried
  stretch : OneStretch carried
  tolerated : carried.Pairwise (WithinGap maximumSequenceGap)

section ExitCode
variable {endian : Endian} {options : ListenerOptions} {arrivals : List Datagram}
  {listener : Listener}

theorem clean_of_comesThrough {carried : List Packet} (through : ComesThrough endian arrivals carried)
    {σ : Type} (consume : Consumer Empty σ) (state : σ) :
    (Session.run listenerConfig consume state carried).Clean ∧
      (listenerConfig.deliveries carried).Perm carried := by
  have covers : (64 : UInt64).toNat ≤ 64 := Nat.le_refl _
  exact Session.clean_of_stretch covers through.stretch through.tolerated consume state

theorem Accounts.clean_iff (accounts : listener.Accounts endian options arrivals) :
    listener.counters.rejected = 0 ∧ listener.packetProcessor.pendingSize = 0 ↔
      (packets endian arrivals).length = arrivals.length ∧
        (session endian options arrivals).Clean := by
  have whole := accounts.whole
  have decoded := accounts.decoded
  have rejected := accounts.rejected
  constructor
  · rintro ⟨none, resolved⟩
    have unrefused : (session endian options arrivals).calls.countP
        (fun call => !call.Accepted) = 0 := by omega
    refine ⟨by omega, fun call made => ?_, by rw [← accounts.processor, resolved]⟩
    simpa using List.countP_eq_zero.mp unrefused call made
  · rintro ⟨all, accepted, resolved⟩
    have unrefused : (session endian options arrivals).calls.countP
        (fun call => !call.Accepted) = 0 :=
      List.countP_eq_zero.mpr fun call made => by simp [accepted call made]
    exact ⟨by omega, by rw [accounts.processor, resolved]⟩

theorem Accounts.clean_iff_comesThrough (accounts : listener.Accounts endian options arrivals) :
    listener.counters.rejected = 0 ∧ listener.packetProcessor.pendingSize = 0 ↔
      ComesThrough endian arrivals (packets endian arrivals) := by
  rw [accounts.clean_iff]
  constructor
  · rintro ⟨all, clean⟩
    obtain ⟨stretch, tolerated⟩ := Session.stretch_of_clean clean
    exact ⟨forall₂_carries_iff.mpr ⟨rfl, all⟩, stretch, tolerated⟩
  · intro through
    exact ⟨(forall₂_carries_iff.mp through.whole).2, (clean_of_comesThrough through _ _).1⟩

/-- A listener through which everything came reports no error. -/
theorem Accounts.finish_of_comesThrough (accounts : listener.Accounts endian options arrivals)
    {carried : List Packet} (through : ComesThrough endian arrivals carried) (timing : Timing) :
    ∃ delivered : List Packet, delivered.Perm carried ∧
      delivered.Pairwise (fun earlier later => earlier.sequence < later.sequence) ∧
      listener.finish timing =
        { printed := banner options ++ (if options.quiet then [] else delivered.flatMap packetLine) ++
            summary { datagrams := carried.length, decoded := carried.length
                      delivered := carried.length, buffered := listener.counters.buffered } timing
          errors := []
          exitCode := 0 } := by
  have clean := accounts.clean_iff_comesThrough
  obtain ⟨rfl, count⟩ := forall₂_carries_iff.mp through.whole
  have delivered := (clean_of_comesThrough through record []).2
  obtain ⟨none, resolved⟩ := clean.mpr through
  have whole := accounts.whole
  have decoded := accounts.decoded
  have balance := accounts.balance
  have datagrams := accounts.datagrams
  have exitCode := (accounts.exitCode_eq_zero timing).mpr ⟨none, resolved⟩
  have counters : listener.counters =
      { datagrams := (packets endian arrivals).length, decoded := (packets endian arrivals).length
        delivered := (packets endian arrivals).length, buffered := listener.counters.buffered } := by
    ext <;> simp only <;> omega
  refine ⟨_, delivered, deliveries_increase _ _, ?_⟩
  rw [Report.mk.injEq]
  refine ⟨?_, ?_, exitCode⟩
  · unfold finish
    rw [accounts.printed_eq, ← counters]
  · unfold finish
    simp [accounts.silent none, resolved]

end ExitCode

/-- A listener that leaves its loop exits with zero just when the datagrams it has received carry
the packets of a stretch of the stream, once each, with the beginning first and none overtaking
another by more than the gap limit. Then it has delivered all of them in the order of their
sequences and reported no error. -/
theorem listener_exits_zero_iff (endian : Endian) (options : ListenerOptions) (timing : Timing)
    {occurrences : List Occurrence} {listener : Listener}
    (left : listen endian options occurrences = .left listener) :
    let received := (occurrences.filterMap Occurrence.datagram?).take listener.counters.datagrams
    ((listener.finish timing).exitCode = 0 ↔ ∃ carried, ComesThrough endian received carried) ∧
    ∀ carried, ComesThrough endian received carried →
      ∃ delivered : List Packet, delivered.Perm carried ∧
        delivered.Pairwise (fun earlier later => earlier.sequence < later.sequence) ∧
        listener.finish timing =
          { printed := banner options ++ (if options.quiet then [] else delivered.flatMap packetLine) ++
              summary { datagrams := carried.length, decoded := carried.length
                        delivered := carried.length, buffered := listener.counters.buffered } timing
            errors := []
            exitCode := 0 } := by
  intro received
  have stands := (listen_stands endian options occurrences).received
  rw [left] at stands
  have accounts : listener.Accounts endian options received := stands
  have clean := accounts.clean_iff_comesThrough
  refine ⟨?_, fun carried through => ?_⟩
  · rw [accounts.exitCode_eq_zero, clean]
    refine ⟨fun through => ⟨_, through⟩, fun ⟨carried, through⟩ => ?_⟩
    rwa [(forall₂_carries_iff.mp through.whole).1]
  exact accounts.finish_of_comesThrough through timing

/-- Three packets of which the last two come the wrong way round, and then a signal. -/
theorem listener_exits_zero_of_overtaking :
    let packet (sequence : UInt64) : Packet :=
      { sequence, payload :=
        { instrument := ⟨1⟩, direction := .buy, bestPrice := some 100, aggregateSize := 7 } }
    let datagram (packet : Packet) : Datagram :=
      { bytes := ((encode networkOrder packet).toOption.getD []).take 38
        fits := Nat.le_trans (List.length_take_le _ _) (by decide)
        status := .complete
        sender := { address := ascii "10.0.0.1", port := 30001 } }
    let arrivals := [datagram (packet 1), datagram (packet 3), datagram (packet 2)]
    ∃ listener, listen networkOrder {} (arrivals.map .datagram ++ [.shutdownSignal]) = .left listener ∧
      (listener.finish ⟨[], []⟩).exitCode = 0 := by
  intro packet datagram arrivals
  let occurrences := arrivals.map Occurrence.datagram ++ [.shutdownSignal]
  have ended : (match listen networkOrder {} occurrences with
      | .left listener => listener.counters.datagrams == 3
      | _ => false) = true := by decide
  split at ended
  next listener left =>
    have received : (occurrences.filterMap Occurrence.datagram?).take listener.counters.datagrams =
        arrivals := by
      rw [beq_iff_eq.mp ended]
      rfl
    have carries : ∀ sequence ∈ [(1 : UInt64), 3, 2],
        encode networkOrder (packet sequence) = .ok (datagram (packet sequence)).bytes := by
      simp only [List.forall_mem_cons]
      exact ⟨by decide, by decide, by decide, nofun⟩
    simp only [List.forall_mem_cons] at carries
    refine ⟨listener, left, (listener_exits_zero_iff networkOrder {} ⟨[], []⟩ left).1.mpr
      ⟨[packet 1, packet 3, packet 2], ?_, ?_, ?_⟩⟩
    · rw [received]
      exact .cons ⟨rfl, carries.1⟩ (.cons ⟨rfl, carries.2.1⟩ (.cons ⟨rfl, carries.2.2.1⟩ .nil))
    · rintro first ⟨⟩
      decide
    · decide
  next => cases ended

/-! ## `--stop-after` -/

section StopAfter
variable {endian : Endian} {arrivals : List Datagram}

theorem deliveredOf_snoc (endian : Endian) (arrivals : List Datagram) (datagram : Datagram) :
    deliveredOf endian (arrivals ++ [datagram]) ≤
      deliveredOf endian arrivals + maximumSequenceGap.toNat + 1 := by
  unfold deliveredOf
  rw [packets_snoc]
  cases datagram.packet? endian with
  | none =>
    rw [Option.toList_none, List.append_nil]
    omega
  | some packet => exact Session.delivers_at_most listenerConfig _ packet

/-- The last packet brings at most the window with it. -/
theorem Reaches.delivered_le {count : Nat} (positive : 0 < count)
    (reaches : Reaches endian count arrivals) :
    deliveredOf endian arrivals ≤ count + maximumSequenceGap.toNat := by
  induction arrivals using List.reverseRecOn with
  | nil =>
    have none : deliveredOf endian [] = 0 := rfl
    omega
  | append_singleton before last _ =>
    have other : before ≠ before ++ [last] := fun same => by simpa using congrArg List.length same
    have short := reaches.2 before (List.prefix_append _ _) other
    have step := deliveredOf_snoc endian before last
    omega

/-- Where only datagrams come, nothing else ends the loop. -/
theorem only_datagrams {front rest : List Occurrence} {occurrence : Occurrence}
    (other : occurrence.datagram? = none)
    (same : front ++ occurrence :: rest = arrivals.map .datagram) : False := by
  have member : occurrence ∈ arrivals.map Occurrence.datagram := by simp [← same]
  obtain ⟨datagram, -, rfl⟩ := List.mem_map.mp member
  cases other

/-- How the loop stands to arrivals alone. -/
theorem listen_datagrams (endian : Endian) (options : ListenerOptions) (arrivals : List Datagram) :
    (∃ listener, listen endian options (arrivals.map .datagram) = .listening listener ∧
      listener.Accounts endian options arrivals ∧ Below endian options arrivals) ∨
    ∃ listener received later count, listen endian options (arrivals.map .datagram) = .left listener ∧
      arrivals = received ++ later ∧ listener.Accounts endian options received ∧
      options.stopAfter = some count ∧ Reaches endian count.1.toNat received := by
  have stands := listen_stands endian options (arrivals.map .datagram)
  generalize met : arrivals.map Occurrence.datagram = occurrences at stands ⊢
  generalize listen endian options occurrences = phase at stands ⊢
  cases stands with
  | @listening received listener accounts below =>
    obtain rfl := List.map_injective_iff.mpr (fun _ _ => Occurrence.datagram.inj) met
    exact .inl ⟨listener, rfl, accounts, below⟩
  | interrupted accounts below rest other => exact (only_datagrams other met.symm).elim
  | threw accounts below rest other what => exact (only_datagrams other met.symm).elim
  | @stopped received listener accounts count configured reaches rest =>
    have split := congrArg (List.filterMap Occurrence.datagram?) met
    rw [List.filterMap_append, Occurrence.datagrams, Occurrence.datagrams] at split
    exact .inr ⟨listener, received, _, count, rfl, split, accounts, configured, reaches⟩

end StopAfter

/-- Without signals and errors of the socket, a listener told to stop after a count receives
datagrams until, and no longer than until, that many packets are delivered. It may deliver more,
but no more than its window holds. -/
theorem listener_stops_at_the_count (endian : Endian) (options : ListenerOptions)
    (count : { count : UInt64 // count ≠ 0 }) (arrivals : List Datagram) :
    match listen endian { options with stopAfter := some count } (arrivals.map .datagram) with
    | .listening listener =>
      listener.counters.datagrams = arrivals.length ∧
        listener.counters.delivered = deliveredOf endian arrivals ∧
        ∀ shorter, shorter <+: arrivals → deliveredOf endian shorter < count.1.toNat
    | .left listener =>
      Reaches endian count.1.toNat (arrivals.take listener.counters.datagrams) ∧
        listener.counters.delivered = deliveredOf endian (arrivals.take listener.counters.datagrams) ∧
        listener.counters.delivered ≤ count.1.toNat + maximumSequenceGap.toNat
    | .threw _ _ => False := by
  rcases listen_datagrams endian { options with stopAfter := some count } arrivals with
    ⟨listener, phase, accounts, below⟩ |
      ⟨listener, received, later, other, phase, rfl, accounts, configured, reaches⟩
  · rw [phase]
    exact ⟨accounts.datagrams, accounts.delivered_eq, below count rfl⟩
  · obtain rfl := Option.some.inj configured
    have positive : 0 < count.1.toNat :=
      Nat.pos_of_ne_zero fun zero => count.2 (UInt64.toNat_inj.mp zero)
    rw [phase]
    simp only
    rw [List.take_left' accounts.datagrams.symm, accounts.delivered_eq]
    exact ⟨reaches, rfl, reaches.delivered_le positive⟩

end MarketLab.MarketData.Listener

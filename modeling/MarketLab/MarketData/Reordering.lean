import MarketLab.MarketData.Window

/-!
# Which reorderings a processor tolerates

The packets of a stretch of the stream arrive once each, in some order. A packet overtakes the
missing ones it arrives before; the first of these is what the buffer expects then, so the gap
limit sees exactly how far the packet is ahead.
-/
namespace MarketLab.MarketData
open MarketLab.Collections

/-- An arrival is no further ahead than the gap of a packet that comes after it. -/
def WithinGap (gap : UInt64) (arrival later : Packet) : Prop :=
  later.sequence < arrival.sequence →
    arrival.sequence.toNat - later.sequence.toNat ≤ gap.toNat

instance (gap : UInt64) (arrival later : Packet) : Decidable (WithinGap gap arrival later) :=
  inferInstanceAs (Decidable (later.sequence < arrival.sequence → _))

/-- A processor told where the stream starts. -/
def ProcessorConfig.startingAt (limits : SequencedBufferLimits) (first : UInt64) : ProcessorConfig where
  sequenceLimits := limits
  firstSequence := some first

section Arrivals
variable {limits : SequencedBufferLimits} {first : UInt64} {packets : List Packet}
  {buffer : SequencedBuffer Packet} {delivered : List Packet} {calls : List ProcessCall}

/-- What was delivered or is pending was received. -/
theorem Ordered.received {config : ProcessorConfig}
    (ordered : Ordered config packets buffer delivered calls) :
    delivered ++ buffer.pending.entries.map Prod.snd ⊆ packets := by
  intro packet member
  obtain ⟨call, accepted, rfl⟩ := List.mem_map.mp (ordered.accepted.mem_iff.mpr member)
  rw [← ordered.called]
  exact List.mem_map_of_mem (List.mem_of_mem_filter accepted)

/-- A sequence not seen before is neither behind the position nor pending. -/
theorem Ordered.unseen (ordered : Ordered (.startingAt limits first) packets buffer delivered calls)
    {sequence : UInt64} (inside : first ≤ sequence)
    (new : ∀ packet ∈ packets, packet.sequence ≠ sequence) :
    ∃ place, buffer.position = some place ∧ first.toNat ≤ place ∧ place ≤ sequence.toNat ∧
      buffer.pending.contains sequence = false := by
  have here := ordered.position
  refine ⟨first.toNat + delivered.length, here, Nat.le_add_right _ _, ?_, ?_⟩
  · by_contra passed
    have reached := (ordered.delivered_iff here rfl sequence).mpr
      ⟨UInt64.le_iff_toNat_le.mp inside, Nat.not_le.mp passed⟩
    obtain ⟨packet, member, same⟩ := reached
    exact new packet (ordered.received (List.mem_append_left _ member)) same
  · refine OrderedMap.contains_eq_false.mpr (OrderedMap.find?_eq_none.mpr fun entry member same => ?_)
    refine new entry.2 (ordered.received (List.mem_append_right _ (List.mem_map_of_mem member))) ?_
    rw [← ordered.keyed entry member, same]

/-- While nothing was refused, the expected sequence has not arrived. -/
theorem Ordered.missing {config : ProcessorConfig}
    (ordered : Ordered config packets buffer delivered calls)
    (accepted : ∀ call ∈ calls, call.Refused = false) {place : Nat}
    (here : buffer.position = some place) :
    ∀ packet ∈ packets, packet.sequence.toNat ≠ place := by
  rintro packet member rfl
  rw [← ordered.called] at member
  obtain ⟨call, made, rfl⟩ := List.mem_map.mp member
  obtain ⟨place, there, passed⟩ := ordered.covered call made (accepted call made)
  obtain rfl := Option.some.inj (here.symm.trans there)
  rcases passed with behind | held
  · exact Nat.lt_irrefl _ behind
  · obtain ⟨value, found⟩ := OrderedMap.contains_iff.mp held
    exact ordered.waiting _ (OrderedMap.find?_eq_some.mp found) here

end Arrivals

theorem ProcessCall.unrefused_of_accepted {call : ProcessCall} (accepted : call.Accepted = true) :
    call.Refused = false := by
  cases outcome : call.result.ordering <;>
    simp [ProcessCall.Accepted, ProcessCall.Refused, outcome] at accepted ⊢

/-! ## A stretch of the stream -/

section Stretch
variable {limits : SequencedBufferLimits} {first : UInt64} {n : Nat} {arrivals : List Packet}
  (once : (arrivals.map fun packet => packet.sequence.toNat).Perm (List.range' first.toNat n))
include once

theorem sequences_distinct : (arrivals.map Packet.sequence).Nodup := by
  apply List.Nodup.of_map UInt64.toNat
  rw [List.map_map]
  exact once.nodup_iff.mpr List.nodup_range'

theorem inside_stretch {packet : Packet} (member : packet ∈ arrivals) :
    first.toNat ≤ packet.sequence.toNat ∧ packet.sequence.toNat < first.toNat + n :=
  List.mem_range'_1.mp (once.mem_iff.mp (List.mem_map_of_mem (f := fun packet : Packet =>
    packet.sequence.toNat) member))

theorem exists_arrival {number : Nat} (from_ : first.toNat ≤ number)
    (below : number < first.toNat + n) : ∃ packet ∈ arrivals, packet.sequence.toNat = number :=
  List.mem_map.mp (once.mem_iff.mpr (List.mem_range'_1.mpr ⟨from_, below⟩))

/-- What is new at an arrival. -/
theorem new_arrival {packets later : List Packet} {value : Packet}
    (split : arrivals = packets ++ value :: later) :
    ∀ packet ∈ packets, packet.sequence ≠ value.sequence := by
  intro packet member same
  have distinct := sequences_distinct once
  rw [split, List.map_append, List.map_cons, List.nodup_append] at distinct
  exact distinct.2.2 _ (List.mem_map_of_mem member) _ List.mem_cons_self same

section Arrival
variable {packets later : List Packet} {value : Packet}
  (split : arrivals = packets ++ value :: later) {buffer after : SequencedBuffer Packet}
  {delivered released : List Packet} {calls : List ProcessCall} {ordering : SequenceResult}
  (ordered : Ordered (.startingAt limits first) packets buffer delivered calls)
  (windowed : Windowed limits buffer)
  (processed : Processor.Processed buffer value after ordering released)
include split ordered windowed processed

/-- After calls that accepted their packets, an arrival that overtakes nothing by more than the
gap is accepted. -/
theorem accepts_arrival (accepted : ∀ call ∈ calls, call.Refused = false)
    (covers : limits.maximumSequenceGap.toNat ≤ limits.maximumPendingValues)
    (tolerated : ∀ packet ∈ later, WithinGap limits.maximumSequenceGap value packet) :
    ordering = .ready ∨ ordering = .buffered := by
  have member : value ∈ arrivals := split ▸ List.mem_append_right _ List.mem_cons_self
  obtain ⟨inside, below⟩ := inside_stretch once member
  obtain ⟨place, here, started, reached, unheld⟩ := ordered.unseen
    (UInt64.le_iff_toNat_le.mpr inside) (new_arrival once split)
  cases processed with
  | delivered => exact .inl rfl
  | held => exact .inr rfl
  | old place' here' behind =>
    obtain rfl := Option.some.inj (here.symm.trans here')
    exact absurd behind (Nat.not_lt.mpr reached)
  | duplicate place' here' held =>
    rw [unheld] at held
    cases held
  | gapLimitExceeded place' here' far =>
    obtain rfl := Option.some.inj (here.symm.trans here')
    rw [windowed.configured] at far
    -- The expected packet is still to come, and this one overtakes it.
    obtain ⟨missing, arrives, number⟩ := exists_arrival once started (by omega)
    have absent := ordered.missing accepted here
    have comes : missing ∈ later := by
      rw [split] at arrives
      rcases List.mem_append.mp arrives with before | here
      · exact absurd number (absent missing before)
      · rcases List.mem_cons.mp here with rfl | comes
        · omega
        · exact comes
    have gap := tolerated missing comes (UInt64.lt_iff_toNat_lt.mpr (by omega))
    omega
  | capacityExhausted place' here' ahead near absent full =>
    exact absurd rfl (windowed.never_full ordered covers
      (.capacityExhausted place' here' ahead near absent full))

/-- An arrival that overtakes a packet by more than the gap is refused for its gap. -/
theorem refuses_arrival {missed : Packet} (comes : missed ∈ later)
    (overtakes : ¬WithinGap limits.maximumSequenceGap value missed) :
    ordering = .gapLimitExceeded := by
  simp only [WithinGap, Classical.not_imp, Nat.not_le, UInt64.lt_iff_toNat_lt] at overtakes
  obtain ⟨behind, far⟩ := overtakes
  have member : value ∈ arrivals := split ▸ List.mem_append_right _ List.mem_cons_self
  have missedMember : missed ∈ arrivals :=
    split ▸ List.mem_append_right _ (List.mem_cons_of_mem _ comes)
  obtain ⟨inside, -⟩ := inside_stretch once member
  obtain ⟨missedInside, -⟩ := inside_stretch once missedMember
  obtain ⟨place, here, -, -, unheld⟩ := ordered.unseen
    (UInt64.le_iff_toNat_le.mpr inside) (new_arrival once split)
  -- The overtaken packet is new too, so the position has not passed it.
  obtain ⟨front, back, rfl⟩ := List.append_of_mem comes
  have resplit : arrivals = (packets ++ value :: front) ++ missed :: back := by
    rw [split, List.append_assoc, List.cons_append]
  obtain ⟨place', here', -, reached, -⟩ := ordered.unseen (UInt64.le_iff_toNat_le.mpr missedInside)
    fun packet old => new_arrival once resplit packet (List.mem_append_left _ old)
  obtain rfl := Option.some.inj (here.symm.trans here')
  have known : ∀ {other}, buffer.position = some other → other = place := fun there =>
    Option.some.inj (there.symm.trans here)
  cases processed with
  | delivered expected =>
    rcases expected with unknown | expected
    · rw [unknown] at here
      cases here
    · have same := known expected
      omega
  | old other there behind =>
    obtain rfl := known there
    omega
  | duplicate other there held =>
    rw [unheld] at held
    cases held
  | gapLimitExceeded => rfl
  | capacityExhausted other there ahead near absent full =>
    obtain rfl := known there
    rw [windowed.configured] at near
    omega
  | held other there ahead near room absent =>
    obtain rfl := known there
    rw [windowed.configured] at near
    omega

end Arrival

/-! ## Sessions over the stretch -/

theorem Session.accepts_all
    (covers : limits.maximumSequenceGap.toNat ≤ limits.maximumPendingValues)
    (tolerated : arrivals.Pairwise (WithinGap limits.maximumSequenceGap)) {σ : Type}
    (consume : Consumer Empty σ) (start : σ) :
    ∀ call ∈ (Session.run (.startingAt limits first) consume start arrivals).calls,
      call.Accepted = true := by
  obtain ⟨buffer, calls, ordered, ⟨-, accepted⟩, ran⟩ := Session.run_induct
    (.startingAt limits first)
    (P := fun buffer calls => Windowed limits buffer ∧
      (calls.map ProcessCall.packet <+: arrivals → ∀ call ∈ calls, call.Accepted = true))
    ⟨windowed_initial (.startingAt limits first), fun _ call member => by cases member⟩
    (fun packets buffer delivered calls value after ordering released ordered processed holds => by
      obtain ⟨windowed, held⟩ := holds
      refine ⟨windowed.step ordered processed, fun front call member => ?_⟩
      rw [List.map_append, ordered.called, List.map_singleton] at front
      obtain ⟨later, split⟩ := front
      rw [List.append_assoc, List.singleton_append] at split
      have before := held (by rw [ordered.called]; exact ⟨_, split⟩)
      rcases List.mem_append.mp member with old | new
      · exact before call old
      · have close : ∀ packet ∈ later, WithinGap limits.maximumSequenceGap value packet := by
          rw [← split, List.pairwise_append, List.pairwise_cons] at tolerated
          exact tolerated.2.1.1
        have accepts := accepts_arrival once split.symm ordered windowed processed
          (fun call made => ProcessCall.unrefused_of_accepted (before call made)) covers close
        rw [List.mem_singleton.mp new]
        rcases accepts with rfl | rfl <;> rfl) arrivals
  rw [ran]
  exact accepted (by rw [ordered.called])

theorem Session.refuses_one {value missed : Packet} (pair : List.Sublist [value, missed] arrivals)
    (overtakes : ¬WithinGap limits.maximumSequenceGap value missed) {σ : Type}
    (consume : Consumer Empty σ) (start : σ) :
    ∃ call ∈ (Session.run (.startingAt limits first) consume start arrivals).calls,
      call.packet = value ∧ call.result.ordering = .gapLimitExceeded := by
  obtain ⟨buffer, calls, ordered, ⟨-, refused⟩, ran⟩ := Session.run_induct
    (.startingAt limits first)
    (P := fun buffer calls => Windowed limits buffer ∧ (calls.map ProcessCall.packet <+: arrivals →
      ∀ call ∈ calls, call.packet = value → call.result.ordering = .gapLimitExceeded))
    ⟨windowed_initial (.startingAt limits first), fun _ call member => by cases member⟩
    (fun packets buffer delivered calls other after ordering released ordered processed holds => by
      obtain ⟨windowed, held⟩ := holds
      refine ⟨windowed.step ordered processed, fun front call member same => ?_⟩
      rw [List.map_append, ordered.called, List.map_singleton] at front
      obtain ⟨later, split⟩ := front
      rw [List.append_assoc, List.singleton_append] at split
      rcases List.mem_append.mp member with old | new
      · exact held (by rw [ordered.called]; exact ⟨_, split⟩) call old same
      · rw [List.mem_singleton.mp new] at same ⊢
        obtain rfl : other = value := same
        have comes : missed ∈ later := by
          rw [← split, List.sublist_append_iff] at pair
          obtain ⟨front, back, whole, inPackets, behind⟩ := pair
          cases front with
          | nil =>
            rw [List.nil_append] at whole
            rw [← whole, List.cons_sublist_cons] at behind
            exact List.singleton_sublist.mp behind
          | cons head front =>
            obtain ⟨rfl, -⟩ := List.cons.inj whole
            exact absurd rfl (new_arrival once split.symm other
              (inPackets.subset List.mem_cons_self))
        exact refuses_arrival once split.symm ordered windowed processed comes overtakes) arrivals
  rw [ran]
  have member : value ∈ calls.map ProcessCall.packet := by
    rw [ordered.called]
    exact pair.subset List.mem_cons_self
  obtain ⟨call, made, rfl⟩ := List.mem_map.mp member
  exact ⟨call, made, rfl, refused (by rw [ordered.called]) call made rfl⟩

/-- With everything accepted, everything is delivered and in order. -/
theorem Ordered.delivers_all {buffer : SequencedBuffer Packet} {delivered : List Packet}
    {calls : List ProcessCall}
    (ordered : Ordered (.startingAt limits first) arrivals buffer delivered calls)
    (accepted : ∀ call ∈ calls, call.Accepted = true) :
    delivered.Perm arrivals ∧
      delivered.map (fun packet => packet.sequence.toNat) = List.range' first.toNat n := by
  have empty : buffer.pending.entries = [] := by
    refine List.eq_nil_iff_forall_not_mem.mpr fun entry member => ?_
    obtain ⟨place, here, ahead⟩ := ordered.ahead entry member
    obtain ⟨first', known, started⟩ := ordered.expected_of_position here
    obtain rfl : first = first' := Option.some.inj known
    have pending := ordered.received (List.mem_append_right _ (List.mem_map_of_mem member))
    have below := (inside_stretch once pending).2
    rw [← ordered.keyed entry member] at below
    have above : first.toNat ≤ place := by omega
    obtain ⟨packet, arrived, number⟩ := exists_arrival once above (by omega)
    exact ordered.missing (fun call made => ProcessCall.unrefused_of_accepted (accepted call made))
      here packet arrived number
  have whole := ordered.accepted
  rw [List.filter_eq_self.mpr accepted, ordered.called, empty, List.map_nil, List.append_nil] at whole
  have count : delivered.length = n := by
    have lengths := once.length_eq
    rw [List.length_map, List.length_range'] at lengths
    rw [← whole.length_eq, lengths]
  have sequences := ordered.sequences first rfl
  rw [count] at sequences
  exact ⟨whole.symm, sequences⟩

end Stretch

/-- The packets of a stretch of the stream, each once and in any order: they are all accepted and
delivered in order exactly when none arrives in front of one that is further behind than the
gap limit; otherwise some call is refused for its gap. -/
theorem exact_reorder_tolerance {limits : SequencedBufferLimits}
    (covers : limits.maximumSequenceGap.toNat ≤ limits.maximumPendingValues) {first : UInt64} {n : Nat}
    {arrivals : List Packet}
    (once : (arrivals.map fun packet => packet.sequence.toNat).Perm (List.range' first.toNat n))
    {σ : Type} (consume : Consumer Empty σ) (start : σ) :
    let config := ProcessorConfig.startingAt limits first
    let session := Session.run config consume start arrivals
    let delivered := config.deliveries arrivals
    session.state = consume.after start delivered ∧
    ((∀ call ∈ session.calls, call.Accepted = true) ∧ delivered.Perm arrivals ∧
        delivered.map (fun packet => packet.sequence.toNat) = List.range' first.toNat n ↔
      arrivals.Pairwise (WithinGap limits.maximumSequenceGap)) ∧
    (¬arrivals.Pairwise (WithinGap limits.maximumSequenceGap) →
      ∃ call ∈ session.calls, call.result.ordering = .gapLimitExceeded) := by
  intro config session delivered
  obtain ⟨buffer, calls, ordered, ran⟩ := Session.run_ordered config arrivals
  have now : session = { processor := ⟨buffer⟩, state := consume.after start delivered, calls } :=
    ran consume start
  have refused : ¬arrivals.Pairwise (WithinGap limits.maximumSequenceGap) →
      ∃ call ∈ session.calls, call.result.ordering = .gapLimitExceeded := by
    intro overtaken
    rw [List.pairwise_iff_forall_sublist] at overtaken
    push Not at overtaken
    obtain ⟨value, missed, pair, overtakes⟩ := overtaken
    obtain ⟨call, made, -, ordering⟩ := Session.refuses_one once pair overtakes consume start
    exact ⟨call, made, ordering⟩
  refine ⟨by rw [now], ⟨fun whole => ?_, fun tolerated => ?_⟩, refused⟩
  · by_contra overtaken
    obtain ⟨call, made, ordering⟩ := refused overtaken
    have accepted := whole.1 call made
    rw [ProcessCall.Accepted, ordering] at accepted
    cases accepted
  · have accepted := Session.accepts_all once covers tolerated consume start
    refine ⟨accepted, ordered.delivers_all once ?_⟩
    change ∀ call ∈ session.calls, _ at accepted
    rwa [now] at accepted

/-- Two packets the wrong way round, within a gap of one. -/
theorem exact_reorder_tolerance_of_swap :
    let update : BookUpdate := { instrument := ⟨1⟩, direction := .buy, bestPrice := none, aggregateSize := 0 }
    let arrivals : List Packet := [{ sequence := 2, payload := update }, { sequence := 1, payload := update }]
    let limits : SequencedBufferLimits := { maximumPendingValues := 1, maximumSequenceGap := 1 }
    arrivals.Pairwise (WithinGap 1) ∧
      ((ProcessorConfig.startingAt limits 1).deliveries arrivals).map
        (fun packet => packet.sequence.toNat) = [1, 2] := by
  intro update arrivals limits
  have tolerated : arrivals.Pairwise (WithinGap 1) := by decide
  have covers : limits.maximumSequenceGap.toNat ≤ limits.maximumPendingValues := by decide
  have once : (arrivals.map fun packet => packet.sequence.toNat).Perm
      (List.range' (1 : UInt64).toNat 2) := by decide
  have exact := exact_reorder_tolerance covers once record []
  exact ⟨tolerated, (exact.2.1.mpr tolerated).2.2⟩

end MarketLab.MarketData

import MarketLab.MarketData.ProcessorSteps
import MarketLab.Collections.KeyedList

/-!
# Ordered exactly-once delivery

A session is a processor with a consumer that does not throw and the log of its calls. The
invariant of a session counts the deliveries from the first expected sequence on: what was
accepted is what was delivered together with what is pending, and all of it is accounted
for at its place in the stream.
-/
namespace MarketLab.MarketData
open MarketLab.Collections

structure ProcessCall where
  packet : Packet
  result : ProcessingResult

/-- Delivered at once or kept for later. -/
def ProcessCall.Accepted (call : ProcessCall) : Bool :=
  call.result.ordering = .ready || call.result.ordering = .buffered

/-- Lost to a limit. -/
def ProcessCall.Refused (call : ProcessCall) : Bool :=
  call.result.ordering = .gapLimitExceeded || call.result.ordering = .capacityExhausted

structure Session (σ : Type) where
  processor : Processor
  state : σ
  calls : List ProcessCall := []

namespace Session
variable {σ : Type}

def receive (consume : Consumer Empty σ) (session : Session σ) (packet : Packet) : Session σ :=
  match session.processor.process packet consume session.state with
  | (processor, state, .ok result) => { processor, state, calls := session.calls ++ [{ packet, result }] }
  | (_, _, .error thrown) => thrown.elim

def run (config : ProcessorConfig) (consume : Consumer Empty σ) (start : σ)
    (packets : List Packet) : Session σ :=
  packets.foldl (receive consume) { processor := .initial config, state := start }

theorem run_snoc (config : ProcessorConfig) (consume : Consumer Empty σ) (start : σ)
    (packets : List Packet) (packet : Packet) : run config consume start (packets ++ [packet]) =
      (run config consume start packets).receive consume packet := by
  simp [run]

end Session

/-- The consumer that keeps what it is given. -/
def record : Consumer Empty (List Packet) := fun delivered packet => (delivered ++ [packet], none)

/-- The first sequence a processor expects: configured, or that of its first packet. -/
def ProcessorConfig.expected (config : ProcessorConfig) (packets : List Packet) : Option UInt64 :=
  match config.firstSequence with
  | some first => some first
  | none => packets.head?.map Packet.sequence

theorem ProcessorConfig.expected_snoc {config : ProcessorConfig} {packets : List Packet} {first : UInt64}
    (known : config.expected packets = some first) (packet : Packet) :
    config.expected (packets ++ [packet]) = some first := by
  rw [expected] at known ⊢
  cases configured : config.firstSequence with
  | some start => rwa [configured] at known
  | none =>
    rw [configured] at known
    cases packets with
    | nil => cases known
    | cons head rest => exact known

/-! ## The invariant of a session -/

/-- The buffer, the deliveries and the calls of a session that was given `packets`. -/
structure Ordered (config : ProcessorConfig) (packets : List Packet) (buffer : SequencedBuffer Packet)
    (delivered : List Packet) (calls : List ProcessCall) : Prop where
  called : calls.map ProcessCall.packet = packets
  aligned : buffer.Aligned
  position : buffer.position =
    (config.expected packets).map fun first => first.toNat + delivered.length
  sequences : ∀ first, config.expected packets = some first →
    delivered.map (fun packet => packet.sequence.toNat) =
      List.range' first.toNat delivered.length
  waiting : ∀ entry ∈ buffer.pending.entries, buffer.position ≠ some entry.1.toNat
  keyed : ∀ entry ∈ buffer.pending.entries, entry.1 = entry.2.sequence
  accepted : ((calls.filter ProcessCall.Accepted).map ProcessCall.packet).Perm
    (delivered ++ buffer.pending.entries.map Prod.snd)
  counted : (calls.map fun call => call.result.packetsDelivered).sum = delivered.length
  /-- What was not refused has been passed or is still pending. -/
  covered : ∀ call ∈ calls, call.Refused = false → ∃ place, buffer.position = some place ∧
    (call.packet.sequence.toNat < place ∨ buffer.pending.contains call.packet.sequence = true)

theorem ordered_initial (config : ProcessorConfig) :
    Ordered config [] (Processor.initial config).packets [] [] where
  called := rfl
  aligned := SequencedBuffer.aligned_initial _ _
  position := by
    rw [ProcessorConfig.expected, Processor.initial, SequencedBuffer.position]
    cases config.firstSequence <;> rfl
  sequences _ _ := rfl
  waiting entry member := by cases member
  keyed entry member := by cases member
  accepted := .nil
  counted := rfl
  covered call member := by cases member

section Step
variable {config : ProcessorConfig} {packets : List Packet} {buffer : SequencedBuffer Packet}
  {delivered : List Packet} {calls : List ProcessCall}

theorem Ordered.expected_of_position (ordered : Ordered config packets buffer delivered calls)
    {place : Nat} (here : buffer.position = some place) :
    ∃ first, config.expected packets = some first ∧ first.toNat + delivered.length = place := by
  rw [ordered.position] at here
  exact Option.map_eq_some_iff.mp here

/-- Before the position is known nothing was received. -/
theorem Ordered.fresh (ordered : Ordered config packets buffer delivered calls)
    (unknown : buffer.position = none) :
    config.firstSequence = none ∧ packets = [] ∧ delivered = [] := by
  rw [ordered.position, Option.map_eq_none_iff, ProcessorConfig.expected] at unknown
  cases configured : config.firstSequence with
  | some first =>
    rw [configured] at unknown
    cases unknown
  | none =>
    rw [configured] at unknown
    have empty : packets = [] := List.head?_eq_none_iff.mp (Option.map_eq_none_iff.mp unknown)
    have silent : calls = [] := List.map_eq_nil_iff.mp (ordered.called.trans empty)
    have none := ordered.accepted
    rw [silent] at none
    exact ⟨rfl, empty, (List.append_eq_nil_iff.mp (List.nil_perm.mp none)).1⟩

/-- A call that changes nothing. -/
theorem Ordered.keep (ordered : Ordered config packets buffer delivered calls) {place : Nat}
    (here : buffer.position = some place) {value : Packet} {ordering : SequenceResult}
    (unaccepted : ProcessCall.Accepted ⟨value, { ordering }⟩ = false)
    (passed : ProcessCall.Refused ⟨value, { ordering }⟩ = false →
      value.sequence.toNat < place ∨ buffer.pending.contains value.sequence = true) :
    Ordered config (packets ++ [value]) buffer delivered (calls ++ [⟨value, { ordering }⟩]) := by
  obtain ⟨first, known, -⟩ := ordered.expected_of_position here
  have knownAfter := ProcessorConfig.expected_snoc known value
  refine { ordered with
    called := ?_, position := ?_, sequences := ?_, accepted := ?_, counted := ?_, covered := ?_ }
  · rw [List.map_append, ordered.called, List.map_singleton]
  · rw [ordered.position, known, knownAfter]
  · rw [knownAfter, ← known]
    exact ordered.sequences
  · rw [List.filter_append, List.filter_cons_of_neg (by rw [unaccepted]; decide), List.filter_nil,
      List.append_nil]
    exact ordered.accepted
  · rw [List.map_append, List.sum_append, ordered.counted]
    rfl
  · intro call member unrefused
    rcases List.mem_append.mp member with old | new
    · exact ordered.covered call old unrefused
    · rw [List.mem_singleton.mp new] at unrefused ⊢
      exact ⟨place, here, passed unrefused⟩

theorem Ordered.hold (ordered : Ordered config packets buffer delivered calls) {place : Nat}
    (here : buffer.position = some place) {value : Packet} (ahead : place < value.sequence.toNat)
    (absent : buffer.pending.find? value.sequence = none) :
    Ordered config (packets ++ [value])
      { buffer with pending := buffer.pending.insertOrAssign value.sequence value } delivered
      (calls ++ [⟨value, { ordering := .buffered }⟩]) := by
  obtain ⟨first, known, -⟩ := ordered.expected_of_position here
  have knownAfter := ProcessorConfig.expected_snoc known value
  refine ⟨?_, ⟨ordered.aligned.consistent, ?_⟩, ?_, ?_, ?_, ?_, ?_, ?_, ?_⟩
  · rw [List.map_append, ordered.called, List.map_singleton]
  · intro entry member
    rcases OrderedMap.mem_insertOrAssign.mp member with rfl | ⟨-, old⟩
    · exact ⟨place, here, Nat.le_of_lt ahead⟩
    · exact ordered.aligned.ahead entry old
  · rw [knownAfter, ← known]
    exact ordered.position
  · rw [knownAfter, ← known]
    exact ordered.sequences
  · intro entry member
    rcases OrderedMap.mem_insertOrAssign.mp member with rfl | ⟨-, old⟩
    · exact fun same => Nat.ne_of_lt ahead (Option.some.inj (here.symm.trans same))
    · exact ordered.waiting entry old
  · intro entry member
    rcases OrderedMap.mem_insertOrAssign.mp member with rfl | ⟨-, old⟩
    · rfl
    · exact ordered.keyed entry old
  · obtain ⟨front, back, whole, inserted, -, -⟩ :=
      OrderedMap.insertOrAssign_split_new (m := buffer.pending) value absent
    have accepted := ordered.accepted
    rw [whole, List.map_append] at accepted
    rw [List.filter_append, List.map_append, inserted, List.map_append, List.map_cons]
    refine (accepted.append_right [value]).trans ?_
    rw [List.append_assoc, List.append_assoc]
    exact ((List.perm_append_singleton value (back.map Prod.snd)).append_left _).append_left _
  · rw [List.map_append, List.sum_append, ordered.counted]
    rfl
  · intro call member unrefused
    rcases List.mem_append.mp member with old | new
    · obtain ⟨place, here, passed⟩ := ordered.covered call old unrefused
      refine ⟨place, here, passed.imp id fun held => ?_⟩
      rw [OrderedMap.contains, OrderedMap.find?_insertOrAssign]
      split
      next => rfl
      next => exact held
    · rw [List.mem_singleton.mp new]
      refine ⟨place, here, .inr ?_⟩
      rw [OrderedMap.contains, OrderedMap.find?_insertOrAssign, if_pos rfl]
      rfl

/-- Where a packet that is due goes in the stream. -/
theorem Ordered.due (ordered : Ordered config packets buffer delivered calls) {value : Packet}
    (expected : buffer.position = none ∨ buffer.position = some value.sequence.toNat) :
    ∃ first, config.expected (packets ++ [value]) = some first ∧
      first.toNat + delivered.length = value.sequence.toNat ∧
      delivered.map (fun packet => packet.sequence.toNat) =
        List.range' first.toNat delivered.length := by
  rcases expected with unknown | here
  · obtain ⟨unconfigured, rfl, rfl⟩ := ordered.fresh unknown
    exact ⟨value.sequence, by rw [ProcessorConfig.expected, unconfigured]; rfl, rfl, rfl⟩
  · obtain ⟨first, known, place⟩ := ordered.expected_of_position here
    exact ⟨first, ProcessorConfig.expected_snoc known value, place, ordered.sequences first known⟩

theorem Ordered.deliver (ordered : Ordered config packets buffer delivered calls) {value : Packet}
    (expected : buffer.position = none ∨ buffer.position = some value.sequence.toNat)
    {after : SequencedBuffer Packet} {front : List (UInt64 × Packet)}
    (drained : Drained (buffer.advanceAfter value.sequence) (value.sequence.toNat + 1) after front) :
    Ordered config (packets ++ [value]) after (delivered ++ value :: front.map Prod.snd)
      (calls ++ [⟨value, { ordering := .ready, packetsDelivered := front.length + 1 }⟩]) := by
  obtain ⟨first, known, place, sequences⟩ := ordered.due expected
  have split := drained.split
  rw [SequencedBuffer.advanceAfter_pending] at split
  have keyed : ∀ entry ∈ front, entry.1 = entry.2.sequence := fun entry member =>
    ordered.keyed entry (split ▸ List.mem_append_left _ member)
  refine ⟨?_, drained.aligned, ?_, ?_, ?_, ?_, ?_, ?_, ?_⟩
  · rw [List.map_append, ordered.called, List.map_singleton]
  · rw [drained.position, known, Option.map_some, List.length_append, List.length_cons,
      List.length_map, ← place]
    congr 1
    omega
  · intro first' known'
    obtain rfl := Option.some.inj (known.symm.trans known')
    have released : (front.map Prod.snd).map (fun packet => packet.sequence.toNat) =
        List.range' (value.sequence.toNat + 1) front.length := by
      rw [← drained.sequences, List.map_map]
      exact List.map_congr_left fun entry member => by rw [keyed entry member]; rfl
    rw [List.map_append, sequences, List.map_cons, released, ← List.range'_succ, ← place,
      List.range'_append_1, List.length_append, List.length_cons, List.length_map]
  · intro entry member same
    have gap := drained.gap entry member
    rw [drained.position] at same
    exact Nat.ne_of_lt gap (Option.some.inj same)
  · exact fun entry member => ordered.keyed entry (split ▸ List.mem_append_right _ member)
  · have accepted := ordered.accepted
    rw [split, List.map_append] at accepted
    rw [List.filter_append, List.map_append]
    refine (accepted.append_right [value]).trans ?_
    rw [List.append_assoc delivered, List.append_assoc delivered, List.cons_append]
    exact (List.perm_append_singleton value _).append_left _
  · rw [List.map_append, List.sum_append, ordered.counted, List.length_append, List.length_cons,
      List.length_map]
    rfl
  · intro call member unrefused
    refine ⟨_, drained.position, ?_⟩
    rcases List.mem_append.mp member with old | new
    · obtain ⟨place', here, passed⟩ := ordered.covered call old unrefused
      rcases expected with unknown | expected
      · rw [unknown] at here
        cases here
      obtain rfl := Option.some.inj (expected.symm.trans here)
      rcases passed with behind | held
      · exact .inl (by omega)
      · obtain ⟨packet, found⟩ := OrderedMap.contains_iff.mp held
        have member := OrderedMap.find?_eq_some.mp found
        rw [split] at member
        rcases List.mem_append.mp member with released | stays
        · have inside : call.packet.sequence.toNat ∈ front.map fun entry => entry.1.toNat :=
            List.mem_map_of_mem (f := fun entry : UInt64 × Packet => entry.1.toNat) released
          rw [drained.sequences, List.mem_range'_1] at inside
          exact .inl inside.2
        · exact .inr (OrderedMap.contains_iff.mpr ⟨packet, OrderedMap.find?_eq_some.mpr stays⟩)
    · rw [List.mem_singleton.mp new]
      exact .inl (by simp only; omega)

theorem Ordered.step (ordered : Ordered config packets buffer delivered calls) {value : Packet}
    {after : SequencedBuffer Packet} {ordering : SequenceResult} {released : List Packet}
    (processed : Processor.Processed buffer value after ordering released) :
    Ordered config (packets ++ [value]) after (delivered ++ released)
      (calls ++ [⟨value, { ordering, packetsDelivered := released.length }⟩]) := by
  cases processed with
  | delivered expected _ front drained =>
    rw [List.length_cons, List.length_map]
    exact ordered.deliver expected drained
  | old place here behind =>
    rw [List.append_nil]
    exact ordered.keep here rfl fun _ => .inl behind
  | duplicate place here held =>
    rw [List.append_nil]
    exact ordered.keep here rfl fun _ => .inr held
  | gapLimitExceeded place here far =>
    rw [List.append_nil]
    exact ordered.keep here rfl fun unrefused => by cases unrefused
  | capacityExhausted place here ahead near absent full =>
    rw [List.append_nil]
    exact ordered.keep here rfl fun unrefused => by cases unrefused
  | held place here ahead near room absent =>
    rw [List.append_nil]
    exact ordered.hold here ahead absent

end Step

/-! ## Sessions -/

/-- What reaches the consumer, in order. -/
def ProcessorConfig.deliveries (config : ProcessorConfig) (packets : List Packet) : List Packet :=
  (Session.run config record [] packets).state

def Session.pending {σ : Type} (session : Session σ) : List Packet :=
  session.processor.packets.pending.entries.map Prod.snd

theorem record_after (kept delivered : List Packet) : record.after kept delivered = kept ++ delivered := by
  induction delivered generalizing kept with
  | nil => exact (List.append_nil kept).symm
  | cons packet delivered ih =>
    rw [Consumer.after, List.foldl_cons, ← Consumer.after, ih, record, List.append_assoc]
    rfl

/-- A session is ordered, no consumer makes it another one, and what one call keeps holds of it. -/
theorem Session.run_induct (config : ProcessorConfig)
    {P : SequencedBuffer Packet → List ProcessCall → Prop}
    (initial : P (Processor.initial config).packets [])
    (step : ∀ packets buffer delivered calls value after ordering released,
      Ordered config packets buffer delivered calls →
      Processor.Processed buffer value after ordering released → P buffer calls →
      P after (calls ++ [⟨value, { ordering, packetsDelivered := released.length }⟩]))
    (packets : List Packet) :
    ∃ buffer calls, Ordered config packets buffer (config.deliveries packets) calls ∧ P buffer calls ∧
      ∀ {σ : Type} (consume : Consumer Empty σ) (start : σ), run config consume start packets =
        { processor := ⟨buffer⟩, state := consume.after start (config.deliveries packets), calls } := by
  suffices ∃ buffer delivered calls, Ordered config packets buffer delivered calls ∧ P buffer calls ∧
      ∀ {σ : Type} (consume : Consumer Empty σ) (start : σ), run config consume start packets =
        { processor := ⟨buffer⟩, state := consume.after start delivered, calls } by
    obtain ⟨buffer, delivered, calls, ordered, holds, ran⟩ := this
    have same : config.deliveries packets = delivered := by
      rw [ProcessorConfig.deliveries, ran record, record_after, List.nil_append]
    rw [same]
    exact ⟨buffer, calls, ordered, holds, ran⟩
  induction packets using List.reverseRecOn with
  | nil => exact ⟨_, [], [], ordered_initial config, initial, fun consume start => rfl⟩
  | append_singleton packets value ih =>
    obtain ⟨buffer, delivered, calls, ordered, holds, ran⟩ := ih
    obtain ⟨after, ordering, released, processed, result⟩ :=
      Processor.process_spec ⟨buffer⟩ ordered.aligned ordered.waiting value
    refine ⟨after, _, _, ordered.step processed,
      step _ _ _ _ _ _ _ _ ordered processed holds, fun consume start => ?_⟩
    rw [run_snoc, ran, receive]
    simp only
    rw [result, Consumer.after, Consumer.after, Consumer.after, List.foldl_append]

theorem Session.run_ordered (config : ProcessorConfig) (packets : List Packet) :
    ∃ buffer calls, Ordered config packets buffer (config.deliveries packets) calls ∧
      ∀ {σ : Type} (consume : Consumer Empty σ) (start : σ), run config consume start packets =
        { processor := ⟨buffer⟩, state := consume.after start (config.deliveries packets), calls } := by
  obtain ⟨buffer, calls, ordered, -, ran⟩ := run_induct config (P := fun _ _ => True) trivial
    (fun _ _ _ _ _ _ _ _ _ _ _ => trivial) packets
  exact ⟨buffer, calls, ordered, ran⟩

section Facts
variable {config : ProcessorConfig} {packets : List Packet} {buffer : SequencedBuffer Packet}
  {delivered : List Packet} {calls : List ProcessCall}

/-- What was delivered lies behind the position. -/
theorem Ordered.delivered_iff (ordered : Ordered config packets buffer delivered calls)
    {place : Nat} (here : buffer.position = some place) {first : UInt64}
    (known : config.expected packets = some first) (sequence : UInt64) :
    (∃ packet ∈ delivered, packet.sequence = sequence) ↔
      first.toNat ≤ sequence.toNat ∧ sequence.toNat < place := by
  obtain ⟨first', known', same⟩ := ordered.expected_of_position here
  obtain rfl := Option.some.inj (known.symm.trans known')
  rw [← same, ← List.mem_range'_1, ← ordered.sequences first known, List.mem_map]
  constructor
  · rintro ⟨packet, member, rfl⟩
    exact ⟨packet, member, rfl⟩
  · rintro ⟨packet, member, number⟩
    exact ⟨packet, member, UInt64.toNat_inj.mp number⟩

/-- No sequence is accepted twice. -/
theorem Ordered.accepted_nodup (ordered : Ordered config packets buffer delivered calls) :
    ((delivered ++ buffer.pending.entries.map Prod.snd).map Packet.sequence).Nodup := by
  cases here : buffer.position with
  | none =>
    have empty : buffer.pending.entries = [] := List.eq_nil_iff_forall_not_mem.mpr fun entry member => by
      obtain ⟨place, there, -⟩ := ordered.aligned.ahead entry member
      rw [here] at there
      cases there
    rw [empty, (ordered.fresh here).2.2]
    exact List.nodup_nil
  | some place =>
    obtain ⟨first, known, -⟩ := ordered.expected_of_position here
    have keys : (buffer.pending.entries.map Prod.snd).map Packet.sequence =
        buffer.pending.entries.map Prod.fst := by
      rw [List.map_map]
      exact List.map_congr_left fun entry member => (ordered.keyed entry member).symm
    rw [List.map_append, keys, List.nodup_append]
    refine ⟨?_, buffer.pending.keys_nodup, ?_⟩
    · apply List.Nodup.of_map UInt64.toNat
      have sequences := ordered.sequences first known
      rw [List.map_map]
      exact sequences ▸ List.nodup_range'
    · intro sequence behind other ahead equal
      subst equal
      obtain ⟨packet, member, same⟩ := List.mem_map.mp behind
      obtain ⟨entry, held, key⟩ := List.mem_map.mp ahead
      have passed := ((ordered.delivered_iff here known sequence).mp ⟨packet, member, same⟩).2
      obtain ⟨place', here', later⟩ := ordered.aligned.ahead entry held
      obtain rfl := Option.some.inj (here.symm.trans here')
      rw [key] at later
      omega

/-- A delivered packet is the first accepted one of its sequence. -/
theorem Ordered.first_accepted (ordered : Ordered config packets buffer delivered calls)
    {packet : Packet} (member : packet ∈ delivered) :
    (calls.find? fun call => call.packet.sequence = packet.sequence && call.Accepted).map
      ProcessCall.packet = some packet := by
  have nodup : ((calls.filter ProcessCall.Accepted).map fun call => call.packet.sequence).Nodup := by
    have same := ordered.accepted.map Packet.sequence
    rw [List.map_map] at same
    exact same.nodup_iff.mpr ordered.accepted_nodup
  obtain ⟨call, accepted, rfl⟩ := List.mem_map.mp
    (ordered.accepted.mem_iff.mpr (List.mem_append_left _ member))
  obtain ⟨made, accepting⟩ := List.mem_filter.mp accepted
  cases found : calls.find? fun other =>
      other.packet.sequence = call.packet.sequence && other.Accepted with
  | none =>
    have missed := List.find?_eq_none.mp found call made
    simp [accepting] at missed
  | some other =>
    have property := List.find?_some found
    simp only [Bool.and_eq_true, decide_eq_true_eq] at property
    have otherAccepted := List.mem_filter.mpr ⟨List.mem_of_find?_eq_some found, property.2⟩
    rw [key_unique nodup otherAccepted accepted property.1]
    rfl

/-- With nothing refused, a gapless stretch of processed sequences is delivered. -/
theorem Ordered.complete (ordered : Ordered config packets buffer delivered calls) {first : UInt64}
    (known : config.expected packets = some first) {last : UInt64}
    (processed : ∀ sequence, first ≤ sequence → sequence ≤ last →
      ∃ packet ∈ packets, packet.sequence = sequence)
    (unrefused : ∀ call ∈ calls, call.Refused = false) :
    ∀ sequence, first ≤ sequence → sequence ≤ last →
      ∃ packet ∈ delivered, packet.sequence = sequence := by
  have here := ordered.position
  rw [known, Option.map_some] at here
  intro sequence later within
  rw [UInt64.le_iff_toNat_le] at later within
  rw [ordered.delivered_iff here known sequence]
  refine ⟨later, ?_⟩
  -- Were the position not past it, the call for the expected sequence would have been covered.
  by_contra stuck
  obtain ⟨next, running, place, -⟩ := SequencedBuffer.position_lt here
    (Nat.lt_of_le_of_lt (Nat.not_lt.mp stuck) sequence.toNat_lt)
  obtain ⟨packet, member, number⟩ := processed next
    (UInt64.le_iff_toNat_le.mpr (by omega)) (UInt64.le_iff_toNat_le.mpr (by omega))
  rw [← ordered.called] at member
  obtain ⟨call, made, rfl⟩ := List.mem_map.mp member
  obtain ⟨place', here', passed⟩ := ordered.covered call made (unrefused call made)
  obtain rfl := Option.some.inj (here.symm.trans here')
  rw [number] at passed
  rcases passed with behind | held
  · omega
  · obtain ⟨value, found⟩ := OrderedMap.contains_iff.mp held
    exact ordered.waiting _ (OrderedMap.find?_eq_some.mp found) (here.trans (congrArg some place.symm))

/-- Past the last sequence the session is over. -/
theorem Ordered.finished (ordered : Ordered config packets buffer delivered calls)
    (last : ∃ packet ∈ delivered, packet.sequence = maximumSequence) :
    buffer.sequenceExhausted = true ∧ buffer.nextSequence = none ∧ buffer.pending.entries = [] := by
  have here : ∃ place, buffer.position = some place ∧ 2 ^ 64 ≤ place := by
    cases here : buffer.position with
    | none =>
      obtain ⟨packet, member, -⟩ := last
      rw [(ordered.fresh here).2.2] at member
      cases member
    | some place =>
      obtain ⟨first, known, -⟩ := ordered.expected_of_position here
      have passed := ((ordered.delivered_iff here known maximumSequence).mp last).2
      rw [SequencedBuffer.toNat_maximumSequence] at passed
      exact ⟨place, rfl, by omega⟩
  obtain ⟨place, here, past⟩ := here
  have exhausted : buffer.sequenceExhausted = true := by
    by_contra running
    rw [SequencedBuffer.position, if_neg running] at here
    obtain ⟨next, -, rfl⟩ := Option.map_eq_some_iff.mp here
    exact absurd next.toNat_lt (Nat.not_lt.mpr past)
  refine ⟨exhausted, ordered.aligned.consistent exhausted, ?_⟩
  refine List.eq_nil_iff_forall_not_mem.mpr fun entry member => ?_
  obtain ⟨place', here', ahead⟩ := ordered.aligned.ahead entry member
  obtain rfl := Option.some.inj (here.symm.trans here')
  exact absurd entry.1.toNat_lt (Nat.not_lt.mpr (Nat.le_trans past ahead))

end Facts

/-! ## The main result -/

/-- A call after the last sequence. -/
def ProcessCall.late (packet : Packet) : ProcessCall := ⟨packet, { ordering := .old }⟩

theorem Session.run_late {σ : Type} {config : ProcessorConfig} {consume : Consumer Empty σ} {start : σ}
    {packets : List Packet}
    (ended : (run config consume start packets).processor.packets.sequenceExhausted = true)
    (later : List Packet) : run config consume start (packets ++ later) =
      { run config consume start packets with
        calls := (run config consume start packets).calls ++ later.map ProcessCall.late } := by
  induction later using List.reverseRecOn with
  | nil => rw [List.append_nil, List.map_nil, List.append_nil]
  | append_singleton later packet ih =>
    rw [← List.append_assoc, run_snoc, ih, receive, Processor.process, SequencedBuffer.push, if_pos ended]
    simp only [List.map_append, ← List.append_assoc]
    rfl

/-- The whole of a session, for every consumer that does not throw: the deliveries run
through the stream from the first expected sequence on, each the first accepted packet of its
sequence; every call is of a packet delivered, pending or discarded, and none is stuck. -/
theorem ordered_exactly_once (config : ProcessorConfig) (packets : List Packet) {σ : Type}
    (consume : Consumer Empty σ) (start : σ) :
    let delivered := config.deliveries packets
    let session := Session.run config consume start packets
    session.state = consume.after start delivered ∧
    session.calls.map ProcessCall.packet = packets ∧
    (∀ first, config.expected packets = some first →
      delivered.map (fun packet => packet.sequence.toNat) =
        List.range' first.toNat delivered.length) ∧
    (∀ packet ∈ delivered, (session.calls.find? fun call =>
      call.packet.sequence = packet.sequence && call.Accepted).map ProcessCall.packet = some packet) ∧
    (∀ next, session.processor.nextSequence = some next →
      ∀ packet ∈ session.pending, packet.sequence ≠ next) ∧
    ((session.calls.filter ProcessCall.Accepted).map ProcessCall.packet).Perm
      (delivered ++ session.pending) ∧
    ((delivered ++ session.pending).map Packet.sequence).Nodup ∧
    session.calls.length =
      (session.calls.map fun call => call.result.packetsDelivered).sum +
        session.processor.pendingSize +
        (session.calls.filter fun call => !call.Accepted).length ∧
    (∀ first last, config.expected packets = some first →
      (∀ sequence, first ≤ sequence → sequence ≤ last →
        ∃ packet ∈ packets, packet.sequence = sequence) →
      (∀ call ∈ session.calls, call.Refused = false) →
      ∀ sequence, first ≤ sequence → sequence ≤ last →
        ∃ packet ∈ delivered, packet.sequence = sequence) ∧
    ((∃ packet ∈ delivered, packet.sequence = maximumSequence) →
      session.processor.nextSequence = none ∧ session.processor.pendingSize = 0 ∧
      ∀ later, Session.run config consume start (packets ++ later) =
        { session with calls := session.calls ++ later.map ProcessCall.late }) := by
  intro delivered session
  obtain ⟨buffer, calls, ordered, ran⟩ := Session.run_ordered config packets
  have now : session = { processor := ⟨buffer⟩, state := consume.after start delivered, calls } :=
    ran consume start
  rw [now]
  refine ⟨rfl, ordered.called, ordered.sequences, fun packet member => ordered.first_accepted member,
    ?_, ordered.accepted, ordered.accepted_nodup, ?_, ?_, ?_⟩
  · intro next running packet member same
    obtain ⟨entry, held, rfl⟩ := List.mem_map.mp member
    have here := SequencedBuffer.position_running ordered.aligned.consistent running
    refine ordered.waiting entry held ?_
    rw [here, ordered.keyed entry held, same]
  · have split := (List.filter_append_perm ProcessCall.Accepted calls).length_eq
    have accepted := ordered.accepted.length_eq
    rw [List.length_map, List.length_append, List.length_map] at accepted
    rw [List.length_append, accepted] at split
    rw [ordered.counted]
    exact split.symm
  · exact fun first last known processed unrefused => ordered.complete known processed unrefused
  · intro last
    obtain ⟨exhausted, ended, empty⟩ := ordered.finished last
    refine ⟨ended, ?_, ?_⟩
    · rw [Processor.pendingSize, SequencedBuffer.pendingSize, OrderedMap.size, empty]
      rfl
    · rw [← now]
      exact Session.run_late (by rw [ran]; exact exhausted)

end MarketLab.MarketData

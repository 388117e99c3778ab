import Mathlib.Data.List.Perm.Subperm
import MarketLab.MarketData.Delivery

/-!
# The window of pending packets

Pending sequences lie strictly ahead of the position, and no further than the gap limit. They
are distinct, so there are never more of them than the gap limit: a capacity that is no smaller
is never used up.
-/
namespace MarketLab.MarketData
open MarketLab.Collections

/-- A buffer within its limits. -/
structure Windowed (limits : SequencedBufferLimits) (buffer : SequencedBuffer Packet) : Prop where
  configured : buffer.limits = limits
  near : ∀ entry ∈ buffer.pending.entries, ∀ place, buffer.position = some place →
    entry.1.toNat ≤ place + limits.maximumSequenceGap.toNat
  held : buffer.pendingSize ≤ limits.maximumPendingValues

section Window
variable {config : ProcessorConfig} {packets : List Packet} {buffer : SequencedBuffer Packet}
  {delivered : List Packet} {calls : List ProcessCall}

theorem windowed_initial (config : ProcessorConfig) :
    Windowed config.sequenceLimits (Processor.initial config).packets where
  configured := rfl
  near entry member := by cases member
  held := Nat.zero_le _

/-- What is pending is strictly ahead of a known position. -/
theorem Ordered.ahead (ordered : Ordered config packets buffer delivered calls) :
    ∀ entry ∈ buffer.pending.entries,
      ∃ place, buffer.position = some place ∧ place < entry.1.toNat := by
  intro entry member
  obtain ⟨place, here, ahead⟩ := ordered.aligned.ahead entry member
  have apart : place ≠ entry.1.toNat := fun same => ordered.waiting entry member (same ▸ here)
  exact ⟨place, here, Nat.lt_of_le_of_ne ahead apart⟩

theorem Windowed.step {limits : SequencedBufferLimits} (windowed : Windowed limits buffer)
    (ordered : Ordered config packets buffer delivered calls) {value : Packet}
    {after : SequencedBuffer Packet} {ordering : SequenceResult} {released : List Packet}
    (processed : Processor.Processed buffer value after ordering released) :
    Windowed limits after := by
  cases processed with
  | delivered expected _ front drained =>
    have split := drained.split
    rw [SequencedBuffer.advanceAfter_pending] at split
    have stays : ∀ entry ∈ after.pending.entries, entry ∈ buffer.pending.entries := by
      intro entry member
      rw [split]
      exact List.mem_append_right _ member
    refine ⟨?_, fun entry member place here => ?_, ?_⟩
    · rw [drained.limits, SequencedBuffer.advanceAfter_limits, windowed.configured]
    · -- The position moves on from the delivered sequence, the pending packet stays.
      obtain ⟨old, there, -⟩ := ordered.ahead entry (stays entry member)
      have near := windowed.near entry (stays entry member) old there
      obtain rfl := Option.some.inj (drained.position.symm.trans here)
      rcases expected with unknown | expected
      · rw [unknown] at there
        cases there
      · obtain rfl := Option.some.inj (expected.symm.trans there)
        omega
    · have held := windowed.held
      rw [SequencedBuffer.pendingSize, OrderedMap.size] at held ⊢
      rw [split, List.length_append] at held
      omega
  | old => exact windowed
  | duplicate => exact windowed
  | gapLimitExceeded => exact windowed
  | capacityExhausted => exact windowed
  | held place here ahead near room absent =>
    refine ⟨windowed.configured, fun entry member place' here' => ?_, ?_⟩
    · obtain rfl := Option.some.inj (here.symm.trans here')
      rcases OrderedMap.mem_insertOrAssign.mp member with rfl | ⟨-, old⟩
      · rw [windowed.configured] at near
        exact near
      · exact windowed.near entry old place here
    · obtain ⟨front, back, whole, inserted, -, -⟩ :=
        OrderedMap.insertOrAssign_split_new (m := buffer.pending) value absent
      rw [windowed.configured] at room
      rw [SequencedBuffer.pendingSize, OrderedMap.size] at room ⊢
      simp only [inserted]
      rw [whole, List.length_append] at room
      rw [List.length_append, List.length_cons]
      omega

/-- Distinct sequences within a gap of a place are no more than the gap. -/
theorem length_le_gap {sequences : List UInt64} (distinct : sequences.Nodup) {place gap : Nat}
    (within : ∀ sequence ∈ sequences, place < sequence.toNat ∧ sequence.toNat ≤ place + gap) :
    sequences.length ≤ gap := by
  have inside : sequences.map UInt64.toNat ⊆ List.range' (place + 1) gap := by
    intro number member
    obtain ⟨sequence, among, rfl⟩ := List.mem_map.mp member
    obtain ⟨later, near⟩ := within sequence among
    exact List.mem_range'_1.mpr ⟨later, by omega⟩
  have numbers : (sequences.map UInt64.toNat).Nodup :=
    distinct.map fun _ _ => UInt64.toNat_inj.mp
  have count := (List.subperm_of_subset numbers inside).length_le
  rwa [List.length_map, List.length_range'] at count

/-- The pending sequences are in the window. -/
theorem Windowed.within {limits : SequencedBufferLimits} (windowed : Windowed limits buffer)
    (ordered : Ordered config packets buffer delivered calls) {place : Nat}
    (here : buffer.position = some place) :
    ∀ sequence ∈ buffer.pending.entries.map Prod.fst,
      place < sequence.toNat ∧ sequence.toNat ≤ place + limits.maximumSequenceGap.toNat := by
  intro sequence held
  obtain ⟨entry, pending, rfl⟩ := List.mem_map.mp held
  obtain ⟨place', here', later⟩ := ordered.ahead entry pending
  obtain rfl := Option.some.inj (here.symm.trans here')
  exact ⟨later, windowed.near entry pending place here⟩

theorem Windowed.pending_le_gap {limits : SequencedBufferLimits} (windowed : Windowed limits buffer)
    (ordered : Ordered config packets buffer delivered calls) :
    buffer.pendingSize ≤ limits.maximumSequenceGap.toNat := by
  rw [SequencedBuffer.pendingSize, OrderedMap.size, ← List.length_map (f := Prod.fst)]
  cases here : buffer.position with
  | some place => exact length_le_gap buffer.pending.keys_nodup (windowed.within ordered here)
  | none =>
    have empty : buffer.pending.entries = [] :=
      List.eq_nil_iff_forall_not_mem.mpr fun entry member => by
        obtain ⟨place, there, -⟩ := ordered.ahead entry member
        rw [here] at there
        cases there
    rw [empty]
    exact Nat.zero_le _

/-- A sequence that would be held finds the window not full yet. -/
theorem Windowed.room {limits : SequencedBufferLimits} (windowed : Windowed limits buffer)
    (ordered : Ordered config packets buffer delivered calls) {place : Nat}
    (here : buffer.position = some place) {sequence : UInt64} (ahead : place < sequence.toNat)
    (near : sequence.toNat ≤ place + limits.maximumSequenceGap.toNat)
    (absent : buffer.pending.find? sequence = none) :
    buffer.pendingSize < limits.maximumSequenceGap.toNat := by
  have fresh : sequence ∉ buffer.pending.entries.map Prod.fst := by
    intro held
    obtain ⟨entry, member, same⟩ := List.mem_map.mp held
    exact OrderedMap.find?_eq_none.mp absent entry member same
  have count := length_le_gap (List.nodup_cons.mpr ⟨fresh, buffer.pending.keys_nodup⟩)
    (List.forall_mem_cons.mpr ⟨⟨ahead, near⟩, windowed.within ordered here⟩)
  rwa [List.length_cons, List.length_map] at count

/-- Where the capacity covers the gap limit, it is never what refuses a packet. -/
theorem Windowed.never_full {limits : SequencedBufferLimits} (windowed : Windowed limits buffer)
    (ordered : Ordered config packets buffer delivered calls)
    (covers : limits.maximumSequenceGap.toNat ≤ limits.maximumPendingValues) {value : Packet}
    {after : SequencedBuffer Packet} {ordering : SequenceResult} {released : List Packet}
    (processed : Processor.Processed buffer value after ordering released) :
    ordering ≠ .capacityExhausted := by
  rintro rfl
  cases processed with
  | capacityExhausted place here ahead near absent full =>
    rw [windowed.configured] at near full
    have room := windowed.room ordered here ahead near absent
    omega

end Window

/-! ## Sessions -/

theorem Session.run_windowed (config : ProcessorConfig) (packets : List Packet) :
    ∃ buffer calls, Ordered config packets buffer (config.deliveries packets) calls ∧
      Windowed config.sequenceLimits buffer ∧
      (config.sequenceLimits.maximumSequenceGap.toNat ≤ config.sequenceLimits.maximumPendingValues →
        ∀ call ∈ calls, call.result.ordering ≠ .capacityExhausted) ∧
      ∀ {σ : Type} (consume : Consumer Empty σ) (start : σ), run config consume start packets =
        { processor := ⟨buffer⟩, state := consume.after start (config.deliveries packets), calls } := by
  obtain ⟨buffer, calls, ordered, ⟨windowed, unfilled⟩, ran⟩ := Session.run_induct config
    (P := fun buffer calls => Windowed config.sequenceLimits buffer ∧
      (config.sequenceLimits.maximumSequenceGap.toNat ≤ config.sequenceLimits.maximumPendingValues →
        ∀ call ∈ calls, call.result.ordering ≠ .capacityExhausted))
    ⟨windowed_initial config, fun _ call member => by cases member⟩
    (fun packets buffer delivered calls value after ordering released ordered processed holds => by
      refine ⟨holds.1.step ordered processed, fun covers call member => ?_⟩
      rcases List.mem_append.mp member with old | new
      · exact holds.2 covers call old
      · rw [List.mem_singleton.mp new]
        exact holds.1.never_full ordered covers processed) packets
  exact ⟨buffer, calls, ordered, windowed, unfilled, ran⟩

/-- After every call of a session, what is pending lies in the window behind the next sequence,
without wrapping, and within both limits; where the capacity covers the gap limit no call
finds the buffer full, and a packet is discarded only as old, as a duplicate or for its gap. -/
theorem window_bounds_pending (config : ProcessorConfig) (packets : List Packet) {σ : Type}
    (consume : Consumer Empty σ) (start : σ) :
    let limits := config.sequenceLimits
    let session := Session.run config consume start packets
    (∀ entry ∈ session.processor.packets.pending.entries,
      ∃ next, session.processor.nextSequence = some next ∧ next < entry.1 ∧
        entry.1.toNat ≤ next.toNat + limits.maximumSequenceGap.toNat) ∧
    session.processor.pendingSize ≤
      min limits.maximumPendingValues limits.maximumSequenceGap.toNat ∧
    (limits.maximumSequenceGap.toNat ≤ limits.maximumPendingValues →
      ∀ call ∈ session.calls, call.result.ordering ≠ .capacityExhausted ∧
        (call.Accepted = false → call.result.ordering = .old ∨ call.result.ordering = .duplicate ∨
          call.result.ordering = .gapLimitExceeded)) := by
  intro limits session
  obtain ⟨buffer, calls, ordered, windowed, unfilled, ran⟩ := Session.run_windowed config packets
  have now : session = { processor := ⟨buffer⟩, state := _, calls } := ran consume start
  rw [now]
  refine ⟨fun entry member => ?_, ?_, fun covers call member => ?_⟩
  · obtain ⟨place, here, ahead⟩ := ordered.ahead entry member
    have near := windowed.near entry member place here
    have bounded := entry.1.toNat_lt
    obtain ⟨next, running, rfl, -⟩ := SequencedBuffer.position_lt here (by omega)
    exact ⟨next, running, UInt64.lt_iff_toNat_lt.mpr ahead, near⟩
  · exact Nat.le_min.mpr ⟨windowed.held, windowed.pending_le_gap ordered⟩
  · have found := unfilled covers call member
    refine ⟨found, fun unaccepted => ?_⟩
    cases outcome : call.result.ordering with
    | ready => simp [ProcessCall.Accepted, outcome] at unaccepted
    | buffered => simp [ProcessCall.Accepted, outcome] at unaccepted
    | old => exact .inl rfl
    | duplicate => exact .inr (.inl rfl)
    | gapLimitExceeded => exact .inr (.inr rfl)
    | capacityExhausted => exact absurd outcome found

end MarketLab.MarketData

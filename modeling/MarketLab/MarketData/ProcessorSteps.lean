import MarketLab.MarketData.Processor

/-!
# What a call of the processor delivers

With a consumer that does not throw, a drain releases the front of the pending packets up to
the first missing sequence, and a call delivers its packet and what the drain after it
releases. Which packets these are does not depend on the consumer.
-/
namespace MarketLab.MarketData
open MarketLab.Collections

/-- The state of a consumer that does not throw, after some deliveries. -/
def Consumer.after {σ : Type} (consume : Consumer Empty σ) (state : σ) (delivered : List Packet) : σ :=
  delivered.foldl (fun state packet => (consume state packet).1) state

theorem Consumer.quiet {σ : Type} (consume : Consumer Empty σ) (state : σ) (packet : Packet) :
    consume state packet = ((consume state packet).1, none) := by
  rcases consume state packet with ⟨after, thrown⟩
  cases thrown with
  | none => rfl
  | some thrown => exact thrown.elim

/-- `after` is `packets` with the entries from `place` on released, up to the first gap. -/
structure Drained (packets : SequencedBuffer Packet) (place : Nat) (after : SequencedBuffer Packet)
    (front : List (UInt64 × Packet)) : Prop where
  limits : after.limits = packets.limits
  aligned : after.Aligned
  position : after.position = some (place + front.length)
  split : packets.pending.entries = front ++ after.pending.entries
  sequences : front.map (fun entry => entry.1.toNat) = List.range' place front.length
  gap : ∀ entry ∈ after.pending.entries, place + front.length < entry.1.toNat

namespace Processor

theorem drained_nothing {packets : SequencedBuffer Packet} (aligned : packets.Aligned) {place : Nat}
    (here : packets.position = some place)
    (waiting : ∀ entry rest, packets.pending.entries = entry :: rest →
      packets.position ≠ some entry.1.toNat) : Drained packets place packets [] := by
  refine ⟨rfl, aligned, here, rfl, rfl, fun entry member => ?_⟩
  obtain ⟨first, rest, entries⟩ := List.exists_cons_of_ne_nil (List.ne_nil_of_mem member)
  have later : first.1.toNat ≤ entry.1.toNat := by
    have sorted := packets.pending.sorted
    rw [entries, List.pairwise_cons] at sorted
    rw [entries] at member
    rcases List.mem_cons.mp member with rfl | behind
    · exact Nat.le_refl _
    · exact Nat.le_of_lt (UInt64.lt_iff_toNat_lt.mp (sorted.1 entry behind))
  obtain ⟨place', here', ahead⟩ := aligned.ahead first (entries ▸ List.mem_cons_self)
  obtain rfl := Option.some.inj (here.symm.trans here')
  have differ : place ≠ first.1.toNat := fun same => waiting first rest entries (same ▸ here)
  simp only [List.length_nil, Nat.add_zero]
  omega

theorem drain_spec {bound : Nat} {packets : SequencedBuffer Packet} (aligned : packets.Aligned)
    {place : Nat} (here : packets.position = some place) (enough : packets.pendingSize ≤ bound) :
    ∃ after front, Drained packets place after front ∧
      ∀ {σ : Type} (consume : Consumer Empty σ) (state : σ) (delivered : Nat),
        drain consume bound packets state delivered =
          (after, consume.after state (front.map Prod.snd), .ok (delivered + front.length)) := by
  induction bound generalizing packets place with
  | zero =>
    have empty : packets.pending.entries = [] := List.eq_nil_of_length_eq_zero (Nat.le_zero.mp enough)
    refine ⟨packets, [], drained_nothing aligned here fun entry rest entries => ?_, fun _ _ _ => rfl⟩
    rw [empty] at entries
    cases entries
  | succ bound ih =>
    have popped := packets.popReady_popped aligned.consistent
    have alignedAfter := aligned.popReady
    cases outcome : packets.popReady with
    | mk next value =>
      rw [outcome] at popped alignedAfter
      cases popped with
      | nothing waiting =>
        exact ⟨packets, [], drained_nothing aligned here waiting, fun consume state delivered => by
          simp only [drain, outcome]; rfl⟩
      | value sequence queued rest first expected running =>
        obtain rfl := Option.some.inj (here.symm.trans expected)
        let erased := { packets with pending := packets.pending.eraseFirst }
        have moved := (SequencedBuffer.advanceAfter_position
          (show erased.sequenceExhausted = false from running) sequence).1
        have entries : (erased.advanceAfter sequence).pending.entries = rest := by
          rw [SequencedBuffer.advanceAfter_pending, OrderedMap.entries_eraseFirst, first]
          rfl
        have shorter : (erased.advanceAfter sequence).pendingSize ≤ bound := by
          rw [SequencedBuffer.pendingSize, OrderedMap.size, first, List.length_cons] at enough
          rw [SequencedBuffer.pendingSize, OrderedMap.size, entries]
          exact Nat.le_of_succ_le_succ enough
        obtain ⟨after, front, drained, ran⟩ := ih alignedAfter moved shorter
        have place : sequence.toNat + (front.length + 1) = sequence.toNat + 1 + front.length := by omega
        refine ⟨after, (sequence, queued) :: front, ⟨?_, drained.aligned, ?_, ?_, ?_, ?_⟩, ?_⟩
        · rw [drained.limits, SequencedBuffer.advanceAfter_limits]
        · rw [List.length_cons, place]
          exact drained.position
        · rw [first, ← entries, drained.split, List.cons_append]
        · rw [List.map_cons, drained.sequences, List.length_cons, List.range'_succ]
        · rw [List.length_cons, place]
          exact drained.gap
        · intro σ consume state delivered
          have count : delivered + 1 + front.length = delivered + (front.length + 1) := by omega
          rw [drain, outcome]
          simp only
          rw [consume.quiet]
          simp only
          rw [ran, List.length_cons, count]
          rfl

/-- One call: its outcome, the deliveries it makes, and the buffer it leaves. -/
inductive Processed (packets : SequencedBuffer Packet) (value : Packet) :
    SequencedBuffer Packet → SequenceResult → List Packet → Prop
  | delivered (expected : packets.position = none ∨ packets.position = some value.sequence.toNat)
      (after : SequencedBuffer Packet) (front : List (UInt64 × Packet))
      (drained : Drained (packets.advanceAfter value.sequence) (value.sequence.toNat + 1) after front) :
      Processed packets value after .ready (value :: front.map Prod.snd)
  | old (place : Nat) (here : packets.position = some place)
      (behind : value.sequence.toNat < place) : Processed packets value packets .old []
  | duplicate (place : Nat) (here : packets.position = some place)
      (held : packets.pending.contains value.sequence = true) :
      Processed packets value packets .duplicate []
  | gapLimitExceeded (place : Nat) (here : packets.position = some place)
      (far : place + packets.limits.maximumSequenceGap.toNat < value.sequence.toNat) :
      Processed packets value packets .gapLimitExceeded []
  | capacityExhausted (place : Nat) (here : packets.position = some place)
      (ahead : place < value.sequence.toNat)
      (near : value.sequence.toNat ≤ place + packets.limits.maximumSequenceGap.toNat)
      (absent : packets.pending.find? value.sequence = none)
      (full : packets.limits.maximumPendingValues ≤ packets.pendingSize) :
      Processed packets value packets .capacityExhausted []
  | held (place : Nat) (here : packets.position = some place) (ahead : place < value.sequence.toNat)
      (near : value.sequence.toNat ≤ place + packets.limits.maximumSequenceGap.toNat)
      (room : packets.pendingSize < packets.limits.maximumPendingValues)
      (absent : packets.pending.find? value.sequence = none) :
      Processed packets value
        { packets with pending := packets.pending.insertOrAssign value.sequence value } .buffered []

theorem process_spec (processor : Processor) (aligned : processor.packets.Aligned)
    (waiting : ∀ entry ∈ processor.packets.pending.entries,
      processor.packets.position ≠ some entry.1.toNat) (value : Packet) :
    ∃ after ordering delivered, Processed processor.packets value after ordering delivered ∧
      ∀ {σ : Type} (consume : Consumer Empty σ) (state : σ), processor.process value consume state =
        ({ packets := after }, consume.after state delivered,
          .ok { ordering, packetsDelivered := delivered.length }) := by
  have pushed := SequencedBuffer.push_pushed aligned.consistent value.sequence fun _ => value
  have alignedAfter := aligned.push value.sequence (fun _ => value) fun running => by
    rw [OrderedMap.contains_eq_false, OrderedMap.find?_eq_none]
    rintro entry member same
    refine waiting entry member ?_
    rw [same, SequencedBuffer.position_running aligned.consistent running]
  cases outcome : processor.packets.push value.sequence fun _ => value with
  | mk after ordering =>
    rw [outcome] at pushed alignedAfter
    have stays : ordering ≠ .ready → ∀ {σ : Type} (consume : Consumer Empty σ) (state : σ),
        processor.process value consume state =
          ({ packets := after }, consume.after state [], .ok { ordering, packetsDelivered := 0 }) := by
      intro unready σ consume state
      rw [process, outcome]
      simp only
      rw [if_pos unready]
      rfl
    cases pushed with
    | ready running expected =>
      have moved := (SequencedBuffer.advanceAfter_position running value.sequence).1
      obtain ⟨after, front, drained, ran⟩ := drain_spec alignedAfter moved (Nat.le_refl _)
      refine ⟨after, .ready, _, .delivered expected after front drained, fun consume state => ?_⟩
      have count : 1 + front.length = front.length + 1 := Nat.add_comm ..
      rw [process, outcome]
      simp only
      rw [if_neg (not_not.mpr rfl), consume.quiet]
      simp only
      rw [ran, List.length_cons, List.length_map, count]
      rfl
    | old place here behind => exact ⟨_, _, _, .old place here behind, stays (by decide)⟩
    | duplicate place here ahead held => exact ⟨_, _, _, .duplicate place here held, stays (by decide)⟩
    | gapLimitExceeded place here far absent =>
      exact ⟨_, _, _, .gapLimitExceeded place here far, stays (by decide)⟩
    | capacityExhausted place here ahead near absent full =>
      exact ⟨_, _, _, .capacityExhausted place here ahead near absent full, stays (by decide)⟩
    | buffered place here ahead near room absent =>
      exact ⟨_, _, _, .held place here ahead near room absent, stays (by decide)⟩

end Processor
end MarketLab.MarketData

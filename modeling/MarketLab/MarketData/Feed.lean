import MarketLab.MarketData.Publication

/-!
# The feed of a run

One encoder numbers the updates of a run from one on. What its datagrams decode to is that
numbering of the translated updates.
-/
namespace MarketLab.MarketData
open MarketLab.Matching (Event)

/-- The updates among some events as packets, numbered from `number` on. -/
def feed : Nat → List Event → List Packet
  | _, [] => []
  | number, .bookUpdated instrument direction bestPrice totalSize :: events =>
    { sequence := UInt64.ofNat number,
      payload := translated instrument direction bestPrice totalSize } :: feed (number + 1) events
  | number, _ :: events => feed number events

/-- One encoder over some events, in order. -/
def FeedEncoder.encodeAll (endian : Endian) :
    FeedEncoder → List Event → Except Fault (FeedEncoder × List EncodedDatagram)
  | encoder, [] => .ok (encoder, [])
  | encoder, event :: events => do
    let (encoder, datagram) ← encoder.encode endian event
    let (encoder, datagrams) ← encodeAll endian encoder events
    return (encoder, datagram.toList ++ datagrams)

theorem one_positive : (1 : UInt64) ≠ 0 := by decide

/-- The encoder of the default argument. -/
def FeedEncoder.first : FeedEncoder := { nextSequence := 1, positive := one_positive }

theorem feed_append (number : Nat) (front back : List Event) :
    feed number (front ++ back) =
      feed number front ++ feed (number + (feed number front).length) back := by
  induction front generalizing number with
  | nil => rfl
  | cons event front ih =>
    cases event with
    | bookUpdated instrument direction bestPrice totalSize =>
      have count : number + 1 + (feed (number + 1) front).length =
          number + ((feed (number + 1) front).length + 1) := by omega
      rw [List.cons_append, feed, feed, ih, List.cons_append, List.length_cons, count]
    | _ => exact ih number

theorem feed_sequences {number : Nat} {events : List Event}
    (room : number + (feed number events).length ≤ 2 ^ 64) :
    (feed number events).map (fun packet => packet.sequence.toNat) =
      List.range' number (feed number events).length := by
  induction events generalizing number with
  | nil => rfl
  | cons event events ih =>
    cases event with
    | bookUpdated instrument direction bestPrice totalSize =>
      rw [feed, List.length_cons] at room
      have exact : (UInt64.ofNat number).toNat = number :=
        UInt64.toNat_ofNat_of_lt' (by rw [UInt64.size]; omega)
      rw [feed, List.map_cons, List.length_cons, List.range'_succ, exact, ih (by omega)]
    | _ => exact ih room

/-- The encoder takes publishable events as long as its sequences last, and every datagram
decodes to its packet of the feed. -/
theorem FeedEncoder.encodeAll_ok (endian : Endian) {events : List Event}
    (publishable : ∀ event ∈ events, event.Publishable) {encoder : FeedEncoder}
    (more : encoder.sequenceExhausted = false)
    (room : encoder.nextSequence.toNat + (feed encoder.nextSequence.toNat events).length < 2 ^ 64) :
    ∃ after datagrams, encoder.encodeAll endian events = .ok (after, datagrams) ∧
      datagrams.map (fun datagram => decode endian datagram.bytes) =
        (feed encoder.nextSequence.toNat events).map .ok := by
  induction events generalizing encoder with
  | nil => exact ⟨encoder, [], rfl, rfl⟩
  | cons event events ih =>
    obtain ⟨here, later⟩ := List.forall_mem_cons.mp publishable
    cases event with
    | bookUpdated instrument direction bestPrice totalSize =>
      obtain ⟨l, rfl⟩ := here.2.1
      obtain ⟨bytes, encoded, decoded⟩ := encode_update endian here more
      rw [feed, List.length_cons] at room
      have notLast : encoder.nextSequence ≠ maximumSequence := by
        intro last
        rw [last, SequencedBuffer.toNat_maximumSequence] at room
        omega
      have moved : encoder.advance.nextSequence.toNat = encoder.nextSequence.toNat + 1 := by
        rw [advance, dif_neg notLast]
        simp only
        rw [UInt64.toNat_add, UInt64.toNat_one, Nat.mod_eq_of_lt (by omega)]
      have still : encoder.advance.sequenceExhausted = false := by
        rw [advance, dif_neg notLast]
        exact more
      obtain ⟨after, datagrams, ran, packets⟩ := ih later still (by rw [moved]; omega)
      refine ⟨after, { sequence := encoder.nextSequence, bytes } :: datagrams, ?_, ?_⟩
      · rw [encodeAll, encoded]
        simp only [bind, Except.bind]
        rw [ran]
        rfl
      · rw [List.map_cons, decoded, packets, moved, feed, List.map_cons, UInt64.ofNat_toNat]
    | _ =>
      obtain ⟨after, datagrams, ran, packets⟩ := ih later more room
      refine ⟨after, datagrams, ?_, packets⟩
      rw [encodeAll, encode]
      · simp only [bind, Except.bind]
        rw [ran]
        rfl
      · exact fun _ _ _ _ same => by cases same

end MarketLab.MarketData

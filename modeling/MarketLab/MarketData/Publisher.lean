import MarketLab.MarketData.Feed
import MarketLab.MarketData.Numbering

/-!
# The multicast publisher

`multicast_publisher.hpp` and `multicast_publisher.cpp`. The socket of `obz/transport` is what it
answers to each `send_to` over the publisher's life: a number of bytes, or a throw. What was
handed to it, with the answers, is kept beside the publisher as its history. The counters of a
result are numbers that do not wrap around: a call sends at most one datagram of 38 bytes for each
of its events, and no vector holds 2^58 of these.
-/
namespace MarketLab.MarketData
open MarketLab.Matching (Event)

inductive SendAnswer where
  | sent (bytes : Nat)
  | threw (what : String)
  deriving DecidableEq, Repr

/-- The answer to the n-th `send_to`. -/
abbrev Network := Nat → SendAnswer

/-- The size of every packet. -/
def packetSize : Nat := HeaderLayout.size + BookUpdateLayout.size

/-- The n-th `send_to` takes a whole packet. -/
def Network.Completes (network : Network) (n : Nat) : Prop := network n = .sent packetSize

structure Send where
  datagram : EncodedDatagram
  answer : SendAnswer
  deriving DecidableEq, Repr

/-- The whole datagram was taken. -/
def Send.complete (send : Send) : Bool := send.answer = .sent send.datagram.bytes.length

structure PublishResult where
  messagesPublished : Nat := 0
  bytesSent : Nat := 0
  firstSequence : UInt64 := 0
  lastSequence : UInt64 := 0
  deriving DecidableEq, Repr

/-- What a publish call throws, itself or from what it calls. -/
inductive PublishFault where
  | encoder (fault : Fault)
  | socket (what : String)
  | runtimeError (what : String)
  deriving DecidableEq, Repr

structure MulticastPublisher where
  encoder : FeedEncoder := .first
  sends : List Send := []

def PublishResult.add (result : PublishResult) (datagram : EncodedDatagram) (bytesSent : Nat) :
    PublishResult where
  firstSequence := if result.messagesPublished = 0 then datagram.sequence else result.firstSequence
  lastSequence := datagram.sequence
  messagesPublished := result.messagesPublished + 1
  bytesSent := result.bytesSent + bytesSent

namespace MulticastPublisher

/-- The loop of `publish`. -/
def publishEvents (endian : Endian) (network : Network) :
    List Event → MulticastPublisher → PublishResult →
      MulticastPublisher × Except PublishFault PublishResult
  | [], publisher, result => (publisher, .ok result)
  | emitted :: events, publisher, result =>
    match publisher.encoder.encode endian emitted with
    | .error fault => (publisher, .error (.encoder fault))
    | .ok (encoder, none) => publishEvents endian network events { publisher with encoder } result
    | .ok (encoder, some datagram) =>
      let answer := network publisher.sends.length
      let publisher := { encoder, sends := publisher.sends ++ [{ datagram, answer }] }
      match answer with
      | .threw what => (publisher, .error (.socket what))
      | .sent bytesSent =>
        if bytesSent ≠ datagram.bytes.length then
          (publisher, .error (.runtimeError "UDP send did not consume the complete datagram"))
        else publishEvents endian network events publisher (result.add datagram bytesSent)

def publish (endian : Endian) (network : Network) (publisher : MulticastPublisher)
    (events : List Event) : MulticastPublisher × Except PublishFault PublishResult :=
  publishEvents endian network events publisher {}

/-- A publisher's life: what a call throws is caught and the next call made. -/
def life (endian : Endian) (network : Network) (batches : List (List Event)) : MulticastPublisher :=
  batches.foldl (fun publisher events => (publisher.publish endian network events).1) {}

/-- What was sent completely, in order. -/
def completed (publisher : MulticastPublisher) : List Send := publisher.sends.filter Send.complete

end MulticastPublisher

/-! ## Numbered items -/

/-- Of items numbered from one on, those that pass a test are numbered so themselves just when
none that passes comes after one that does not. -/
theorem numbered_filter_iff {α : Type} {number : α → Nat} {test : α → Bool} {items : List α}
    (numbered : items.map number = List.range' 1 items.length) :
    (items.filter test).map number = List.range' 1 (items.filter test).length ↔
      items.Pairwise fun earlier later => test later = true → test earlier = true := by
  induction items using List.reverseRecOn with
  | nil => simp
  | append_singleton items last ih =>
    rw [List.map_append, List.length_append, List.length_singleton, List.range'_1_concat] at numbered
    obtain ⟨before, end_⟩ := List.append_inj' numbered rfl
    have lastNumber : number last = 1 + items.length := (List.cons.inj end_).1
    rw [List.filter_append, List.pairwise_append]
    cases passes : test last with
    | false =>
      rw [List.filter_cons_of_neg (by simp [passes]), List.filter_nil, List.append_nil, ih before]
      simp [passes]
    | true =>
      rw [List.filter_cons_of_pos passes, List.filter_nil, List.map_append, List.length_append,
        List.length_singleton, List.range'_1_concat]
      constructor
      · intro whole
        obtain ⟨front, back⟩ := List.append_inj' whole rfl
        have count : (items.filter test).length = items.length := by
          have same : number last = 1 + (items.filter test).length := (List.cons.inj back).1
          omega
        have all := List.length_filter_eq_length_iff.mp count
        exact ⟨(ih before).mp front, List.pairwise_singleton _ _, fun earlier member _ _ _ =>
          all earlier member⟩
      · rintro ⟨pairs, -, cross⟩
        have all : items.filter test = items := List.filter_eq_self.mpr fun earlier member =>
          cross earlier member last (List.mem_singleton_self last) passes
        rw [all, before, List.map_singleton, lastNumber]

/-! ## The sequences of a life -/

namespace FeedEncoder
variable {endian : Endian} {encoder after : FeedEncoder} {event : Event}

theorem encode_returned {datagram : EncodedDatagram}
    (ok : encoder.encode endian event = .ok (after, some datagram)) :
    encoder.sequenceExhausted = false ∧ after = encoder.advance ∧
      datagram.sequence = encoder.nextSequence ∧ datagram.bytes.length = packetSize := by
  have outcome := (call_outcome endian encoder event).cases_on
  rw [call_ok ok] at outcome
  rcases outcome with ⟨nothing, -, -⟩ | ⟨other, same, -, more, advanced, sequence, carried⟩
  · cases nothing
  · obtain rfl := Option.some.inj same
    obtain ⟨_, _, _, _, -, decoded⟩ := carried
    exact ⟨more, advanced, sequence, length_encode endian (encode_decode endian decoded)⟩

theorem encode_ignored (ok : encoder.encode endian event = .ok (after, none)) : after = encoder := by
  have outcome := (call_outcome endian encoder event).cases_on
  rw [call_ok ok] at outcome
  rcases outcome with ⟨-, -, same⟩ | ⟨other, some_, -⟩
  · exact same
  · cases some_

end FeedEncoder

namespace MulticastPublisher

/-- The sends so far took the sequences from one on, and the encoder has the next one. -/
structure Sequenced (network : Network) (publisher : MulticastPublisher) : Prop where
  answered : publisher.sends.map Send.answer = (List.range publisher.sends.length).map network
  whole : ∀ send ∈ publisher.sends, send.datagram.bytes.length = packetSize
  taken : publisher.sends.map (fun send => send.datagram.sequence.toNat) =
    List.range' 1 publisher.sends.length
  next : publisher.encoder.sequenceExhausted = false →
    publisher.encoder.nextSequence.toNat = publisher.sends.length + 1

theorem sequenced_initial (network : Network) : Sequenced network {} where
  answered := rfl
  whole send member := by cases member
  taken := rfl
  next _ := rfl

section Sends
variable {endian : Endian} {network : Network} {publisher : MulticastPublisher}

/-- A send takes the next sequence, whatever becomes of it. -/
theorem Sequenced.send (sequenced : publisher.Sequenced network) {event : Event}
    {encoder : FeedEncoder} {datagram : EncodedDatagram}
    (encoded : publisher.encoder.encode endian event = .ok (encoder, some datagram)) :
    Sequenced network { encoder, sends := publisher.sends ++
      [{ datagram, answer := network publisher.sends.length }] } := by
  obtain ⟨more, rfl, sequence, size⟩ := FeedEncoder.encode_returned encoded
  have number := sequenced.next more
  refine ⟨?_, fun send member => ?_, ?_, fun still => ?_⟩
  · rw [List.map_append, sequenced.answered, List.length_append, List.length_singleton,
      List.range_succ, List.map_append, List.map_singleton, List.map_singleton]
  · rcases List.mem_append.mp member with old | new
    · exact sequenced.whole send old
    · rw [List.mem_singleton.mp new]
      exact size
  · rw [List.map_append, sequenced.taken, List.length_append, List.length_singleton,
      List.range'_1_concat, List.map_singleton, sequence, number, Nat.add_comm 1]
  · have notLast : publisher.encoder.nextSequence ≠ maximumSequence := fun last => by
      rw [FeedEncoder.advance_exhausted last] at still
      cases still
    have below := publisher.encoder.nextSequence.toNat_lt
    have other : publisher.encoder.nextSequence.toNat ≠ maximumSequence.toNat :=
      fun equal => notLast (UInt64.toNat_inj.mp equal)
    rw [SequencedBuffer.toNat_maximumSequence] at other
    rw [FeedEncoder.advance, dif_neg notLast, List.length_append, List.length_singleton, ← number]
    exact (UInt64.toNat_add _ _).trans (Nat.mod_eq_of_lt (by rw [UInt64.toNat_one]; omega))

theorem Sequenced.publishEvents {events : List Event} (sequenced : publisher.Sequenced network)
    (result : PublishResult) :
    (MulticastPublisher.publishEvents endian network events publisher result).1.Sequenced network := by
  induction events generalizing publisher result with
  | nil => exact sequenced
  | cons event events ih =>
    rw [MulticastPublisher.publishEvents]
    cases encoded : publisher.encoder.encode endian event with
    | error fault => exact sequenced
    | ok outcome =>
      obtain ⟨encoder, datagram⟩ := outcome
      cases datagram with
      | none =>
        obtain rfl := FeedEncoder.encode_ignored encoded
        exact ih sequenced result
      | some datagram =>
        have sent := sequenced.send encoded
        simp only
        split
        next => exact sent
        next bytesSent answered =>
          split
          next => exact sent
          next => exact ih sent _

/-- Whether a send was complete is what the network says of it. -/
theorem Sequenced.complete_iff (sequenced : publisher.Sequenced network) {n : Nat}
    (made : n < publisher.sends.length) :
    publisher.sends[n].complete = true ↔ network.Completes n := by
  have answers := congrArg (fun answers => answers[n]?) sequenced.answered
  have size := sequenced.whole _ (List.getElem_mem made)
  simp only [List.getElem?_map, List.getElem?_eq_getElem made, List.getElem?_range made,
    Option.map_some, Option.some.injEq] at answers
  rw [Send.complete, decide_eq_true_iff, size, answers, Network.Completes]

end Sends

theorem life_sequenced (endian : Endian) (network : Network) (batches : List (List Event)) :
    (life endian network batches).Sequenced network := by
  induction batches using List.reverseRecOn with
  | nil => exact sequenced_initial network
  | append_singleton batches events ih =>
    rw [life, List.foldl_concat]
    exact ih.publishEvents {}

/-- The completely sent datagrams are numbered from one on, so that no sequence below one of
them was never sent. -/
structure WithoutHole (publisher : MulticastPublisher) : Prop where
  consecutive : publisher.completed.map (fun send => send.datagram.sequence.toNat) =
    List.range' 1 publisher.completed.length
  reachable : ∀ send ∈ publisher.completed, ∀ sequence, 1 ≤ sequence →
    sequence ≤ send.datagram.sequence →
      ∃ other ∈ publisher.completed, other.datagram.sequence = sequence

theorem withoutHole_iff {publisher : MulticastPublisher} : publisher.WithoutHole ↔
    publisher.completed.map (fun send => send.datagram.sequence.toNat) =
      List.range' 1 publisher.completed.length := by
  refine ⟨WithoutHole.consecutive, fun consecutive => ⟨consecutive, ?_⟩⟩
  intro send member sequence positive below
  have inside := List.mem_map_of_mem (f := fun send : Send => send.datagram.sequence.toNat) member
  rw [consecutive, List.mem_range'_1] at inside
  rw [UInt64.le_iff_toNat_le] at positive below
  have found : sequence.toNat ∈ publisher.completed.map fun send => send.datagram.sequence.toNat := by
    rw [consecutive, List.mem_range'_1]
    exact ⟨positive, by omega⟩
  obtain ⟨other, among, same⟩ := List.mem_map.mp found
  exact ⟨other, among, UInt64.toNat_inj.mp same⟩

end MulticastPublisher

/-- The stream of a publisher's life has no hole just when none of its sends completes after one
that did not. -/
theorem no_hole_iff (endian : Endian) (network : Network) (batches : List (List Event)) :
    let publisher := MulticastPublisher.life endian network batches
    publisher.WithoutHole ↔ ∀ early late, early < late → late < publisher.sends.length →
      network.Completes late → network.Completes early := by
  intro publisher
  have sequenced : publisher.Sequenced network :=
    MulticastPublisher.life_sequenced endian network batches
  rw [MulticastPublisher.withoutHole_iff, MulticastPublisher.completed,
    numbered_filter_iff sequenced.taken, List.pairwise_iff_getElem]
  constructor
  · intro pairs early late before made completes
    have here := (sequenced.complete_iff made).mpr completes
    exact (sequenced.complete_iff (Nat.lt_trans before made)).mp (pairs early late _ made before here)
  · intro pairs early late _ made before completes
    have here := (sequenced.complete_iff made).mp completes
    exact (sequenced.complete_iff _).mpr (pairs early late before made here)

/-- The first send throws; the caller publishes again, and what is sent then has sequence two. -/
theorem failed_send_leaves_hole :
    let update : Event := .bookUpdated ⟨1⟩ .buy none 0
    let network : Network := fun n => if n = 0 then .threw "Network is unreachable" else .sent packetSize
    let publisher := MulticastPublisher.life networkOrder network [[update], [update]]
    publisher.completed.map (fun send => send.datagram.sequence) = [2] ∧ ¬publisher.WithoutHole := by
  intro update network publisher
  have sequences : publisher.completed.map (fun send => send.datagram.sequence) = [2] := by decide
  refine ⟨sequences, fun without => ?_⟩
  have consecutive := without.consecutive
  revert consecutive
  decide

end MarketLab.MarketData

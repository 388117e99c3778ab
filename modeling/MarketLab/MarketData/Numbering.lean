import MarketLab.MarketData.Publication

/-!
# The numbering of the feed

Every history of calls of one encoder, of every kind of event and with every way out of a call:
an event that is no update is ignored, an update is returned under the next sequence, or the
call throws. The numbers returned have no gap, whatever was ignored or thrown in between.
-/
namespace MarketLab.MarketData
open MarketLab.Matching (Event)

/-- `std::get_if<matching::book_updated>`. -/
def isBookUpdated : Event → Bool
  | .bookUpdated .. => true
  | _ => false

/-- The call with the encoder as its state, in the order of the source: what was written
before a throw would stay written. -/
def FeedEncoder.encodeInPlace (endian : Endian) :
    Event → ExceptT Fault (StateM FeedEncoder) (Option EncodedDatagram)
  | .bookUpdated instrument direction bestPrice totalSize => do
    if (← get).sequenceExhausted then throw (.overflowError "market-data sequence is exhausted")
    let sequence := (← get).nextSequence
    let update ← ExceptT.mk (pure (toBookUpdate instrument direction bestPrice totalSize))
    let bytes ← ExceptT.mk (pure (MarketData.encode endian { sequence, payload := update }))
    modify advance
    return some { sequence, bytes }
  | _ => return none

/-- One completed call. -/
structure EncodeCall where
  before : FeedEncoder
  event : Event
  result : Except Fault (Option EncodedDatagram)
  after : FeedEncoder

namespace EncodeCall

def datagram (call : EncodeCall) : Option EncodedDatagram :=
  match call.result with
  | .ok datagram => datagram
  | .error _ => none

def threw (call : EncodeCall) : Bool :=
  match call.result with
  | .ok _ => false
  | .error _ => true

/-- The three ways out of a call. -/
inductive Outcome (endian : Endian) (call : EncodeCall) : Prop
  | ignored (other : isBookUpdated call.event = false) (result : call.result = .ok none)
      (after : call.after = call.before)
  | thrown (fault : Fault) (update : isBookUpdated call.event = true)
      (result : call.result = .error fault) (after : call.after = call.before)
      (exhausted : call.before.sequenceExhausted = true →
        fault = .overflowError "market-data sequence is exhausted")
  | returned (instrument : Matching.SymbolId) (direction : Matching.Side)
      (bestPrice : Option Matching.Price) (totalSize : UInt64) (bytes : List UInt8)
      (event : call.event = .bookUpdated instrument direction bestPrice totalSize)
      (more : call.before.sequenceExhausted = false)
      (result : call.result = .ok (some { sequence := call.before.nextSequence, bytes }))
      (after : call.after = call.before.advance)
      (decoded : decode endian bytes = .ok
        { sequence := call.before.nextSequence
          payload := translated instrument direction bestPrice totalSize })

end EncodeCall

namespace FeedEncoder

/-- A part of a call that reads no state: a throw ends the call where it stands. -/
theorem run_bind {α β : Type} (part : Except Fault α)
    (rest : α → ExceptT Fault (StateM FeedEncoder) β) (encoder : FeedEncoder) :
    (ExceptT.mk (pure part) >>= rest).run.run encoder =
      match part with
      | .ok value => (rest value).run.run encoder
      | .error fault => (.error fault, encoder) := by
  cases part <;> rfl

/-- A call returns what `encode` returns; when it throws, nothing has been written yet. -/
theorem encodeInPlace_eq (endian : Endian) (encoder : FeedEncoder) (event : Event) :
    (encodeInPlace endian event).run.run encoder =
      match encoder.encode endian event with
      | .ok (after, datagram) => (.ok datagram, after)
      | .error fault => (.error fault, encoder) := by
  cases event with
  | bookUpdated instrument direction bestPrice totalSize =>
    obtain ⟨sequence, positive, exhausted⟩ := encoder
    cases exhausted with
    | true => rfl
    | false =>
      let write (update : BookUpdate) : ExceptT Fault (StateM FeedEncoder) (Option EncodedDatagram) :=
        ExceptT.mk (pure (MarketData.encode endian { sequence, payload := update })) >>= fun bytes => do
          modify advance
          return some (EncodedDatagram.mk sequence bytes)
      change (ExceptT.mk (pure (toBookUpdate instrument direction bestPrice totalSize)) >>=
        write).run.run _ = _
      rw [run_bind, encode]
      cases toBookUpdate instrument direction bestPrice totalSize with
      | error fault => rfl
      | ok update =>
        simp only [write, bind, Except.bind]
        cases MarketData.encode endian { sequence, payload := update } <;> rfl
  | _ => rfl

def call (endian : Endian) (encoder : FeedEncoder) (event : Event) : EncodeCall :=
  let completed := (encodeInPlace endian event).run.run encoder
  { before := encoder, event, result := completed.1, after := completed.2 }

/-- A history of calls. -/
def calls (endian : Endian) : FeedEncoder → List Event → List EncodeCall
  | _, [] => []
  | encoder, event :: events =>
    encoder.call endian event :: calls endian (encoder.call endian event).after events

/-- A side that is translated is named. -/
theorem toBookUpdate_ok {instrument : Matching.SymbolId} {direction : Matching.Side}
    {bestPrice : Option Matching.Price} {totalSize : UInt64} {update : BookUpdate}
    (ok : toBookUpdate instrument direction bestPrice totalSize = .ok update) :
    update = translated instrument direction bestPrice totalSize := by
  cases direction with
  | buy => exact (Except.ok.inj ok).symm
  | sell => exact (Except.ok.inj ok).symm
  | unnamed underlying => cases ok

theorem call_ok {endian : Endian} {encoder after : FeedEncoder} {event : Event}
    {datagram : Option EncodedDatagram} (ok : encoder.encode endian event = .ok (after, datagram)) :
    encoder.call endian event = { before := encoder, event, result := .ok datagram, after } := by
  rw [call, encodeInPlace_eq, ok]

theorem call_error {endian : Endian} {encoder : FeedEncoder} {event : Event} {fault : Fault}
    (error : encoder.encode endian event = .error fault) :
    encoder.call endian event =
      { before := encoder, event, result := .error fault, after := encoder } := by
  rw [call, encodeInPlace_eq, error]

theorem call_outcome (endian : Endian) (encoder : FeedEncoder) (event : Event) :
    (encoder.call endian event).Outcome endian := by
  cases event with
  | bookUpdated instrument direction bestPrice totalSize =>
    cases exhausted : encoder.sequenceExhausted with
    | true =>
      rw [call_error (by rw [encode, if_pos exhausted])]
      exact .thrown _ rfl rfl rfl fun _ => rfl
    | false =>
      have late : ∀ {fault : Fault}, encoder.sequenceExhausted = true →
          fault = .overflowError "market-data sequence is exhausted" := by
        intro fault already
        rw [exhausted] at already
        cases already
      have more : ¬ encoder.sequenceExhausted = true := Bool.eq_false_iff.mp exhausted
      cases translation : toBookUpdate instrument direction bestPrice totalSize with
      | error fault =>
        rw [call_error (by rw [encode, if_neg more, translation]; rfl)]
        exact .thrown fault rfl rfl rfl late
      | ok update =>
        obtain rfl := toBookUpdate_ok translation
        cases written : MarketData.encode endian
            { sequence := encoder.nextSequence
              payload := translated instrument direction bestPrice totalSize } with
        | error fault =>
          have failed : encoder.encode endian
              (.bookUpdated instrument direction bestPrice totalSize) = .error fault := by
            rw [encode, if_neg more, translation]
            simp [bind, Except.bind, written]
          rw [call_error failed]
          exact .thrown fault rfl rfl rfl late
        | ok bytes =>
          have encoded : encoder.encode endian
              (.bookUpdated instrument direction bestPrice totalSize) =
                .ok (encoder.advance, some { sequence := encoder.nextSequence, bytes }) := by
            rw [encode, if_neg more, translation]
            simp [bind, Except.bind, written, pure, Except.pure]
          rw [call_ok encoded]
          exact .returned instrument direction bestPrice totalSize bytes rfl exhausted rfl rfl
            (decode_encode endian written)
  | _ => exact .ignored rfl rfl rfl

end FeedEncoder

/-- The datagrams a history returned, in order. -/
def datagrams (calls : List EncodeCall) : List EncodedDatagram := calls.filterMap EncodeCall.datagram

/-- The updates of a history that did not throw, in order. -/
def encodedUpdates (calls : List EncodeCall) : List EncodeCall :=
  calls.filter fun call => isBookUpdated call.event && !call.threw

/-- The datagram carries the update of the call under its own sequence. -/
def EncodeCall.CarriedBy (endian : Endian) (call : EncodeCall) (datagram : EncodedDatagram) : Prop :=
  ∃ instrument direction bestPrice totalSize,
    call.event = .bookUpdated instrument direction bestPrice totalSize ∧
    decode endian datagram.bytes = .ok
      { sequence := datagram.sequence
        payload := translated instrument direction bestPrice totalSize }

/-- What the calls of an encoder that starts at `first` have in common. -/
structure Numbered (endian : Endian) (first : UInt64) (calls : List EncodeCall) : Prop where
  ignored : ∀ call ∈ calls, isBookUpdated call.event = false → call.result = .ok none
  unchanged : ∀ call ∈ calls, call.threw = true → call.after = call.before
  sequences : (datagrams calls).map (fun datagram => datagram.sequence.toNat) =
    List.range' first.toNat (datagrams calls).length
  carried : List.Forall₂ (EncodeCall.CarriedBy endian) (encodedUpdates calls) (datagrams calls)
  maximum : ((datagrams calls).map EncodedDatagram.sequence).count maximumSequence ≤ 1
  exhausted : ∀ earlier call later datagram, calls = earlier ++ call :: later →
    call.datagram = some datagram → datagram.sequence = maximumSequence →
      ∀ other ∈ later, isBookUpdated other.event = true →
        other.result = .error (.overflowError "market-data sequence is exhausted")

namespace EncodeCall.Outcome
variable {endian : Endian} {call : EncodeCall}

/-- Only a call that returned has a datagram, and only it is an update that did not throw. -/
theorem cases_on (outcome : call.Outcome endian) :
    (call.datagram = none ∧ (isBookUpdated call.event && !call.threw) = false ∧
        call.after = call.before) ∨
      ∃ datagram, call.datagram = some datagram ∧
        (isBookUpdated call.event && !call.threw) = true ∧
        call.before.sequenceExhausted = false ∧ call.after = call.before.advance ∧
        datagram.sequence = call.before.nextSequence ∧ call.CarriedBy endian datagram := by
  cases outcome with
  | ignored other result after =>
    exact .inl ⟨by rw [datagram, result], by rw [other, Bool.false_and], after⟩
  | thrown fault update result after =>
    exact .inl ⟨by rw [datagram, result], by rw [threw, result, Bool.not_true, Bool.and_false], after⟩
  | returned instrument direction bestPrice totalSize bytes event more result after decoded =>
    refine .inr ⟨{ sequence := call.before.nextSequence, bytes }, by rw [datagram, result], ?_, more,
      after, rfl, instrument, direction, bestPrice, totalSize, event, decoded⟩
    rw [threw, result, event]
    rfl

end EncodeCall.Outcome

namespace FeedEncoder
variable (endian : Endian) {encoder : FeedEncoder}

@[simp] theorem call_before (event : Event) :
    (encoder.call endian event).before = encoder := rfl

theorem mem_calls {events : List Event} {call : EncodeCall}
    (member : call ∈ encoder.calls endian events) : call.Outcome endian := by
  induction events generalizing encoder with
  | nil => cases member
  | cons event events ih =>
    rcases List.mem_cons.mp member with rfl | later
    · exact call_outcome endian encoder event
    · exact ih later

/-- The calls behind one call start where it left the encoder. -/
theorem calls_split {events : List Event} {earlier later : List EncodeCall} {call : EncodeCall}
    (split : encoder.calls endian events = earlier ++ call :: later) :
    ∃ rest, later = call.after.calls endian rest := by
  induction earlier generalizing encoder events with
  | nil =>
    cases events with
    | nil => cases split
    | cons event events =>
      obtain ⟨rfl, rfl⟩ := List.cons.inj split
      exact ⟨events, rfl⟩
  | cons first earlier ih =>
    cases events with
    | nil => cases split
    | cons event events => exact ih (List.cons.inj split).2

theorem advance_exhausted (last : encoder.nextSequence = maximumSequence) :
    encoder.advance.sequenceExhausted = true := by
  rw [advance, dif_pos last]

/-- An exhausted encoder answers every update with the overflow. -/
theorem calls_exhausted (events : List Event) (exhausted : encoder.sequenceExhausted = true) :
    datagrams (encoder.calls endian events) = [] ∧
      ∀ call ∈ encoder.calls endian events, isBookUpdated call.event = true →
        call.result = .error (.overflowError "market-data sequence is exhausted") := by
  induction events with
  | nil => exact ⟨rfl, fun _ => (nomatch ·)⟩
  | cons event events ih =>
    rcases (call_outcome endian encoder event).cases_on with ⟨nothing, -, same⟩ | ⟨_, -, -, more, -⟩
    · rw [call_before] at same
      rw [calls, same, datagrams, List.filterMap_cons, nothing, List.forall_mem_cons]
      refine ⟨ih.1, fun update => ?_, ih.2⟩
      cases call_outcome endian encoder event with
      | ignored other => exact absurd (other.symm.trans update) (by decide)
      | thrown fault _ result _ overflow => exact result.trans (congrArg _ (overflow exhausted))
      | returned _ _ _ _ _ _ more => exact absurd (exhausted.symm.trans more) (by decide)
    · exact absurd (exhausted.symm.trans more) (by decide)

/-- The sequences used are the next ones, without a gap. -/
theorem calls_sequences (events : List Event) :
    (datagrams (encoder.calls endian events)).map (fun datagram => datagram.sequence.toNat) =
      List.range' encoder.nextSequence.toNat (datagrams (encoder.calls endian events)).length := by
  induction events generalizing encoder with
  | nil => rfl
  | cons event events ih =>
    rw [calls, datagrams, List.filterMap_cons]
    rcases (call_outcome endian encoder event).cases_on with
      ⟨nothing, -, same⟩ | ⟨datagram, some_, -, -, after, sequence, -⟩
    · rw [nothing, same]
      exact ih
    · rw [some_, List.map_cons, List.length_cons, List.range'_succ, sequence, after, call_before]
      refine congrArg _ ?_
      by_cases last : encoder.nextSequence = maximumSequence
      · obtain ⟨none_, -⟩ := calls_exhausted endian events (advance_exhausted last)
        rw [datagrams] at none_
        rw [none_]
        rfl
      · have moved : encoder.advance.nextSequence.toNat = encoder.nextSequence.toNat + 1 := by
          have below := encoder.nextSequence.toNat_lt
          have other : encoder.nextSequence.toNat ≠ maximumSequence.toNat :=
            fun equal => last (UInt64.toNat_inj.mp equal)
          rw [SequencedBuffer.toNat_maximumSequence] at other
          rw [advance, dif_neg last]
          simp only
          rw [UInt64.toNat_add, UInt64.toNat_one, Nat.mod_eq_of_lt (by omega)]
        rw [← moved]
        exact ih

/-- The datagrams carry the updates that did not throw, one each and in order. -/
theorem calls_carried (events : List Event) :
    List.Forall₂ (EncodeCall.CarriedBy endian) (encodedUpdates (encoder.calls endian events))
      (datagrams (encoder.calls endian events)) := by
  induction events generalizing encoder with
  | nil => exact .nil
  | cons event events ih =>
    rw [calls, datagrams, encodedUpdates, List.filterMap_cons, List.filter_cons]
    rcases (call_outcome endian encoder event).cases_on with
      ⟨nothing, out, -⟩ | ⟨datagram, some_, kept, -, -, -, carried⟩
    · rw [nothing, if_neg (by rw [out]; decide)]
      exact ih
    · rw [some_, if_pos kept]
      exact .cons carried ih

theorem calls_numbered (events : List Event) :
    Numbered endian encoder.nextSequence (encoder.calls endian events) where
  ignored call member other := by
    cases mem_calls endian member with
    | ignored _ result => exact result
    | thrown _ update => exact absurd (other.symm.trans update) (by decide)
    | returned _ _ _ _ _ event =>
      rw [event] at other
      cases other
  unchanged call member threw := by
    cases mem_calls endian member with
    | ignored _ _ after => exact after
    | thrown _ _ _ after => exact after
    | returned _ _ _ _ _ _ _ result =>
      rw [EncodeCall.threw, result] at threw
      cases threw
  sequences := calls_sequences endian events
  carried := calls_carried endian events
  maximum := by
    have distinct : ((datagrams (encoder.calls endian events)).map
        EncodedDatagram.sequence).Nodup := by
      refine List.Nodup.of_map UInt64.toNat ?_
      rw [List.map_map]
      have numbered : (datagrams (encoder.calls endian events)).map
          (fun datagram => datagram.sequence.toNat) = _ := calls_sequences endian events
      exact numbered ▸ List.nodup_range'
    exact List.nodup_iff_count_le_one.mp distinct _
  exhausted earlier call later datagram split some_ last := by
    obtain ⟨rest, rfl⟩ := calls_split endian split
    have member : call ∈ encoder.calls endian events := by rw [split]; simp
    rcases (mem_calls endian member).cases_on with ⟨nothing, -⟩ | ⟨_, same, -, -, after, sequence, -⟩
    · rw [nothing] at some_
      cases some_
    · obtain rfl := Option.some.inj (some_.symm.trans same)
      rw [after]
      exact (calls_exhausted endian rest (advance_exhausted (sequence.symm.trans last))).2

end FeedEncoder

/-- An encoder that starts at a positive sequence numbers the updates it returns from there on
without a gap, whatever events it is given and however often it throws. -/
theorem feed_numbering_gap_free (endian : Endian) (first : UInt64) (positive : first ≠ 0)
    (events : List Event) :
    ∃ encoder, FeedEncoder.make first = .ok encoder ∧
      Numbered endian first (encoder.calls endian events) := by
  let encoder : FeedEncoder := { nextSequence := first, positive }
  exact ⟨encoder, dif_neg positive, encoder.calls_numbered endian events⟩

/-- From the last sequence on: one update is published, the next one overflows. -/
theorem feed_numbering_gap_free_at_maximum :
    maximumSequence ≠ 0 ∧ ∃ encoder, FeedEncoder.make maximumSequence = .ok encoder ∧
      Numbered networkOrder maximumSequence (encoder.calls networkOrder
        [.orderCancelled ⟨⟨1⟩, ⟨1⟩⟩, .bookUpdated ⟨1⟩ .buy (some ⟨100, by decide⟩) 7,
          .bookUpdated ⟨1⟩ .buy none 0]) :=
  ⟨by decide, feed_numbering_gap_free networkOrder maximumSequence (by decide) _⟩

end MarketLab.MarketData

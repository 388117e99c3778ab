import MarketLab.Matching.Boundaries
import MarketLab.MarketData.Delivery
import MarketLab.MarketData.Feed
import MarketLab.MarketData.TopOfBookView

/-!
# Replicas

A view is established from the engine's own snapshot at a command boundary and fed, through
the codec and a processor, with whatever the network makes of the datagrams sent. It then
holds the snapshot with the next updates of the feed written over it, as far as they were
delivered, and at a later boundary of the engine that is the engine's top of book.
-/
namespace MarketLab.MarketData
open MarketLab.Collections
open MarketLab.Matching (Command Engine Event History Ladder Transition PriceLevelSnapshot
  updatesOf updateOf stateAfter eventsOf Chained)

/-! ## Feeding a view -/

/-- The consumer that applies each packet to a view. -/
def applyPacket : Consumer Empty TopOfBookView :=
  fun view packet => (view.apply packet.sequence packet.payload, none)

/-- A received datagram: discarded when it does not decode. -/
def Session.receiveBytes {σ : Type} (endian : Endian) (consume : Consumer Empty σ) (session : Session σ)
    (datagram : EncodedDatagram) : Session σ :=
  match decode endian datagram.bytes with
  | .ok packet => session.receive consume packet
  | .error _ => session

def replay (endian : Endian) (config : ProcessorConfig) (view : TopOfBookView)
    (received : List EncodedDatagram) : Session TopOfBookView :=
  received.foldl (Session.receiveBytes endian applyPacket) { processor := .initial config, state := view }

/-- A snapshot overwritten by the packets that concern its instrument. -/
def TopOfBookSnapshot.overwrittenBy (snapshot : TopOfBookSnapshot) (packets : List Packet) :
    TopOfBookSnapshot :=
  packets.foldl (fun snapshot packet =>
    if packet.payload.instrument = snapshot.instrument then
      snapshot.overwrite packet.sequence packet.payload
    else snapshot) snapshot

/-- The snapshot's side of a ladder. -/
def TopOfBookSnapshot.best (snapshot : TopOfBookSnapshot) : Ladder → Option TopOfBookLevel
  | .bids => snapshot.bestBid
  | .asks => snapshot.bestAsk

theorem overwrite_instrument (snapshot : TopOfBookSnapshot) (sequence : UInt64) (update : BookUpdate) :
    (snapshot.overwrite sequence update).instrument = snapshot.instrument := by
  rw [TopOfBookSnapshot.overwrite]
  split <;> rfl

theorem overwrite_reference (snapshot : TopOfBookSnapshot) (sequence : UInt64) (update : BookUpdate) :
    (snapshot.overwrite sequence update).referenceSequence = sequence := by
  rw [TopOfBookSnapshot.overwrite]
  split <;> rfl

theorem overwrittenBy_append (snapshot : TopOfBookSnapshot) (front back : List Packet) :
    snapshot.overwrittenBy (front ++ back) = (snapshot.overwrittenBy front).overwrittenBy back :=
  List.foldl_append

theorem overwrittenBy_instrument (snapshot : TopOfBookSnapshot) (packets : List Packet) :
    (snapshot.overwrittenBy packets).instrument = snapshot.instrument := by
  induction packets using List.reverseRecOn with
  | nil => rfl
  | append_singleton packets packet ih =>
    rw [overwrittenBy_append]
    refine Eq.trans ?_ ih
    change (if _ then _ else _ : TopOfBookSnapshot).instrument = _
    split
    · exact overwrite_instrument ..
    · rfl

/-- Packets numbered on from the snapshot's reference overwrite what the view holds. -/
theorem applyPacket_after {view : TopOfBookView} {snapshot : TopOfBookSnapshot} {packets : List Packet}
    {reference : Nat} (held : view.get snapshot.instrument = some snapshot)
    (behind : snapshot.referenceSequence.toNat ≤ reference)
    (numbered : packets.map (fun packet => packet.sequence.toNat) =
      List.range' (reference + 1) packets.length) :
    (applyPacket.after view packets).get snapshot.instrument = some (snapshot.overwrittenBy packets) := by
  induction packets generalizing view snapshot reference with
  | nil => exact held
  | cons packet packets ih =>
    rw [List.map_cons, List.length_cons, List.range'_succ] at numbered
    obtain ⟨first, rest⟩ := List.cons.inj numbered
    rw [Consumer.after, List.foldl_cons, ← Consumer.after, TopOfBookSnapshot.overwrittenBy,
      List.foldl_cons, ← TopOfBookSnapshot.overwrittenBy]
    by_cases concerned : packet.payload.instrument = snapshot.instrument
    · have later : snapshot.referenceSequence < packet.sequence :=
        UInt64.lt_iff_toNat_lt.mpr (by omega)
      have same := overwrite_instrument snapshot packet.sequence packet.payload
      have applied : (view.apply packet.sequence packet.payload).get
          (snapshot.overwrite packet.sequence packet.payload).instrument =
            some (snapshot.overwrite packet.sequence packet.payload) := by
        rw [same, ← concerned]
        exact TopOfBookView.get_apply (by rw [concerned]; exact held) later
      rw [if_pos concerned, ← same]
      exact ih applied (by rw [overwrite_reference, first]) rest
    · rw [if_neg concerned]
      refine ih ?_ (Nat.le_succ_of_le behind) rest
      exact (TopOfBookView.get_apply_other concerned packet.sequence).trans held

/-! ## What the feed says of a side -/

/-- The level an event of the engine reports. -/
def levelOf : Event → Option TopOfBookLevel
  | .bookUpdated _ _ bestPrice totalSize =>
    bestPrice.map fun price => { price := price.value, aggregateSize := totalSize }
  | _ => none

/-- The first of a snapshot's levels. -/
def firstLevel (levels : List PriceLevelSnapshot) : Option TopOfBookLevel :=
  levels.head?.map fun level => { price := level.levelPrice.value, aggregateSize := level.totalSize }

/-- The engine's own snapshot of depth one, as a snapshot for a view. -/
def snapshotOf (engine : Engine) (instrument : Matching.SymbolId) (referenceSequence : UInt64) :
    TopOfBookSnapshot :=
  match engine.snapshot instrument 1 with
  | some snapshot => { instrument := ⟨instrument.value⟩, referenceSequence,
                       bestBid := firstLevel snapshot.bids, bestAsk := firstLevel snapshot.asks }
  | none => { instrument := ⟨instrument.value⟩, referenceSequence, bestBid := none, bestAsk := none }

theorem snapshotOf_instrument (engine : Engine) (instrument : Matching.SymbolId)
    (referenceSequence : UInt64) :
    (snapshotOf engine instrument referenceSequence).instrument = ⟨instrument.value⟩ := by
  rw [snapshotOf]
  cases engine.snapshot instrument 1 <;> rfl

theorem snapshotOf_reference (engine : Engine) (instrument : Matching.SymbolId)
    (referenceSequence : UInt64) :
    (snapshotOf engine instrument referenceSequence).referenceSequence = referenceSequence := by
  rw [snapshotOf]
  cases engine.snapshot instrument 1 <;> rfl

theorem firstLevel_snapshotLevels {l : Ladder} (levels : Matching.Levels l) :
    firstLevel (Matching.snapshotLevels levels 1) = (Matching.topOfBook levels).map fun top =>
      { price := top.bestPrice.value, aggregateSize := top.totalSize } := by
  rw [Matching.snapshotLevels, Matching.topOfBook, OrderedMap.first?]
  cases levels.entries <;> rfl

/-- What is published of a side's top is what the engine's snapshot shows of it. -/
theorem snapshotOf_best (engine : Engine) (instrument : Matching.SymbolId) (referenceSequence : UInt64)
    (l : Ladder) : (snapshotOf engine instrument referenceSequence).best l =
      levelOf (updateOf instrument l (engine.top instrument l)) := by
  rw [snapshotOf, Engine.snapshot, Engine.findBook, Engine.top]
  cases engine.books.find? instrument with
  | none => cases l <;> rfl
  | some book =>
    have reported : ∀ top, levelOf (updateOf instrument l top) = top.map fun top =>
        { price := top.bestPrice.value, aggregateSize := top.totalSize } := by
      intro top
      cases top <;> rfl
    rw [Option.map_some, Option.bind_some, reported, ← firstLevel_snapshotLevels]
    cases l <;> rfl

theorem overwrite_best (snapshot : TopOfBookSnapshot) (sequence : UInt64)
    (instrument : Matching.SymbolId) (side l : Ladder) (bestPrice : Option Matching.Price)
    (totalSize : UInt64) :
    (snapshot.overwrite sequence (translated instrument side.side bestPrice totalSize)).best l =
      if side = l then levelOf (.bookUpdated instrument side.side bestPrice totalSize)
      else snapshot.best l := by
  cases side <;> cases l <;> cases bestPrice <;> rfl

/-- Events overwrite a side with the last of their updates of it. -/
theorem overwrittenBy_best {snapshot : TopOfBookSnapshot} {instrument : Matching.SymbolId}
    (concerned : snapshot.instrument = ⟨instrument.value⟩) (number : Nat) {events : List Event}
    (publishable : ∀ event ∈ events, event.Publishable) (l : Ladder) :
    (snapshot.overwrittenBy (feed number events)).best l =
      match (updatesOf instrument l.side events).getLast? with
      | some event => levelOf event
      | none => snapshot.best l := by
  induction events using List.reverseRecOn with
  | nil => rfl
  | append_singleton events event ih =>
    obtain ⟨earlier, last⟩ := List.forall_mem_append.mp publishable
    have before := ih earlier
    have here := (overwrittenBy_instrument snapshot (feed number events)).trans concerned
    rw [feed_append, overwrittenBy_append, Matching.updatesOf_append]
    generalize snapshot.overwrittenBy (feed number events) = written at before here ⊢
    cases event with
    | bookUpdated other direction bestPrice totalSize =>
      obtain ⟨side, rfl⟩ := (last _ (List.mem_singleton.mpr rfl)).2.1
      by_cases same : other = instrument
      · subst same
        have applies : (translated other side.side bestPrice totalSize).instrument =
            written.instrument := here.symm
        rw [feed, feed, TopOfBookSnapshot.overwrittenBy, List.foldl_cons, List.foldl_nil,
          if_pos applies, overwrite_best]
        by_cases shown : side = l
        · subst shown
          have logged : updatesOf other side.side [.bookUpdated other side.side bestPrice totalSize] =
              [.bookUpdated other side.side bestPrice totalSize] :=
            List.filter_cons_of_pos (decide_eq_true ⟨rfl, rfl⟩)
          rw [if_pos rfl, logged, List.getLast?_concat]
        · have unlogged : updatesOf other l.side [.bookUpdated other side.side bestPrice totalSize] = [] :=
            List.filter_cons_of_neg fun both =>
              shown (Ladder.side_injective (of_decide_eq_true both).2)
          rw [if_neg shown, unlogged, List.append_nil]
          exact before
      · have ignores : (translated other side.side bestPrice totalSize).instrument ≠
            written.instrument := by
          intro equal
          rw [here] at equal
          have values := congrArg SymbolId.value equal
          exact same (by cases other; cases instrument; exact congrArg _ values)
        have unlogged : updatesOf instrument l.side [.bookUpdated other side.side bestPrice totalSize] =
            [] := List.filter_cons_of_neg fun both => same (of_decide_eq_true both).1
        rw [feed, feed, TopOfBookSnapshot.overwrittenBy, List.foldl_cons, List.foldl_nil,
          if_neg ignores, unlogged, List.append_nil]
        exact before
    | _ =>
      rw [show updatesOf instrument l.side [_] = [] from rfl, List.append_nil]
      exact before

/-! ## What is delivered of the feed -/

/-- A stretch of consecutive numbers out of a numbered list is a segment of it. -/
theorem segment_of_numbers {α : Type} {number : α → Nat} {all part : List α}
    (numbered : all.map number = List.range' 1 all.length) {start : Nat} (within : start ≤ all.length)
    (consecutive : part.map number = List.range' (start + 1) part.length)
    (inside : ∀ item ∈ part, item ∈ all) :
    start + part.length ≤ all.length ∧ part = (all.take (start + part.length)).drop start := by
  have numberOf : ∀ (i : Nat) (bound : i < part.length), number part[i] = start + 1 + i := by
    intro i bound
    have item := List.getElem_map number (l := part) (i := i) (h := by rwa [List.length_map])
    rw [← item, List.getElem_of_eq consecutive, List.getElem_range', Nat.one_mul]
  have numberOfAll : ∀ (i : Nat) (bound : i < all.length), number all[i] = 1 + i := by
    intro i bound
    have item := List.getElem_map number (l := all) (i := i) (h := by rwa [List.length_map])
    rw [← item, List.getElem_of_eq numbered, List.getElem_range', Nat.one_mul]
  have fits : start + part.length ≤ all.length := by
    by_contra long
    have last : part.length - 1 < part.length := by omega
    have member := List.mem_map_of_mem (f := number) (inside _ (List.getElem_mem last))
    rw [numbered, List.mem_range'_1, numberOf _ last] at member
    omega
  have nodup : (all.map number).Nodup := numbered ▸ List.nodup_range'
  refine ⟨fits, List.ext_getElem ?_ fun i bound boundToo => ?_⟩
  · rw [List.length_drop, List.length_take]
    omega
  · have place : start + i < all.length := by omega
    rw [List.getElem_drop, List.getElem_take]
    refine key_unique nodup (inside _ (List.getElem_mem bound)) (List.getElem_mem place) ?_
    rw [numberOf i bound, numberOfAll _ place]
    omega

theorem replay_eq (endian : Endian) (config : ProcessorConfig) (view : TopOfBookView)
    (received : List EncodedDatagram) : replay endian config view received =
      Session.run config applyPacket view
        (received.filterMap fun datagram => (decode endian datagram.bytes).toOption) := by
  rw [replay, Session.run]
  generalize ({ processor := .initial config, state := view } : Session TopOfBookView) = session
  induction received generalizing session with
  | nil => rfl
  | cons datagram received ih =>
    rw [List.foldl_cons, List.filterMap_cons, ih, Session.receiveBytes]
    cases decode endian datagram.bytes <;> rfl

/-- A processor behind a lossy, reordering, duplicating network delivers a segment of the feed
from its first expected packet on. -/
theorem delivers_segment (limits : SequencedBufferLimits) {all packets : List Packet} {start : Nat}
    (numbered : all.map (fun packet => packet.sequence.toNat) = List.range' 1 all.length)
    (few : all.length ≤ 2 ^ 64 - 2) (within : start ≤ all.length)
    (sent : ∀ packet ∈ packets, packet ∈ all) (view : TopOfBookView) :
    ∃ (next : UInt64) (place : Nat),
      let session := Session.run { sequenceLimits := limits, firstSequence := some (UInt64.ofNat (start + 1)) }
        applyPacket view packets
      session.processor.nextSequence = some next ∧ next.toNat = place + 1 ∧ start ≤ place ∧
      place ≤ all.length ∧ session.state = applyPacket.after view ((all.take place).drop start) ∧
      ((all.take place).drop start).map (fun packet => packet.sequence.toNat) =
        List.range' (start + 1) ((all.take place).drop start).length := by
  let config : ProcessorConfig :=
    { sequenceLimits := limits, firstSequence := some (UInt64.ofNat (start + 1)) }
  obtain ⟨buffer, calls, ordered, ran⟩ := Session.run_ordered config packets
  have known : config.expected packets = some (UInt64.ofNat (start + 1)) := rfl
  have first : (UInt64.ofNat (start + 1)).toNat = start + 1 :=
    UInt64.toNat_ofNat_of_lt' (by rw [UInt64.size]; omega)
  have sequences := ordered.sequences _ known
  have position := ordered.position
  rw [first] at sequences
  rw [known, Option.map_some, first] at position
  have inside : ∀ packet ∈ config.deliveries packets, packet ∈ all := by
    intro packet member
    obtain ⟨call, accepted, rfl⟩ := List.mem_map.mp
      (ordered.accepted.mem_iff.mpr (List.mem_append_left _ member))
    refine sent _ ?_
    rw [← ordered.called]
    exact List.mem_map_of_mem (List.mem_of_mem_filter accepted)
  obtain ⟨fits, segment⟩ := segment_of_numbers numbered within sequences inside
  obtain ⟨next, running, place, -⟩ := SequencedBuffer.position_lt position (by omega)
  refine ⟨next, start + (config.deliveries packets).length, ?_⟩
  rw [ran, ← segment]
  exact ⟨running, by omega, Nat.le_add_right .., fits, rfl, sequences⟩

/-! ## The main result -/

/-- The packets of the calls between two boundaries are a segment of the whole feed. -/
theorem feed_between (earlier further rest : List Transition) :
    ((feed 1 (eventsOf (earlier ++ further ++ rest))).take
        (feed 1 (eventsOf (earlier ++ further))).length).drop (feed 1 (eventsOf earlier)).length =
      feed (1 + (feed 1 (eventsOf earlier)).length) (eventsOf further) := by
  have whole := feed_append 1 (eventsOf (earlier ++ further)) (eventsOf rest)
  have front := feed_append 1 (eventsOf earlier) (eventsOf further)
  rw [← Matching.eventsOf_append] at whole front
  rw [whole, List.take_left', front, List.drop_left']
  · rfl
  · rfl

/-- Between boundaries with nothing refused, the overwritten snapshot is the later one. -/
theorem overwrittenBy_later {earlier further rest : List Transition}
    (chained : Chained (earlier ++ further ++ rest))
    (publishable : ∀ event ∈ eventsOf further, event.Publishable) (instrument : Matching.SymbolId)
    (number : Nat) (reference later : UInt64) (l : Ladder) :
    ((snapshotOf (stateAfter earlier) instrument reference).overwrittenBy
        (feed number (eventsOf further))).best l =
      (snapshotOf (stateAfter (earlier ++ further)) instrument later).best l := by
  rw [overwrittenBy_best (snapshotOf_instrument ..) number publishable, snapshotOf_best, snapshotOf_best]
  have top := chained.top_later instrument l
  cases last : (updatesOf instrument l.side (eventsOf further)).getLast? with
  | none =>
    rw [last] at top
    rw [top]
  | some event =>
    rw [last] at top
    rw [top]

/-- Any view established at any command boundary and fed with datagrams that were sent, in any
order and number, through a processor of any limits. -/
def Replicates (endian : Endian) (history : History) (datagrams : List EncodedDatagram) : Prop :=
  ∀ earlier later, history.transitions = earlier ++ later →
    ∀ (instrument : Matching.SymbolId) (limits : SequencedBufferLimits) (view : TopOfBookView)
      (received : List EncodedDatagram), (∀ datagram ∈ received, datagram ∈ datagrams) →
      let updates := feed 1 history.events
      let k := (feed 1 (eventsOf earlier)).length
      let snapshot := snapshotOf (stateAfter earlier) instrument (UInt64.ofNat k)
      let session := replay endian
        { sequenceLimits := limits, firstSequence := some (UInt64.ofNat (k + 1)) }
        (view.establish snapshot) received
      ∃ next, session.processor.nextSequence = some next ∧
        let m := next.toNat - 1
        let current := snapshot.overwrittenBy ((updates.take m).drop k)
        k ≤ m ∧ m ≤ updates.length ∧ session.state.get ⟨instrument.value⟩ = some current ∧
        ∀ further rest, later = further ++ rest →
          (feed 1 (eventsOf (earlier ++ further))).length = m →
          ∀ l, current.best l = (snapshotOf (stateAfter (earlier ++ further)) instrument next).best l

/-- A run whose exact sums fit and whose updates have sequences is encoded whole, and every
replica of it is the snapshot it was established from, overwritten by the updates delivered
since, and the engine's top of book at every boundary it has caught up with. -/
theorem replicas_consistent (endian : Endian) {commands : List Command} {history : History}
    (ran : History.run commands = .ok history)
    (bounded : ∀ engine ∈ history.states, engine.market.Bounded)
    (few : (feed 1 history.events).length ≤ 2 ^ 64 - 2) :
    ∃ encoder datagrams,
      FeedEncoder.first.encodeAll endian history.events = .ok (encoder, datagrams) ∧
      Replicates endian history datagrams := by
  obtain ⟨history', ran', tallied⟩ := History.tallied_run commands
  obtain rfl := Except.ok.inj (ran.symm.trans ran')
  have publishable := tallied.publishable (tallied.exact_iff_bounded.mpr bounded)
  have chained := History.run_chained ran
  have numbered : (feed 1 history.events).map (fun packet => packet.sequence.toNat) =
      List.range' 1 (feed 1 history.events).length := feed_sequences (by omega)
  obtain ⟨encoder, datagrams, encoded, packets⟩ := FeedEncoder.encodeAll_ok endian
    publishable (show FeedEncoder.first.sequenceExhausted = false from rfl)
    (Nat.lt_of_le_of_lt (Nat.add_le_add_left few 1) (by decide))
  refine ⟨encoder, datagrams, encoded, ?_⟩
  intro earlier later split instrument limits view received sent updates k snapshot session
  have whole : history.events = eventsOf earlier ++ eventsOf later := by
    rw [← Matching.eventsOf_append, ← split]
    rfl
  have within : k ≤ updates.length := by
    have feeds := congrArg List.length (feed_append 1 (eventsOf earlier) (eventsOf later))
    rw [← whole, List.length_append] at feeds
    exact feeds ▸ Nat.le_add_right ..
  have member : ∀ packet ∈ received.filterMap fun datagram => (decode endian datagram.bytes).toOption,
      packet ∈ updates := by
    intro packet found
    obtain ⟨datagram, arrived, decoded⟩ := List.mem_filterMap.mp found
    have listed := List.mem_map_of_mem (f := fun datagram => decode endian datagram.bytes)
      (sent datagram arrived)
    rw [packets] at listed
    obtain ⟨update, inside, same⟩ := List.mem_map.mp listed
    rw [← same] at decoded
    cases decoded
    exact inside
  obtain ⟨next, place, running, last, started, ended, state, consecutive⟩ :=
    delivers_segment limits numbered few within member (view.establish snapshot)
  have reached : session = _ := replay_eq endian _ _ received
  rw [reached]
  refine ⟨next, running, ?_⟩
  rw [last, Nat.add_sub_cancel]
  refine ⟨started, ended, ?_, ?_⟩
  · have held := TopOfBookView.get_establish view snapshot
    have behind : snapshot.referenceSequence.toNat ≤ k := by
      rw [snapshotOf_reference, UInt64.toNat_ofNat']
      exact Nat.mod_le ..
    have replayed := applyPacket_after held behind consecutive
    rw [snapshotOf_instrument] at replayed
    rw [state]
    exact replayed
  · intro further rest continued caught l
    have calls : history.transitions = earlier ++ further ++ rest := by
      rw [split, continued, List.append_assoc]
    have emitted : history.events = eventsOf (earlier ++ further ++ rest) := congrArg eventsOf calls
    have segment : (updates.take place).drop k = feed (1 + k) (eventsOf further) := by
      rw [← caught, ← feed_between earlier further rest, ← emitted]
    rw [segment]
    have chainedHere : Chained (earlier ++ further ++ rest) := calls ▸ chained
    refine overwrittenBy_later chainedHere (fun event inside => ?_) _ _ _ _ l
    refine publishable event ?_
    rw [emitted, Matching.eventsOf_append, Matching.eventsOf_append]
    exact List.mem_append_left _ (List.mem_append_right _ inside)

/-- An offer of user 2 at the price of the bids. -/
def offerOf (clientOrder size : UInt64) : Command :=
  .submit { key := { user := ⟨2⟩, clientOrder := ⟨clientOrder⟩ }, instrument := ⟨1⟩, direction := .sell,
            pricing := .limit bidPrice, size := ⟨size⟩ }

/-- Two bids and an offer that trades with both and rests: four datagrams, and the feed of that run
can be replicated. -/
theorem replicas_of_trades :
    ∃ history encoder datagrams, History.run [bidOf 1 5, bidOf 2 3, offerOf 1 9] = .ok history ∧
      .tradeExecuted { user := ⟨2⟩, clientOrder := ⟨1⟩ } { user := ⟨1⟩, clientOrder := ⟨1⟩ } ⟨1⟩
        bidPrice ⟨5⟩ ∈ history.events ∧
      .tradeExecuted { user := ⟨2⟩, clientOrder := ⟨1⟩ } { user := ⟨1⟩, clientOrder := ⟨2⟩ } ⟨1⟩
        bidPrice ⟨3⟩ ∈ history.events ∧
      FeedEncoder.first.encodeAll networkOrder history.events = .ok (encoder, datagrams) ∧
      datagrams.length = 4 ∧ Replicates networkOrder history datagrams := by
  obtain ⟨history, ran, tallied⟩ := History.tallied_run [bidOf 1 5, bidOf 2 3, offerOf 1 9]
  have made : History.run [bidOf 1 5, bidOf 2 3, offerOf 1 9] =
      .ok { transitions := [_, _, _], state := _ } := rfl
  obtain rfl := Except.ok.inj (made.symm.trans ran)
  have fits := tallied.exact_iff.mpr (by
    simp only [List.forall_mem_cons]
    refine ⟨Matching.fits_fresh _, ?_, ?_, List.forall_mem_nil _⟩
    · intro l price _ _ side priced
      cases l with
      | asks => cases side
      | bids =>
        cases priced
        exact .inr (by decide)
    · intro l price _ _ side priced
      cases l with
      | bids => cases side
      | asks =>
        cases priced
        exact .inr (by decide))
  have bounded := tallied.exact_iff_bounded.mp fits
  obtain ⟨encoder, datagrams, encoded, replicates⟩ :=
    replicas_consistent networkOrder ran bounded (by decide)
  refine ⟨_, encoder, datagrams, ran, List.mem_of_getElem? (i := 5) rfl,
    List.mem_of_getElem? (i := 6) rfl, encoded, ?_, replicates⟩
  have computed : Except.ok (_, [_, _, _, _]) = Except.ok (encoder, datagrams) := encoded
  obtain ⟨-, rfl⟩ := Prod.mk.inj (Except.ok.inj computed)
  rfl

end MarketLab.MarketData

import MarketLab.MarketData.Publishing
import MarketLab.MarketData.Simulator
import MarketLab.MarketData.Feed
import MarketLab.Runtime.Linearizable

/-!
# What a load sends

The orders of a load rest behind each other at one price, so that each of them raises the best
bid's size by one and makes one packet. However they are cut into bursts, the same packets go to
the socket.
-/
namespace MarketLab.MarketData.Simulator
open MarketLab.Collections MarketLab.Control MarketLab.Text
open MarketLab.Matching (Engine Event Ladder Market OrderKey Price RestingOrder)
open MarketLab.Runtime (respond_command serve)

/-! ## The engine under load -/

def loadKey (message : Nat) : OrderKey :=
  { user := ⟨1⟩, clientOrder := ⟨.ofNat message⟩ }

/-- What the engine answers the n-th order with. -/
def loadEvents (message : Nat) : List Event :=
  [.submitAccepted (loadKey message), .bookUpdated ⟨1⟩ .buy (some loadPrice) (.ofNat message)]

/-- The market after some orders of the load. -/
structure LoadedMarket (messages : Nat) (market : Market) : Prop where
  count : (market.queue ⟨1⟩ .bids).length = messages
  orders : ∀ order ∈ market.queue ⟨1⟩ .bids, order.limitPrice = loadPrice ∧ order.openSize.value = 1 ∧
    ∃ message, 1 ≤ message ∧ message ≤ messages ∧ order.key = loadKey message
  asks : market.queue ⟨1⟩ .asks = []
  others : ∀ instrument l, instrument ≠ ⟨1⟩ → market.queue instrument l = []

structure Loaded (messages : Nat) (engine : Engine) : Prop where
  sound : engine.Sound
  market : LoadedMarket messages engine.market

theorem loaded_initial : Loaded 0 {} where
  sound := Engine.initial_sound
  market := { count := rfl, orders := fun _ => nofun, asks := rfl, others := fun _ _ _ => rfl }

/-- The best bid of a loaded market. -/
theorem bestOf_load {queue : List RestingOrder}
    (alike : ∀ order ∈ queue, order.limitPrice = loadPrice ∧ order.openSize.value = 1) :
    Matching.bestOf queue =
      if queue = [] then none
      else some { bestPrice := loadPrice, totalSize := .ofNat queue.length } := by
  cases queue with
  | nil => rfl
  | cons first rest =>
    have price := (alike first List.mem_cons_self).1
    have all : (first :: rest).filter (fun order => order.limitPrice = first.limitPrice) =
        first :: rest := by
      refine List.filter_eq_self.mpr fun order member => ?_
      rw [price, (alike order member).1]
      exact decide_eq_true rfl
    have sizes : (first :: rest).map (fun order => order.openSize.value) =
        List.replicate (first :: rest).length 1 := by
      refine List.eq_replicate_of_mem ?_ |>.trans (by rw [List.length_map])
      intro size member
      obtain ⟨order, inside, rfl⟩ := List.mem_map.mp member
      exact (alike order inside).2
    have total : ∀ count : Nat, (List.replicate count (1 : UInt64)).sum = .ofNat count := by
      intro count
      induction count with
      | zero => rfl
      | succ count ih => rw [List.replicate_succ, List.sum_cons, ih, UInt64.ofNat_add, UInt64.add_comm]; rfl
    rw [if_neg (List.cons_ne_nil _ _), Matching.bestOf, all, sizes, total, price]

theorem loadKey_injective {one other : Nat} (bounded : one < 2 ^ 64) (boundedToo : other < 2 ^ 64)
    (same : loadKey one = loadKey other) : one = other := by
  have values : UInt64.ofNat one = UInt64.ofNat other := by
    simpa [loadKey] using same
  have numbers := congrArg UInt64.toNat values
  rwa [UInt64.toNat_ofNat_of_lt' bounded, UInt64.toNat_ofNat_of_lt' boundedToo] at numbers

def loadOrder (message : Nat) : Matching.SubmitOrder :=
  makeLimitOrder 1 (.ofNat message) .buy loadPrice ⟨1⟩

theorem loadOrder_valid {message : Nat} (positive : 0 < message) (bounded : message < 2 ^ 64) :
    Matching.validateSubmit (loadOrder message) = none := by
  have nonzero : UInt64.ofNat message ≠ 0 := by
    intro zero
    have number := congrArg UInt64.toNat zero
    rw [UInt64.toNat_ofNat_of_lt' bounded, UInt64.toNat_zero] at number
    omega
  simp [Matching.validateSubmit, loadOrder, makeLimitOrder, nonzero]

/-- The next order of the load is not active yet. -/
theorem LoadedMarket.inactive {messages : Nat} {market : Market}
    (loaded : LoadedMarket messages market) (room : messages + 1 < 2 ^ 64) :
    ¬market.Active (loadKey (messages + 1)) := by
  rintro ⟨instrument, l, order, rests, same⟩
  by_cases here : instrument = ⟨1⟩
  · subst here
    cases l with
    | asks =>
      rw [loaded.asks] at rests
      cases rests
    | bids =>
      obtain ⟨-, -, message, -, within, key⟩ := loaded.orders order rests
      have number := loadKey_injective (by omega) room (key.symm.trans same)
      omega
  · rw [loaded.others instrument l here] at rests
    cases rests

/-- The order rests, and the best bid grows by it. -/
theorem LoadedMarket.submit {messages : Nat} {market after : Market} {events : List Event}
    (loaded : LoadedMarket messages market) (room : messages + 1 < 2 ^ 64)
    (step : market.Step (.submit (loadOrder (messages + 1))) events after) :
    events = loadEvents (messages + 1) ∧ LoadedMarket (messages + 1) after := by
  have valid := loadOrder_valid (Nat.succ_pos messages) room
  have inactive := loaded.inactive room
  cases step with
  | refused refusal =>
    cases refusal with
    | submitInvalid invalid =>
      rw [valid] at invalid
      cases invalid
    | submitActive _ active => exact absurd active inactive
  | ignored _ _ unnamed => exact absurd rfl (unnamed .bids)
  | submitted l _ _ named a aggression queues queuesAfter =>
    obtain rfl : l = .bids := Ladder.side_injective named.symm
    change a = Matching.aggress .bids _ _ (market.queue ⟨1⟩ .asks) at aggression
    rw [loaded.asks] at aggression
    obtain ⟨order, rests, price, size, key⟩ : ∃ order, a.rests = some order ∧
        order.limitPrice = loadPrice ∧ order.openSize.value = 1 ∧ order.key = loadKey (messages + 1) := by
      rw [aggression]
      exact ⟨_, rfl, rfl, rfl, rfl⟩
    have untraded : a.trades ⟨1⟩ (loadKey (messages + 1)) = [] := by rw [aggression]; rfl
    have asks : queues .asks = [] := by
      rw [queuesAfter]
      change a.queues .bids _ (Ladder.opposite .bids) = []
      rw [Matching.Aggression.queues_opposite, aggression]
      rfl
    have bids : (queues .bids).Perm (order :: market.queue ⟨1⟩ .bids) := by
      rw [queuesAfter]
      change (a.queues .bids (market.queue ⟨1⟩ .bids) .bids).Perm _
      rw [Matching.Aggression.queues_self, Matching.Aggression.own, rests]
      exact List.perm_orderedInsert _ _ _
    have loadedAfter : LoadedMarket (messages + 1) (market.advance ⟨1⟩ queues) := by
      refine ⟨?_, fun other member => ?_, ?_, fun instrument l other => ?_⟩
      · rw [Market.queue_advance, if_pos rfl, bids.length_eq, List.length_cons, loaded.count]
      · rw [Market.queue_advance, if_pos rfl, bids.mem_iff] at member
        rcases List.mem_cons.mp member with rfl | old
        · exact ⟨price, size, messages + 1, Nat.succ_pos _, Nat.le_refl _, key⟩
        · obtain ⟨oldPrice, oldSize, message, positive, within, oldKey⟩ := loaded.orders other old
          exact ⟨oldPrice, oldSize, message, positive, by omega, oldKey⟩
      · rw [Market.queue_advance, if_pos rfl, asks]
      · rw [Market.queue_advance, if_neg other, loaded.others instrument l other]
    refine ⟨?_, loadedAfter⟩
    have best := bestOf_load fun other member =>
      ⟨(loaded.orders other member).1, (loaded.orders other member).2.1⟩
    have bestAfter := bestOf_load fun other member =>
      ⟨(loadedAfter.orders other member).1, (loadedAfter.orders other member).2.1⟩
    have occupied : (market.advance ⟨1⟩ queues).queue ⟨1⟩ .bids ≠ [] := by
      rw [← List.length_pos_iff, loadedAfter.count]
      omega
    rw [loadedAfter.count, if_neg occupied, Market.queue_advance, if_pos rfl] at bestAfter
    have differ : Matching.bestOf (market.queue ⟨1⟩ .bids) ≠ Matching.bestOf (queues .bids) := by
      rw [best, bestAfter, loaded.count]
      split
      · simp
      · intro same
        have numbers := congrArg UInt64.toNat
          (congrArg Matching.TopOfBookState.totalSize (Option.some.inj same))
        simp only at numbers
        rw [UInt64.toNat_ofNat_of_lt' (by rw [UInt64.size]; omega),
          UInt64.toNat_ofNat_of_lt' room] at numbers
        omega
    change _ :: a.trades ⟨1⟩ (loadKey (messages + 1)) ++
      Matching.bookChange ⟨1⟩ .bids (market.queue ⟨1⟩ .bids) (queues .bids) ++
      Matching.bookChange ⟨1⟩ .asks (market.queue ⟨1⟩ .asks) (queues .asks) = _
    rw [untraded, loaded.asks, asks, Matching.bookChange_self, Matching.bookChange_eq, if_neg differ,
      bestAfter]
    rfl

theorem Loaded.answer {messages : Nat} {engine : Engine} (loaded : Loaded messages engine)
    (room : messages + 1 < 2 ^ 64) :
    ∃ after, serve engine (.command (.submit (loadOrder (messages + 1)))) =
        (after, .ok (.events (loadEvents (messages + 1)))) ∧ Loaded (messages + 1) after := by
  obtain ⟨after, events, applied, sound, step⟩ :=
    engine.apply_step loaded.sound (.submit (loadOrder (messages + 1)))
  obtain ⟨rfl, market⟩ := loaded.market.submit room step
  refine ⟨after, ?_, sound, market⟩
  rw [serve, respond_command applied]

/-- The events of some orders behind others. -/
def burstEvents (messages count : Nat) : List Event :=
  (List.range' (messages + 1) count).flatMap loadEvents

theorem burstEvents_succ (messages count : Nat) : burstEvents messages (count + 1) =
    loadEvents (messages + 1) ++ burstEvents (messages + 1) count := by
  unfold burstEvents
  rw [List.range'_succ, List.flatMap_cons]

/-- An order is submitted and its two events are inserted behind the others, if they fit. -/
theorem Loaded.inserts {messages maximumEvents : Nat} {engine : Engine}
    (loaded : Loaded messages engine) (room : messages + 1 < 2 ^ 64) (count : Nat)
    (events : List Event) :
    ∃ after, (submitBurst maximumEvents messages (count + 1) events).outcome serve engine =
        (if maximumEvents < events.length + 2 then
          { server := after, printed := [], result := .error .lengthError }
        else
          (submitBurst maximumEvents (messages + 1) count
            (events ++ loadEvents (messages + 1))).outcome serve after) ∧
      Loaded (messages + 1) after := by
  obtain ⟨after, served, more⟩ := loaded.answer room
  refine ⟨after, ?_, more⟩
  have one : (submit (makeLimitOrder 1 (.ofNat (messages + 1)) .buy loadPrice ⟨1⟩)).outcome serve
      engine = { server := after, printed := [], result := .ok (loadEvents (messages + 1)) } := by
    unfold submit Program.outcome
    rw [← loadOrder, served]
    rfl
  have length : (loadEvents (messages + 1)).length = 2 := rfl
  rw [submitBurst, Program.outcome_bind, one]
  simp only [insertEvents, length]
  split <;> rfl

theorem Loaded.submits {messages maximumEvents : Nat} {engine : Engine}
    (loaded : Loaded messages engine) (count : Nat) (room : messages + count < 2 ^ 64)
    (events : List Event) (held : events.length + 2 * count ≤ maximumEvents) :
    ∃ after, (submitBurst maximumEvents messages count events).outcome serve engine =
        { server := after, printed := [], result := .ok (events ++ burstEvents messages count) } ∧
      Loaded (messages + count) after := by
  induction count generalizing messages engine events with
  | zero => exact ⟨engine, by rw [burstEvents, List.range'_zero, List.flatMap_nil, List.append_nil]; rfl,
      loaded⟩
  | succ count ih =>
    obtain ⟨middle, submitted, more⟩ := loaded.inserts (by omega) count events
    have both : (events ++ loadEvents (messages + 1)).length = events.length + 2 :=
      List.length_append
    obtain ⟨after, ran, whole⟩ := ih more (by omega) _ (by rw [both]; omega)
    refine ⟨after, ?_, by rwa [Nat.add_right_comm] at whole⟩
    rw [submitted, if_neg (by omega), ran, burstEvents_succ, List.append_assoc]

/-- A burst with more events than a vector holds throws at one of the insertions. -/
theorem Loaded.overflows {messages maximumEvents : Nat} {engine : Engine}
    (loaded : Loaded messages engine) (count : Nat) (room : messages + count < 2 ^ 64)
    (events : List Event) (held : events.length ≤ maximumEvents)
    (full : maximumEvents < events.length + 2 * count) :
    ∃ after, (submitBurst maximumEvents messages count events).outcome serve engine =
      { server := after, printed := [], result := .error .lengthError } := by
  induction count generalizing messages engine events with
  | zero => omega
  | succ count ih =>
    obtain ⟨middle, submitted, more⟩ := loaded.inserts (by omega) count events
    rw [submitted]
    split
    · exact ⟨middle, rfl⟩
    · have both : (events ++ loadEvents (messages + 1)).length = events.length + 2 :=
        List.length_append
      exact ih more (by omega) _ (by rw [both]; omega) (by rw [both]; omega)

/-! ## The publisher under load -/

theorem symbol_positive : (1 : UInt32) ≠ 0 := by decide

def loadPacket (message : Nat) : Packet where
  sequence := .ofNat message
  payload := { instrument := ⟨1⟩, direction := .buy, bestPrice := some 100, aggregateSize := .ofNat message }

def loadDatagram (endian : Endian) (message : Nat) : EncodedDatagram where
  sequence := .ofNat message
  bytes := (encode endian (loadPacket message)).toOption.getD []

/-- The send of a message, the first of which is the answer number zero of the network. -/
def loadSend (endian : Endian) (network : Network) (message : Nat) : Send where
  datagram := loadDatagram endian message
  answer := network (message - 1)

/-- The sends of the first messages. -/
def loadSends (endian : Endian) (network : Network) (messages : Nat) : List Send :=
  (List.range' 1 messages).map (loadSend endian network)

theorem encode_loadPacket (endian : Endian) (message : Nat) (positive : 0 < message)
    (bounded : message < 2 ^ 64) :
    encode endian (loadPacket message) = .ok (loadDatagram endian message).bytes := by
  have nonzero : UInt64.ofNat message ≠ 0 := by
    intro zero
    have number := congrArg UInt64.toNat zero
    rw [UInt64.toNat_ofNat_of_lt' bounded, UInt64.toNat_zero] at number
    omega
  have canonical : (loadPacket message).Canonical :=
    ⟨nonzero, symbol_positive, .inl rfl, UInt64.pos_iff_ne_zero.mpr (by decide), UInt64.pos_iff_ne_zero.mpr nonzero⟩
  obtain ⟨side, -, written⟩ := encode_canonical endian canonical
  unfold loadDatagram
  rw [written]
  rfl

/-- The publisher has sent the first messages. -/
structure LoadSent (endian : Endian) (network : Network) (messages : Nat)
    (publisher : MulticastPublisher) : Prop where
  sends : publisher.sends = loadSends endian network messages
  next : messages + 1 < 2 ^ 64 → publisher.encoder.sequenceExhausted = false ∧
    publisher.encoder.nextSequence.toNat = messages + 1

section Publisher
variable {endian : Endian} {network : Network} {messages : Nat} {publisher : MulticastPublisher}

theorem loadSent_initial : LoadSent endian network 0 {} where
  sends := rfl
  next _ := ⟨rfl, rfl⟩

theorem LoadSent.encode (sent : LoadSent endian network messages publisher)
    (room : messages + 1 < 2 ^ 64) :
    ∃ encoder, publisher.encoder.encode endian
        (.bookUpdated ⟨1⟩ .buy (some loadPrice) (.ofNat (messages + 1))) =
          .ok (encoder, some (loadDatagram endian (messages + 1))) ∧
      LoadSent endian network (messages + 1) { encoder, sends := publisher.sends ++
        [{ datagram := loadDatagram endian (messages + 1), answer := network publisher.sends.length }] } := by
  obtain ⟨more, number⟩ := sent.next room
  have sequence : publisher.encoder.nextSequence = .ofNat (messages + 1) := by
    rw [← number, UInt64.ofNat_toNat]
  have nonzero : UInt64.ofNat (messages + 1) ≠ 0 := sequence ▸ publisher.encoder.positive
  have publishable : (Event.bookUpdated ⟨1⟩ (Ladder.side .bids) (some loadPrice)
      (.ofNat (messages + 1))).Publishable :=
    ⟨symbol_positive, ⟨.bids, rfl⟩, fun _ => nonzero, fun _ => rfl⟩
  obtain ⟨bytes, encoded, decoded⟩ := FeedEncoder.encode_update endian publishable more
  have written := encode_decode endian decoded
  rw [sequence] at encoded written
  have same : bytes = (loadDatagram endian (messages + 1)).bytes := by
    change MarketData.encode endian (loadPacket (messages + 1)) = .ok bytes at written
    rw [encode_loadPacket endian (messages + 1) (Nat.succ_pos messages) room] at written
    exact (Except.ok.inj written).symm
  subst same
  have count : publisher.sends.length = messages := by
    rw [sent.sends, loadSends, List.length_map, List.length_range']
  refine ⟨publisher.encoder.advance, encoded, ?_, fun more' => ?_⟩
  · rw [count, sent.sends, loadSends, loadSends, List.range'_1_concat, List.map_append,
      List.map_singleton, Nat.add_comm 1]
    rfl
  · have notLast : publisher.encoder.nextSequence ≠ maximumSequence := by
      intro last
      rw [last, SequencedBuffer.toNat_maximumSequence] at number
      omega
    rw [FeedEncoder.advance, dif_neg notLast]
    refine ⟨more, ?_⟩
    simp only
    rw [UInt64.toNat_add, UInt64.toNat_one, number, Nat.mod_eq_of_lt (by omega)]

/-- How the sends of the messages behind `start`, up to `stop`, go: all are complete, or one is not
and it is the last one made. `reached` messages are sent then. -/
inductive Course (network : Network) (start stop : Nat) : Nat → Bool → Prop
  | completes (all : ∀ n, start ≤ n → n < stop → network.Completes n) : Course network start stop stop true
  | fails {n : Nat} (later : start ≤ n) (earlier : n < stop)
      (before : ∀ m, start ≤ m → m < n → network.Completes m) (incomplete : ¬network.Completes n) :
      Course network start stop (n + 1) false

theorem Course.cut {start stop reached : Nat} {ok : Bool} (course : Course network start stop reached ok)
    (middle : Nat) (later : start ≤ middle) (earlier : middle ≤ stop) :
    Course network start middle middle true ∧ Course network middle stop reached ok ∨
      Course network start middle reached false ∧ ok = false := by
  cases course with
  | completes all =>
    exact .inl ⟨.completes fun n after before => all n after (by omega),
      .completes fun n after before => all n (by omega) before⟩
  | @fails n after under before incomplete =>
    rcases Nat.lt_or_ge n middle with inside | beyond
    · exact .inr ⟨.fails after inside before incomplete, rfl⟩
    · exact .inl ⟨.completes fun m starts ends => before m starts (by omega),
        .fails beyond under (fun m starts ends => before m (by omega) ends) incomplete⟩

theorem Course.over {stop reached : Nat} {ok : Bool} (course : Course network stop stop reached ok) :
    reached = stop ∧ ok = true := by
  cases course with
  | completes all => exact ⟨rfl, rfl⟩
  | fails later earlier before incomplete => omega

/-- What the results of `publish` count for some messages. -/
def countMessages (endian : Endian) (result : PublishResult) (messages count : Nat) : PublishResult :=
  (List.range' (messages + 1) count).foldl
    (fun result message => result.add (loadDatagram endian message) packetSize) result

theorem LoadSent.publish (sent : LoadSent endian network messages publisher)
    {count reached : Nat} {ok : Bool} (room : messages + count < 2 ^ 64)
    (course : Course network messages (messages + count) reached ok) (result : PublishResult) :
    ∃ after outcome, MulticastPublisher.publishEvents endian network (burstEvents messages count)
        publisher result = (after, outcome) ∧ LoadSent endian network reached after ∧
      (ok = true → outcome = .ok (countMessages endian result messages count)) ∧
      (ok = false → ∃ fault, outcome = .error fault) := by
  induction count generalizing messages publisher result with
  | zero =>
    cases course with
    | completes all => exact ⟨publisher, _, rfl, sent, fun _ => rfl, by simp⟩
    | fails later earlier before incomplete => omega
  | succ count ih =>
    obtain ⟨encoder, encoded, next⟩ := sent.encode (by omega)
    have length : publisher.sends.length = messages := by
      rw [sent.sends, loadSends, List.length_map, List.length_range']
    have size : (loadDatagram endian (messages + 1)).bytes.length = packetSize :=
      length_encode endian (encode_loadPacket endian (messages + 1) (Nat.succ_pos messages) (by omega))
    rw [burstEvents_succ]
    unfold loadEvents
    rw [List.cons_append, List.singleton_append, MulticastPublisher.publishEvents]
    change ∃ after outcome, MulticastPublisher.publishEvents endian network
      (.bookUpdated ⟨1⟩ .buy (some loadPrice) (.ofNat (messages + 1)) ::
        burstEvents (messages + 1) count) publisher result = (after, outcome) ∧ _
    rw [MulticastPublisher.publishEvents, encoded, length]
    rw [length] at next
    simp only
    rcases course.cut (messages + 1) (by omega) (by omega) with ⟨one, rest⟩ | ⟨one, rfl⟩
    · have complete : network messages = .sent packetSize := by
        cases one with
        | completes all => exact all messages (by omega) (by omega)
      have shifted : messages + (count + 1) = messages + 1 + count := by omega
      rw [complete] at next ⊢
      simp only [size, ne_eq, not_true_eq_false, if_false]
      rw [shifted] at rest
      obtain ⟨after, outcome, ran, reached, goes, ends⟩ :=
        ih next (by omega) rest (result.add (loadDatagram endian (messages + 1)) packetSize)
      refine ⟨after, outcome, ran, reached, fun same => ?_, ends⟩
      rw [goes same, countMessages, countMessages, List.range'_succ, List.foldl_cons]
    · cases one with
      | @fails n later earlier before incomplete =>
        obtain rfl : n = messages := by omega
        cases answered : network n with
        | threw what =>
          rw [answered] at next
          exact ⟨_, _, rfl, next, by simp, fun _ => ⟨_, rfl⟩⟩
        | sent bytesSent =>
          have short : bytesSent ≠ packetSize := by
            rintro rfl
            exact incomplete answered
          rw [answered] at next
          simp only [size, if_pos short]
          exact ⟨_, _, rfl, next, by simp, fun _ => ⟨_, rfl⟩⟩

/-! ## The totals -/

theorem count_positive (count : { count : UInt64 // count ≠ 0 }) : 0 < count.1.toNat :=
  Nat.pos_of_ne_zero fun zero => count.2 (UInt64.toNat_inj.mp zero)

theorem countMessages_eq (endian : Endian) (messages count : Nat) :
    countMessages endian {} messages (count + 1) =
      { messagesPublished := count + 1, bytesSent := packetSize * (count + 1)
        firstSequence := .ofNat (messages + 1), lastSequence := .ofNat (messages + 1 + count) } := by
  induction count with
  | zero => rfl
  | succ count ih =>
    unfold countMessages at ih ⊢
    rw [List.range'_1_concat, List.foldl_concat, ih]
    rfl

/-- The totals of the first messages. -/
def loadTotal (messages : Nat) : PublishResult where
  messagesPublished := messages
  bytesSent := packetSize * messages % 2 ^ 64
  firstSequence := if messages = 0 then 0 else 1
  lastSequence := .ofNat messages

/-- A burst is added to the totals of the messages before it. -/
theorem addBurst_countMessages (endian : Endian) (messages : Nat) {count : Nat} (some_ : 0 < count)
    (room : messages + count < 2 ^ 64) :
    addBurst (loadTotal messages) (countMessages endian {} messages count) =
      loadTotal (messages + count) := by
  obtain ⟨count, rfl⟩ := Nat.exists_eq_add_one.mpr some_
  rw [countMessages_eq]
  unfold addBurst loadTotal
  rw [PublishResult.mk.injEq]
  refine ⟨Nat.mod_eq_of_lt room, ?_, ?_, ?_⟩
  · simp only
    rw [Nat.mod_add_mod, ← Nat.mul_add]
  · cases messages with
    | zero => simp
    | succ messages => simp
  · simp only
    congr 1
    omega

/-- The counter of the bursts stays in its range: it is a multiple of the burst size, and while it is
below the count the next one is too. -/
def Fits (messageCount burstSize : Nat) : Prop :=
  ∀ bursts, bursts * burstSize < messageCount → (bursts + 1) * burstSize < 2 ^ 64

theorem fits_of_le {messageCount burstSize : Nat} (small : messageCount + burstSize ≤ 2 ^ 64) :
    Fits messageCount burstSize := by
  intro bursts below
  rw [Nat.succ_mul]
  omega

/-- A vector holds the events of the first burst, which is the largest. -/
def Holds (maximumEvents messageCount burstSize : Nat) : Prop :=
  2 * min burstSize messageCount ≤ maximumEvents

/-! ## The loop of bursts -/

theorem outcome_reserve {α : Type} {maximumEvents capacity : Nat} (held : capacity ≤ maximumEvents)
    (next : Unit → Simulation α) (engine : Engine) :
    (reserveEvents maximumEvents capacity >>= next).outcome serve engine =
      (next ()).outcome serve engine := by
  rw [reserveEvents, if_neg (Nat.not_lt.mpr held)]
  rfl

theorem loadSends_add (endian : Endian) (network : Network) (messages count : Nat) :
    loadSends endian network (messages + count) = loadSends endian network messages ++
      (List.range' (messages + 1) count).map (loadSend endian network) := by
  unfold loadSends
  rw [← List.map_append, Nat.add_comm messages 1, List.range'_append_1]

theorem sends_emitted (sends : List Send) :
    (sends.map Emission.send).filterMap Emission.send? = sends := by
  rw [List.filterMap_map]
  exact List.filterMap_some

section Publish
variable {events : List Event} {after : MulticastPublisher}

theorem publish_returned {result : PublishResult}
    (published : MulticastPublisher.publishEvents endian network events publisher {} =
      (after, .ok result)) (engine : Engine) :
    (Simulator.publish endian network publisher events).outcome serve engine =
      { server := engine, printed := (after.sends.drop publisher.sends.length).map .send
        result := .ok (after, result) } := by
  unfold Simulator.publish MulticastPublisher.publish
  rw [published, Program.outcome, Program.outcome, Outcome.behind, List.append_nil]

theorem publish_threw {fault : PublishFault}
    (published : MulticastPublisher.publishEvents endian network events publisher {} =
      (after, .error fault)) (engine : Engine) :
    (Simulator.publish endian network publisher events).outcome serve engine =
      { server := engine, printed := (after.sends.drop publisher.sends.length).map .send
        result := .error (.publisher fault) } := by
  unfold Simulator.publish MulticastPublisher.publish
  rw [published, Program.outcome, Program.outcome, Outcome.behind, List.append_nil]

end Publish

/-- What a call has sent, behind what was sent before. -/
theorem LoadSent.sent_again (sent : LoadSent endian network messages publisher) {reached : Nat}
    (further : messages ≤ reached) {after : MulticastPublisher}
    (sentNext : LoadSent endian network reached after) :
    loadSends endian network messages ++
      ((after.sends.drop publisher.sends.length).map Emission.send).filterMap Emission.send? =
        loadSends endian network reached := by
  obtain ⟨count, rfl⟩ := Nat.exists_eq_add_of_le further
  rw [sends_emitted, sentNext.sends, sent.sends, loadSends_add, List.drop_left]

theorem publishBursts_outcome {maximumEvents messageCount burstSize : Nat} (positive : 0 < burstSize)
    (bounded : messageCount < 2 ^ 64) (fits : Fits messageCount burstSize)
    (holds : Holds maximumEvents messageCount burstSize) (quiet : Bool)
    (bound bursts first : Nat) (multiple : first = bursts * burstSize)
    (enough : messageCount ≤ first + bound) {engine : Engine}
    (loaded : Loaded (min first messageCount) engine)
    (sent : LoadSent endian network (min first messageCount) publisher) {reached : Nat} {ok : Bool}
    (course : Course network (min first messageCount) messageCount reached ok) :
    ∃ after printed outcome, (publishBursts endian network maximumEvents messageCount burstSize quiet
        bound first publisher (loadTotal (min first messageCount))).outcome serve engine =
          { server := after, printed, result := outcome } ∧
      loadSends endian network (min first messageCount) ++ printed.filterMap Emission.send? =
        loadSends endian network reached ∧
      (ok = true → outcome = .ok (loadTotal messageCount)) ∧
      (ok = false → ∃ fault, outcome = .error (.publisher fault)) := by
  -- On the turns that are left; `bursts` are the ones behind the counter.
  induction bound generalizing bursts first publisher engine with
  | zero =>
    rw [Nat.add_zero] at enough
    rw [Nat.min_eq_right enough] at course ⊢
    obtain ⟨rfl, rfl⟩ := course.over
    exact ⟨engine, [], _, rfl, List.append_nil _, fun _ => rfl, by simp⟩
  | succ bound ih =>
    unfold publishBursts
    rcases Nat.lt_or_ge first messageCount with more | past
    case inr =>
      rw [Nat.min_eq_right past] at course ⊢
      obtain ⟨rfl, rfl⟩ := course.over
      rw [if_neg (Nat.not_lt.mpr past)]
      exact ⟨engine, [], _, rfl, List.append_nil _, fun _ => rfl, by simp⟩
    have following : first + burstSize = (bursts + 1) * burstSize := by
      rw [multiple, Nat.succ_mul]
    have unwrapped : (first + burstSize) % 2 ^ 64 = first + burstSize := by
      rw [following]
      exact Nat.mod_eq_of_lt (fits bursts (multiple ▸ more))
    rw [if_pos more, unwrapped]
    rw [Nat.min_eq_left (Nat.le_of_lt more)] at loaded sent course ⊢
    generalize counted : min burstSize (messageCount - first) = count
    have some_ : 0 < count := by omega
    have next : min (first + burstSize) messageCount = first + count := by omega
    have held : 2 * count ≤ maximumEvents := by
      unfold Holds at holds
      omega
    have reserved : count * 2 % 2 ^ 64 ≤ maximumEvents := by
      have unreduced := Nat.mod_le (count * 2) (2 ^ 64)
      omega
    obtain ⟨middle, submitted, loadedNext⟩ :=
      loaded.submits count (by omega) [] (by simpa using held)
    rw [List.nil_append] at submitted
    rw [outcome_reserve reserved, Program.outcome_bind, submitted]
    simp only
    rw [Program.outcome_bind]
    rcases course.cut (first + count) (by omega) (by omega) with ⟨here, rest⟩ | ⟨here, rfl⟩
    · obtain ⟨after, outcome, published, sentNext, goes, -⟩ := sent.publish (by omega) here {}
      obtain rfl := goes rfl
      rw [publish_returned published]
      simp only
      rw [addBurst_countMessages endian first some_ (by omega)]
      rw [← next] at loadedNext sentNext rest ⊢
      obtain ⟨final, printed, outcome, ran, sends, succeeds, ends⟩ :=
        ih (bursts + 1) (first + burstSize) following (by omega) loadedNext sentNext rest
      have whole : loadSends endian network first ++ (((after.sends.drop
          publisher.sends.length).map Emission.send) ++ printed).filterMap Emission.send? =
            loadSends endian network reached := by
        rw [List.filterMap_append, ← List.append_assoc, sent.sent_again (by omega) sentNext, sends]
      split
      · rw [Program.outcome_bind, print, Program.outcome, Program.outcome]
        simp only [Outcome.behind]
        rw [ran]
        refine ⟨final, _, outcome, rfl, ?_, succeeds, ends⟩
        rw [← whole]
        simp only [List.nil_append, List.append_nil, List.filterMap_append]
        rfl
      · rw [ran]
        exact ⟨final, _, outcome, rfl, whole, succeeds, ends⟩
    · obtain ⟨after, outcome, published, sentNext, -, ends⟩ := sent.publish (by omega) here {}
      obtain ⟨fault, rfl⟩ := ends rfl
      rw [publish_threw published]
      have further : first ≤ reached := by
        cases here with
        | fails later earlier before incomplete => omega
      exact ⟨middle, _, _, rfl, sent.sent_again further sentNext, by simp, fun _ => ⟨fault, rfl⟩⟩

/-- Where the events of the first burst do not fit, nothing is published. -/
theorem publishBursts_throws {maximumEvents messageCount burstSize : Nat}
    (bounded : messageCount < 2 ^ 64) (some_ : 0 < messageCount)
    (full : ¬Holds maximumEvents messageCount burstSize) (quiet : Bool) (bound : Nat)
    (total : PublishResult) :
    ∃ after, (publishBursts endian network maximumEvents messageCount burstSize quiet (bound + 1) 0
        publisher total).outcome serve {} =
      { server := after, printed := [], result := .error .lengthError } := by
  unfold publishBursts
  rw [if_pos some_, Nat.sub_zero]
  unfold Holds at full
  generalize counted : min burstSize messageCount = count at full
  simp only
  by_cases reserved : count * 2 % 2 ^ 64 ≤ maximumEvents
  · obtain ⟨after, threw⟩ := loaded_initial.overflows count (by omega) []
      (Nat.zero_le maximumEvents) (by simpa using full)
    rw [outcome_reserve reserved, Program.outcome_bind, threw]
    exact ⟨after, rfl⟩
  · rw [reserveEvents, if_pos (Nat.lt_of_not_le reserved)]
    exact ⟨{}, rfl⟩

end Publisher

section Load
variable (endian : Endian) {network : Network} {maximumEvents : Nat}

/-- A whole load from a fresh engine. -/
theorem publishLoad_outcome (options : SimulatorOptions) (count : { count : UInt64 // count ≠ 0 })
    (fits : Fits count.1.toNat options.burstSize.1.toNat)
    (holds : Holds maximumEvents count.1.toNat options.burstSize.1.toNat) {reached : Nat} {ok : Bool}
    (course : Course network 0 count.1.toNat reached ok) :
    ∃ after printed outcome, (publishLoad endian network maximumEvents options count).outcome serve {} =
        { server := after, printed, result := outcome } ∧
      printed.filterMap Emission.send? = loadSends endian network reached ∧
      (ok = true → outcome = .ok (loadTotal count.1.toNat)) ∧
      (ok = false → ∃ fault, outcome = .error (.publisher fault)) := by
  have start : min 0 count.1.toNat = 0 := Nat.zero_min _
  have loadSent : LoadSent endian network 0 {} := loadSent_initial
  rw [← start] at course
  obtain ⟨after, printed, outcome, ran, sends, succeeds, ends⟩ :=
    publishBursts_outcome (count_positive options.burstSize) count.1.toNat_lt fits holds options.quiet
      count.1.toNat 0 0 (Nat.zero_mul _).symm (by omega) (start ▸ loaded_initial) (start ▸ loadSent) course
  rw [start] at ran sends
  exact ⟨after, printed, outcome, ran, sends, succeeds, ends⟩

theorem publishLoad_throws (network : Network) (options : SimulatorOptions) (count : { count : UInt64 // count ≠ 0 })
    (full : ¬Holds maximumEvents count.1.toNat options.burstSize.1.toNat) :
    ∃ after, (publishLoad endian network maximumEvents options count).outcome serve {} =
      { server := after, printed := [], result := .error .lengthError } := by
  obtain ⟨bound, turns⟩ := Nat.exists_eq_add_one.mpr (count_positive count)
  obtain ⟨after, threw⟩ : ∃ after, (publishBursts endian network maximumEvents count.1.toNat
      options.burstSize.1.toNat options.quiet (bound + 1) 0 {} {}).outcome serve {} =
        { server := after, printed := [], result := .error .lengthError } :=
    publishBursts_throws count.1.toNat_lt (count_positive count) full options.quiet bound {}
  rw [← turns] at threw
  exact ⟨after, threw⟩

end Load

/-- Whatever the bursts, the interval and the network, a load whose counter does not wrap and whose
bursts a vector holds hands to the socket the packets of its messages, one each and in order, until
all are sent or one is not sent completely; it reports all of them or throws. With a larger burst it
throws before anything is sent. -/
theorem load_sends_whatever_the_bursts (endian : Endian) (network : Network) (maximumEvents : Nat)
    (options : SimulatorOptions) (count : { count : UInt64 // count ≠ 0 })
    (fits : Fits count.1.toNat options.burstSize.1.toNat) :
    let outcome := (publishLoad endian network maximumEvents options count).outcome serve {}
    let sends := outcome.printed.filterMap Emission.send?
    (Holds maximumEvents count.1.toNat options.burstSize.1.toNat →
      ((∀ n < count.1.toNat, network.Completes n) →
        sends = loadSends endian network count.1.toNat ∧
        outcome.result = .ok
          { messagesPublished := count.1.toNat, bytesSent := packetSize * count.1.toNat % 2 ^ 64
            firstSequence := 1, lastSequence := count.1 }) ∧
      ∀ n < count.1.toNat, ¬network.Completes n → (∀ m < n, network.Completes m) →
        sends = loadSends endian network (n + 1) ∧
        ∃ fault, outcome.result = .error (.publisher fault)) ∧
    (¬Holds maximumEvents count.1.toNat options.burstSize.1.toNat →
      sends = [] ∧ outcome.result = .error .lengthError) := by
  intro outcome sends
  refine ⟨fun holds => ⟨fun completes => ?_, fun n inside incomplete before => ?_⟩, fun full => ?_⟩
  · obtain ⟨after, printed, result, ran, sent, succeeds, -⟩ := publishLoad_outcome endian options
      count fits holds (.completes fun n _ below => completes n below)
    have now : outcome = { server := after, printed, result } := ran
    refine ⟨by rw [← sent]; exact congrArg _ (congrArg Outcome.printed now), ?_⟩
    rw [now, succeeds rfl, loadTotal, if_neg (Nat.ne_of_gt (count_positive count)), UInt64.ofNat_toNat]
  · obtain ⟨after, printed, result, ran, sent, -, ends⟩ := publishLoad_outcome endian options
      count fits holds (.fails (Nat.zero_le n) inside (fun m _ below => before m below) incomplete)
    have now : outcome = { server := after, printed, result } := ran
    refine ⟨by rw [← sent]; exact congrArg _ (congrArg Outcome.printed now), ?_⟩
    rw [now]
    exact ends rfl
  · obtain ⟨after, threw⟩ := publishLoad_throws endian network options count full
    have now : outcome = { server := after, printed := [], result := .error .lengthError } := threw
    exact ⟨congrArg (fun outcome => outcome.printed.filterMap Emission.send?) now,
      congrArg Outcome.result now⟩

theorem load_of_three_in_bursts_of_two :
    let count : { count : UInt64 // count ≠ 0 } := ⟨3, by decide⟩
    let options : SimulatorOptions := { messageCount := some count, burstSize := ⟨2, by decide⟩ }
    let network : Network := fun _ => .sent packetSize
    let outcome := (publishLoad networkOrder network 4 options count).outcome serve {}
    outcome.printed.filterMap Emission.send? = loadSends networkOrder network 3 ∧
      outcome.result = .ok
        { messagesPublished := 3, bytesSent := 114, firstSequence := 1, lastSequence := 3 } := by
  intro count options network outcome
  have held : Holds 4 count.1.toNat options.burstSize.1.toNat := by
    unfold Holds
    decide
  exact ((load_sends_whatever_the_bursts networkOrder network 4 options count
    (fits_of_le (by decide))).1 held).1 fun _ _ => rfl

end MarketLab.MarketData.Simulator

import MarketLab.Matching.Runs

/-!
# Filled keys and the order being processed

The recorders erase every filled key from the index and then write an entry of their own, an update
through an iterator it holds already. What a command fills rests on the opposite side of its
instrument, where the order being processed never is, so the two never meet.
-/
namespace MarketLab.Matching
open MarketLab.Collections

/-- An aggression fills the front of the queue it meets, and trades with nothing else. -/
theorem aggress_keys {l : Ladder} {incoming : IncomingOrder} {pricing : OrderPricing}
    {queue : List RestingOrder} {a : Aggression} (aggression : a = aggress l incoming pricing queue) :
    (a.outcome.filled.map RestingOrder.key).Sublist (queue.map RestingOrder.key) ∧
      ∀ fill ∈ a.outcome.fills, fill.1.key ∈ queue.map RestingOrder.key := by
  subst aggression
  constructor
  · exact (sweep_filled_front _ _ _).sublist.map _
  · intro fill traded
    exact List.mem_map_of_mem ((sweep_fills_front _ _ _).mem (List.mem_map_of_mem traded))

/-- The trades of a command's events, which are an answer, trades and book updates. -/
theorem trade_of_mem {a : Aggression} {instrument : SymbolId} {key : OrderKey} {answer : Event}
    {first second : Ladder} {queues after : Queues} {aggressor resting : OrderKey}
    {traded : SymbolId} {price : Price} {size : Quantity}
    (answers : ∀ aggressor resting traded price size,
      answer ≠ .tradeExecuted aggressor resting traded price size)
    (member : Event.tradeExecuted aggressor resting traded price size ∈
      answer :: a.trades instrument key ++ bookChange instrument first (queues first) (after first) ++
        bookChange instrument second (queues second) (after second)) :
    aggressor = key ∧ ∃ fill ∈ a.outcome.fills, fill.1.key = resting := by
  simp only [List.cons_append, List.mem_cons, List.mem_append, mem_bookChange, updateOf,
    Aggression.mem_trades, reduceCtorEq, and_false, or_false] at member
  rcases member with same | ⟨fill, traded, same⟩
  · exact absurd same.symm (answers _ _ _ _ _)
  · injection same with aggressed rested
    exact ⟨aggressed.symm, fill, traded, rested⟩

/-- What a command of this key and side did to the index when it met the opposite side. -/
structure Settled (before : Engine) (key : OrderKey) (instrument : SymbolId) (direction : Side)
    (filled : List OrderKey) (events : List Event) (rested : Bool) (after : Engine) : Prop where
  distinct : filled.Nodup
  opposite : ∀ gone ∈ filled, ∃ l handle, direction = Ladder.side l ∧
    before.activeOrders.find? gone = some { instrument, handle } ∧
    handle.direction = some l.opposite.side
  other : key ∉ filled
  trades : ∀ aggressor resting traded price size,
    .tradeExecuted aggressor resting traded price size ∈ events → aggressor = key ∧ aggressor ≠ resting
  active : ∀ other, after.activeOrders.contains other = true ↔
    (before.activeOrders.contains other = true ∧ other ∉ filled ∧ other ≠ key) ∨
      (other = key ∧ rested = true)

namespace Engine
variable {engine : Engine}

/-- A key of a queue is indexed on that queue's side. -/
theorem Sound.entry_of_queue (sound : engine.Sound) {instrument : SymbolId} {l : Ladder}
    {key : OrderKey} (rests : key ∈ (engine.market.queue instrument l).map RestingOrder.key) :
    ∃ handle, engine.activeOrders.find? key = some { instrument, handle } ∧
      handle.direction = some l.side := by
  obtain ⟨order, queued, rfl⟩ := List.mem_map.mp rests
  obtain ⟨book, found, node, inside, rfl⟩ := node_of_queue queued
  exact ⟨handleOf l node, (sound.index _ _).mpr ⟨book, found, OrderBook.files_of_node inside⟩, rfl⟩

/-- An order that does not rest on the opposite side settles with what its aggression fills. -/
theorem Sound.settled (sound : engine.Sound) {key : OrderKey} {instrument : SymbolId} {l : Ladder}
    {filled : List OrderKey} {events : List Event} {after : Engine} {handle : RestingOrderHandle}
    {incoming : IncomingOrder} {pricing : OrderPricing} {a : Aggression} {gone : List OrderKey}
    (aggression : a = aggress l incoming pricing (engine.market.queue instrument l.opposite))
    (absent : key ∉ (engine.market.queue instrument l.opposite).map RestingOrder.key)
    (fills : filled = a.outcome.filled.map RestingOrder.key)
    (trades : ∀ aggressor resting traded price size,
      .tradeExecuted aggressor resting traded price size ∈ events →
        aggressor = key ∧ ∃ fill ∈ a.outcome.fills, fill.1.key = resting)
    (edited : ∀ other, after.activeOrders.find? other = Engine.refile engine.activeOrders instrument
      gone (if handle.hasValue then some (key, handle) else none) other)
    (leaves : ∀ other, other ≠ key → (other ∈ gone ↔ other ∈ filled))
    (itself : key ∈ gone ∨ engine.activeOrders.find? key = none) :
    Settled engine key instrument l.side filled events handle.hasValue after := by
  obtain ⟨front, within⟩ := aggress_keys aggression
  rw [← fills] at front
  constructor
  · exact (sound.market.keys instrument l.opposite).sublist front
  · intro other taken
    obtain ⟨handle, entry, side⟩ := sound.entry_of_queue (front.mem taken)
    exact ⟨l, handle, rfl, entry, side⟩
  · exact fun taken => absent (front.mem taken)
  · intro aggressor resting traded price size member
    obtain ⟨rfl, fill, among, rfl⟩ := trades _ _ _ _ _ member
    exact ⟨rfl, fun same => absent (same ▸ within fill among)⟩
  · intro other
    rw [UnorderedMap.contains, UnorderedMap.contains, edited]
    by_cases same : other = key
    · subst same
      cases rested : handle.hasValue with
      | true => simp [Engine.refile]
      | false =>
        rcases itself with taken | unlisted
        · simp [Engine.refile, taken]
        · simp [Engine.refile, unlisted]
    · have stays := leaves other same
      cases rested : handle.hasValue <;> by_cases taken : other ∈ filled <;>
        simp [Engine.refile, same, taken, stays]

/-- What a submit that passed the checks records. -/
def SubmitSettles (engine : Engine) (order : SubmitOrder) : Prop :=
  ∃ created book after result final, engine.getOrCreateBook order.instrument = (created, book) ∧
    book.submit order created.nextSequence = .ok (after, result) ∧
    engine.submit order = .ok (final, result.events) ∧
    Settled engine order.key order.instrument order.direction result.filledRestingOrders
      result.events result.restingOrder.hasValue final

section Submit
variable {order : SubmitOrder} (sound : engine.Sound) (valid : validateSubmit order = none)
  (absent : engine.activeOrders.find? order.key = none)
include sound valid absent

theorem submit_settles_named {l : Ladder} (direction : order.direction = l.side) :
    engine.SubmitSettles order := by
  obtain ⟨created, book, after, result, a, entered⟩ :=
    submit_entered sound order l absent direction
  obtain ⟨activeOrders, submitted, edited⟩ :=
    submit_recorded valid absent entered.got entered.index entered.ran
  have aggression := entered.aggression
  rw [← entered.queues] at aggression
  have nowhere : order.key ∉
      (engine.market.queue order.instrument l.opposite).map RestingOrder.key := by
    intro rests
    obtain ⟨handle, entry, -⟩ := sound.entry_of_queue rests
    rw [absent] at entry
    cases entry
  refine ⟨created, book, after, result, _, entered.got, entered.ran, submitted, ?_⟩
  rw [direction]
  refine sound.settled aggression nowhere entered.filled ?_ edited (fun _ _ => Iff.rfl) (.inr absent)
  intro aggressor resting traded price size member
  rw [entered.events] at member
  exact trade_of_mem (by simp) member

/-- A book ignores a side that is neither enumerator. -/
theorem submit_settles_unnamed {underlying : { code : Int32 // code ≠ 0 ∧ code ≠ 1 }}
    (direction : order.direction = .unnamed underlying) : engine.SubmitSettles order := by
  obtain ⟨created, book, got, -, -, index, -⟩ := getOrCreateBook_ok sound order.instrument
  have ran : book.submit order created.nextSequence = .ok (book, {}) := by
    simp only [OrderBook.submit, direction]
  obtain ⟨activeOrders, submitted, edited⟩ := submit_recorded valid absent got index ran
  refine ⟨created, book, book, {}, _, got, ran, submitted, ?_⟩
  have untouched : ∀ other, activeOrders.find? other = engine.activeOrders.find? other := by
    intro other
    rw [edited]
    simp [refile, RestingOrderHandle.hasValue]
  have active : ∀ other, activeOrders.contains other = true ↔
      engine.activeOrders.contains other = true ∧ other ≠ order.key := by
    intro other
    rw [UnorderedMap.contains, UnorderedMap.contains, untouched]
    refine ⟨fun listed => ⟨listed, ?_⟩, And.left⟩
    rintro rfl
    simp [absent] at listed
  constructor
  · exact List.nodup_nil
  · simp
  · exact List.not_mem_nil
  · simp
  · simpa [RestingOrderHandle.hasValue] using active

theorem submit_settles : engine.SubmitSettles order := by
  cases direction : order.direction with
  | buy => exact submit_settles_named sound valid absent (l := .bids) direction
  | sell => exact submit_settles_named sound valid absent (l := .asks) direction
  | unnamed underlying => exact submit_settles_unnamed sound valid absent direction

end Submit

/-- What an update of an active order that passed the checks records. -/
def UpdateSettles (engine : Engine) (order : UpdateOrder) (activeOrder : ActiveOrder) : Prop :=
  ∃ book after result final direction, engine.findBook activeOrder.instrument = some book ∧
    book.update order activeOrder.handle engine.nextSequence = .ok (after, result) ∧
    engine.update order = .ok (final, result.events) ∧
    activeOrder.handle.direction = some direction ∧
    Settled engine order.key activeOrder.instrument direction result.filledRestingOrders
      result.events result.restingOrder.hasValue final

section Update
variable {order : UpdateOrder} {activeOrder : ActiveOrder} {book : OrderBook} {l : Ladder}
  {node : Node RestingOrder} (sound : engine.Sound) (valid : validateUpdate order = none)
  (entry : engine.activeOrders.find? order.key = some activeOrder)
  (found : engine.books.find? activeOrder.instrument = some book) (rests : node ∈ book.nodes l)
  (named : node.value.key = order.key) (handle : activeOrder.handle = handleOf l node)
include sound valid entry found rests named handle

/-- In place nothing is filled and the entry is written again. -/
theorem reduce_settles (limit : limitPrice order.pricing = some node.value.limitPrice)
    (smaller : order.size.value ≤ node.value.openSize.value) :
    engine.UpdateSettles order activeOrder := by
  obtain ⟨positive, -⟩ := validateUpdate_ok valid
  obtain ⟨bookSound, -⟩ := sound.book _ _ found
  have side : activeOrder.handle.direction = some l.side := by rw [handle]; rfl
  obtain ⟨after, result, ran, -, updated, kept, filled, events⟩ :=
    OrderBook.reduce_ok bookSound rests order named limit positive smaller engine.nextSequence
  rw [← handle] at ran kept
  obtain ⟨activeOrders, recorded, edited⟩ :=
    update_recorded valid entry found ran updated (by simp [filled])
  refine ⟨book, after, result, _, l.side, found, ran, recorded, side, ?_⟩
  have rested : result.restingOrder.hasValue = true := by
    rw [kept, RestingOrderHandle.hasValue, side]
    rfl
  rw [filled, events, rested]
  constructor
  · exact List.nodup_nil
  · simp
  · exact List.not_mem_nil
  · simp [updateOf]
  · intro other
    rw [UnorderedMap.contains, UnorderedMap.contains, edited]
    by_cases same : other = order.key <;> simp [refile, filled, rested, same]

theorem replace_settles {price : Price} (limit : limitPrice order.pricing = some price)
    (moved : price ≠ node.value.limitPrice ∨ node.value.openSize.value < order.size.value) :
    engine.UpdateSettles order activeOrder := by
  obtain ⟨positive, -⟩ := validateUpdate_ok valid
  have side : activeOrder.handle.direction = some l.side := by rw [handle]; rfl
  obtain ⟨without, after, result, a, replaced⟩ :=
    update_replaced sound order found rests named limit positive moved
  have aggression := replaced.aggression
  rw [← market_queue found] at aggression
  have elsewhere : order.key ∉
      (engine.market.queue activeOrder.instrument l.opposite).map RestingOrder.key := by
    intro also
    obtain ⟨other, opposite, same⟩ := List.mem_map.mp also
    have sides := (sound.market.same_resting (queue_of_node found rests) opposite
      (named.trans same.symm)).2.1
    exact l.opposite_ne sides.symm
  have unfilled : order.key ∉ result.filledRestingOrders := by
    rw [replaced.filled]
    exact fun taken => elsewhere ((aggress_keys aggression).1.mem taken)
  have ran := replaced.ran
  rw [← handle] at ran
  obtain ⟨activeOrders, recorded, edited⟩ :=
    update_recorded valid entry found ran replaced.updated unfilled
  refine ⟨book, after, result, _, l.side, found, ran, recorded, side, ?_⟩
  refine sound.settled aggression elsewhere replaced.filled ?_ edited ?_ (.inl List.mem_cons_self)
  · intro aggressor resting traded price size member
    rw [replaced.events] at member
    exact trade_of_mem (by simp) member
  · intro other differs
    simp [differs]

end Update

theorem update_settles (sound : engine.Sound) {order : UpdateOrder}
    (valid : validateUpdate order = none) {activeOrder : ActiveOrder}
    (entry : engine.activeOrders.find? order.key = some activeOrder) :
    engine.UpdateSettles order activeOrder := by
  obtain ⟨-, price, limit⟩ := validateUpdate_ok valid
  obtain ⟨book, l, node, found, rests, named, handle⟩ := sound.node_of_entry entry
  by_cases inPlace : price = node.value.limitPrice ∧ order.size.value ≤ node.value.openSize.value
  · obtain ⟨rfl, smaller⟩ := inPlace
    exact reduce_settles sound valid entry found rests named handle limit smaller
  · exact replace_settles sound valid entry found rests named handle limit
      (moved_of_not_in_place inPlace)

end Engine

/-- In every state a fresh engine reaches, a submit or an update that passes the checks fills keys
that occur once, rest on the opposite side and are not its own; the entry it writes is then new,
or the one its iterator still denotes, and the index loses what was filled and keeps or takes the
order's key exactly when something of it rests. -/
theorem filled_keys_never_alias (commands : List Command) :
    ∃ history, History.run commands = .ok history ∧
    (∀ order, validateSubmit order = none → history.state.activeOrders.contains order.key = false →
      ∃ created book after result final,
        history.state.getOrCreateBook order.instrument = (created, book) ∧
        book.submit order created.nextSequence = .ok (after, result) ∧
        history.state.submit order = .ok (final, result.events) ∧
        Settled history.state order.key order.instrument order.direction
          result.filledRestingOrders result.events result.restingOrder.hasValue final ∧
        (history.state.eraseFilled result.filledRestingOrders).activeOrders.find? order.key = none) ∧
    ∀ order activeOrder, validateUpdate order = none →
      history.state.activeOrders.find? order.key = some activeOrder →
      ∃ book after result final direction,
        history.state.findBook activeOrder.instrument = some book ∧
        book.update order activeOrder.handle history.state.nextSequence = .ok (after, result) ∧
        history.state.update order = .ok (final, result.events) ∧
        activeOrder.handle.direction = some direction ∧
        Settled history.state order.key activeOrder.instrument direction
          result.filledRestingOrders result.events result.restingOrder.hasValue final ∧
        (history.state.eraseFilled result.filledRestingOrders).activeOrders.find? order.key =
          some activeOrder := by
  have runs := History.run_induct trivial (fun _ _ _ _ _ (kept : True) => kept) commands
  obtain ⟨history, ran, sound, -⟩ := runs
  refine ⟨history, ran, ?_, ?_⟩
  · intro order valid unlisted
    have absent : history.state.activeOrders.find? order.key = none := by
      simpa [UnorderedMap.contains] using unlisted
    obtain ⟨created, book, after, result, final, got, submitted, returned, settled⟩ :=
      Engine.submit_settles sound valid absent
    refine ⟨created, book, after, result, final, got, submitted, returned, settled, ?_⟩
    rw [Engine.eraseFilled, UnorderedMap.find?_foldl_erase, absent, ite_self]
  · intro order activeOrder valid entry
    obtain ⟨book, after, result, final, direction, found, updated, returned, side, settled⟩ :=
      Engine.update_settles sound valid entry
    refine ⟨book, after, result, final, direction, found, updated, returned, side, settled, ?_⟩
    rw [Engine.eraseFilled, UnorderedMap.find?_foldl_erase, if_neg settled.other, entry]

end MarketLab.Matching

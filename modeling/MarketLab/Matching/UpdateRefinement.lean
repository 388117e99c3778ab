import MarketLab.Matching.ExactTotals
import MarketLab.Matching.IndexConsistency
import MarketLab.Matching.LevelGroups
import MarketLab.Matching.QueueOrder
import MarketLab.Matching.Responses

/-!
# Update against cancel and submit

An update that gives up its place in the queue leaves the very engine a cancel and a submit
leave, although it removes, matches, rests and reindexes on its own; an update that keeps it
edits one order and one total.
-/
namespace MarketLab.Matching
open MarketLab.Collections

/-- The trades among some events. -/
def Event.isTrade : Event → Bool
  | .tradeExecuted .. => true
  | _ => false

def tradesIn (events : List Event) : List Event := events.filter Event.isTrade

@[simp] theorem tradesIn_append (front back : List Event) :
    tradesIn (front ++ back) = tradesIn front ++ tradesIn back := List.filter_append ..

/-- An appended update adds no trade. -/
@[simp] theorem tradesIn_append_update (instrument : SymbolId) (direction : Side)
    (before after : Option TopOfBookState) (events : List Event) :
    tradesIn (appendBookUpdateIfChanged instrument direction before after events) =
      tradesIn events := by
  unfold appendBookUpdateIfChanged
  split
  · rfl
  · cases after <;> simp [tradesIn, Event.isTrade]

/-! ## Identifiers of resting orders -/

/-- Orders rest under complete keys. -/
def Market.Keyed (m : Market) : Prop :=
  ∀ instrument l, ∀ order ∈ m.queue instrument l,
    order.key.user.value ≠ 0 ∧ order.key.clientOrder.value ≠ 0

theorem Market.Sets.keyed {m : Market} {command : Command} (sets : m.Sets command) :
    command.key.user.value ≠ 0 ∧ command.key.clientOrder.value ≠ 0 := by
  cases sets with
  | @submit order valid inactive l named =>
    obtain ⟨user, clientOrder, -, -⟩ := (validateSubmit_eq_none order).mp valid
    exact ⟨user, clientOrder⟩
  | @update order instrument l resting valid rests named moved =>
    obtain ⟨user, clientOrder, -, -⟩ := (validateUpdate_eq_none order).mp valid
    exact ⟨user, clientOrder⟩

theorem Market.Step.keyed {m after : Market} {command : Command} {events : List Event}
    (step : m.Step command events after) (sound : m.Sound) (keyed : m.Keyed) : after.Keyed := by
  intro instrument l order rests
  have old : ∀ kept : List RestingOrder,
      (kept.map identity).Sublist ((m.queue instrument l).map identity) → order ∈ kept →
        order.key.user.value ≠ 0 ∧ order.key.clientOrder.value ≠ 0 := by
    intro kept sub member
    obtain ⟨was, inside, same⟩ := List.mem_map.mp (sub.subset (List.mem_map_of_mem member))
    have sameKey : (identity was).key = (identity order).key := congrArg RestingOrder.key same
    change was.key = order.key at sameKey
    rw [← sameKey]
    exact keyed instrument l was inside
  rcases step.order sound with ⟨-, kept⟩ | ⟨sets, pushed⟩
  · exact old _ (kept instrument l) rests
  · obtain ⟨kept, sub, -, same | ⟨pushedOrder, named, -, same⟩⟩ := pushed instrument l
    · rw [same] at rests
      exact old kept sub rests
    · rw [same, enqueue, List.mem_orderedInsert] at rests
      rcases rests with rfl | member
      · rw [named]
        exact sets.keyed
      · exact old kept sub member

/-! ## Keeping the place -/

/-- One order of a level cut down to a size, and the level's total by what was cut. -/
def cutLevel {l : Ladder} (levels : Levels l) (level : PriceLevel) (front : List (Node RestingOrder))
    (node : Node RestingOrder) (back : List (Node RestingOrder)) (size : Quantity) : Levels l :=
  levels.insertOrAssign node.value.limitPrice
    { totalSize := level.totalSize - (node.value.openSize.value - size.value)
      orders := front ++ { node with value := { node.value with openSize := size } } :: back }

/-- What `reduce_order_size` writes. -/
theorem reduceOrderSize_in_place {l : Ladder} {levels : Levels l} {allocated : Nat}
    (sound : LevelsSound allocated levels) {node : Node RestingOrder} {level : PriceLevel}
    (found : levels.find? node.value.limitPrice = some level) (inside : node ∈ level.orders)
    (size : Quantity) (smaller : size.value ≤ node.value.openSize.value) :
    ∃ front back, level.orders = front ++ node :: back ∧
      reduceOrderSize { key := node.value.key, pricing := .limit node.value.limitPrice, size }
          (handleOf l node) levels =
        .ok (some (cutLevel levels level front node back size)) := by
  have levelSound := sound.level _ level (OrderedMap.mem_entries_of_find? found)
  have deref := LinkedList.deref?_of_mem levelSound.addresses inside
  obtain ⟨front, back, orders, -, modified⟩ := LinkedList.split_of_mem levelSound.addresses inside
  have edited := modified fun resting => { resting with openSize := size }
  refine ⟨front, back, orders, ?_⟩
  rw [cutLevel, ← edited]
  simp [reduceOrderSize, handleOf, limitPrice, found, deref, UInt64.not_lt.mpr smaller]

/-- On its book, an order updated out of its place is removed and submitted again: both leave the
same book, handle and filled keys, and make the same trades. -/
theorem OrderBook.Sound.update_replaces {book : OrderBook} (sound : book.Sound)
    (functional : book.Functional) {l : Ladder} {node : Node RestingOrder}
    (rests : node ∈ book.nodes l) (limit : Price) (size : Quantity) (positive : size.value ≠ 0)
    (moved : limit ≠ node.value.limitPrice ∨ node.value.openSize.value < size.value)
    (instrument : SymbolId) (sequence : SequenceNumber) :
    ∃ levels after restingOrder filledRestingOrders updateEvents submitEvents,
      removeOrder node.value.key (handleOf l node) (book.levels l) = .ok (some levels) ∧
      book.update { key := node.value.key, pricing := .limit limit, size } (handleOf l node)
          sequence =
        .ok (after, { events := updateEvents, restingOrder, filledRestingOrders, updated := true }) ∧
      (book.setLevels l levels).submit
          { key := node.value.key, instrument, direction := l.side, pricing := .limit limit, size }
          sequence =
        .ok (after, { events := submitEvents, restingOrder, filledRestingOrders }) ∧
      node.value.key ∉ filledRestingOrders ∧ tradesIn updateEvents = tradesIn submitEvents := by
  -- Both ways take the order off its levels first.
  obtain ⟨levels, removal, levelsSound, removed⟩ :=
    removeOrder_ok (sound.levels l) (sound.keys l) rests
  have declined := reduceOrderSize_declined (sound.levels l) (sound.keys l) rests
    { key := node.value.key, pricing := .limit limit, size } rfl rfl
    (UInt64.pos_iff_ne_zero.mpr positive) moved
  -- Both match the same order against the same levels, and rest the same remainder.
  obtain ⟨final, trades, ran, direction, traded, filled⟩ := matchOrder_events
    book.instrument l.canCross (.limit limit)
    { key := node.value.key, direction := l.side, openSize := size, sequence }
    (book.levels l.opposite) (sound.levels l.opposite)
  generalize rested : ((book.setLevels l levels).setLevels l.opposite final.levels).restRemainder
    (.limit limit) final.incoming = result
  obtain ⟨after, resting⟩ := result
  obtain ⟨sameInstrument, untouched⟩ := OrderBook.restRemainder_frame (l := l)
    ((book.setLevels l levels).setLevels l.opposite final.levels) (.limit limit) final.incoming
    direction
  rw [rested] at sameInstrument untouched
  simp only [OrderBook.instrument_setLevels, OrderBook.levels_setLevels] at sameInstrument untouched
  have updated := OrderBook.replace_run _ sequence
    { final with events := [.updateAccepted node.value.key] ++ trades } declined removal
    (ran [.updateAccepted node.value.key]) rested
  have submitted := OrderBook.submit_run (l := l) (book.setLevels l levels)
    { key := node.value.key, instrument, direction := l.side, pricing := .limit limit, size }
    sequence rfl { final with events := [.submitAccepted node.value.key] ++ trades }
    (by simpa using ran [.submitAccepted node.value.key]) rested (by simpa using sameInstrument)
    untouched
  refine ⟨levels, after, resting, final.filledRestingOrders, _, _, removal, updated, submitted, ?_,
    ?_⟩
  · -- The filled orders rest on the other side.
    intro taken
    obtain ⟨other, opposite, same⟩ := filled _ taken
    exact functional.one_side (OrderBook.mem_filing.mpr ⟨node, rests, rfl, rfl⟩)
      (OrderBook.mem_filing.mpr ⟨other, opposite, same, rfl⟩)
  · simp only [tradesIn_append_update, tradesIn_append]
    rfl

namespace Engine
variable {engine : Engine}

/-- The handle a resting order is referenced by is its own. -/
theorem Referenced.handle {key : OrderKey} {activeOrder : ActiveOrder} {l : Ladder} {price : Price}
    {node : Node RestingOrder} (referenced : engine.Referenced key activeOrder l price node) :
    activeOrder.handle = handleOf l node := by
  cases whole : activeOrder.handle with
  | mk direction limitPrice order =>
    obtain ⟨side, atPrice, address, -, -, -, -, own⟩ := referenced
    rw [whole] at side atPrice address
    simp only at side atPrice address
    rw [side, atPrice, address, handleOf, own]

/-- The engine with that one level cut, and the next sequence number used up. -/
def cutDown (engine : Engine) (instrument : SymbolId) (book : OrderBook) (l : Ladder)
    (level : PriceLevel) (front : List (Node RestingOrder)) (node : Node RestingOrder)
    (back : List (Node RestingOrder)) (size : Quantity) : Engine :=
  { engine with
    books := engine.books.insertOrAssign instrument
      (book.setLevels l (cutLevel (book.levels l) level front node back size))
    nextSequence := engine.nextSequence.next }

/-- Reading the index back into itself changes nothing. -/
theorem assignHandle_same {key : OrderKey} {activeOrder : ActiveOrder}
    (entry : engine.activeOrders.find? key = some activeOrder) :
    engine.assignHandle key activeOrder.handle = .ok engine := by
  simp only [assignHandle, entry, UnorderedMap.insertOrAssign_same entry]

/-- An update at the same price that does not raise the size. -/
theorem Sound.update_in_place (sound : engine.Sound) {key : OrderKey} {activeOrder : ActiveOrder}
    (entry : engine.activeOrders.find? key = some activeOrder) {book : OrderBook} {l : Ladder}
    {node : Node RestingOrder} (found : engine.books.find? activeOrder.instrument = some book)
    (rests : node ∈ book.nodes l) (named : node.value.key = key)
    (handle : activeOrder.handle = handleOf l node)
    (keyed : key.user.value ≠ 0 ∧ key.clientOrder.value ≠ 0) (size : Quantity)
    (positive : size.value ≠ 0) (smaller : size.value ≤ node.value.openSize.value) :
    ∃ level front back events,
      (book.levels l).find? node.value.limitPrice = some level ∧
      level.orders = front ++ node :: back ∧ tradesIn events = [] ∧
      engine.update { key, pricing := .limit node.value.limitPrice, size } =
        .ok (engine.cutDown activeOrder.instrument book l level front node back size, events) := by
  subst named
  have bookSound := (sound.book _ _ found).1
  obtain ⟨level, atPrice, inside⟩ := (bookSound.levels l).level_of_node rests
  obtain ⟨front, back, orders, reduced⟩ :=
    reduceOrderSize_in_place (bookSound.levels l) atPrice inside size smaller
  have valid : validateUpdate { key := node.value.key, pricing := .limit node.value.limitPrice, size } =
      none := (validateUpdate_eq_none _).mpr ⟨keyed.1, keyed.2, positive, nofun⟩
  have kept : (engine.cutDown activeOrder.instrument book l level front node back size).assignHandle
      node.value.key activeOrder.handle = .ok _ := assignHandle_same entry
  rw [handle] at kept
  have valued : (handleOf l node).hasValue = true := rfl
  refine ⟨level, front, back, appendBookUpdateIfChanged book.instrument l.side
    (topOfBook (book.levels l)) (topOfBook (cutLevel (book.levels l) level front node back size))
    [.updateAccepted node.value.key], atPrice, orders, tradesIn_append_update .., ?_⟩
  simp only [update, valid, entry, findBook, found, handle, OrderBook.reduce_run _ _ reduced, bind,
    Except.bind, pure, Except.pure, Bool.not_true, Bool.false_eq_true, ↓reduceIte,
    recordUpdateResult, eraseFilled, List.foldl_nil, valued, setBook]
  rw [cutDown] at kept
  rw [kept]
  rfl

/-! ## Giving up the place -/

/-- What `cancel` does to an indexed order: it leaves its book and the index. -/
theorem cancel_run {activeOrder : ActiveOrder} {book : OrderBook}
    {l : Ladder} {node : Node RestingOrder}
    (entry : engine.activeOrders.find? node.value.key = some activeOrder)
    (found : engine.books.find? activeOrder.instrument = some book)
    (handle : activeOrder.handle = handleOf l node) {levels : Levels l}
    (removal : removeOrder node.value.key (handleOf l node) (book.levels l) = .ok (some levels)) :
    ∃ events, tradesIn events = [] ∧ engine.cancel { key := node.value.key } = .ok
      ({ engine with
          books := engine.books.insertOrAssign activeOrder.instrument (book.setLevels l levels)
          activeOrders := engine.activeOrders.erase node.value.key }, events) := by
  refine ⟨appendBookUpdateIfChanged book.instrument l.side (topOfBook (book.levels l))
    (topOfBook levels) [.orderCancelled node.value.key], tradesIn_append_update .., ?_⟩
  simp only [cancel, entry, findBook, found, handle, OrderBook.cancel_handleOf, OrderBook.cancelOwn,
    cancelFromLevels, removal, bind, Except.bind, pure, Except.pure, OrderBook.instrument_setLevels,
    OrderBook.levels_setLevels, List.nil_append, setBook, recordCancelResult, eraseActive, ↓reduceIte]

/-- The two edits of the index agree: the key's entry rewritten or dropped at once, or dropped
and put back. -/
theorem refile_erase (index : UnorderedMap OrderKey ActiveOrder) (instrument : SymbolId)
    (key : OrderKey) (gone : List OrderKey) (handle : RestingOrderHandle) (rests : Bool) :
    refile index instrument (key :: gone) (if rests then some (key, handle) else none) =
      refile (index.erase key) instrument gone (if rests then some (key, handle) else none) := by
  funext other
  cases rests <;> simp only [refile, Bool.false_eq_true, ↓reduceIte, UnorderedMap.find?_erase,
    List.mem_cons] <;> by_cases same : other = key <;> simp [same]

/-- An update that moves the price or raises the size. -/
theorem Sound.update_replaces (sound : engine.Sound) {key : OrderKey} {activeOrder : ActiveOrder}
    (entry : engine.activeOrders.find? key = some activeOrder) {book : OrderBook} {l : Ladder}
    {node : Node RestingOrder} (found : engine.books.find? activeOrder.instrument = some book)
    (rests : node ∈ book.nodes l) (named : node.value.key = key)
    (handle : activeOrder.handle = handleOf l node)
    (keyed : key.user.value ≠ 0 ∧ key.clientOrder.value ≠ 0)
    (listed : activeOrder.instrument.value ≠ 0) (limit : Price) (size : Quantity)
    (positive : size.value ≠ 0)
    (moved : limit ≠ node.value.limitPrice ∨ node.value.openSize.value < size.value) :
    ∃ after events cancelled cancelEvents submitEvents,
      engine.update { key, pricing := .limit limit, size } = .ok (after, events) ∧
      engine.cancel { key } = .ok (cancelled, cancelEvents) ∧
      cancelled.submit { key, instrument := activeOrder.instrument, direction := l.side,
                         pricing := .limit limit, size } = .ok (after, submitEvents) ∧
      tradesIn events = tradesIn (cancelEvents ++ submitEvents) := by
  subst named
  obtain ⟨levels, after, resting, filled, updateEvents, submitEvents, removal, updated, submitted,
    unfilled, sameTrades⟩ := (sound.book _ _ found).1.update_replaces (sound.functional found) rests
      limit size positive moved activeOrder.instrument engine.nextSequence
  obtain ⟨cancelEvents, quiet, cancelled⟩ := cancel_run entry found handle removal
  have validUpdate : validateUpdate { key := node.value.key, pricing := .limit limit, size } = none :=
    (validateUpdate_eq_none _).mpr ⟨keyed.1, keyed.2, positive, nofun⟩
  have validSubmit : validateSubmit
      { key := node.value.key, instrument := activeOrder.instrument, direction := l.side,
        pricing := .limit limit, size } = none :=
    (validateSubmit_eq_none _).mpr ⟨keyed.1, keyed.2, listed, positive⟩
  -- The two recorders make the same edit of the index.
  obtain ⟨updatedOrders, recordUpdate, updatedEntries⟩ := recordUpdateResult_ok
    { engine with
      books := engine.books.insertOrAssign activeOrder.instrument after
      nextSequence := engine.nextSequence.next } node.value.key
    { events := updateEvents, restingOrder := resting, filledRestingOrders := filled,
      updated := true } activeOrder entry unfilled
  obtain ⟨submittedOrders, recordSubmit, submittedEntries⟩ := recordSubmitResult_ok
    { books := engine.books.insertOrAssign activeOrder.instrument after
      activeOrders := engine.activeOrders.erase node.value.key
      nextSequence := engine.nextSequence.next }
    { key := node.value.key, instrument := activeOrder.instrument, direction := l.side,
      pricing := .limit limit, size }
    { events := submitEvents, restingOrder := resting, filledRestingOrders := filled }
    (by simp [UnorderedMap.find?_erase])
  have sameOrders : submittedOrders = updatedOrders := by
    refine UnorderedMap.ext (funext fun other => ?_)
    rw [updatedEntries, submittedEntries, refile_erase]
  refine ⟨{ books := engine.books.insertOrAssign activeOrder.instrument after
            activeOrders := updatedOrders
            nextSequence := engine.nextSequence.next }, updateEvents, _, cancelEvents, submitEvents,
    ?_, cancelled, ?_, ?_⟩
  · simp only [update, validUpdate, entry, findBook, found, handle, updated, bind, Except.bind, pure,
      Except.pure, setBook, recordUpdate, Bool.not_true, Bool.false_eq_true, ↓reduceIte]
  · have absent : (engine.activeOrders.erase node.value.key).contains node.value.key = false := by
      simp [UnorderedMap.contains, UnorderedMap.find?_erase]
    simp only [submit, validSubmit, absent, getOrCreateBook, UnorderedMap.find?_insertOrAssign_self,
      submitted, bind, Except.bind, pure, Except.pure, setBook, UnorderedMap.insertOrAssign_twice,
      recordSubmit, sameOrders, Bool.false_eq_true, ↓reduceIte]
  · rw [tradesIn_append, quiet, List.nil_append, sameTrades]

end Engine

/-- In every reachable state an update of an active order that moves its price or raises its size
leaves the engine a cancel and a submit leave, and trades as they do; any other update makes no
trade and only cuts the order and its level's total in place. -/
theorem update_refines_cancel_submit (commands : List Command) :
    ∃ history, History.run commands = .ok history ∧
      ∀ key activeOrder, history.state.activeOrders.find? key = some activeOrder →
        ∃ l price node, history.state.Referenced key activeOrder l price node ∧
          ∀ limit size, size.value ≠ 0 →
            (limit ≠ price ∨ node.value.openSize.value < size.value →
              ∃ after events cancelled cancelEvents submitEvents,
                history.state.update { key, pricing := .limit limit, size } = .ok (after, events) ∧
                history.state.cancel { key } = .ok (cancelled, cancelEvents) ∧
                cancelled.submit { key, instrument := activeOrder.instrument, direction := l.side,
                                   pricing := .limit limit, size } = .ok (after, submitEvents) ∧
                tradesIn events = tradesIn (cancelEvents ++ submitEvents)) ∧
            (limit = price ∧ size.value ≤ node.value.openSize.value →
              ∃ book level front back events,
                history.state.books.find? activeOrder.instrument = some book ∧
                (book.levels l).find? price = some level ∧ level.orders = front ++ node :: back ∧
                history.state.update { key, pricing := .limit limit, size } =
                  .ok (history.state.cutDown activeOrder.instrument book l level front node back size,
                    events) ∧
                tradesIn events = []) := by
  obtain ⟨history, ran, sound, -, keyed, listed⟩ :=
    History.run_induct
      (P := fun history => history.state.market.Keyed ∧ history.state.market.Listed)
      ⟨fun _ _ _ => (nomatch ·), fun _ _ _ => (nomatch ·)⟩
      (fun history _ _ _ taken held => ⟨taken.step.keyed taken.sound.market held.1,
        taken.step.listed held.2⟩) commands
  refine ⟨history, ran, fun key activeOrder entry => ?_⟩
  obtain ⟨l, price, node, referenced⟩ := sound.entry_referenced entry
  obtain ⟨book, found, rests⟩ := referenced.rests.node
  obtain rfl := referenced.limitPrice
  have queued := Engine.queue_of_node found rests
  have complete := keyed _ _ _ queued
  rw [referenced.key] at complete
  refine ⟨l, _, node, referenced, fun limit size positive => ⟨fun moved => ?_, fun kept => ?_⟩⟩
  · exact sound.update_replaces entry found rests referenced.key referenced.handle complete
      (listed _ _ _ queued) limit size positive moved
  · obtain ⟨rfl, smaller⟩ := kept
    obtain ⟨level, front, back, events, atPrice, orders, quiet, updated⟩ :=
      sound.update_in_place entry found rests referenced.key referenced.handle complete size positive
        smaller
    exact ⟨book, level, front, back, events, found, atPrice, orders, updated, quiet⟩

end MarketLab.Matching

import MarketLab.Collections.LinkedList
import MarketLab.Collections.OrderedMap
import MarketLab.Control.WhileLoop
import MarketLab.Matching.Types

/-!
# The order book

`order_book.hpp` and `order_book.cpp`. A member function that edits the book
returns the edited book next to its result; a `Levels&` parameter of a template
is the `Ladder` it is bound to, so `rest_order`, which reaches the maps through
the book itself, sees the same object. Tracing scopes are left out.
-/
namespace MarketLab.Matching
open MarketLab.Collections MarketLab.Control

structure RestingOrder where
  key : OrderKey
  direction : Side
  limitPrice : Price
  openSize : Quantity
  sequence : SequenceNumber
  deriving DecidableEq, Repr

/-- `order` is the list iterator, as the address of its node. -/
structure RestingOrderHandle where
  direction : Option Side := none
  limitPrice : Option Price := none
  order : Nat := 0
  deriving DecidableEq, Repr

def RestingOrderHandle.hasValue (handle : RestingOrderHandle) : Bool := handle.direction.isSome

structure IncomingOrder where
  key : OrderKey
  direction : Side
  openSize : Quantity
  sequence : SequenceNumber
  deriving DecidableEq, Repr

structure PriceLevel where
  totalSize : UInt64 := 0
  orders : LinkedList RestingOrder := []
  deriving DecidableEq, Repr

abbrev Levels (l : Ladder) := OrderedMap l.Before PriceLevel

structure TopOfBookState where
  bestPrice : Price
  totalSize : UInt64
  deriving DecidableEq, Repr

structure SubmitResult where
  events : List Event := []
  restingOrder : RestingOrderHandle := {}
  filledRestingOrders : List OrderKey := []

structure CancelResult where
  events : List Event := []
  cancelled : Bool := false

structure UpdateResult where
  events : List Event := []
  restingOrder : RestingOrderHandle := {}
  filledRestingOrders : List OrderKey := []
  updated : Bool := false

structure PriceLevelSnapshot where
  levelPrice : Price
  totalSize : UInt64
  deriving DecidableEq, Repr

structure OrderBookSnapshot where
  instrument : SymbolId
  bids : List PriceLevelSnapshot
  asks : List PriceLevelSnapshot
  deriving DecidableEq, Repr

/-- `allocated` counts the list nodes made so far and is the next node's address. -/
structure OrderBook where
  instrument : SymbolId
  bids : Levels .bids := .empty
  asks : Levels .asks := .empty
  allocated : Nat := 0

namespace OrderBook

def levels (book : OrderBook) : (l : Ladder) → Levels l
  | .bids => book.bids
  | .asks => book.asks

def setLevels (book : OrderBook) : (l : Ladder) → Levels l → OrderBook
  | .bids, bids => { book with bids }
  | .asks, asks => { book with asks }

end OrderBook

def limitPrice : OrderPricing → Option Price
  | .limit limitPrice => some limitPrice
  | .market => none

def canBuyCross (pricing : OrderPricing) (bestAsk : Price) : Bool :=
  match limitPrice pricing with
  | some limit => bestAsk ≤ limit
  | none => true

def canSellCross (pricing : OrderPricing) (bestBid : Price) : Bool :=
  match limitPrice pricing with
  | some limit => limit ≤ bestBid
  | none => true

def topOfBook {l : Ladder} (levels : Levels l) : Option TopOfBookState :=
  levels.first?.map fun (bestPrice, level) => { bestPrice, totalSize := level.totalSize }

def appendBookUpdateIfChanged (instrument : SymbolId) (direction : Side)
    (before after : Option TopOfBookState) (events : List Event) : List Event :=
  if before = after then events
  else
    match after with
    | some top => events ++ [.bookUpdated instrument direction (some top.bestPrice) top.totalSize]
    | none => events ++ [.bookUpdated instrument direction none 0]

/-! ## Matching -/

/-- The state of `match_against_level`: its arguments, all taken by reference. -/
structure LevelMatch where
  incoming : IncomingOrder
  level : PriceLevel
  events : List Event
  filledRestingOrders : List OrderKey

namespace LevelMatch

def continues (m : LevelMatch) : Bool :=
  0 < m.incoming.openSize.value && !m.level.orders.isEmpty

def execute (instrument : SymbolId) (m : LevelMatch) : Except Fault LevelMatch :=
  match m.level.orders with
  | [] => .error .invalidIterator
  | front :: rest => do
    let resting := front.value
    let executedSize := min m.incoming.openSize.value resting.openSize.value
    let executed ← Quantity.make executedSize
    let events := m.events ++
      [.tradeExecuted m.incoming.key resting.key instrument resting.limitPrice executed]
    let incoming :=
      { m.incoming with openSize := ⟨m.incoming.openSize.value - executedSize⟩ }
    let resting := { resting with openSize := ⟨resting.openSize.value - executedSize⟩ }
    let totalSize := m.level.totalSize - executedSize
    if resting.openSize.value = 0 then
      return { incoming, level := { totalSize, orders := rest }, events,
               filledRestingOrders := m.filledRestingOrders ++ [resting.key] }
    else
      return { incoming, events, filledRestingOrders := m.filledRestingOrders,
               level := { totalSize, orders := { front with value := resting } :: rest } }

end LevelMatch

/-- Every iteration but the last takes an order off the level. -/
def matchAgainstLevel (instrument : SymbolId) (m : LevelMatch) : Except Fault LevelMatch :=
  whileLoop .boundExceeded LevelMatch.continues (LevelMatch.execute instrument)
    (m.level.orders.length + 1) m

/-- The state of `match_order`, again its reference arguments. -/
structure OrderMatch (l : Ladder) where
  incoming : IncomingOrder
  levels : Levels l
  events : List Event
  filledRestingOrders : List OrderKey

namespace OrderMatch
variable {l : Ladder}

/-- The loop test, and the `break` the body starts with. -/
def continues (canCross : Price → Bool) (m : OrderMatch l) : Bool :=
  0 < m.incoming.openSize.value &&
    match m.levels.first? with
    | none => false
    | some (bestPrice, _) => canCross bestPrice

def enterLevel (m : OrderMatch l) (level : PriceLevel) : LevelMatch :=
  { incoming := m.incoming, level, events := m.events,
    filledRestingOrders := m.filledRestingOrders }

def execute (instrument : SymbolId) (m : OrderMatch l) : Except Fault (OrderMatch l) :=
  match m.levels.first? with
  | none => .error .invalidIterator
  | some (bestPrice, level) => do
    let matched ← matchAgainstLevel instrument (m.enterLevel level)
    let levels :=
      if matched.level.orders.isEmpty then m.levels.eraseFirst
      else m.levels.insertOrAssign bestPrice matched.level
    return { incoming := matched.incoming, levels, events := matched.events,
             filledRestingOrders := matched.filledRestingOrders }

end OrderMatch

/-- Every iteration but the last takes a level off the map. -/
def matchOrder {l : Ladder} (instrument : SymbolId) (canCross : OrderPricing → Price → Bool)
    (pricing : OrderPricing) (m : OrderMatch l) : Except Fault (OrderMatch l) :=
  whileLoop .boundExceeded (OrderMatch.continues (canCross pricing))
    (OrderMatch.execute instrument) (m.levels.size + 1) m

/-! ## Edits of one side -/

section Edits
variable {l : Ladder}

/-- `none` is the source's `false`. The iterator is followed inside the level its
price names, so one that left the level is invalid even if its node lives. -/
def removeOrder (key : OrderKey) (handle : RestingOrderHandle) (levels : Levels l) :
    Except Fault (Option (Levels l)) :=
  match handle.limitPrice with
  | none => .ok none
  | some price =>
    match levels.find? price with
    | none => .ok none
    | some level =>
      match level.orders.deref? handle.order with
      | none => .error .invalidIterator
      | some resting =>
        if resting.key ≠ key then .ok none
        else
          let totalSize := level.totalSize - resting.openSize.value
          let orders := level.orders.eraseNode handle.order
          if orders.isEmpty then .ok (some (levels.erase price))
          else .ok (some (levels.insertOrAssign price { totalSize, orders }))

/-- The statements of `remove_order`, and the event. -/
def cancelFromLevels (key : OrderKey) (handle : RestingOrderHandle) (levels : Levels l)
    (events : List Event) : Except Fault (Option (Levels l × List Event)) := do
  match ← removeOrder key handle levels with
  | none => return none
  | some levels => return some (levels, events ++ [.orderCancelled key])

def reduceOrderSize (order : UpdateOrder) (handle : RestingOrderHandle) (levels : Levels l) :
    Except Fault (Option (Levels l)) :=
  match limitPrice order.pricing, handle.limitPrice with
  | some newPrice, some price =>
    if newPrice ≠ price then .ok none
    else
      match levels.find? price with
      | none => .ok none
      | some level =>
        match level.orders.deref? handle.order with
        | none => .error .invalidIterator
        | some resting =>
          if resting.key ≠ order.key ∨ resting.openSize.value < order.size.value then .ok none
          else
            let totalSize := level.totalSize - (resting.openSize.value - order.size.value)
            let orders := level.orders.modifyNode handle.order fun resting =>
              { resting with openSize := order.size }
            .ok (some (levels.insertOrAssign price { totalSize, orders }))
  | _, _ => .ok none

/-- `levels[limit_price]`, the size added and the order pushed back. -/
def pushBack (levels : Levels l) (limitPrice : Price) (node : Node RestingOrder) : Levels l :=
  let level := (levels.find? limitPrice).getD {}
  levels.insertOrAssign limitPrice
    { totalSize := level.totalSize + node.value.openSize.value, orders := level.orders ++ [node] }

end Edits

namespace OrderBook

def restOrder (book : OrderBook) (incoming : IncomingOrder) (limitPrice : Price) :
    OrderBook × RestingOrderHandle :=
  let node : Node RestingOrder :=
    { address := book.allocated,
      value := { key := incoming.key, direction := incoming.direction, limitPrice,
                 openSize := incoming.openSize, sequence := incoming.sequence } }
  let allocated := book.allocated + 1
  let handle : RestingOrderHandle :=
    { direction := some incoming.direction, limitPrice := some limitPrice, order := node.address }
  if incoming.direction = .buy then
    ({ book with bids := pushBack book.bids limitPrice node, allocated }, handle)
  else
    ({ book with asks := pushBack book.asks limitPrice node, allocated }, handle)

/-! ## Submit -/

def submitBuy (book : OrderBook) (order : SubmitOrder) (sequence : SequenceNumber) :
    Except Fault (OrderBook × SubmitResult) := do
  let bestAskBefore := topOfBook book.asks
  let incoming : IncomingOrder :=
    { key := order.key, direction := order.direction, openSize := order.size, sequence }
  let matched ← matchOrder book.instrument canBuyCross order.pricing
    { incoming, levels := book.asks, events := [.submitAccepted order.key],
      filledRestingOrders := [] }
  let book := { book with asks := matched.levels }
  let (book, restingOrder, events) :=
    match limitPrice order.pricing with
    | some restingPrice =>
      if 0 < matched.incoming.openSize.value then
        let bestBidBefore := topOfBook book.bids
        let (book, handle) := book.restOrder matched.incoming restingPrice
        (book, handle, appendBookUpdateIfChanged book.instrument .buy bestBidBefore
          (topOfBook book.bids) matched.events)
      else (book, {}, matched.events)
    | none => (book, {}, matched.events)
  let events := appendBookUpdateIfChanged book.instrument .sell bestAskBefore
    (topOfBook book.asks) events
  return (book, { events, restingOrder, filledRestingOrders := matched.filledRestingOrders })

def submitSell (book : OrderBook) (order : SubmitOrder) (sequence : SequenceNumber) :
    Except Fault (OrderBook × SubmitResult) := do
  let bestBidBefore := topOfBook book.bids
  let incoming : IncomingOrder :=
    { key := order.key, direction := order.direction, openSize := order.size, sequence }
  let matched ← matchOrder book.instrument canSellCross order.pricing
    { incoming, levels := book.bids, events := [.submitAccepted order.key],
      filledRestingOrders := [] }
  let book := { book with bids := matched.levels }
  let events := appendBookUpdateIfChanged book.instrument .buy bestBidBefore
    (topOfBook book.bids) matched.events
  let (book, restingOrder, events) :=
    match limitPrice order.pricing with
    | some restingPrice =>
      if 0 < matched.incoming.openSize.value then
        let bestAskBefore := topOfBook book.asks
        let (book, handle) := book.restOrder matched.incoming restingPrice
        (book, handle, appendBookUpdateIfChanged book.instrument .sell bestAskBefore
          (topOfBook book.asks) events)
      else (book, {}, events)
    | none => (book, {}, events)
  return (book, { events, restingOrder, filledRestingOrders := matched.filledRestingOrders })

def submit (book : OrderBook) (order : SubmitOrder) (sequence : SequenceNumber) :
    Except Fault (OrderBook × SubmitResult) :=
  match order.direction with
  | .buy => book.submitBuy order sequence
  | .sell => book.submitSell order sequence
  | .unnamed _ => .ok (book, {})

/-! ## Update -/

/-- `own` stands for `own_levels`, its opposite for `opposite_levels`. -/
def replaceOrder (book : OrderBook) (order : UpdateOrder) (handle : RestingOrderHandle)
    (direction : Side) (canCross : OrderPricing → Price → Bool) (own : Ladder)
    (sequence : SequenceNumber) : Except Fault (OrderBook × UpdateResult) := do
  let ownBestBefore := topOfBook (book.levels own)
  let oppositeBestBefore := topOfBook (book.levels own.opposite)
  match ← removeOrder order.key handle (book.levels own) with
  | none => return (book, {})
  | some ownLevels =>
    let book := book.setLevels own ownLevels
    let incoming : IncomingOrder :=
      { key := order.key, direction, openSize := order.size, sequence }
    let matched ← matchOrder book.instrument canCross order.pricing
      { incoming, levels := book.levels own.opposite, events := [.updateAccepted order.key],
        filledRestingOrders := [] }
    let book := book.setLevels own.opposite matched.levels
    let (book, restingOrder) :=
      match limitPrice order.pricing with
      | some restingPrice =>
        if 0 < matched.incoming.openSize.value then
          book.restOrder matched.incoming restingPrice
        else (book, {})
      | none => (book, {})
    let events := appendBookUpdateIfChanged book.instrument direction ownBestBefore
      (topOfBook (book.levels own)) matched.events
    let events := appendBookUpdateIfChanged book.instrument
      (if direction = .buy then .sell else .buy) oppositeBestBefore
      (topOfBook (book.levels own.opposite)) events
    return (book, { events, restingOrder, filledRestingOrders := matched.filledRestingOrders,
                    updated := true })

/-- The common text of `update_buy` and `update_sell`. -/
def updateOwn (book : OrderBook) (order : UpdateOrder) (handle : RestingOrderHandle)
    (direction : Side) (canCross : OrderPricing → Price → Bool) (own : Ladder)
    (sequence : SequenceNumber) : Except Fault (OrderBook × UpdateResult) := do
  let bestBefore := topOfBook (book.levels own)
  match ← reduceOrderSize order handle (book.levels own) with
  | some levels =>
    let book := book.setLevels own levels
    let events := appendBookUpdateIfChanged book.instrument direction bestBefore
      (topOfBook (book.levels own)) [.updateAccepted order.key]
    return (book, { events, restingOrder := handle, updated := true })
  | none => book.replaceOrder order handle direction canCross own sequence

def updateBuy (book : OrderBook) (order : UpdateOrder) (handle : RestingOrderHandle)
    (sequence : SequenceNumber) : Except Fault (OrderBook × UpdateResult) :=
  book.updateOwn order handle .buy canBuyCross .bids sequence

def updateSell (book : OrderBook) (order : UpdateOrder) (handle : RestingOrderHandle)
    (sequence : SequenceNumber) : Except Fault (OrderBook × UpdateResult) :=
  book.updateOwn order handle .sell canSellCross .asks sequence

def update (book : OrderBook) (order : UpdateOrder) (handle : RestingOrderHandle)
    (sequence : SequenceNumber) : Except Fault (OrderBook × UpdateResult) :=
  match handle.direction with
  | some .buy => book.updateBuy order handle sequence
  | some .sell => book.updateSell order handle sequence
  | _ => .ok (book, {})

/-! ## Cancel and snapshot -/

/-- The common text of `cancel_bid` and `cancel_ask`. -/
def cancelOwn (book : OrderBook) (key : OrderKey) (handle : RestingOrderHandle)
    (direction : Side) (own : Ladder) : Except Fault (OrderBook × CancelResult) := do
  let bestBefore := topOfBook (book.levels own)
  match ← cancelFromLevels key handle (book.levels own) [] with
  | some (levels, events) =>
    let book := book.setLevels own levels
    let events := appendBookUpdateIfChanged book.instrument direction bestBefore
      (topOfBook (book.levels own)) events
    return (book, { events, cancelled := true })
  | none => return (book, {})

def cancelBid (book : OrderBook) (key : OrderKey) (handle : RestingOrderHandle) :
    Except Fault (OrderBook × CancelResult) :=
  book.cancelOwn key handle .buy .bids

def cancelAsk (book : OrderBook) (key : OrderKey) (handle : RestingOrderHandle) :
    Except Fault (OrderBook × CancelResult) :=
  book.cancelOwn key handle .sell .asks

def cancel (book : OrderBook) (key : OrderKey) (handle : RestingOrderHandle) :
    Except Fault (OrderBook × CancelResult) :=
  match handle.direction with
  | some .buy => book.cancelBid key handle
  | some .sell => book.cancelAsk key handle
  | _ => .ok (book, {})

end OrderBook

/-- The loop stops when `result` holds `depth` levels. -/
def snapshotLevels {l : Ladder} (levels : Levels l) (depth : Nat) : List PriceLevelSnapshot :=
  (levels.entries.take depth).map fun (levelPrice, level) =>
    { levelPrice, totalSize := level.totalSize }

def OrderBook.snapshot (book : OrderBook) (depth : Nat) : OrderBookSnapshot :=
  { instrument := book.instrument, bids := snapshotLevels book.bids depth,
    asks := snapshotLevels book.asks depth }

end MarketLab.Matching

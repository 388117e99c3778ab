import MarketLab.Collections.UnorderedMap
import MarketLab.Matching.OrderBook

/-!
# The engine

`engine.hpp` and `engine.cpp`, and the runs of a fresh engine. An iterator into
`active_orders_` is its key: erasing or writing through it needs the key to be
present still, and is a fault otherwise.
-/
namespace MarketLab.Matching
open MarketLab.Collections

structure ActiveOrder where
  instrument : SymbolId
  handle : RestingOrderHandle
  deriving DecidableEq, Repr

structure Engine where
  books : UnorderedMap SymbolId OrderBook := .empty
  activeOrders : UnorderedMap OrderKey ActiveOrder := .empty
  nextSequence : SequenceNumber := { value := 1 }

def validateSubmit (order : SubmitOrder) : Option String :=
  if order.key.user.value = 0 then some "user id must be non-zero"
  else if order.key.clientOrder.value = 0 then some "client order id must be non-zero"
  else if order.instrument.value = 0 then some "symbol id must be non-zero"
  else if order.size.value = 0 then some "order size must be positive"
  else none

def validateUpdate (order : UpdateOrder) : Option String :=
  if order.key.user.value = 0 then some "user id must be non-zero"
  else if order.key.clientOrder.value = 0 then some "client order id must be non-zero"
  else if order.size.value = 0 then some "order size must be positive"
  else if (limitPrice order.pricing).isNone then some "update pricing must be limit"
  else none

def rejectSubmit (key : OrderKey) (reason : String) : List Event := [.submitRejected key reason]

def rejectUpdate (key : OrderKey) (reason : String) : List Event := [.updateRejected key reason]

def rejectCancel (key : OrderKey) (reason : String) : List Event := [.cancelRejected key reason]

namespace Engine

/-- `books_.try_emplace(instrument, instrument)`. -/
def getOrCreateBook (engine : Engine) (instrument : SymbolId) : Engine × OrderBook :=
  match engine.books.find? instrument with
  | some book => (engine, book)
  | none =>
    let book : OrderBook := { instrument }
    ({ engine with books := engine.books.insertOrAssign instrument book }, book)

def findBook (engine : Engine) (instrument : SymbolId) : Option OrderBook :=
  engine.books.find? instrument

/-- Writes an edited book back through the reference it was found by. -/
def setBook (engine : Engine) (instrument : SymbolId) (book : OrderBook) : Engine :=
  { engine with books := engine.books.insertOrAssign instrument book }

/-- `erase(iterator)`. -/
def eraseActive (engine : Engine) (active : OrderKey) : Except Fault Engine :=
  match engine.activeOrders.find? active with
  | none => .error .invalidIterator
  | some _ => .ok { engine with activeOrders := engine.activeOrders.erase active }

/-- `active->second.handle = handle`. -/
def assignHandle (engine : Engine) (active : OrderKey) (handle : RestingOrderHandle) :
    Except Fault Engine :=
  match engine.activeOrders.find? active with
  | none => .error .invalidIterator
  | some activeOrder =>
    .ok { engine with
      activeOrders := engine.activeOrders.insertOrAssign active { activeOrder with handle } }

/-- The `erase(filled_key)` loop both recorders start with. -/
def eraseFilled (engine : Engine) (filledKeys : List OrderKey) : Engine :=
  { engine with
    activeOrders := filledKeys.foldl UnorderedMap.erase engine.activeOrders }

def recordSubmitResult (engine : Engine) (order : SubmitOrder) (result : SubmitResult) : Engine :=
  let engine := engine.eraseFilled result.filledRestingOrders
  if result.restingOrder.hasValue then
    { engine with
      activeOrders := engine.activeOrders.emplace order.key
        { instrument := order.instrument, handle := result.restingOrder } }
  else engine

def recordUpdateResult (engine : Engine) (active : OrderKey) (result : UpdateResult) :
    Except Fault Engine :=
  let engine := engine.eraseFilled result.filledRestingOrders
  if result.restingOrder.hasValue then engine.assignHandle active result.restingOrder
  else engine.eraseActive active

def recordCancelResult (engine : Engine) (active : OrderKey) (result : CancelResult) :
    Except Fault Engine :=
  if result.cancelled then engine.eraseActive active else .ok engine

def submit (engine : Engine) (order : SubmitOrder) : Except Fault (Engine × List Event) :=
  match validateSubmit order with
  | some reason => .ok (engine, rejectSubmit order.key reason)
  | none =>
    if engine.activeOrders.contains order.key then
      .ok (engine, rejectSubmit order.key "order key is already active")
    else do
      let (engine, book) := engine.getOrCreateBook order.instrument
      let (book, result) ← book.submit order engine.nextSequence
      let engine := engine.setBook order.instrument book
      let engine := { engine with nextSequence := engine.nextSequence.next }
      return (engine.recordSubmitResult order result, result.events)

def update (engine : Engine) (order : UpdateOrder) : Except Fault (Engine × List Event) :=
  match validateUpdate order with
  | some reason => .ok (engine, rejectUpdate order.key reason)
  | none =>
    match engine.activeOrders.find? order.key with
    | none => .ok (engine, rejectUpdate order.key "order is not active")
    | some activeOrder =>
      match engine.findBook activeOrder.instrument with
      | none => do
        let engine ← engine.eraseActive order.key
        return (engine, rejectUpdate order.key "order book is missing")
      | some book => do
        let (book, result) ← book.update order activeOrder.handle engine.nextSequence
        let engine := engine.setBook activeOrder.instrument book
        let engine := { engine with nextSequence := engine.nextSequence.next }
        if !result.updated then
          let engine ← engine.eraseActive order.key
          return (engine, rejectUpdate order.key "order book is inconsistent")
        else
          let engine ← engine.recordUpdateResult order.key result
          return (engine, result.events)

def cancel (engine : Engine) (order : CancelOrder) : Except Fault (Engine × List Event) :=
  match engine.activeOrders.find? order.key with
  | none => .ok (engine, rejectCancel order.key "order is not active")
  | some activeOrder =>
    match engine.findBook activeOrder.instrument with
    | none => do
      let engine ← engine.eraseActive order.key
      return (engine, rejectCancel order.key "order book is missing")
    | some book => do
      let (book, result) ← book.cancel order.key activeOrder.handle
      let engine := engine.setBook activeOrder.instrument book
      let engine ← engine.recordCancelResult order.key result
      return (engine, result.events)

def snapshot (engine : Engine) (instrument : SymbolId) (depth : Nat) : Option OrderBookSnapshot :=
  (engine.findBook instrument).map fun book => book.snapshot depth

end Engine

/-! ## Runs -/

inductive Command where
  | submit (order : SubmitOrder)
  | update (order : UpdateOrder)
  | cancel (order : CancelOrder)
  deriving DecidableEq, Repr

def Command.key : Command → OrderKey
  | .submit order => order.key
  | .update order => order.key
  | .cancel order => order.key

def Engine.apply (engine : Engine) : Command → Except Fault (Engine × List Event)
  | .submit order => engine.submit order
  | .update order => engine.update order
  | .cancel order => engine.cancel order

/-- One completed call. -/
structure Transition where
  before : Engine
  command : Command
  events : List Event
  after : Engine

/-- A fresh engine's calls so far, oldest first, and the state they led to. -/
structure History where
  transitions : List Transition := []
  state : Engine := {}

namespace History

def step (history : History) (command : Command) : Except Fault History := do
  let (after, events) ← history.state.apply command
  return { transitions := history.transitions ++ [{ before := history.state, command, events, after }],
           state := after }

def run (commands : List Command) : Except Fault History := commands.foldlM step {}

/-- The concatenated events. -/
def events (history : History) : List Event := history.transitions.flatMap Transition.events

end History
end MarketLab.Matching

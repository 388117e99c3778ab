import Mathlib.Data.List.Sort
import MarketLab.Matching.Engine
import MarketLab.Matching.MatchLoop

/-!
# The market: what the engine is for

An abstract statement of price-time priority, with no price maps, cached totals,
handles or iterators: each instrument is two queues of resting orders, best
first, and a command either is refused or has one of five effects. Best prices
are read off the queues. The engine is shown to take only these steps.
-/
namespace MarketLab.Matching
open MarketLab.Collections

/-- The crossing test the source passes for an order of this side. -/
def Ladder.canCross : Ladder → OrderPricing → Price → Bool
  | .bids => canBuyCross
  | .asks => canSellCross

/-- An order crosses every opposite price unless its limit is the better one. -/
theorem Ladder.canCross_limit (l : Ladder) (limit price : Price) :
    l.canCross (.limit limit) price = true ↔ ¬ l.opposite.Before limit price := by
  cases l <;> simp [canCross, canBuyCross, canSellCross, limitPrice, opposite, Before, Price.not_lt]

theorem Ladder.canCross_market (l : Ladder) (price : Price) : l.canCross .market price = true := by
  cases l <;> rfl

/-- One instrument's queues, best order first. -/
abbrev Queues := Ladder → List RestingOrder

structure Market where
  books : SymbolId → Option Queues
  nextSequence : SequenceNumber

/-- Behind every order whose price is at least as good. -/
def enqueue (l : Ladder) (order : RestingOrder) (queue : List RestingOrder) : List RestingOrder :=
  queue.orderedInsert (fun a b => l.Before a.limitPrice b.limitPrice) order

/-- The best price and the (wrapping) sum of the sizes at it. -/
def bestOf : List RestingOrder → Option TopOfBookState
  | [] => none
  | best :: queue => some
      { bestPrice := best.limitPrice
        totalSize := (((best :: queue).filter fun order => order.limitPrice = best.limitPrice).map
          fun order => order.openSize.value).sum }

/-- The update owed for a side whose queue changed. -/
def bookChange (instrument : SymbolId) (l : Ladder) (before after : List RestingOrder) :
    List Event :=
  appendBookUpdateIfChanged instrument l.side (bestOf before) (bestOf after) []

/-- The event that reports a side's top: no price and no size for an empty side. -/
def updateOf (instrument : SymbolId) (l : Ladder) (top : Option TopOfBookState) : Event :=
  .bookUpdated instrument l.side (top.map TopOfBookState.bestPrice)
    (top.elim 0 TopOfBookState.totalSize)

theorem bookChange_eq (instrument : SymbolId) (l : Ladder) (before after : List RestingOrder) :
    bookChange instrument l before after =
      if bestOf before = bestOf after then [] else [updateOf instrument l (bestOf after)] := by
  unfold bookChange appendBookUpdateIfChanged updateOf
  split_ifs
  · rfl
  · cases bestOf after <;> rfl

@[simp] theorem bookChange_self (instrument : SymbolId) (l : Ladder) (queue : List RestingOrder) :
    bookChange instrument l queue queue = [] := by
  simp [bookChange_eq]

@[simp] theorem mem_bookChange {instrument : SymbolId} {l : Ladder} {event : Event}
    {before after : List RestingOrder} : event ∈ bookChange instrument l before after ↔
      bestOf before ≠ bestOf after ∧ event = updateOf instrument l (bestOf after) := by
  rw [bookChange_eq]
  split_ifs with same <;> simp [same]

/-- What an incoming order leaves to rest. -/
def remainder (order : IncomingOrder) (pricing : OrderPricing) (left : UInt64) :
    Option RestingOrder :=
  match limitPrice pricing with
  | some limitPrice =>
    if 0 < left then
      some { key := order.key, direction := order.direction, limitPrice,
             openSize := ⟨left⟩, sequence := order.sequence }
    else none
  | none => none

/-- A resting remainder comes from a limit order with quantity left. -/
theorem remainder_some {incoming : IncomingOrder} {pricing : OrderPricing} {left : UInt64}
    {order : RestingOrder} (rests : remainder incoming pricing left = some order) :
    pricing = .limit order.limitPrice ∧ 0 < left ∧
      order = { key := incoming.key, direction := incoming.direction,
                limitPrice := order.limitPrice, openSize := ⟨left⟩,
                sequence := incoming.sequence } := by
  cases pricing with
  | market => simp [remainder, limitPrice] at rests
  | limit price =>
    simp only [remainder, limitPrice, Option.ite_none_right_eq_some, Option.some_inj] at rests
    obtain ⟨positive, rfl⟩ := rests
    exact ⟨rfl, positive, rfl⟩

structure Aggression where
  outcome : Outcome RestingOrder
  rests : Option RestingOrder

/-- An order met by the opposite queue. -/
def aggress (l : Ladder) (order : IncomingOrder) (pricing : OrderPricing)
    (opposite : List RestingOrder) : Aggression :=
  let outcome := sweep (fun resting => l.canCross pricing resting.limitPrice)
    order.openSize.value opposite
  { outcome, rests := remainder order pricing outcome.left }

namespace Aggression

/-- The order's own queue once its remainder, if any, rests. -/
def own (a : Aggression) (l : Ladder) (queue : List RestingOrder) : List RestingOrder :=
  match a.rests with
  | some order => enqueue l order queue
  | none => queue

def queues (a : Aggression) (l : Ladder) (queue : List RestingOrder) : Queues :=
  fun ladder => if ladder = l then a.own l queue else a.outcome.rest

def trades (a : Aggression) (instrument : SymbolId) (aggressor : OrderKey) : List Event :=
  a.outcome.fills.map fun fill =>
    .tradeExecuted aggressor fill.1.key instrument fill.1.limitPrice ⟨fill.2⟩

@[simp] theorem mem_trades {a : Aggression} {instrument : SymbolId} {aggressor : OrderKey}
    {event : Event} : event ∈ a.trades instrument aggressor ↔ ∃ fill ∈ a.outcome.fills,
      .tradeExecuted aggressor fill.1.key instrument fill.1.limitPrice ⟨fill.2⟩ = event :=
  List.mem_map

@[simp] theorem queues_self (a : Aggression) (l : Ladder) (queue : List RestingOrder) :
    a.queues l queue l = a.own l queue := if_pos rfl

@[simp] theorem queues_opposite (a : Aggression) (l : Ladder) (queue : List RestingOrder) :
    a.queues l queue l.opposite = a.outcome.rest := if_neg l.opposite_ne

end Aggression

namespace Market

def queue (m : Market) (instrument : SymbolId) (l : Ladder) : List RestingOrder :=
  match m.books instrument with
  | some queues => queues l
  | none => []

/-- A key is active while an order of that key rests somewhere. -/
def Active (m : Market) (key : OrderKey) : Prop :=
  ∃ instrument l, ∃ order ∈ m.queue instrument l, order.key = key

/-- One instrument's queues replaced; the step consumed a sequence number. -/
def advance (m : Market) (instrument : SymbolId) (queues : Queues) : Market :=
  { books := Function.update m.books instrument (some queues)
    nextSequence := m.nextSequence.next }

/-- One side of one instrument replaced, with nothing consumed. -/
def setQueue (m : Market) (instrument : SymbolId) (l : Ladder) (queue : List RestingOrder) :
    Market :=
  { books := Function.update m.books instrument
      (some (Function.update (m.queue instrument) l queue))
    nextSequence := m.nextSequence }

theorem queue_advance (m : Market) (instrument other : SymbolId) (queues : Queues) (l : Ladder) :
    (m.advance instrument queues).queue other l =
      if other = instrument then queues l else m.queue other l := by
  by_cases same : other = instrument <;> simp [queue, advance, same]

theorem queue_setQueue (m : Market) (instrument other : SymbolId) (l side : Ladder)
    (queue : List RestingOrder) :
    (m.setQueue instrument l queue).queue other side =
      if other = instrument ∧ side = l then queue else m.queue other side := by
  by_cases same : other = instrument
  · subst same
    by_cases here : side = l
    · subst here
      simp [Market.queue, setQueue]
    · simp [Market.queue, setQueue, here]
  · simp [Market.queue, setQueue, same]

/-- What holds of every instrument's queues holds still when it holds of the new ones. -/
theorem forall_advance {P : SymbolId → Queues → Prop} {m : Market} {instrument : SymbolId}
    {queues : Queues} (held : ∀ other, P other (m.queue other)) (changed : P instrument queues) :
    ∀ other, P other ((m.advance instrument queues).queue other) := by
  intro other
  by_cases here : other = instrument
  · subst here
    have same : (m.advance other queues).queue other = queues := by
      funext l
      rw [queue_advance, if_pos rfl]
    rwa [same]
  · have same : (m.advance instrument queues).queue other = m.queue other := by
      funext l
      rw [queue_advance, if_neg here]
    rw [same]
    exact held other

theorem forall_setQueue {P : SymbolId → Queues → Prop} {m : Market} {instrument : SymbolId}
    {l : Ladder} {queue : List RestingOrder} (held : ∀ other, P other (m.queue other))
    (changed : P instrument (Function.update (m.queue instrument) l queue)) :
    ∀ other, P other ((m.setQueue instrument l queue).queue other) :=
  forall_advance (m := m) held changed

/-- The refusals, with the one event each answers with. -/
inductive Refuses (m : Market) : Command → Event → Prop
  | submitInvalid {order : SubmitOrder} {reason : String}
      (invalid : validateSubmit order = some reason) :
      Refuses m (.submit order) (.submitRejected order.key reason)
  | submitActive {order : SubmitOrder} (valid : validateSubmit order = none)
      (active : m.Active order.key) :
      Refuses m (.submit order) (.submitRejected order.key "order key is already active")
  | updateInvalid {order : UpdateOrder} {reason : String}
      (invalid : validateUpdate order = some reason) :
      Refuses m (.update order) (.updateRejected order.key reason)
  | updateInactive {order : UpdateOrder} (valid : validateUpdate order = none)
      (inactive : ¬ m.Active order.key) :
      Refuses m (.update order) (.updateRejected order.key "order is not active")
  | cancelInactive {order : CancelOrder} (inactive : ¬ m.Active order.key) :
      Refuses m (.cancel order) (.cancelRejected order.key "order is not active")

/-- The order an accepted submit or update enters matching with. -/
def incoming (m : Market) (key : OrderKey) (l : Ladder) (size : Quantity) : IncomingOrder :=
  { key, direction := l.side, openSize := size, sequence := m.nextSequence }

@[simp] theorem incoming_key (m : Market) (key : OrderKey) (l : Ladder) (size : Quantity) :
    (m.incoming key l size).key = key := rfl

@[simp] theorem incoming_openSize (m : Market) (key : OrderKey) (l : Ladder) (size : Quantity) :
    (m.incoming key l size).openSize = size := rfl

@[simp] theorem incoming_sequence (m : Market) (key : OrderKey) (l : Ladder) (size : Quantity) :
    (m.incoming key l size).sequence = m.nextSequence := rfl

/-- Everything one command can do. -/
inductive Step (m : Market) : Command → List Event → Market → Prop
  | refused {command : Command} {event : Event} (refusal : m.Refuses command event) :
      Step m command [event] m
  /-- A side that is neither enumerator reaches a book and is ignored there. -/
  | ignored {order : SubmitOrder} (valid : validateSubmit order = none)
      (inactive : ¬ m.Active order.key) (unnamed : ∀ l : Ladder, order.direction ≠ l.side) :
      Step m (.submit order) [] (m.advance order.instrument (m.queue order.instrument))
  | submitted {order : SubmitOrder} (l : Ladder) (valid : validateSubmit order = none)
      (inactive : ¬ m.Active order.key) (named : order.direction = l.side) (a : Aggression)
      (aggression : a = aggress l (m.incoming order.key l order.size) order.pricing
        (m.queue order.instrument l.opposite)) (queues : Queues)
      (after : queues = a.queues l (m.queue order.instrument l)) :
      Step m (.submit order)
        (.submitAccepted order.key :: a.trades order.instrument order.key ++
          bookChange order.instrument .bids (m.queue order.instrument .bids) (queues .bids) ++
          bookChange order.instrument .asks (m.queue order.instrument .asks) (queues .asks))
        (m.advance order.instrument queues)
  | reduced {order : UpdateOrder} (instrument : SymbolId) (l : Ladder) (resting : RestingOrder)
      (valid : validateUpdate order = none) (rests : resting ∈ m.queue instrument l)
      (named : resting.key = order.key) (price : limitPrice order.pricing = some resting.limitPrice)
      (smaller : order.size.value ≤ resting.openSize.value) (queue : List RestingOrder)
      (after : queue = (m.queue instrument l).map fun other =>
        if other.key = order.key then { other with openSize := order.size } else other) :
      Step m (.update order)
        (.updateAccepted order.key :: bookChange instrument l (m.queue instrument l) queue)
        (m.advance instrument (Function.update (m.queue instrument) l queue))
  | replaced {order : UpdateOrder} (instrument : SymbolId) (l : Ladder) (resting : RestingOrder)
      (price : Price) (valid : validateUpdate order = none)
      (rests : resting ∈ m.queue instrument l) (named : resting.key = order.key)
      (limit : limitPrice order.pricing = some price)
      (moved : price ≠ resting.limitPrice ∨ resting.openSize.value < order.size.value)
      (a : Aggression)
      (aggression : a = aggress l (m.incoming order.key l order.size) order.pricing
        (m.queue instrument l.opposite)) (queues : Queues)
      (after : queues = a.queues l ((m.queue instrument l).filter fun other =>
        other.key ≠ order.key)) :
      Step m (.update order)
        (.updateAccepted order.key :: a.trades instrument order.key ++
          bookChange instrument l (m.queue instrument l) (queues l) ++
          bookChange instrument l.opposite (m.queue instrument l.opposite) (queues l.opposite))
        (m.advance instrument queues)
  | cancelled {order : CancelOrder} (instrument : SymbolId) (l : Ladder) (resting : RestingOrder)
      (rests : resting ∈ m.queue instrument l) (named : resting.key = order.key)
      (queue : List RestingOrder)
      (after : queue = (m.queue instrument l).filter fun other => other.key ≠ order.key) :
      Step m (.cancel order)
        (.orderCancelled order.key :: bookChange instrument l (m.queue instrument l) queue)
        (m.setQueue instrument l queue)

end Market

/-! ## What the engine's state stands for -/

/-- The queues a book holds, best first. -/
def OrderBook.queues (book : OrderBook) : Queues := fun l =>
  LinkedList.values (restingNodes (book.levels l))

def Engine.market (engine : Engine) : Market :=
  { books := fun instrument => (engine.books.find? instrument).map OrderBook.queues
    nextSequence := engine.nextSequence }

end MarketLab.Matching

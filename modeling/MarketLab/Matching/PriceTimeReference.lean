import MarketLab.Collections.GreedyReference
import MarketLab.Matching.UpdateRefinement

/-!
# Matching against its reference

What an order must trade, stated without a loop: the opposite orders it may cross, best price
first and then in queue order, each take what of its size the ones ahead of them leave. Both
matching paths of the book produce exactly that.
-/
namespace MarketLab.Matching
open MarketLab.Collections

/-- May an order of this side trade at a price of the opposite side? -/
def mayCross : Ladder → OrderPricing → Price → Bool
  | _, .market, _ => true
  | .bids, .limit limit, ask => ask ≤ limit
  | .asks, .limit limit, bid => limit ≤ bid

theorem canCross_eq (l : Ladder) (pricing : OrderPricing) : l.canCross pricing = mayCross l pricing := by
  funext price
  cases l <;> cases pricing <;> rfl

/-- The resting orders an order may trade with. -/
def crossable (l : Ladder) (pricing : OrderPricing) (opposite : List RestingOrder) :
    List RestingOrder := opposite.filter fun resting => mayCross l pricing resting.limitPrice

/-- Their exact quantity. -/
def available (l : Ladder) (pricing : OrderPricing) (opposite : List RestingOrder) : Nat :=
  totalSize (fun resting => mayCross l pricing resting.limitPrice) opposite

/-- The queue of one level, empty where there is none. -/
def OrderBook.ordersAt (book : OrderBook) (l : Ladder) (price : Price) : List RestingOrder :=
  ((book.levels l).find? price).elim [] fun level => LinkedList.values level.orders

/-- What rests at a price once the order is through: its remainder, at its own limit. -/
def restsAt (l : Ladder) (incoming : IncomingOrder) (pricing : OrderPricing)
    (opposite : List RestingOrder) (price : Price) : List RestingOrder :=
  if pricing = .limit price ∧ available l pricing opposite < incoming.openSize.value.toNat then
    [{ key := incoming.key, direction := incoming.direction, limitPrice := price,
       openSize := ⟨UInt64.ofNat (incoming.openSize.value.toNat - available l pricing opposite)⟩,
       sequence := incoming.sequence }]
  else []

/-- An order went through a book as it must. `own` are its own side's levels and `opposite` the
other side's queue, both without the order itself. -/
structure MatchesReference (instrument : SymbolId) (l : Ladder) (incoming : IncomingOrder)
    (pricing : OrderPricing) (own : Price → List RestingOrder) (opposite : List RestingOrder)
    (after : OrderBook) (events : List Event) (filled : List OrderKey) : Prop where
  trades : tradesIn events = (reached incoming.openSize.value.toNat
    (withAhead 0 (crossable l pricing opposite))).map fun entry =>
      .tradeExecuted incoming.key entry.1.key instrument entry.1.limitPrice ⟨UInt64.ofNat entry.2⟩
  consumed : ∃ consumed others, opposite = consumed ++ others ∧
    consumed = covered incoming.openSize.value.toNat (withAhead 0 (crossable l pricing opposite)) ∧
    filled = consumed.map RestingOrder.key ∧
    (after.queues l.opposite = others ∨
      ∃ resting tail executed, others = resting :: tail ∧ 0 < executed ∧
        executed < resting.openSize.value ∧
        executed.toNat + totalSize (fun _ => true) consumed = incoming.openSize.value.toNat ∧
        after.queues l.opposite =
          { resting with openSize := ⟨resting.openSize.value - executed⟩ } :: tail)
  rests : ∀ price, after.ordersAt l price = own price ++ restsAt l incoming pricing opposite price

namespace OrderBook
variable {book : OrderBook} {l : Ladder}

/-- A level holds the orders of the side at its price. -/
theorem Sound.ordersAt_eq (sound : book.Sound) (l : Ladder) (price : Price) :
    book.ordersAt l price = (book.queues l).filter fun order => order.limitPrice = price := by
  have levels := sound.levels l
  cases found : (book.levels l).find? price with
  | none =>
    have nothing : (book.queues l).filter (fun order => order.limitPrice = price) = [] := by
      refine List.filter_eq_nil_iff.mpr fun order member => ?_
      obtain ⟨node, inside, rfl⟩ := List.mem_map.mp member
      simp only [decide_eq_true_eq]
      rintro rfl
      obtain ⟨level, atPrice, -⟩ := levels.level_of_node inside
      rw [found] at atPrice
      cases atPrice
    rw [ordersAt, found, nothing]
    rfl
  | some level =>
    have filed := (levels.level _ _ (OrderedMap.mem_entries_of_find? found)).filed
    obtain ⟨front, back, nodes, before, after, -⟩ := levels.split_level found
    have away : ∀ part : List (Node RestingOrder), (∀ node ∈ part, node.value.limitPrice ≠ price) →
        (part.map Node.value).filter (fun order => order.limitPrice = price) = [] := by
      intro part different
      refine List.filter_eq_nil_iff.mpr fun order member => ?_
      obtain ⟨node, inside, rfl⟩ := List.mem_map.mp member
      simpa using different node inside
    have here : (level.orders.map Node.value).filter (fun order => order.limitPrice = price) =
        level.orders.map Node.value := by
      refine List.filter_eq_self.mpr fun order member => ?_
      obtain ⟨node, inside, rfl⟩ := List.mem_map.mp member
      simpa using (filed node inside).1
    rw [ordersAt, found, queues_eq, OrderBook.nodes, nodes, List.map_append, List.map_append,
      List.filter_append, List.filter_append, here,
      away front fun node inside same => irrefl_of l.Before _ (same ▸ before node inside),
      away back fun node inside same => irrefl_of l.Before _ (same ▸ after node inside),
      List.nil_append, List.append_nil]
    rfl

/-- Resting appends to one level and leaves the others. -/
theorem restRemainder_ordersAt (book : OrderBook) (pricing : OrderPricing) (incoming : IncomingOrder)
    (direction : incoming.direction = l.side) (price : Price) :
    (book.restRemainder pricing incoming).1.ordersAt l price = book.ordersAt l price ++
      if pricing = .limit price ∧ 0 < incoming.openSize.value then
        [{ key := incoming.key, direction := incoming.direction, limitPrice := price,
           openSize := incoming.openSize, sequence := incoming.sequence }]
      else [] := by
  unfold restRemainder
  cases pricing with
  | market => simp [limitPrice]
  | limit limit =>
    simp only [limitPrice]
    by_cases positive : 0 < incoming.openSize.value
    case neg => simp [positive]
    rw [if_pos positive, restOrder_eq incoming direction limit _ rfl]
    simp only [ordersAt, levels_setLevels, pushBack, OrderedMap.find?_insertOrAssign, positive]
    by_cases here : price = limit
    · subst here
      cases (book.levels l).find? price <;> simp
    · simp [here, Ne.symm here]

/-- Matching and resting, as the reference has them. -/
theorem Sound.matched_reference (sound : book.Sound) (incoming : IncomingOrder)
    (direction : incoming.direction = l.side) (pricing : OrderPricing) (accepted : Event)
    (untraded : accepted.isTrade = false) :
    ∃ matched after handle,
      matchOrder book.instrument l.canCross pricing
        { incoming, levels := book.levels l.opposite, events := [accepted],
          filledRestingOrders := [] } = .ok matched ∧
      (book.setLevels l.opposite matched.levels).restRemainder pricing matched.incoming =
        (after, handle) ∧
      after.instrument = book.instrument ∧ after.levels l.opposite = matched.levels ∧
      MatchesReference book.instrument l incoming pricing (book.ordersAt l)
        (book.queues l.opposite) after matched.events matched.filledRestingOrders := by
  let a := aggress l incoming pricing (book.queues l.opposite)
  obtain ⟨matched, ran, levelsSound, frame, swept, events, filled⟩ :=
    matched_ok sound incoming pricing [accepted] a rfl
  have matchedDirection : matched.incoming.direction = l.side := by
    rw [frame]
    exact direction
  generalize rested : (book.setLevels l.opposite matched.levels).restRemainder pricing
    matched.incoming = result
  obtain ⟨after, handle⟩ := result
  obtain ⟨instrument, untouched⟩ :=
    restRemainder_frame (book.setLevels l.opposite matched.levels) pricing matched.incoming
      matchedDirection
  have placed := restRemainder_ordersAt (book.setLevels l.opposite matched.levels) pricing
    matched.incoming matchedDirection
  rw [rested] at instrument untouched placed
  simp only [instrument_setLevels, levels_setLevels] at instrument untouched
  have outcome : a.outcome = sweep (fun resting => mayCross l pricing resting.limitPrice)
      incoming.openSize.value (book.queues l.opposite) := by
    simp only [a, aggress, canCross_eq]
  have sorted : Ends (fun resting : RestingOrder => mayCross l pricing resting.limitPrice)
      (book.queues l.opposite) := by
    rw [← canCross_eq]
    refine canCross_ends ?_
    rw [queues_eq, List.pairwise_map]
    exact (sound.levels l.opposite).sorted
  have positive : ∀ order ∈ book.queues l.opposite, 0 < Sized.size order := by
    intro order member
    obtain ⟨node, inside, rfl⟩ := List.mem_map.mp member
    exact ((sound.levels l.opposite).node inside).2.1
  have queue : after.queues l.opposite = a.outcome.rest := by
    rw [queues_eq, nodes, untouched, swept, aggress_outcome book l incoming pricing _ rfl]
  refine ⟨matched, after, handle, ran, rested, instrument, untouched, ?_, ?_, ?_⟩
  · have fills := sweep_fills_reached _ incoming.openSize.value _ sorted 0
    rw [Nat.zero_add] at fills
    have untradedPrefix : tradesIn [accepted] = [] := by simp [tradesIn, untraded]
    have allTrades : tradesIn (a.trades book.instrument incoming.key) =
        a.trades book.instrument incoming.key := by
      refine List.filter_eq_self.mpr fun event member => ?_
      obtain ⟨fill, -, rfl⟩ := Aggression.mem_trades.mp member
      rfl
    rw [events, tradesIn_append, untradedPrefix, List.nil_append, allTrades, crossable, ← fills,
      Aggression.trades, outcome, List.map_map]
    simp only [Function.comp_def, UInt64.ofNat_toNat]
  · obtain ⟨others, whole, cases_⟩ := sweep_others
      (fun resting : RestingOrder => mayCross l pricing resting.limitPrice)
      incoming.openSize.value (book.queues l.opposite)
    have taken := sweep_filled_covered _ incoming.openSize.value _ sorted positive 0
    rw [Nat.zero_add] at taken
    rw [← outcome] at whole cases_ taken
    refine ⟨a.outcome.filled, others, whole, taken, filled, ?_⟩
    rw [queue]
    exact cases_
  · intro price
    have left := sweep_left_exact (fun resting : RestingOrder => mayCross l pricing resting.limitPrice)
      incoming.openSize.value (book.queues l.opposite) sorted
    rw [← outcome, ← available] at left
    have more : 0 < a.outcome.left ↔
        available l pricing (book.queues l.opposite) < incoming.openSize.value.toNat := by
      rw [UInt64.lt_iff_toNat_lt, UInt64.toNat_zero, left]
      omega
    rw [placed, frame, restsAt, ← left, UInt64.ofNat_toNat]
    simp only [ordersAt, levels_setLevels_own, more]

/-- A submit of either side. -/
theorem Sound.submit_reference (sound : book.Sound) (order : SubmitOrder) (sequence : SequenceNumber)
    (direction : order.direction = l.side) :
    ∃ after result, book.submit order sequence = .ok (after, result) ∧
      MatchesReference book.instrument l
        { key := order.key, direction := order.direction, openSize := order.size, sequence }
        order.pricing (book.ordersAt l) (book.queues l.opposite) after result.events
        result.filledRestingOrders := by
  obtain ⟨matched, after, handle, ran, rested, instrument, untouched, reference⟩ :=
    sound.matched_reference
      { key := order.key, direction := order.direction, openSize := order.size, sequence } direction
      order.pricing (.submitAccepted order.key) rfl
  refine ⟨after, _, submit_run book order sequence direction matched ran rested instrument untouched,
    ?_⟩
  exact { reference with trades := by simpa using reference.trades }

/-- The aggressor part of a replacing update, its resting order taken off first. -/
theorem Sound.replace_reference (sound : book.Sound) {node : Node RestingOrder}
    (rests : node ∈ book.nodes l) (limit : Price) (size : Quantity) (positive : size.value ≠ 0)
    (moved : limit ≠ node.value.limitPrice ∨ node.value.openSize.value < size.value)
    (sequence : SequenceNumber) :
    ∃ after result, book.update { key := node.value.key, pricing := .limit limit, size }
        (handleOf l node) sequence = .ok (after, result) ∧ result.updated = true ∧
      MatchesReference book.instrument l
        { key := node.value.key, direction := l.side, openSize := size, sequence } (.limit limit)
        (fun price => (book.ordersAt l price).filter fun order => order.key ≠ node.value.key)
        (book.queues l.opposite) after result.events result.filledRestingOrders := by
  obtain ⟨levels, removal, levelsSound, removed⟩ :=
    removeOrder_ok (sound.levels l) (sound.keys l) rests
  have without := without_ok sound levelsSound removed
  have declined := reduceOrderSize_declined (sound.levels l) (sound.keys l) rests
    { key := node.value.key, pricing := .limit limit, size } rfl rfl
    (UInt64.pos_iff_ne_zero.mpr positive) moved
  obtain ⟨matched, after, handle, ran, rested, instrument, untouched, reference⟩ :=
    without.sound.matched_reference
      { key := node.value.key, direction := l.side, openSize := size, sequence } rfl (.limit limit)
      (.updateAccepted node.value.key) rfl
  simp only [instrument_setLevels, levels_setLevels_opposite] at ran
  have opposite : (book.setLevels l levels).queues l.opposite = book.queues l.opposite := by
    rw [queues_eq, queues_eq, without.opposite]
  have own : (book.setLevels l levels).ordersAt l =
      fun price => (book.ordersAt l price).filter fun order => order.key ≠ node.value.key := by
    funext price
    rw [without.sound.ordersAt_eq, sound.ordersAt_eq, queues_eq, without.own, queues_eq,
      List.filter_filter, List.filter_map, List.filter_map, List.filter_filter]
    refine congrArg _ (List.filter_congr fun other _ => ?_)
    simp [Bool.and_comm]
  rw [opposite, own, instrument_setLevels] at reference
  refine ⟨after, _, replace_run _ sequence matched declined removal ran rested, rfl, ?_⟩
  exact { reference with trades := by simpa using reference.trades }

end OrderBook

end MarketLab.Matching

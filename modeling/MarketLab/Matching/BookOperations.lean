import MarketLab.Matching.LevelEdits

/-!
# The book's operations on sound books

Submit, update and cancel never fault on a sound book, keep it sound, and do to
its two queues what the market step for the command says. Submit and the replacing
update share one description, `Aggressed`: the opposite queue is swept and the
remainder, if any, is pushed onto the order's own queue under a fresh node.
-/
namespace MarketLab.Matching
open MarketLab.Collections

namespace OrderBook
variable (book : OrderBook) (l : Ladder)

def nodes : List (Node RestingOrder) := restingNodes (book.levels l)

@[simp] theorem levels_setLevels (levels : Levels l) :
    (book.setLevels l levels).levels l = levels := by cases l <;> rfl

@[simp] theorem levels_setLevels_opposite (levels : Levels l) :
    (book.setLevels l levels).levels l.opposite = book.levels l.opposite := by cases l <;> rfl

@[simp] theorem levels_setLevels_own (levels : Levels l.opposite) :
    (book.setLevels l.opposite levels).levels l = book.levels l := by cases l <;> rfl

@[simp] theorem instrument_setLevels (levels : Levels l) :
    (book.setLevels l levels).instrument = book.instrument := by cases l <;> rfl

@[simp] theorem allocated_setLevels (levels : Levels l) :
    (book.setLevels l levels).allocated = book.allocated := by cases l <;> rfl

@[simp] theorem levels_allocated (allocated : Nat) :
    ({ book with allocated } : OrderBook).levels l = book.levels l := by cases l <;> rfl

@[simp] theorem nodes_setLevels (levels : Levels l) :
    (book.setLevels l levels).nodes l = restingNodes levels := by simp [nodes]

@[simp] theorem nodes_setLevels_opposite (levels : Levels l) :
    (book.setLevels l levels).nodes l.opposite = book.nodes l.opposite := by simp [nodes]

@[simp] theorem nodes_setLevels_own (levels : Levels l.opposite) :
    (book.setLevels l.opposite levels).nodes l = book.nodes l := by simp [nodes]

theorem queues_eq : book.queues l = (book.nodes l).map Node.value := rfl

/-- An edit of one side leaves the queue of the other. -/
theorem queues_update {after : OrderBook}
    (opposite : after.nodes l.opposite = book.nodes l.opposite) :
    Function.update book.queues l (after.queues l) = after.queues := by
  funext side
  rcases Ladder.eq_or_eq_opposite l side with rfl | rfl
  · exact Function.update_self ..
  · rw [Function.update_of_ne l.opposite_ne, queues_eq, queues_eq, opposite]

/-- Sound sides, and no key twice on one side. -/
structure Sound : Prop where
  levels : ∀ l, LevelsSound book.allocated (book.levels l)
  keys : ∀ l, ((book.nodes l).map fun node => node.value.key).Nodup

variable {book l}

/-- A book is sound when its two sides are. -/
theorem Sound.of_sides (own : LevelsSound book.allocated (book.levels l))
    (ownKeys : ((book.nodes l).map fun node => node.value.key).Nodup)
    (opposite : LevelsSound book.allocated (book.levels l.opposite))
    (oppositeKeys : ((book.nodes l.opposite).map fun node => node.value.key).Nodup) :
    book.Sound := by
  constructor <;> intro side <;> rcases Ladder.eq_or_eq_opposite l side with rfl | rfl <;>
    assumption

theorem empty_sound (instrument : SymbolId) : ({ instrument } : OrderBook).Sound := by
  constructor <;> intro side
  · constructor <;> intro price level member <;> cases side <;> simp [levels] at member
  · cases side <;> simp [nodes, levels, restingNodes]

theorem topOfBook_levels (sound : book.Sound) (l : Ladder) :
    topOfBook (book.levels l) = bestOf (book.queues l) := topOfBook_eq (sound.levels l)

/-- The resting step of all three matching operations: the nested tests on the open
size and the limit price around `rest_order`. -/
def restRemainder (book : OrderBook) (pricing : OrderPricing) (incoming : IncomingOrder) :
    OrderBook × RestingOrderHandle :=
  match limitPrice pricing with
  | some restingPrice =>
    if 0 < incoming.openSize.value then book.restOrder incoming restingPrice else (book, {})
  | none => (book, {})

theorem restOrder_eq (incoming : IncomingOrder) (direction : incoming.direction = l.side)
    (price : Price) (node : Node RestingOrder)
    (made : node = { address := book.allocated, value := {
      key := incoming.key, direction := incoming.direction, limitPrice := price,
      openSize := incoming.openSize, sequence := incoming.sequence } }) :
    book.restOrder incoming price =
      ({ book with allocated := book.allocated + 1 }.setLevels l
        (pushBack (book.levels l) price node), handleOf l node) := by
  subst made
  cases l <;> simp [restOrder, setLevels, levels, handleOf, direction, Ladder.side]

/-- Resting leaves the instrument and the opposite side alone. -/
theorem restRemainder_frame (book : OrderBook) (pricing : OrderPricing) (incoming : IncomingOrder)
    (direction : incoming.direction = l.side) :
    (book.restRemainder pricing incoming).1.instrument = book.instrument ∧
      (book.restRemainder pricing incoming).1.levels l.opposite = book.levels l.opposite := by
  unfold restRemainder
  cases limitPrice pricing with
  | none => exact ⟨rfl, rfl⟩
  | some price =>
    by_cases positive : 0 < incoming.openSize.value
    · simp only [positive, ↓reduceIte]
      rw [restOrder_eq incoming direction price _ rfl]
      simp
    · simp [positive]

theorem restRemainder_ok (sound : book.Sound) (incoming : IncomingOrder)
    (direction : incoming.direction = l.side)
    (fresh : ∀ node ∈ book.nodes l, node.value.key ≠ incoming.key) (pricing : OrderPricing) :
    (remainder incoming pricing incoming.openSize.value = none ∧
      book.restRemainder pricing incoming = (book, {})) ∨
    ∃ order node, remainder incoming pricing incoming.openSize.value = some order ∧
      node = { address := book.allocated, value := order } ∧
      (book.restRemainder pricing incoming).1.Sound ∧
      (book.restRemainder pricing incoming).1.instrument = book.instrument ∧
      (book.restRemainder pricing incoming).1.levels l.opposite = book.levels l.opposite ∧
      (book.restRemainder pricing incoming).1.nodes l = (book.nodes l).orderedInsert
        (fun a b => l.Before a.value.limitPrice b.value.limitPrice) node ∧
      (book.restRemainder pricing incoming).2 = handleOf l node := by
  unfold restRemainder remainder
  cases limitPrice pricing with
  | none => exact Or.inl ⟨rfl, rfl⟩
  | some price =>
    by_cases positive : 0 < incoming.openSize.value
    case neg => exact Or.inl ⟨if_neg positive, if_neg positive⟩
    simp only [positive, ↓reduceIte]
    let node : Node RestingOrder := { address := book.allocated, value := {
      key := incoming.key, direction := incoming.direction, limitPrice := price,
      openSize := incoming.openSize, sequence := incoming.sequence } }
    refine Or.inr ⟨node.value, node, rfl, rfl, ?_⟩
    rw [restOrder_eq incoming direction price node rfl]
    obtain ⟨ownSound, pushed⟩ := pushBack_ok (sound.levels l) node rfl direction positive
    refine ⟨?_, by simp, by simp, by simpa [nodes] using pushed, rfl⟩
    have grown := (sound.levels l.opposite).mono (Nat.le_succ book.allocated)
    refine Sound.of_sides (l := l) (by simpa using ownSound) ?_ (by simpa using grown)
      (by simpa [nodes] using sound.keys l.opposite)
    rw [nodes_setLevels, pushed, ((List.perm_orderedInsert _ node _).map _).nodup_iff]
    refine List.nodup_cons.mpr ⟨?_, sound.keys l⟩
    intro taken
    obtain ⟨other, rests, same⟩ := List.mem_map.mp taken
    exact fresh other rests same

/-- What an order processed as aggressor does to the book: `left` is what matching
left of it, and `handle` what it rests under. -/
structure Aggressed (book after : OrderBook) (l : Ladder) (incoming : IncomingOrder)
    (pricing : OrderPricing) (handle : RestingOrderHandle) : Prop where
  sound : after.Sound
  instrument : after.instrument = book.instrument
  opposite : after.nodes l.opposite = (sweep (crosses (l.canCross pricing))
    incoming.openSize.value (book.nodes l.opposite)).rest
  own : ((aggress l incoming pricing (book.queues l.opposite)).rests = none ∧
      after.nodes l = book.nodes l ∧ handle = {}) ∨
    ∃ order node, (aggress l incoming pricing (book.queues l.opposite)).rests = some order ∧
      node.value = order ∧ after.nodes l = (book.nodes l).orderedInsert
        (fun a b => l.Before a.value.limitPrice b.value.limitPrice) node ∧
      handle = handleOf l node

/-- The market's sweep of a queue is the loops' sweep of its nodes. -/
theorem aggress_outcome (book : OrderBook) (l : Ladder) (incoming : IncomingOrder)
    (pricing : OrderPricing) (nodesOutcome : Outcome (Node RestingOrder))
    (swept : nodesOutcome = sweep (crosses (l.canCross pricing)) incoming.openSize.value
      (book.nodes l.opposite)) :
    (aggress l incoming pricing (book.queues l.opposite)).outcome =
      { left := nodesOutcome.left
        rest := nodesOutcome.rest.map Node.value
        fills := nodesOutcome.fills.map fun fill => (fill.1.value, fill.2)
        filled := nodesOutcome.filled.map Node.value } := by
  subst swept
  exact sweep_map (crosses (l.canCross pricing)) _ Node.value (fun _ => rfl) (fun _ _ => rfl)
    (fun _ => rfl) incoming.openSize.value (book.nodes l.opposite)

theorem aggress_trades (book : OrderBook) (l : Ladder) (incoming : IncomingOrder)
    (pricing : OrderPricing) (instrument : SymbolId) (aggressor : OrderKey) :
    (aggress l incoming pricing (book.queues l.opposite)).trades instrument aggressor =
      (sweep (crosses (l.canCross pricing)) incoming.openSize.value
        (book.nodes l.opposite)).fills.map (tradeOf instrument aggressor) := by
  rw [Aggression.trades, aggress_outcome book l incoming pricing _ rfl, List.map_map]
  rfl

/-- A matching run against a sound book's opposite side is the market's sweep of its queue. -/
theorem matched_ok (sound : book.Sound) (incoming : IncomingOrder) (pricing : OrderPricing)
    (events : List Event) (a : Aggression)
    (aggression : a = aggress l incoming pricing (book.queues l.opposite)) :
    ∃ matched, matchOrder book.instrument l.canCross pricing
        { incoming, levels := book.levels l.opposite, events, filledRestingOrders := [] } =
          .ok matched ∧
      LevelsSound book.allocated matched.levels ∧
      matched.incoming = { incoming with openSize := ⟨a.outcome.left⟩ } ∧
      restingNodes matched.levels = (sweep (crosses (l.canCross pricing)) incoming.openSize.value
        (book.nodes l.opposite)).rest ∧
      matched.events = events ++ a.trades book.instrument incoming.key ∧
      matched.filledRestingOrders = a.outcome.filled.map RestingOrder.key := by
  obtain ⟨matched, ran, levelsSound, frame, settled⟩ :=
    matchOrder_ok book.instrument l.canCross pricing
      { incoming, levels := book.levels l.opposite, events, filledRestingOrders := [] }
      (sound.levels l.opposite)
  have outcome := aggress_outcome book l incoming pricing _ rfl
  rw [← aggression] at outcome
  obtain ⟨left, rest, produced, filled⟩ := Settlement.mk.inj settled
  refine ⟨matched, ran, levelsSound, ?_, rest, ?_, ?_⟩
  · have remaining : a.outcome.left = matched.incoming.openSize.value := by
      rw [outcome, left]
      rfl
    rw [remaining]
    exact frame
  · rw [produced, aggression, aggress_trades]
    rfl
  · rw [filled, outcome]
    simp only [List.nil_append, List.map_map]
    rfl

/-- Matching and resting, as all three operations do them. -/
theorem aggressed_ok (sound : book.Sound) (incoming : IncomingOrder)
    (direction : incoming.direction = l.side)
    (fresh : ∀ node ∈ book.nodes l, node.value.key ≠ incoming.key) (pricing : OrderPricing)
    (events : List Event) (a : Aggression)
    (aggression : a = aggress l incoming pricing (book.queues l.opposite)) :
    ∃ matched after handle,
      matchOrder book.instrument l.canCross pricing
        { incoming, levels := book.levels l.opposite, events, filledRestingOrders := [] } =
          .ok matched ∧
      (book.setLevels l.opposite matched.levels).restRemainder pricing matched.incoming =
        (after, handle) ∧
      book.Aggressed after l incoming pricing handle ∧
      after.levels l.opposite = matched.levels ∧
      matched.events = events ++ a.trades book.instrument incoming.key ∧
      matched.filledRestingOrders = a.outcome.filled.map RestingOrder.key := by
  obtain ⟨matched, ran, levelsSound, frame, swept, trades, filledKeys⟩ :=
    matched_ok sound incoming pricing events a aggression
  have identities := sweep_ident (crosses (l.canCross pricing)) (fun node => node.value.key)
    (fun _ _ => rfl) incoming.openSize.value (book.nodes l.opposite)
  have restKeys : ((restingNodes matched.levels).map fun node => node.value.key).Nodup := by
    have keys := sound.keys l.opposite
    rw [identities] at keys
    rw [swept]
    exact keys.sublist (List.sublist_append_right _ _)
  have matchedSound : (book.setLevels l.opposite matched.levels).Sound := by
    refine Sound.of_sides (l := l) ?_ ?_ ?_ ?_
    · simpa using sound.levels l
    · simpa using sound.keys l
    · simpa using levelsSound
    · simpa using restKeys
  have leftover : a.rests = remainder matched.incoming pricing matched.incoming.openSize.value := by
    rw [frame, aggression]
    rfl
  have rested := restRemainder_ok matchedSound (l := l) matched.incoming
    (by rw [frame]; exact direction) (by rw [frame]; simpa using fresh) pricing
  generalize resting : (book.setLevels l.opposite matched.levels).restRemainder pricing
    matched.incoming = result at rested
  obtain ⟨after, handle⟩ := result
  refine ⟨matched, after, handle, ran, resting, ?_⟩
  rcases rested with ⟨nothing, same⟩ | ⟨order, node, some_, made, afterSound, instrument, opposite,
    own, handled⟩
  · obtain ⟨rfl, rfl⟩ := Prod.mk.inj same
    refine ⟨⟨matchedSound, by simp, by simpa using swept, Or.inl ⟨?_, by simp, rfl⟩⟩,
      by simp, trades, filledKeys⟩
    rw [← aggression, leftover, nothing]
  · have untouched : after.levels l.opposite = matched.levels := by simpa using opposite
    refine ⟨⟨afterSound, by simpa using instrument, ?_,
      Or.inr ⟨order, node, ?_, by rw [made], by simpa using own, handled⟩⟩,
      untouched, trades, filledKeys⟩
    · rw [nodes, untouched, swept]
    · rw [← aggression, leftover, some_]

theorem append_eq (instrument : SymbolId) (direction : Side)
    (before after : Option TopOfBookState) (events : List Event) :
    appendBookUpdateIfChanged instrument direction before after events =
      events ++ appendBookUpdateIfChanged instrument direction before after [] := by
  unfold appendBookUpdateIfChanged
  split
  · simp
  · cases after <;> simp

/-- An appended update is the market's change for the queues the tops were read from. -/
theorem append_change {before after : OrderBook} (sound : before.Sound) (afterSound : after.Sound)
    (instrument : SymbolId) (l : Ladder) (events : List Event) :
    appendBookUpdateIfChanged instrument l.side (topOfBook (before.levels l))
        (topOfBook (after.levels l)) events =
      events ++ bookChange instrument l (before.queues l) (after.queues l) := by
  rw [append_eq, topOfBook_levels sound, topOfBook_levels afterSound]
  rfl

/-! ## Submit -/

/-- What a submit returns, from the matching run and the resting step it makes. -/
theorem submit_run (book : OrderBook) (order : SubmitOrder) (sequence : SequenceNumber)
    (direction : order.direction = l.side) (matched : OrderMatch l.opposite) {after : OrderBook}
    {handle : RestingOrderHandle}
    (ran : matchOrder book.instrument l.canCross order.pricing
      { incoming := { key := order.key, direction := order.direction, openSize := order.size,
                      sequence },
        levels := book.levels l.opposite, events := [.submitAccepted order.key],
        filledRestingOrders := [] } = .ok matched)
    (rested : (book.setLevels l.opposite matched.levels).restRemainder order.pricing
      matched.incoming = (after, handle))
    (instrument : after.instrument = book.instrument)
    (untouched : after.levels l.opposite = matched.levels) :
    book.submit order sequence = .ok (after,
      { events := appendBookUpdateIfChanged book.instrument .sell (topOfBook book.asks)
          (topOfBook after.asks) (appendBookUpdateIfChanged book.instrument .buy
            (topOfBook book.bids) (topOfBook after.bids) matched.events)
        restingOrder := handle
        filledRestingOrders := matched.filledRestingOrders }) := by
  unfold restRemainder at rested
  cases l with
  | bids =>
    have matchedRun : matchOrder book.instrument canBuyCross order.pricing
        { incoming := { key := order.key, direction := order.direction, openSize := order.size,
                        sequence }, levels := book.asks,
          events := [.submitAccepted order.key], filledRestingOrders := [] } = .ok matched := ran
    rw [submit, direction]
    simp only [Ladder.side] at direction ⊢
    unfold submitBuy
    simp only [matchedRun, bind, Except.bind, pure, Except.pure]
    cases limit : limitPrice order.pricing with
    | none =>
      simp only [limit] at rested
      obtain ⟨rfl, rfl⟩ := Prod.mk.inj rested
      simp [appendBookUpdateIfChanged, setLevels, Ladder.opposite]
    | some price =>
      simp only [limit] at rested
      by_cases positive : 0 < matched.incoming.openSize.value
      · rw [if_pos positive] at rested
        have pushed : ({ book with asks := matched.levels } : OrderBook).restOrder
          matched.incoming price = (after, handle) := rested
        simp only [if_pos positive, pushed, instrument]
      · rw [if_neg positive] at rested
        obtain ⟨rfl, rfl⟩ := Prod.mk.inj rested
        simp [positive, appendBookUpdateIfChanged, setLevels, Ladder.opposite]
  | asks =>
    have matchedRun : matchOrder book.instrument canSellCross order.pricing
        { incoming := { key := order.key, direction := order.direction, openSize := order.size,
                        sequence }, levels := book.bids,
          events := [.submitAccepted order.key], filledRestingOrders := [] } = .ok matched := ran
    have sameBids : after.bids = matched.levels := untouched
    rw [submit, direction]
    simp only [Ladder.side] at direction ⊢
    unfold submitSell
    simp only [matchedRun, bind, Except.bind, pure, Except.pure]
    cases limit : limitPrice order.pricing with
    | none =>
      simp only [limit] at rested
      obtain ⟨rfl, rfl⟩ := Prod.mk.inj rested
      simp [appendBookUpdateIfChanged, setLevels, Ladder.opposite]
      rfl
    | some price =>
      simp only [limit] at rested
      by_cases positive : 0 < matched.incoming.openSize.value
      · rw [if_pos positive] at rested
        have pushed : ({ book with bids := matched.levels } : OrderBook).restOrder
          matched.incoming price = (after, handle) := rested
        simp only [if_pos positive, pushed, instrument, sameBids]
      · rw [if_neg positive] at rested
        obtain ⟨rfl, rfl⟩ := Prod.mk.inj rested
        simp [positive, appendBookUpdateIfChanged, setLevels, Ladder.opposite]
        rfl

/-- The events of an accepted submit: trades, then the buy side, then the sell side. -/
theorem submit_ok (sound : book.Sound) (order : SubmitOrder) (sequence : SequenceNumber)
    (direction : order.direction = l.side)
    (fresh : ∀ node ∈ book.nodes l, node.value.key ≠ order.key) (incoming : IncomingOrder)
    (entered : incoming = { key := order.key, direction := order.direction,
                            openSize := order.size, sequence }) (a : Aggression)
    (aggression : a = aggress l incoming order.pricing (book.queues l.opposite)) :
    ∃ after result, book.submit order sequence = .ok (after, result) ∧
      book.Aggressed after l incoming order.pricing result.restingOrder ∧
      result.events = .submitAccepted order.key :: a.trades book.instrument order.key ++
        bookChange book.instrument .bids (book.queues .bids) (after.queues .bids) ++
        bookChange book.instrument .asks (book.queues .asks) (after.queues .asks) ∧
      result.filledRestingOrders = a.outcome.filled.map RestingOrder.key := by
  obtain ⟨matched, after, handle, ran, rested, effect, untouched, events, filled⟩ :=
    aggressed_ok sound incoming (by rw [entered]; exact direction) (by rw [entered]; exact fresh)
      order.pricing [.submitAccepted order.key] a aggression
  subst entered
  have bidChange : ∀ events, appendBookUpdateIfChanged book.instrument .buy (topOfBook book.bids)
      (topOfBook after.bids) events =
        events ++ bookChange book.instrument .bids (book.queues .bids) (after.queues .bids) :=
    append_change sound effect.sound book.instrument .bids
  have askChange : ∀ events, appendBookUpdateIfChanged book.instrument .sell (topOfBook book.asks)
      (topOfBook after.asks) events =
        events ++ bookChange book.instrument .asks (book.queues .asks) (after.queues .asks) :=
    append_change sound effect.sound book.instrument .asks
  refine ⟨after, _, submit_run book order sequence direction matched ran rested effect.instrument untouched,
    effect, ?_, filled⟩
  simp [askChange, bidChange, events]

/-! ## Update -/

theorem update_handleOf (book : OrderBook) (l : Ladder) (node : Node RestingOrder)
    (order : UpdateOrder) (sequence : SequenceNumber) :
    book.update order (handleOf l node) sequence =
      book.updateOwn order (handleOf l node) l.side l.canCross l sequence := by
  cases l <;> rfl

/-- What an update in place does to the book. -/
structure Reduced (book after : OrderBook) (l : Ladder) (order : UpdateOrder) : Prop where
  sound : after.Sound
  instrument : after.instrument = book.instrument
  opposite : after.nodes l.opposite = book.nodes l.opposite
  own : after.nodes l = (book.nodes l).map fun other =>
    if other.value.key = order.key then Sized.resize other order.size.value else other

/-- What taking an order off its side leaves. -/
structure Without (book after : OrderBook) (l : Ladder) (key : OrderKey) : Prop where
  sound : after.Sound
  instrument : after.instrument = book.instrument
  allocated : after.allocated = book.allocated
  opposite : after.nodes l.opposite = book.nodes l.opposite
  own : after.nodes l = (book.nodes l).filter fun other => other.value.key ≠ key

/-- Assigning what `remove_order` returned takes the order off its side. -/
theorem without_ok (sound : book.Sound) {key : OrderKey} {levels : Levels l}
    (levelsSound : LevelsSound book.allocated levels)
    (removed : restingNodes levels = (book.nodes l).filter fun other => other.value.key ≠ key) :
    book.Without (book.setLevels l levels) l key where
  sound := by
    refine Sound.of_sides (l := l) (by simpa using levelsSound) ?_ (by simpa using sound.levels _)
      (by simpa using sound.keys _)
    rw [nodes_setLevels, removed]
    exact (sound.keys l).sublist ((List.filter_sublist).map _)
  instrument := by simp
  allocated := by simp
  opposite := by simp
  own := by simpa using removed

/-- What an update in place returns, from the levels it writes. -/
theorem reduce_run {node : Node RestingOrder} (order : UpdateOrder) (sequence : SequenceNumber)
    {levels : Levels l}
    (reduced : reduceOrderSize order (handleOf l node) (book.levels l) = .ok (some levels)) :
    book.update order (handleOf l node) sequence = .ok (book.setLevels l levels,
      { events := appendBookUpdateIfChanged book.instrument l.side (topOfBook (book.levels l))
          (topOfBook levels) [.updateAccepted order.key]
        restingOrder := handleOf l node
        updated := true }) := by
  rw [update_handleOf]
  simp only [updateOwn, reduced, bind, Except.bind, pure, Except.pure, instrument_setLevels,
    levels_setLevels]

theorem reduce_ok (sound : book.Sound) {node : Node RestingOrder} (rests : node ∈ book.nodes l)
    (order : UpdateOrder) (named : node.value.key = order.key)
    (limit : limitPrice order.pricing = some node.value.limitPrice)
    (positive : 0 < order.size.value)
    (smaller : order.size.value ≤ node.value.openSize.value) (sequence : SequenceNumber) :
    ∃ after result, book.update order (handleOf l node) sequence = .ok (after, result) ∧
      book.Reduced after l order ∧ result.updated = true ∧
      result.restingOrder = handleOf l node ∧ result.filledRestingOrders = [] ∧
      result.events = .updateAccepted order.key ::
        bookChange book.instrument l (book.queues l) (after.queues l) := by
  rcases reduceOrderSize_ok (sound.levels l) (sound.keys l) rests order named limit positive with
    ⟨-, -, levels, ran, levelsSound, resized⟩ | ⟨moved | larger, -⟩
  · have effect : book.Reduced (book.setLevels l levels) l order := by
      refine ⟨?_, by simp, by simp, by simpa [nodes] using resized⟩
      refine Sound.of_sides (l := l) (by simpa using levelsSound) ?_
        (by simpa using sound.levels _) (by simpa using sound.keys _)
      have kept : ((restingNodes levels).map fun other => other.value.key) =
          (book.nodes l).map fun other => other.value.key := by
        rw [resized, List.map_map]
        refine List.map_congr_left fun other _ => ?_
        simp only [Function.comp_apply]
        split <;> rfl
      rw [nodes_setLevels, kept]
      exact sound.keys l
    have change := append_change sound effect.sound book.instrument l [.updateAccepted order.key]
    refine ⟨book.setLevels l levels,
      { events := .updateAccepted order.key ::
          bookChange book.instrument l (book.queues l) ((book.setLevels l levels).queues l)
        restingOrder := handleOf l node
        updated := true }, ?_, effect, rfl, rfl, rfl, rfl⟩
    rw [levels_setLevels] at change
    rw [reduce_run order sequence ran, change]
    rfl
  · exact absurd rfl moved
  · exact absurd larger (UInt64.not_lt.mpr smaller)

/-- What a replacing update returns, from the removal, the matching run and the resting step
it makes. -/
theorem replace_run {node : Node RestingOrder} (order : UpdateOrder) (sequence : SequenceNumber)
    {levels : Levels l} (matched : OrderMatch l.opposite) {after : OrderBook}
    {handle : RestingOrderHandle}
    (declined : reduceOrderSize order (handleOf l node) (book.levels l) = .ok none)
    (removal : removeOrder order.key (handleOf l node) (book.levels l) = .ok (some levels))
    (ran : matchOrder book.instrument l.canCross order.pricing
      { incoming := { key := order.key, direction := l.side, openSize := order.size, sequence },
        levels := book.levels l.opposite, events := [.updateAccepted order.key],
        filledRestingOrders := [] } = .ok matched)
    (rested : ((book.setLevels l levels).setLevels l.opposite matched.levels).restRemainder
      order.pricing matched.incoming = (after, handle)) :
    book.update order (handleOf l node) sequence = .ok (after,
      { events := appendBookUpdateIfChanged after.instrument l.opposite.side
          (topOfBook (book.levels l.opposite)) (topOfBook (after.levels l.opposite))
          (appendBookUpdateIfChanged after.instrument l.side (topOfBook (book.levels l))
            (topOfBook (after.levels l)) matched.events)
        restingOrder := handle
        filledRestingOrders := matched.filledRestingOrders
        updated := true }) := by
  have other : (if l.side = .buy then Side.sell else .buy) = l.opposite.side := by
    cases l <;> rfl
  unfold restRemainder at rested
  rw [update_handleOf]
  simp only [updateOwn, declined, replaceOrder, removal, bind, Except.bind, pure, Except.pure,
    instrument_setLevels, levels_setLevels_opposite, ran]
  cases limit : limitPrice order.pricing with
  | none =>
    simp only [limit] at rested ⊢
    obtain ⟨rfl, rfl⟩ := Prod.mk.inj rested
    simp only [other, instrument_setLevels]
  | some price =>
    simp only [limit] at rested ⊢
    simp only [rested, other]

theorem replace_ok (sound : book.Sound) {node : Node RestingOrder} (rests : node ∈ book.nodes l)
    (order : UpdateOrder) (named : node.value.key = order.key) {price : Price}
    (limit : limitPrice order.pricing = some price) (positive : 0 < order.size.value)
    (moved : price ≠ node.value.limitPrice ∨ node.value.openSize.value < order.size.value)
    (sequence : SequenceNumber) (incoming : IncomingOrder)
    (entered : incoming = { key := order.key, direction := l.side,
                            openSize := order.size, sequence }) (a : Aggression)
    (aggression : a = aggress l incoming order.pricing (book.queues l.opposite)) :
    ∃ without after result, book.Without without l order.key ∧
      book.update order (handleOf l node) sequence = .ok (after, result) ∧
      without.Aggressed after l incoming order.pricing result.restingOrder ∧
      result.updated = true ∧
      result.events = .updateAccepted order.key :: a.trades book.instrument order.key ++
        bookChange book.instrument l (book.queues l) (after.queues l) ++
        bookChange book.instrument l.opposite (book.queues l.opposite) (after.queues l.opposite) ∧
      result.filledRestingOrders = a.outcome.filled.map RestingOrder.key := by
  have declined := reduceOrderSize_declined (sound.levels l) (sound.keys l) rests order named limit
    positive moved
  obtain ⟨levels, removal, levelsSound, removed⟩ :=
    removeOrder_ok (sound.levels l) (sound.keys l) rests
  rw [named] at removal removed
  have without := without_ok sound levelsSound removed
  have fresh : ∀ other ∈ (book.setLevels l levels).nodes l, other.value.key ≠ incoming.key := by
    rw [without.own, entered]
    intro other member
    simpa using (List.mem_filter.mp member).2
  have sameQueue : (book.setLevels l levels).queues l.opposite = book.queues l.opposite := by
    rw [queues_eq, queues_eq, without.opposite]
  obtain ⟨matched, after, handle, ran, rested, effect, -, events, filled⟩ :=
    aggressed_ok without.sound incoming (by rw [entered]) fresh order.pricing
      [.updateAccepted order.key] a (by rw [sameQueue]; exact aggression)
  have ownChange := append_change sound effect.sound book.instrument l matched.events
  have oppositeChange := append_change sound effect.sound book.instrument l.opposite
    (matched.events ++ bookChange book.instrument l (book.queues l) (after.queues l))
  have sameInstrument : after.instrument = book.instrument :=
    effect.instrument.trans without.instrument
  have matchedRun := ran
  simp only [without.instrument, levels_setLevels_opposite, entered] at matchedRun
  refine ⟨book.setLevels l levels, after, _, without,
    replace_run order sequence matched declined removal matchedRun rested, effect, rfl, ?_, filled⟩
  simp only [sameInstrument, ownChange, oppositeChange]
  rw [events, entered, without.instrument]
  rfl

/-! ## Cancel -/

theorem cancel_handleOf (book : OrderBook) (l : Ladder) (node : Node RestingOrder)
    (key : OrderKey) :
    book.cancel key (handleOf l node) = book.cancelOwn key (handleOf l node) l.side l := by
  cases l <;> rfl

theorem cancel_ok (sound : book.Sound) {node : Node RestingOrder} (rests : node ∈ book.nodes l) :
    ∃ after result, book.cancel node.value.key (handleOf l node) = .ok (after, result) ∧
      book.Without after l node.value.key ∧ result.cancelled = true ∧
      result.events = .orderCancelled node.value.key ::
        bookChange book.instrument l (book.queues l) (after.queues l) := by
  obtain ⟨levels, removal, levelsSound, removed⟩ :=
    removeOrder_ok (sound.levels l) (sound.keys l) rests
  have without := without_ok sound levelsSound removed
  have change := append_change sound without.sound book.instrument l
    [.orderCancelled node.value.key]
  refine ⟨book.setLevels l levels,
    { events := .orderCancelled node.value.key ::
        bookChange book.instrument l (book.queues l) ((book.setLevels l levels).queues l)
      cancelled := true }, ?_, without, rfl, rfl⟩
  rw [cancel_handleOf]
  simp only [cancelOwn, cancelFromLevels, removal, bind, Except.bind, pure, Except.pure,
    instrument_setLevels, List.nil_append, change]
  rfl

end OrderBook
end MarketLab.Matching

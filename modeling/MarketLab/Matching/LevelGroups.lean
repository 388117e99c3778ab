import MarketLab.Collections.Groups
import MarketLab.Matching.BookOperations

/-!
# A side is determined by its queue

The levels of a sound side are the groups of its queue by price, each with the wrapped sum of
its sizes, so what can be read off the levels can be read off the queue.
-/
namespace MarketLab.Matching
open MarketLab.Collections

/-- The level that holds one group of a queue's nodes. -/
def levelOf (group : Price × List (Node RestingOrder)) : Price × PriceLevel :=
  (group.1, { totalSize := (group.2.map fun node => node.value.openSize.value).sum,
              orders := group.2 })

section Side
variable {l : Ladder} {allocated : Nat}

theorem entries_groups {entries : List (Price × PriceLevel)}
    (sorted : entries.Pairwise fun a b => l.Before a.1 b.1)
    (level : ∀ price level, (price, level) ∈ entries → level.Sound l allocated price)
    (nonempty : ∀ price level, (price, level) ∈ entries → level.orders ≠ []) :
    entries = (groups (fun node => node.value.limitPrice) (entryNodes entries)).map levelOf := by
  induction entries with
  | nil => rfl
  | cons entry rest ih =>
    obtain ⟨price, first⟩ := entry
    obtain ⟨before, restSorted⟩ := List.pairwise_cons.mp sorted
    have firstSound := level price first List.mem_cons_self
    have priced : ∀ node ∈ first.orders, node.value.limitPrice = price :=
      fun node inside => (firstSound.filed node inside).1
    have later : ∀ node ∈ entryNodes rest, node.value.limitPrice ≠ price := by
      intro node member same
      obtain ⟨⟨other, otherLevel⟩, inRest, inside⟩ := List.mem_flatMap.mp member
      have atOther := ((level other otherLevel (List.mem_cons_of_mem _ inRest)).filed node inside).1
      have apart := before (other, otherLevel) inRest
      rw [← atOther, same] at apart
      exact irrefl_of l.Before _ apart
    rw [entryNodes_cons, groups_run priced (nonempty price first List.mem_cons_self) later,
      List.map_cons]
    refine congrArg₂ List.cons ?_ (ih restSorted (fun p lv member => level p lv (List.mem_cons_of_mem _ member))
      fun p lv member => nonempty p lv (List.mem_cons_of_mem _ member))
    rw [levelOf, ← firstSound.total]

variable {levels other : Levels l}

/-- The levels are the groups of the queue. -/
theorem LevelsSound.entries_eq (sound : LevelsSound allocated levels) :
    levels.entries =
      (groups (fun node => node.value.limitPrice) (restingNodes levels)).map levelOf :=
  entries_groups levels.sorted sound.level sound.nonempty

/-- Sound sides with one queue are one side. -/
theorem LevelsSound.ext {more : Nat} (sound : LevelsSound allocated levels)
    (otherSound : LevelsSound more other) (same : restingNodes levels = restingNodes other) :
    levels = other := by
  refine OrderedMap.ext ?_
  rw [sound.entries_eq, otherSound.entries_eq, same]

end Side

/-- The events a matching run starts with are only written behind: the rest of the run does
not depend on them. -/
theorem matchOrder_events {l : Ladder} {allocated : Nat} (instrument : SymbolId)
    (canCross : OrderPricing → Price → Bool) (pricing : OrderPricing) (incoming : IncomingOrder)
    (levels : Levels l) (sound : LevelsSound allocated levels) :
    ∃ final : OrderMatch l, ∃ trades,
      (∀ events, matchOrder instrument canCross pricing
        { incoming, levels, events, filledRestingOrders := [] } =
          .ok { final with events := events ++ trades }) ∧
      final.incoming.direction = incoming.direction ∧
      trades = (sweep (crosses (canCross pricing)) incoming.openSize.value
        (restingNodes levels)).fills.map (tradeOf instrument incoming.key) ∧
      ∀ key ∈ final.filledRestingOrders, ∃ node ∈ restingNodes levels, node.value.key = key := by
  obtain ⟨final, -, finalSound, frame, settled⟩ := matchOrder_ok instrument canCross pricing
    { incoming, levels, events := [], filledRestingOrders := [] } sound
  obtain ⟨left, nodes, -, filled⟩ := Settlement.mk.inj settled
  refine ⟨final, _, fun events => ?_, by rw [frame], rfl, ?_⟩
  · obtain ⟨other, ran, otherSound, otherFrame, otherSettled⟩ := matchOrder_ok instrument canCross
      pricing { incoming, levels, events, filledRestingOrders := [] } sound
    obtain ⟨otherLeft, otherNodes, produced, otherFilled⟩ := Settlement.mk.inj otherSettled
    have sameLevels := otherSound.ext finalSound (otherNodes.trans nodes.symm)
    have sameLeft : other.incoming.openSize = final.incoming.openSize := by
      cases first : other.incoming.openSize
      cases second : final.incoming.openSize
      rw [first] at otherLeft
      rw [second] at left
      exact congrArg Quantity.mk (otherLeft.trans left.symm)
    have sameIncoming : other.incoming = final.incoming := by
      rw [otherFrame, frame, sameLeft]
    have sameFilled := otherFilled.trans filled.symm
    rw [ran]
    obtain ⟨_, _, _, _⟩ := other
    simp only at sameLevels sameIncoming sameFilled produced
    rw [sameLevels, sameIncoming, sameFilled, produced]
  · intro key member
    rw [filled] at member
    obtain ⟨node, inside, rfl⟩ := List.mem_map.mp member
    exact ⟨node, (sweep_filled_front _ _ _).subset inside, rfl⟩

/-! ## Snapshots -/

/-- The groups of the orders are those of the nodes that hold them. -/
theorem groups_values (nodes : List (Node RestingOrder)) :
    groups RestingOrder.limitPrice (LinkedList.values nodes) =
      (groups (fun node => node.value.limitPrice) nodes).map
        fun group => (group.1, LinkedList.values group.2) :=
  groups_map Function.injective_id
    (fun node => (rfl : RestingOrder.limitPrice (Node.value node) = id node.value.limitPrice)) nodes

/-- The first levels of a queue, summed. -/
def depthOf (queue : List RestingOrder) (depth : Nat) : List PriceLevelSnapshot :=
  ((groups RestingOrder.limitPrice queue).take depth).map fun group =>
    { levelPrice := group.1, totalSize := (group.2.map fun order => order.openSize.value).sum }

theorem LevelsSound.snapshot {l : Ladder} {allocated : Nat} {levels : Levels l}
    (sound : LevelsSound allocated levels) (depth : Nat) :
    snapshotLevels levels depth = depthOf (LinkedList.values (restingNodes levels)) depth := by
  rw [snapshotLevels, sound.entries_eq, depthOf, groups_values, ← List.map_take, ← List.map_take,
    List.map_map, List.map_map]
  refine List.map_congr_left fun group _ => ?_
  simp [levelOf, LinkedList.values, Function.comp_def]

/-- A snapshot shows the queues of the book. -/
theorem OrderBook.Sound.snapshot {book : OrderBook} (sound : book.Sound) (depth : Nat) :
    book.snapshot depth =
      { instrument := book.instrument, bids := depthOf (book.queues .bids) depth,
        asks := depthOf (book.queues .asks) depth } := by
  have bids : snapshotLevels book.bids depth = depthOf (book.queues .bids) depth :=
    (sound.levels .bids).snapshot depth
  have asks : snapshotLevels book.asks depth = depthOf (book.queues .asks) depth :=
    (sound.levels .asks).snapshot depth
  rw [OrderBook.snapshot, bids, asks]

end MarketLab.Matching

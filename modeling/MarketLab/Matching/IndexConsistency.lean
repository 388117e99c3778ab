import MarketLab.Collections.Words
import MarketLab.Matching.Runs

/-!
# The index and the books agree

`active_orders_` and the resting orders of all books, in every state a run can
reach: the entry of a key and the order it references are each found from the other.
-/
namespace MarketLab.Matching
open MarketLab.Collections

namespace Engine

/-- The node is in the queue of a level of this price on this side of the instrument's book. -/
def RestsAt (engine : Engine) (instrument : SymbolId) (l : Ladder) (price : Price)
    (node : Node RestingOrder) : Prop :=
  ∃ book level, engine.books.find? instrument = some book ∧
    (book.levels l).find? price = some level ∧ node ∈ level.orders

/-- The parts of an entry's handle name a node of the right key in the right queue, and
no other node of that queue. -/
structure Referenced (engine : Engine) (key : OrderKey) (activeOrder : ActiveOrder) (l : Ladder)
    (price : Price) (node : Node RestingOrder) : Prop where
  handleSide : activeOrder.handle.direction = some l.side
  handlePrice : activeOrder.handle.limitPrice = some price
  handleOrder : activeOrder.handle.order = node.address
  rests : engine.RestsAt activeOrder.instrument l price node
  alone : ∀ other, engine.RestsAt activeOrder.instrument l price other →
    other.address = node.address → other = node
  key : node.value.key = key
  direction : node.value.direction = l.side
  limitPrice : node.value.limitPrice = price

variable {engine : Engine}

theorem RestsAt.node {instrument : SymbolId} {l : Ladder} {price : Price}
    {node : Node RestingOrder} (rests : engine.RestsAt instrument l price node) :
    ∃ book, engine.books.find? instrument = some book ∧ node ∈ book.nodes l := by
  obtain ⟨book, level, found, atPrice, inside⟩ := rests
  exact ⟨book, found, mem_restingNodes.mpr
    ⟨price, level, OrderedMap.mem_entries_of_find? atPrice, inside⟩⟩

theorem Sound.restsAt (sound : engine.Sound) {instrument : SymbolId} {l : Ladder}
    {book : OrderBook} (found : engine.books.find? instrument = some book)
    {node : Node RestingOrder} (rests : node ∈ book.nodes l) :
    engine.RestsAt instrument l node.value.limitPrice node := by
  obtain ⟨level, atPrice, inside⟩ := ((sound.book _ _ found).1.levels l).level_of_node rests
  exact ⟨book, level, found, atPrice, inside⟩

/-- The level a resting node is in, with what soundness says of it. -/
theorem Sound.level_of_restsAt (sound : engine.Sound) {instrument : SymbolId} {l : Ladder}
    {price : Price} {node : Node RestingOrder} (rests : engine.RestsAt instrument l price node) :
    ∃ book level, engine.books.find? instrument = some book ∧
      (book.levels l).find? price = some level ∧ node ∈ level.orders ∧
      level.Sound l book.allocated price := by
  obtain ⟨book, level, found, atPrice, inside⟩ := rests
  exact ⟨book, level, found, atPrice, inside,
    ((sound.book _ _ found).1.levels l).level _ _ (OrderedMap.mem_entries_of_find? atPrice)⟩

/-- From the entry to the order. -/
theorem Sound.entry_referenced (sound : engine.Sound) {key : OrderKey} {activeOrder : ActiveOrder}
    (entry : engine.activeOrders.find? key = some activeOrder) :
    ∃ l price node, engine.Referenced key activeOrder l price node := by
  obtain ⟨book, l, node, found, rests, named, handle⟩ := sound.node_of_entry entry
  have restsAt := sound.restsAt found rests
  obtain ⟨holder, level, foundHolder, atPrice, inside, levelSound⟩ :=
    sound.level_of_restsAt restsAt
  obtain ⟨-, direction, -⟩ := levelSound.filed node inside
  refine ⟨l, node.value.limitPrice, node, by rw [handle]; rfl, by rw [handle]; rfl,
    by rw [handle]; rfl, restsAt, ?_, named, direction, rfl⟩
  intro other restsToo sameAddress
  obtain ⟨otherBook, otherLevel, foundToo, atPriceToo, insideToo⟩ := restsToo
  rw [foundHolder, Option.some_inj] at foundToo
  subst foundToo
  rw [atPrice, Option.some_inj] at atPriceToo
  subst atPriceToo
  exact key_unique levelSound.addresses insideToo inside sameAddress

/-- From the order to the entry. -/
theorem Sound.order_indexed (sound : engine.Sound) {instrument : SymbolId} {l : Ladder}
    {price : Price} {node : Node RestingOrder} (rests : engine.RestsAt instrument l price node) :
    engine.activeOrders.find? node.value.key = some
      { instrument
        handle := { direction := some l.side, limitPrice := some price, order := node.address } } := by
  obtain ⟨book, level, found, atPrice, inside, levelSound⟩ := sound.level_of_restsAt rests
  obtain ⟨atLevel, -, -⟩ := levelSound.filed node inside
  have member := mem_restingNodes.mpr
    ⟨price, level, OrderedMap.mem_entries_of_find? atPrice, inside⟩
  have entry := (sound.index node.value.key { instrument, handle := handleOf l node }).mpr
    ⟨book, found, OrderBook.files_of_node member⟩
  rw [entry, handleOf, atLevel]

/-- A key rests in one place at most. -/
theorem Sound.rests_once (sound : engine.Sound) {instrument other : SymbolId} {l side : Ladder}
    {price at_ : Price} {node same : Node RestingOrder}
    (rests : engine.RestsAt instrument l price node) (restsToo : engine.RestsAt other side at_ same)
    (key : node.value.key = same.value.key) :
    instrument = other ∧ l = side ∧ price = at_ ∧ node = same := by
  have entry := sound.order_indexed rests
  rw [key, sound.order_indexed restsToo] at entry
  simp only [Option.some_inj, ActiveOrder.mk.injEq, RestingOrderHandle.mk.injEq] at entry
  obtain ⟨rfl, sides, rfl, address⟩ := entry
  obtain rfl := Ladder.side_injective sides
  obtain ⟨_, _, _, referenced⟩ := sound.entry_referenced (sound.order_indexed rests)
  obtain ⟨book, found, inside⟩ := rests.node
  obtain ⟨bookToo, foundToo, insideToo⟩ := restsToo.node
  rw [found, Option.some_inj] at foundToo
  subst foundToo
  exact ⟨rfl, rfl, rfl, key_unique ((sound.book _ _ found).1.keys _) inside insideToo key⟩

/-- No level is empty or holds a key twice, every order is open, and the cached total is
the sum, wrapped. -/
structure LevelConsistent (level : PriceLevel) : Prop where
  nonempty : level.orders ≠ []
  keys : (level.orders.map fun node => node.value.key).Nodup
  positive : ∀ node ∈ level.orders, 1 ≤ node.value.openSize.value.toNat
  total : level.totalSize.toNat =
    (level.orders.map fun node => node.value.openSize.value.toNat).sum % 2 ^ 64

theorem Sound.level_consistent (sound : engine.Sound) {instrument : SymbolId} {book : OrderBook}
    (found : engine.books.find? instrument = some book) {l : Ladder} {price : Price}
    {level : PriceLevel} (atPrice : (book.levels l).find? price = some level) :
    LevelConsistent level := by
  obtain ⟨bookSound, -⟩ := sound.book _ _ found
  have levels := bookSound.levels l
  have member := OrderedMap.mem_entries_of_find? atPrice
  have levelSound := levels.level _ _ member
  obtain ⟨front, back, nodes, -⟩ := levels.split_level atPrice
  refine ⟨levels.nonempty _ _ member, ?_, ?_, ?_⟩
  · have keys := bookSound.keys l
    rw [OrderBook.nodes, nodes, List.map_append, List.map_append] at keys
    exact (List.nodup_append.mp (List.nodup_append.mp keys).1).2.1
  · intro node inside
    exact UInt64.lt_iff_toNat_lt.mp (levelSound.filed node inside).2.2
  · rw [levelSound.total, toNat_sum, List.map_map]
    rfl

end Engine

/-- The index and the resting orders of all books are in bijection, no level is empty and
no order used up, and every cached total is the sum of its queue modulo `2 ^ 64`. -/
theorem index_consistent (commands : List Command) :
    ∃ history, History.run commands = .ok history ∧
      (∀ key activeOrder, history.state.activeOrders.find? key = some activeOrder →
        ∃ l price node, history.state.Referenced key activeOrder l price node) ∧
      (∀ instrument l price node, history.state.RestsAt instrument l price node →
        history.state.activeOrders.find? node.value.key = some
          { instrument
            handle :=
              { direction := some l.side, limitPrice := some price, order := node.address } }) ∧
      (∀ instrument other l side price at_ node same,
        history.state.RestsAt instrument l price node →
        history.state.RestsAt other side at_ same → node.value.key = same.value.key →
          instrument = other ∧ l = side ∧ price = at_ ∧ node = same) ∧
      ∀ instrument book l price level, history.state.books.find? instrument = some book →
        (book.levels l).find? price = some level → Engine.LevelConsistent level := by
  obtain ⟨history, ran, sound⟩ := History.run_sound commands
  refine ⟨history, ran, ?_, ?_, ?_, ?_⟩
  · intro key activeOrder entry
    exact sound.entry_referenced entry
  · intro instrument l price node rests
    exact sound.order_indexed rests
  · intro instrument other l side price at_ node same rests restsToo key
    exact sound.rests_once rests restsToo key
  · intro instrument book l price level found atPrice
    exact sound.level_consistent found atPrice

end MarketLab.Matching

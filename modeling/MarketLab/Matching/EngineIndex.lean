import MarketLab.Matching.BookOperations

/-!
# The index and the books file the same orders

An engine is sound when its index holds an entry for exactly the orders its books
hold, under the handles they rest under. A book operation says which keys leave
its filing and which one enters; the recorders make the same edit of the index.
-/
namespace MarketLab.Matching
open MarketLab.Collections

/-! ## What a book files -/

namespace OrderBook

/-- The keys and handles of the orders resting on one side. -/
def filing (book : OrderBook) (l : Ladder) : List (OrderKey × RestingOrderHandle) :=
  (book.nodes l).map fun node => (node.value.key, handleOf l node)

/-- The book holds an order of this key under this handle. -/
def Files (book : OrderBook) (key : OrderKey) (handle : RestingOrderHandle) : Prop :=
  ∃ l, (key, handle) ∈ book.filing l

/-- No key is filed twice, on one side or across the two. -/
def Functional (book : OrderBook) : Prop :=
  ∀ key handle other, book.Files key handle → book.Files key other → handle = other

variable {book after : OrderBook} {l : Ladder}

theorem mem_filing {key : OrderKey} {handle : RestingOrderHandle} :
    (key, handle) ∈ book.filing l ↔
      ∃ node ∈ book.nodes l, node.value.key = key ∧ handleOf l node = handle := by
  simp [filing]

theorem filing_direction {key : OrderKey} {handle : RestingOrderHandle}
    (filed : (key, handle) ∈ book.filing l) : handle.direction = some l.side := by
  obtain ⟨node, -, -, rfl⟩ := mem_filing.mp filed
  rfl

theorem files_of_node {node : Node RestingOrder} (rests : node ∈ book.nodes l) :
    book.Files node.value.key (handleOf l node) := ⟨l, mem_filing.mpr ⟨node, rests, rfl, rfl⟩⟩

theorem Functional.one_side (functional : book.Functional) {key : OrderKey}
    {handle other : RestingOrderHandle} (own : (key, handle) ∈ book.filing l)
    (opposite : (key, other) ∈ book.filing l.opposite) : False := by
  have same := functional key handle other ⟨l, own⟩ ⟨l.opposite, opposite⟩
  have directions := filing_direction opposite
  rw [← same, filing_direction own, Option.some_inj] at directions
  exact l.opposite_ne (Ladder.side_injective directions).symm

/-- What is filed is filed on one of the two sides. -/
theorem files_iff (l : Ladder) (key : OrderKey) (handle : RestingOrderHandle) :
    book.Files key handle ↔
      (key, handle) ∈ book.filing l ∨ (key, handle) ∈ book.filing l.opposite := by
  constructor
  · rintro ⟨side, filed⟩
    rcases Ladder.eq_or_eq_opposite l side with rfl | rfl
    · exact Or.inl filed
    · exact Or.inr filed
  · rintro (own | opposite)
    · exact ⟨l, own⟩
    · exact ⟨l.opposite, opposite⟩

/-- The edit of the index a changed book asks for: some keys leave, one may enter. -/
structure Refiled (before after : OrderBook) (gone : List OrderKey)
    (placed : Option (OrderKey × RestingOrderHandle)) : Prop where
  files : ∀ key handle, after.Files key handle ↔
    placed = some (key, handle) ∨ (before.Files key handle ∧ key ∉ gone)
  gone : ∀ key ∈ gone, ∃ handle, before.Files key handle

theorem Reduced.refiled {order : UpdateOrder} (effect : book.Reduced after l order) :
    book.Refiled after [] none := by
  have own : after.filing l = book.filing l := by
    rw [filing, effect.own, List.map_map]
    refine List.map_congr_left fun node _ => ?_
    simp only [Function.comp_apply]
    split <;> rfl
  have opposite : after.filing l.opposite = book.filing l.opposite := by
    rw [filing, effect.opposite, filing]
  constructor
  · intro key handle
    simp [files_iff l, own, opposite]
  · simp

theorem Without.refiled (functional : book.Functional) {node : Node RestingOrder}
    (rests : node ∈ book.nodes l) (effect : book.Without after l node.value.key) :
    book.Refiled after [node.value.key] none := by
  have opposite : after.filing l.opposite = book.filing l.opposite := by
    rw [filing, effect.opposite, filing]
  have own : ∀ key handle, (key, handle) ∈ after.filing l ↔
      (key, handle) ∈ book.filing l ∧ key ≠ node.value.key := by
    intro key handle
    simp only [mem_filing, effect.own, List.mem_filter, decide_eq_true_eq]
    constructor
    · rintro ⟨other, ⟨member, different⟩, rfl, filed⟩
      exact ⟨⟨other, member, rfl, filed⟩, different⟩
    · rintro ⟨⟨other, member, rfl, filed⟩, different⟩
      exact ⟨other, ⟨member, different⟩, rfl, filed⟩
  constructor
  · intro key handle
    simp only [files_iff l, own, opposite, List.mem_singleton, reduceCtorEq, false_or]
    constructor
    · rintro (⟨filed, different⟩ | filed)
      · exact ⟨Or.inl filed, different⟩
      · refine ⟨Or.inr filed, ?_⟩
        rintro rfl
        exact functional.one_side (mem_filing.mpr ⟨node, rests, rfl, rfl⟩) filed
    · rintro ⟨filed | filed, different⟩
      · exact Or.inl ⟨filed, different⟩
      · exact Or.inr filed
  · intro key member
    rw [List.mem_singleton.mp member]
    exact ⟨_, files_of_node rests⟩

variable {incoming : IncomingOrder} {pricing : OrderPricing} {handle : RestingOrderHandle}

/-- The keys an aggression fills leave the opposite side, and no others. -/
theorem Aggressed.opposite_filing (sound : book.Sound)
    (effect : book.Aggressed after l incoming pricing handle) (a : Aggression)
    (aggression : a = aggress l incoming pricing (book.queues l.opposite)) :
    (∀ key ∈ a.outcome.filled.map RestingOrder.key,
      ∃ handle, (key, handle) ∈ book.filing l.opposite) ∧
    ∀ key handle, (key, handle) ∈ after.filing l.opposite ↔
      (key, handle) ∈ book.filing l.opposite ∧ key ∉ a.outcome.filled.map RestingOrder.key := by
  let file (node : Node RestingOrder) := (node.value.key, handleOf l.opposite node)
  have split := sweep_ident (crosses (l.canCross pricing)) file (fun _ _ => rfl)
    incoming.openSize.value (book.nodes l.opposite)
  have outcome := aggress_outcome book l incoming pricing _ rfl
  have filled : a.outcome.filled.map RestingOrder.key =
      ((sweep (crosses (l.canCross pricing)) incoming.openSize.value
        (book.nodes l.opposite)).filled.map file).map Prod.fst := by
    rw [aggression, outcome, List.map_map, List.map_map]
    rfl
  have before : book.filing l.opposite = (sweep (crosses (l.canCross pricing))
      incoming.openSize.value (book.nodes l.opposite)).filled.map file ++
        after.filing l.opposite := by
    simp only [filing, effect.opposite]
    exact split
  have keys : ((book.filing l.opposite).map Prod.fst).Nodup := by
    rw [filing, List.map_map]
    exact sound.keys l.opposite
  rw [before, List.map_append] at keys
  rw [filled, before]
  constructor
  · intro key member
    obtain ⟨⟨k, h⟩, inside, rfl⟩ := List.mem_map.mp member
    exact ⟨h, List.mem_append_left _ inside⟩
  · intro key other
    rw [List.mem_append]
    constructor
    · intro member
      refine ⟨Or.inr member, fun taken => ?_⟩
      exact (List.nodup_append.mp keys).2.2 key taken key (List.mem_map_of_mem member) rfl
    · rintro ⟨inside | inside, untaken⟩
      · exact absurd (List.mem_map_of_mem inside) untaken
      · exact inside

/-- What an aggression places, if anything. -/
def placement (a : Aggression) (handle : RestingOrderHandle) :
    Option (OrderKey × RestingOrderHandle) :=
  a.rests.map fun order => (order.key, handle)

theorem Aggressed.refiled (sound : book.Sound) (functional : book.Functional)
    (effect : book.Aggressed after l incoming pricing handle) (a : Aggression)
    (aggression : a = aggress l incoming pricing (book.queues l.opposite)) :
    book.Refiled after (a.outcome.filled.map RestingOrder.key) (placement a handle) := by
  obtain ⟨gone, opposite⟩ := effect.opposite_filing sound a aggression
  have elsewhere : ∀ key handle, (key, handle) ∈ book.filing l →
      key ∉ a.outcome.filled.map RestingOrder.key := by
    intro key handle filed taken
    obtain ⟨other, filedThere⟩ := gone key taken
    exact functional.one_side filed filedThere
  have own : ∀ key other, (key, other) ∈ after.filing l ↔
      placement a handle = some (key, other) ∨ (key, other) ∈ book.filing l := by
    intro key other
    rcases effect.own with ⟨nothing, same, -⟩ | ⟨order, node, rests, made, nodes, filed⟩
    · rw [← aggression] at nothing
      simp [placement, nothing, filing, same]
    · rw [← aggression] at rests
      subst made
      simp only [placement, rests, mem_filing, nodes, List.mem_orderedInsert, Option.map_some,
        Option.some_inj, Prod.mk.injEq, filed]
      constructor
      · rintro ⟨member, rfl | inside, rfl, rfl⟩
        · exact Or.inl ⟨rfl, rfl⟩
        · exact Or.inr ⟨member, inside, rfl, rfl⟩
      · rintro (⟨rfl, rfl⟩ | ⟨member, inside, rfl, rfl⟩)
        · exact ⟨node, Or.inl rfl, rfl, rfl⟩
        · exact ⟨member, Or.inr inside, rfl, rfl⟩
  constructor
  · intro key other
    rw [files_iff l, files_iff l, own, opposite]
    have absent := elsewhere key other
    tauto
  · intro key member
    obtain ⟨filedUnder, filed⟩ := gone key member
    exact ⟨filedUnder, ⟨l.opposite, filed⟩⟩

/-- An order rests under its own key, so the placement can be read off the handle. -/
theorem Aggressed.placement_eq (effect : book.Aggressed after l incoming pricing handle)
    (a : Aggression) (aggression : a = aggress l incoming pricing (book.queues l.opposite)) :
    placement a handle = if handle.hasValue then some (incoming.key, handle) else none := by
  rcases effect.own with ⟨nothing, -, rfl⟩ | ⟨order, node, rests, -, -, rfl⟩
  · rw [← aggression] at nothing
    simp [placement, nothing, RestingOrderHandle.hasValue]
  · have key : order.key = incoming.key := by
      rw [(remainder_some rests).2.2]
    rw [← aggression] at rests
    simp [placement, rests, key, RestingOrderHandle.hasValue, handleOf]

/-- The queues an aggression leaves are the market's. -/
theorem Aggressed.queues (effect : book.Aggressed after l incoming pricing handle)
    (a : Aggression) (aggression : a = aggress l incoming pricing (book.queues l.opposite)) :
    after.queues = a.queues l (book.queues l) := by
  funext side
  rcases Ladder.eq_or_eq_opposite l side with rfl | rfl
  · rw [Aggression.queues_self, queues_eq, Aggression.own]
    rcases effect.own with ⟨nothing, nodes, -⟩ | ⟨order, node, rests, made, nodes, -⟩
    · rw [aggression, nothing, nodes, queues_eq]
    · rw [aggression, rests, nodes, ← made, queues_eq]
      exact List.map_orderedInsert _ _ _ _ _ (fun _ _ => Iff.rfl) (fun _ _ => Iff.rfl)
  · rw [Aggression.queues_opposite, queues_eq, effect.opposite, aggression,
      aggress_outcome book l incoming pricing _ rfl]

theorem Refiled.trans {middle : OrderBook} {key : OrderKey} {gone : List OrderKey}
    {placed : Option (OrderKey × RestingOrderHandle)} (first : book.Refiled middle [key] none)
    (second : middle.Refiled after gone placed) : book.Refiled after (key :: gone) placed := by
  constructor
  · intro other handle
    rw [second.files, first.files]
    simp only [reduceCtorEq, false_or, List.mem_cons, List.not_mem_nil, or_false, not_or, and_assoc]
  · intro other member
    rcases List.mem_cons.mp member with rfl | later
    · exact first.gone other (by simp)
    · obtain ⟨handle, filed⟩ := second.gone other later
      rcases (first.files other handle).mp filed with impossible | ⟨filed, -⟩
      · simp at impossible
      · exact ⟨handle, filed⟩

theorem Without.functional (functional : book.Functional) {key : OrderKey}
    (refiled : book.Refiled after [key] none) : after.Functional := by
  intro other handle another filed filedToo
  rcases (refiled.files _ _).mp filed with impossible | ⟨first, -⟩
  · simp at impossible
  rcases (refiled.files _ _).mp filedToo with impossible | ⟨second, -⟩
  · simp at impossible
  exact functional other handle another first second

end OrderBook

/-! ## The sound engine -/

namespace Engine

/-- An entry of the index denotes an order of its key resting under its handle. -/
def Denotes (engine : Engine) (key : OrderKey) (activeOrder : ActiveOrder) : Prop :=
  ∃ book, engine.books.find? activeOrder.instrument = some book ∧
    book.Files key activeOrder.handle

structure Sound (engine : Engine) : Prop where
  book : ∀ instrument book, engine.books.find? instrument = some book →
    book.Sound ∧ book.instrument = instrument
  index : ∀ key activeOrder, engine.activeOrders.find? key = some activeOrder ↔
    engine.Denotes key activeOrder

theorem initial_sound : ({} : Engine).Sound where
  book instrument book found := by simp at found
  index key activeOrder := by simp [Denotes]

variable {engine : Engine}

theorem Sound.functional (sound : engine.Sound) {instrument : SymbolId} {book : OrderBook}
    (found : engine.books.find? instrument = some book) : book.Functional := by
  intro key handle other filed filedToo
  have entry := (sound.index key { instrument, handle }).mpr ⟨book, found, filed⟩
  have entryToo := (sound.index key { instrument, handle := other }).mpr ⟨book, found, filedToo⟩
  have same := Option.some_inj.mp (entry.symm.trans entryToo)
  exact congrArg ActiveOrder.handle same

/-- The index after the edit a changed book asks for. -/
def refile (index : UnorderedMap OrderKey ActiveOrder) (instrument : SymbolId)
    (gone : List OrderKey) (placed : Option (OrderKey × RestingOrderHandle)) (key : OrderKey) :
    Option ActiveOrder :=
  match placed with
  | some (placedKey, handle) =>
    if key = placedKey then some { instrument, handle }
    else if key ∈ gone then none else index.find? key
  | none => if key ∈ gone then none else index.find? key

/-- The entries after the edit: the placed one and the old ones not gone. -/
theorem refile_eq_some {index : UnorderedMap OrderKey ActiveOrder} {instrument : SymbolId}
    {gone : List OrderKey} {placed : Option (OrderKey × RestingOrderHandle)}
    (free : ∀ key handle, placed = some (key, handle) → key ∈ gone ∨ index.find? key = none)
    (key : OrderKey) (activeOrder : ActiveOrder) :
    refile index instrument gone placed key = some activeOrder ↔
      (activeOrder.instrument = instrument ∧ placed = some (key, activeOrder.handle)) ∨
        (index.find? key = some activeOrder ∧ key ∉ gone) := by
  obtain ⟨other, handle⟩ := activeOrder
  cases placed with
  | none =>
    unfold refile
    by_cases taken : key ∈ gone <;> simp [taken]
  | some entry =>
    obtain ⟨placedKey, placedHandle⟩ := entry
    unfold refile
    by_cases same : key = placedKey
    · subst same
      have replaced : ¬ (index.find? key = some ⟨other, handle⟩ ∧ key ∉ gone) := by
        intro old
        rcases free key placedHandle rfl with taken | absent
        · exact old.2 taken
        · rw [absent] at old
          exact absurd old.1 nofun
      rw [or_iff_left replaced]
      simp [eq_comm]
    · have different : placedKey ≠ key := Ne.symm same
      by_cases taken : key ∈ gone <;> simp [same, different, taken]

/-- Storing a changed book and editing the index to match keeps the engine sound. -/
theorem Sound.refile (sound : engine.Sound) {instrument : SymbolId} {before after : OrderBook}
    (found : engine.books.find? instrument = some before) (afterSound : after.Sound)
    (sameInstrument : after.instrument = before.instrument) {gone : List OrderKey}
    {placed : Option (OrderKey × RestingOrderHandle)} (refiled : before.Refiled after gone placed)
    (free : ∀ key handle, placed = some (key, handle) →
      key ∈ gone ∨ engine.activeOrders.find? key = none)
    (activeOrders : UnorderedMap OrderKey ActiveOrder)
    (edited : ∀ key, activeOrders.find? key =
      Engine.refile engine.activeOrders instrument gone placed key)
    (nextSequence : SequenceNumber) :
    ({ books := engine.books.insertOrAssign instrument after, activeOrders,
       nextSequence } : Engine).Sound := by
  have entryHere : ∀ key handle, engine.activeOrders.find? key = some { instrument, handle } ↔
      before.Files key handle := by
    intro key handle
    rw [sound.index, Denotes]
    simp [found]
  have goneHere : ∀ key ∈ gone, ∀ activeOrder, engine.activeOrders.find? key = some activeOrder →
      activeOrder.instrument = instrument := by
    intro key member activeOrder entry
    obtain ⟨handle, filed⟩ := refiled.gone key member
    rw [(entryHere key handle).mpr filed, Option.some_inj] at entry
    rw [← entry]
  constructor
  · intro other book stored
    simp only [UnorderedMap.find?_insertOrAssign] at stored
    by_cases here : other = instrument
    · subst here
      rw [if_pos rfl, Option.some_inj] at stored
      rw [← stored, sameInstrument]
      exact ⟨afterSound, (sound.book _ _ found).2⟩
    · rw [if_neg here] at stored
      exact sound.book _ _ stored
  · intro key activeOrder
    obtain ⟨other, handle⟩ := activeOrder
    rw [edited, refile_eq_some free]
    simp only [Denotes, UnorderedMap.find?_insertOrAssign]
    by_cases here : other = instrument
    · subst here
      simp only [↓reduceIte, Option.some_inj, exists_eq_left', refiled.files, entryHere, true_and]
    · have stays : engine.activeOrders.find? key = some ⟨other, handle⟩ → key ∉ gone :=
        fun entry taken => here (goneHere key taken _ entry)
      rw [if_neg here, ← Denotes.eq_1 engine key ⟨other, handle⟩, ← sound.index]
      constructor
      · rintro (placedHere | old)
        · exact absurd placedHere.1 here
        · exact old.1
      · intro entry
        exact Or.inr ⟨entry, stays entry⟩

/-! ## The engine's market -/

theorem market_queue {instrument : SymbolId} {book : OrderBook}
    (found : engine.books.find? instrument = some book) (l : Ladder) :
    engine.market.queue instrument l = book.queues l := by
  simp [Market.queue, market, found]

theorem market_queue_absent {instrument : SymbolId}
    (absent : engine.books.find? instrument = none) (l : Ladder) :
    engine.market.queue instrument l = [] := by
  simp [Market.queue, market, absent]

/-- An order of the market's queue rests in a node of a book. -/
theorem node_of_queue {instrument : SymbolId} {l : Ladder} {order : RestingOrder}
    (rests : order ∈ engine.market.queue instrument l) :
    ∃ book, engine.books.find? instrument = some book ∧
      ∃ node ∈ book.nodes l, node.value = order := by
  cases found : engine.books.find? instrument with
  | none => simp [market_queue_absent found] at rests
  | some book =>
    rw [market_queue found, OrderBook.queues_eq] at rests
    exact ⟨book, rfl, List.mem_map.mp rests⟩

theorem queue_of_node {instrument : SymbolId} {l : Ladder} {book : OrderBook}
    (found : engine.books.find? instrument = some book) {node : Node RestingOrder}
    (rests : node ∈ book.nodes l) : node.value ∈ engine.market.queue instrument l := by
  rw [market_queue found, OrderBook.queues_eq]
  exact List.mem_map_of_mem rests

/-- An entry of the index leads to the node it denotes. -/
theorem Sound.node_of_entry (sound : engine.Sound) {key : OrderKey} {activeOrder : ActiveOrder}
    (entry : engine.activeOrders.find? key = some activeOrder) :
    ∃ book l node, engine.books.find? activeOrder.instrument = some book ∧ node ∈ book.nodes l ∧
      node.value.key = key ∧ activeOrder.handle = handleOf l node := by
  obtain ⟨book, found, l, filed⟩ := (sound.index key activeOrder).mp entry
  obtain ⟨node, rests, named, handle⟩ := OrderBook.mem_filing.mp filed
  exact ⟨book, l, node, found, rests, named, handle.symm⟩

/-- The index holds exactly the active keys. -/
theorem Sound.active (sound : engine.Sound) (key : OrderKey) :
    engine.market.Active key ↔ ∃ activeOrder, engine.activeOrders.find? key = some activeOrder := by
  constructor
  · intro active
    obtain ⟨instrument, l, order, rests, named⟩ := active
    obtain ⟨book, found, node, inside, rfl⟩ := node_of_queue rests
    refine ⟨{ instrument, handle := handleOf l node }, (sound.index _ _).mpr ⟨book, found, ?_⟩⟩
    rw [← named]
    exact OrderBook.files_of_node inside
  · intro present
    obtain ⟨activeOrder, entry⟩ := present
    obtain ⟨book, l, node, found, rests, named, -⟩ := sound.node_of_entry entry
    exact ⟨activeOrder.instrument, l, node.value, queue_of_node found rests, named⟩

theorem Sound.inactive (sound : engine.Sound) {key : OrderKey}
    (absent : engine.activeOrders.find? key = none) : ¬ engine.market.Active key := by
  rw [sound.active]
  simp [absent]

/-- Storing a book replaces its instrument's queues. -/
theorem market_stored (engine : Engine) (instrument : SymbolId) (after : OrderBook)
    (activeOrders : UnorderedMap OrderKey ActiveOrder) (nextSequence : SequenceNumber) :
    ({ books := engine.books.insertOrAssign instrument after, activeOrders,
       nextSequence } : Engine).market =
      { books := Function.update engine.market.books instrument (some after.queues)
        nextSequence } := by
  simp only [market, Market.mk.injEq, and_true]
  funext other
  by_cases here : other = instrument
  · subst here
    simp
  · simp [UnorderedMap.find?_insertOrAssign_ne _ _ here, here]

/-- The book a submit works on, created empty when the instrument has none. -/
theorem getOrCreateBook_ok (sound : engine.Sound) (instrument : SymbolId) :
    ∃ created book, engine.getOrCreateBook instrument = (created, book) ∧ created.Sound ∧
      created.books.find? instrument = some book ∧
      created.activeOrders = engine.activeOrders ∧
      created.nextSequence = engine.nextSequence ∧
      (∀ l, engine.market.queue instrument l = book.queues l) ∧
      ∀ queues, Function.update created.market.books instrument queues =
        Function.update engine.market.books instrument queues := by
  cases found : engine.books.find? instrument with
  | some book =>
    exact ⟨engine, book, by simp [getOrCreateBook, found], sound, found, rfl, rfl,
      market_queue found, fun _ => rfl⟩
  | none =>
    refine ⟨{ engine with books := engine.books.insertOrAssign instrument { instrument } },
      { instrument }, by simp [getOrCreateBook, found], ?_, by simp, rfl, rfl, ?_, ?_⟩
    · constructor
      · intro other book stored
        rw [UnorderedMap.find?_insertOrAssign] at stored
        by_cases here : other = instrument
        · rw [if_pos here, Option.some_inj] at stored
          rw [← stored, here]
          exact ⟨OrderBook.empty_sound instrument, rfl⟩
        · rw [if_neg here] at stored
          exact sound.book _ _ stored
      · intro key activeOrder
        rw [sound.index, Denotes, Denotes, UnorderedMap.find?_insertOrAssign]
        by_cases here : activeOrder.instrument = instrument
        · have nothing : ∀ handle, ¬ OrderBook.Files { instrument } key handle := by
            intro handle filed
            obtain ⟨l, member⟩ := filed
            cases l <;> simp [OrderBook.filing, OrderBook.nodes, OrderBook.levels, restingNodes]
              at member
          simp [here, found, nothing]
        · rw [if_neg here]
    · intro l
      rw [market_queue_absent found]
      cases l <;> simp [OrderBook.queues, OrderBook.levels, restingNodes]
    · intro queues
      rw [market_stored, Function.update_idem]

/-! ## The recorders -/

/-- `record_submit_result` on a key that is not in the index. -/
theorem recordSubmitResult_ok (engine : Engine) (order : SubmitOrder) (result : SubmitResult)
    (absent : engine.activeOrders.find? order.key = none) :
    ∃ activeOrders, engine.recordSubmitResult order result = { engine with activeOrders } ∧
      ∀ key, activeOrders.find? key = refile engine.activeOrders order.instrument
        result.filledRestingOrders (if result.restingOrder.hasValue then
          some (order.key, result.restingOrder) else none) key := by
  unfold recordSubmitResult eraseFilled
  by_cases rests : result.restingOrder.hasValue
  · simp only [rests, ↓reduceIte]
    refine ⟨_, rfl, fun key => ?_⟩
    have erased : (result.filledRestingOrders.foldl UnorderedMap.erase
        engine.activeOrders).find? order.key = none := by
      rw [UnorderedMap.find?_foldl_erase, absent, ite_self]
    rw [UnorderedMap.emplace_of_absent _ erased, UnorderedMap.find?_insertOrAssign,
      UnorderedMap.find?_foldl_erase]
    rfl
  · simp only [rests]
    refine ⟨_, rfl, fun key => ?_⟩
    rw [UnorderedMap.find?_foldl_erase]
    rfl

/-- `record_update_result` through an iterator that is still valid. -/
theorem recordUpdateResult_ok (engine : Engine) (active : OrderKey) (result : UpdateResult)
    (activeOrder : ActiveOrder) (entry : engine.activeOrders.find? active = some activeOrder)
    (unfilled : active ∉ result.filledRestingOrders) :
    ∃ activeOrders, engine.recordUpdateResult active result = .ok { engine with activeOrders } ∧
      ∀ key, activeOrders.find? key = refile engine.activeOrders activeOrder.instrument
        (active :: result.filledRestingOrders) (if result.restingOrder.hasValue then
          some (active, result.restingOrder) else none) key := by
  have kept : (result.filledRestingOrders.foldl UnorderedMap.erase
      engine.activeOrders).find? active = some activeOrder := by
    rw [UnorderedMap.find?_foldl_erase, if_neg unfilled, entry]
  unfold recordUpdateResult eraseFilled
  by_cases rests : result.restingOrder.hasValue
  · simp only [rests, ↓reduceIte, assignHandle, kept]
    refine ⟨_, rfl, fun key => ?_⟩
    rw [UnorderedMap.find?_insertOrAssign, UnorderedMap.find?_foldl_erase]
    by_cases same : key = active <;> simp [refile, same]
  · simp only [rests, Bool.false_eq_true, ↓reduceIte, eraseActive, kept]
    refine ⟨_, rfl, fun key => ?_⟩
    rw [UnorderedMap.find?_erase, UnorderedMap.find?_foldl_erase]
    by_cases same : key = active <;> simp [refile, same]

end Engine
end MarketLab.Matching

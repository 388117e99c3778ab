import MarketLab.Matching.EngineIndex

/-!
# The engine takes only market steps

On a sound engine every command returns, keeps the engine sound and is a market
step. A property of the runs of a fresh engine then follows by induction on steps
of the market alone, through `run_induct`.
-/
namespace MarketLab.Matching
open MarketLab.Collections

namespace Engine
variable {engine : Engine}

/-- What a command does to a sound engine. -/
def Simulates (engine : Engine) (command : Command) (result : Except Fault (Engine × List Event)) :
    Prop :=
  ∃ after events, result = .ok (after, events) ∧ after.Sound ∧
    Market.Step engine.market command events after.market

theorem refused_simulates (sound : engine.Sound) {command : Command} {event : Event}
    (refusal : engine.market.Refuses command event) :
    engine.Simulates command (.ok (engine, [event])) :=
  ⟨engine, [event], rfl, sound, .refused refusal⟩

theorem validateUpdate_ok {order : UpdateOrder} (valid : validateUpdate order = none) :
    0 < order.size.value ∧ ∃ price, limitPrice order.pricing = some price := by
  unfold validateUpdate at valid
  split_ifs at valid with user clientOrder size pricing
  exact ⟨UInt64.pos_iff_ne_zero.mpr size, Option.ne_none_iff_exists'.mp (by simpa using pricing)⟩

/-- A submit that passed the checks, with what its book did. -/
theorem submit_recorded {order : SubmitOrder} (valid : validateSubmit order = none)
    (absent : engine.activeOrders.find? order.key = none) {created : Engine}
    {book after : OrderBook} {result : SubmitResult}
    (got : engine.getOrCreateBook order.instrument = (created, book))
    (index : created.activeOrders = engine.activeOrders)
    (ran : book.submit order created.nextSequence = .ok (after, result)) :
    ∃ activeOrders, engine.submit order =
        .ok ({ books := created.books.insertOrAssign order.instrument after, activeOrders,
               nextSequence := created.nextSequence.next }, result.events) ∧
      ∀ key, activeOrders.find? key = refile engine.activeOrders order.instrument
        result.filledRestingOrders (if result.restingOrder.hasValue then
          some (order.key, result.restingOrder) else none) key := by
  obtain ⟨activeOrders, recorded, edited⟩ := recordSubmitResult_ok
    { created with
      books := created.books.insertOrAssign order.instrument after
      nextSequence := created.nextSequence.next } order result (by rw [index]; exact absent)
  refine ⟨activeOrders, ?_, by rwa [index] at edited⟩
  have unlisted : engine.activeOrders.contains order.key = false := by
    simp [UnorderedMap.contains, absent]
  simp only [submit, valid, unlisted, got, ran, setBook, recorded, bind, Except.bind, pure,
    Except.pure, Bool.false_eq_true, ↓reduceIte]

/-- A submit of a named side, as the book it reaches sees it. -/
structure Entered (engine : Engine) (order : SubmitOrder) (l : Ladder) (created : Engine)
    (book after : OrderBook) (result : SubmitResult) (a : Aggression) : Prop where
  got : engine.getOrCreateBook order.instrument = (created, book)
  sound : created.Sound
  found : created.books.find? order.instrument = some book
  index : created.activeOrders = engine.activeOrders
  sequence : created.nextSequence = engine.nextSequence
  queues : engine.market.queue order.instrument = book.queues
  books : ∀ queues, Function.update created.market.books order.instrument queues =
    Function.update engine.market.books order.instrument queues
  aggression : a = aggress l (engine.market.incoming order.key l order.size) order.pricing
    (book.queues l.opposite)
  ran : book.submit order created.nextSequence = .ok (after, result)
  effect : book.Aggressed after l (engine.market.incoming order.key l order.size) order.pricing
    result.restingOrder
  events : result.events = .submitAccepted order.key :: a.trades book.instrument order.key ++
    bookChange book.instrument .bids (book.queues .bids) (after.queues .bids) ++
    bookChange book.instrument .asks (book.queues .asks) (after.queues .asks)
  filled : result.filledRestingOrders = a.outcome.filled.map RestingOrder.key

theorem submit_entered (sound : engine.Sound) (order : SubmitOrder) (l : Ladder)
    (absent : engine.activeOrders.find? order.key = none) (named : order.direction = l.side) :
    ∃ created book after result a, engine.Entered order l created book after result a := by
  obtain ⟨created, book, got, createdSound, found, index, sequence, queues, books⟩ :=
    getOrCreateBook_ok sound order.instrument
  obtain ⟨bookSound, -⟩ := createdSound.book _ _ found
  have fresh : ∀ node ∈ book.nodes l, node.value.key ≠ order.key := by
    intro node rests same
    have entry := (createdSound.index order.key
      { instrument := order.instrument, handle := handleOf l node }).mpr
        ⟨book, found, same ▸ OrderBook.files_of_node rests⟩
    rw [index, absent] at entry
    cases entry
  obtain ⟨after, result, ran, effect, events, filled⟩ :=
    OrderBook.submit_ok bookSound order created.nextSequence named fresh
      (engine.market.incoming order.key l order.size)
      (by rw [Market.incoming, ← named, sequence]; rfl) _ rfl
  exact ⟨created, book, after, result, _,
    { got, sound := createdSound, found, index, sequence, queues := funext queues, books,
      aggression := rfl, ran, effect, events, filled }⟩

/-- A submit of a named side that passed the checks. -/
theorem submit_named (sound : engine.Sound) (order : SubmitOrder) (l : Ladder)
    (valid : validateSubmit order = none)
    (absent : engine.activeOrders.find? order.key = none) (named : order.direction = l.side) :
    engine.Simulates (.submit order) (engine.submit order) := by
  obtain ⟨created, book, after, result, a, entered⟩ := submit_entered sound order l absent named
  obtain ⟨bookSound, instrument⟩ := entered.sound.book _ _ entered.found
  have refiled := entered.effect.refiled bookSound (entered.sound.functional entered.found) a
    entered.aggression
  rw [entered.effect.placement_eq a entered.aggression, ← entered.filled] at refiled
  obtain ⟨activeOrders, submitted, edited⟩ :=
    submit_recorded valid absent entered.got entered.index entered.ran
  rw [← entered.index] at edited
  refine ⟨_, result.events, submitted, ?_, ?_⟩
  · refine entered.sound.refile entered.found entered.effect.sound entered.effect.instrument refiled
      ?_ _ edited _
    intro key handle placed
    right
    by_cases rests : result.restingOrder.hasValue
    · rw [if_pos rests, Option.some_inj] at placed
      rw [entered.index, ← (Prod.mk.inj placed).1]
      exact absent
    · simp [rests] at placed
  · have step := Market.Step.submitted (m := engine.market) l valid (sound.inactive absent) named a
      (by rw [entered.queues]; exact entered.aggression) after.queues
      (by rw [entered.queues]; exact entered.effect.queues a entered.aggression)
    rw [market_stored, entered.books, entered.events, instrument, entered.sequence]
    simp only [Market.advance, entered.queues] at step
    exact step

theorem submit_step (sound : engine.Sound) (order : SubmitOrder) :
    engine.Simulates (.submit order) (engine.submit order) := by
  cases valid : validateSubmit order with
  | some reason =>
    have refused := refused_simulates sound (.submitInvalid valid)
    simpa [submit, valid, rejectSubmit] using refused
  | none =>
    cases entry : engine.activeOrders.find? order.key with
    | some activeOrder =>
      have listed : engine.activeOrders.contains order.key = true := by
        simp [UnorderedMap.contains, entry]
      have refused := refused_simulates sound
        (.submitActive valid ((sound.active order.key).mpr ⟨activeOrder, entry⟩))
      simpa [submit, valid, listed, rejectSubmit] using refused
    | none =>
      cases direction : order.direction with
      | buy => exact submit_named sound order .bids valid entry direction
      | sell => exact submit_named sound order .asks valid entry direction
      | unnamed underlying =>
        obtain ⟨created, book, got, createdSound, found, index, sequence, queues, books⟩ :=
          getOrCreateBook_ok sound order.instrument
        obtain ⟨bookSound, -⟩ := createdSound.book _ _ found
        have nothing : book.Refiled book [] none := by
          constructor <;> simp
        have ran : book.submit order created.nextSequence = .ok (book, {}) := by
          simp only [OrderBook.submit, direction]
        obtain ⟨activeOrders, submitted, edited⟩ := submit_recorded valid entry got index ran
        have stored := createdSound.refile found bookSound rfl nothing (by simp) activeOrders
          (by rwa [index]) created.nextSequence.next
        refine ⟨_, [], submitted, stored, ?_⟩
        have unnamed : ∀ l : Ladder, order.direction ≠ l.side := by
          intro l
          rw [direction]
          cases l <;> simp [Ladder.side]
        have step := Market.Step.ignored valid (sound.inactive entry) unnamed
        have same : engine.market.queue order.instrument = book.queues := funext queues
        rw [market_stored, books, sequence]
        simp only [Market.advance, same] at step
        exact step

/-- An update of an indexed order, with what its book did. -/
theorem update_recorded {order : UpdateOrder} (valid : validateUpdate order = none)
    {activeOrder : ActiveOrder} (entry : engine.activeOrders.find? order.key = some activeOrder)
    {book after : OrderBook} {result : UpdateResult}
    (found : engine.books.find? activeOrder.instrument = some book)
    (ran : book.update order activeOrder.handle engine.nextSequence = .ok (after, result))
    (updated : result.updated = true) (unfilled : order.key ∉ result.filledRestingOrders) :
    ∃ activeOrders, engine.update order =
        .ok ({ books := engine.books.insertOrAssign activeOrder.instrument after, activeOrders,
               nextSequence := engine.nextSequence.next }, result.events) ∧
      ∀ key, activeOrders.find? key = refile engine.activeOrders activeOrder.instrument
        (order.key :: result.filledRestingOrders) (if result.restingOrder.hasValue then
          some (order.key, result.restingOrder) else none) key := by
  obtain ⟨activeOrders, recorded, edited⟩ := recordUpdateResult_ok
    { engine with
      books := engine.books.insertOrAssign activeOrder.instrument after
      nextSequence := engine.nextSequence.next } order.key result activeOrder entry unfilled
  refine ⟨activeOrders, ?_, edited⟩
  simp only [update, valid, entry, findBook, found, ran, setBook, updated, recorded, bind,
    Except.bind, pure, Except.pure, Bool.not_true, Bool.false_eq_true, ↓reduceIte]

/-- An update that takes an order off its book and in again, as the book sees it. -/
structure Replaced (engine : Engine) (order : UpdateOrder) (l : Ladder) (book : OrderBook)
    (node : Node RestingOrder) (without after : OrderBook) (result : UpdateResult)
    (a : Aggression) : Prop where
  removed : book.Without without l node.value.key
  opposite : without.queues l.opposite = book.queues l.opposite
  aggression : a = aggress l (engine.market.incoming order.key l order.size) order.pricing
    (book.queues l.opposite)
  ran : book.update order (handleOf l node) engine.nextSequence = .ok (after, result)
  effect : without.Aggressed after l (engine.market.incoming order.key l order.size) order.pricing
    result.restingOrder
  updated : result.updated = true
  events : result.events = .updateAccepted order.key :: a.trades book.instrument order.key ++
    bookChange book.instrument l (book.queues l) (after.queues l) ++
    bookChange book.instrument l.opposite (book.queues l.opposite) (after.queues l.opposite)
  filled : result.filledRestingOrders = a.outcome.filled.map RestingOrder.key

theorem Replaced.aggression_without {order : UpdateOrder} {l : Ladder} {book without after : OrderBook}
    {node : Node RestingOrder} {result : UpdateResult} {a : Aggression}
    (replaced : engine.Replaced order l book node without after result a) :
    a = aggress l (engine.market.incoming order.key l order.size) order.pricing
      (without.queues l.opposite) := by
  rw [replaced.opposite]
  exact replaced.aggression

theorem update_replaced (sound : engine.Sound) (order : UpdateOrder) {instrument : SymbolId}
    {book : OrderBook} (found : engine.books.find? instrument = some book) {l : Ladder}
    {node : Node RestingOrder} (rests : node ∈ book.nodes l) (named : node.value.key = order.key)
    {price : Price} (limit : limitPrice order.pricing = some price) (positive : 0 < order.size.value)
    (moved : price ≠ node.value.limitPrice ∨ node.value.openSize.value < order.size.value) :
    ∃ without after result a, engine.Replaced order l book node without after result a := by
  obtain ⟨bookSound, -⟩ := sound.book _ _ found
  obtain ⟨without, after, result, removed, ran, effect, updated, events, filled⟩ :=
    OrderBook.replace_ok bookSound rests order named limit positive moved engine.nextSequence
      (engine.market.incoming order.key l order.size) rfl _ rfl
  refine ⟨without, after, result, _,
    { removed := named ▸ removed, opposite := ?_, aggression := rfl, ran, effect, updated, events,
      filled }⟩
  rw [OrderBook.queues_eq, OrderBook.queues_eq, removed.opposite]

section Update
variable {order : UpdateOrder} {activeOrder : ActiveOrder} {book : OrderBook} {l : Ladder}
  {node : Node RestingOrder}

/-- An update that leaves its order where it stands. -/
theorem reduce_step (sound : engine.Sound) (valid : validateUpdate order = none)
    (entry : engine.activeOrders.find? order.key = some activeOrder)
    (found : engine.books.find? activeOrder.instrument = some book) (rests : node ∈ book.nodes l)
    (named : node.value.key = order.key) (handle : activeOrder.handle = handleOf l node)
    (limit : limitPrice order.pricing = some node.value.limitPrice)
    (smaller : order.size.value ≤ node.value.openSize.value) :
    engine.Simulates (.update order) (engine.update order) := by
  obtain ⟨positive, -⟩ := validateUpdate_ok valid
  obtain ⟨bookSound, instrument⟩ := sound.book _ _ found
  have queues : engine.market.queue activeOrder.instrument = book.queues :=
    funext (market_queue found)
  obtain ⟨after, result, ran, effect, updated, kept, filled, events⟩ :=
    OrderBook.reduce_ok bookSound rests order named limit positive smaller engine.nextSequence
  rw [← handle] at ran
  obtain ⟨activeOrders, recorded, edited⟩ :=
    update_recorded valid entry found ran updated (by simp [filled])
  have untouched : ∀ key, activeOrders.find? key =
      refile engine.activeOrders activeOrder.instrument [] none key := by
    intro key
    rw [edited, kept, filled]
    by_cases same : key = order.key
    · have whole : activeOrder = ⟨activeOrder.instrument, handleOf l node⟩ := by rw [← handle]
      have valued : (handleOf l node).hasValue = true := rfl
      rw [refile, valued, if_pos rfl, same, refile, if_neg List.not_mem_nil, entry, whole]
      simp
    · simp [refile, RestingOrderHandle.hasValue, handleOf, same]
  have stored := sound.refile found effect.sound effect.instrument effect.refiled (by simp)
    activeOrders untouched engine.nextSequence.next
  refine ⟨_, result.events, recorded, stored, ?_⟩
  have step := Market.Step.reduced activeOrder.instrument l node.value valid
    (queue_of_node found rests) named limit smaller (after.queues l) ?_
  · rw [market_stored, events, instrument]
    simp only [Market.advance, queues, book.queues_update l effect.opposite] at step
    exact step
  · rw [queues, OrderBook.queues_eq, OrderBook.queues_eq, effect.own, List.map_map, List.map_map]
    refine List.map_congr_left fun other _ => ?_
    simp only [Function.comp_apply]
    split <;> rfl

/-- An update that takes its order off the book and in again. -/
theorem replace_step (sound : engine.Sound) (valid : validateUpdate order = none)
    (entry : engine.activeOrders.find? order.key = some activeOrder)
    (found : engine.books.find? activeOrder.instrument = some book) (rests : node ∈ book.nodes l)
    (named : node.value.key = order.key) (handle : activeOrder.handle = handleOf l node)
    {price : Price} (limit : limitPrice order.pricing = some price)
    (moved : price ≠ node.value.limitPrice ∨ node.value.openSize.value < order.size.value) :
    engine.Simulates (.update order) (engine.update order) := by
  obtain ⟨positive, -⟩ := validateUpdate_ok valid
  obtain ⟨-, instrument⟩ := sound.book _ _ found
  have functional := sound.functional found
  have queues : engine.market.queue activeOrder.instrument = book.queues :=
    funext (market_queue found)
  obtain ⟨without, after, result, a, replaced⟩ :=
    update_replaced sound order found rests named limit positive moved
  have leaves := replaced.removed.refiled functional rests
  have matched := replaced.effect.refiled replaced.removed.sound
    (OrderBook.Without.functional functional leaves) a replaced.aggression_without
  have unfilled : order.key ∉ result.filledRestingOrders := by
    rw [replaced.filled]
    intro taken
    obtain ⟨filedUnder, filed⟩ := matched.gone order.key taken
    rcases (leaves.files order.key filedUnder).mp filed with impossible | ⟨-, away⟩
    · cases impossible
    · exact away (by simp [named])
  have refiled := leaves.trans matched
  rw [replaced.effect.placement_eq a replaced.aggression_without, ← replaced.filled, named] at refiled
  have ran := replaced.ran
  rw [← handle] at ran
  obtain ⟨activeOrders, recorded, edited⟩ :=
    update_recorded valid entry found ran replaced.updated unfilled
  have free : ∀ key handle, (if result.restingOrder.hasValue then
      some (order.key, result.restingOrder) else none) = some (key, handle) →
      key ∈ order.key :: result.filledRestingOrders ∨ engine.activeOrders.find? key = none := by
    intro key handle placed
    left
    by_cases rests : result.restingOrder.hasValue
    · rw [if_pos rests, Option.some_inj] at placed
      rw [← (Prod.mk.inj placed).1]
      exact List.mem_cons_self
    · simp [rests] at placed
  have stored := sound.refile found replaced.effect.sound
    (replaced.effect.instrument.trans replaced.removed.instrument) refiled free activeOrders edited
    engine.nextSequence.next
  refine ⟨_, result.events, recorded, stored, ?_⟩
  have step := Market.Step.replaced activeOrder.instrument l node.value price valid
    (queue_of_node found rests) named limit moved a (by rw [queues]; exact replaced.aggression)
    after.queues ?_
  · rw [market_stored, replaced.events, instrument]
    simp only [Market.advance, queues] at step
    exact step
  · rw [replaced.effect.queues a replaced.aggression_without, queues, OrderBook.queues_eq,
      replaced.removed.own, OrderBook.queues_eq, List.filter_map, named]
    rfl

end Update

theorem moved_of_not_in_place {price other : Price} {size held : Quantity}
    (away : ¬ (price = other ∧ size.value ≤ held.value)) :
    price ≠ other ∨ held.value < size.value := by
  rcases not_and_or.mp away with different | larger
  · exact Or.inl different
  · exact Or.inr (UInt64.not_le.mp larger)

/-- An update of an indexed order: in place, or off the book and in again. -/
theorem update_active (sound : engine.Sound) (order : UpdateOrder)
    (valid : validateUpdate order = none) (activeOrder : ActiveOrder)
    (entry : engine.activeOrders.find? order.key = some activeOrder) :
    engine.Simulates (.update order) (engine.update order) := by
  obtain ⟨-, price, limit⟩ := validateUpdate_ok valid
  obtain ⟨book, l, node, found, rests, named, handle⟩ := sound.node_of_entry entry
  by_cases inPlace : price = node.value.limitPrice ∧ order.size.value ≤ node.value.openSize.value
  · obtain ⟨rfl, smaller⟩ := inPlace
    exact reduce_step sound valid entry found rests named handle limit smaller
  · exact replace_step sound valid entry found rests named handle limit (moved_of_not_in_place inPlace)

theorem update_step (sound : engine.Sound) (order : UpdateOrder) :
    engine.Simulates (.update order) (engine.update order) := by
  cases valid : validateUpdate order with
  | some reason =>
    have refused := refused_simulates sound (.updateInvalid valid)
    simpa [update, valid, rejectUpdate] using refused
  | none =>
    cases entry : engine.activeOrders.find? order.key with
    | none =>
      have refused := refused_simulates sound (.updateInactive valid (sound.inactive entry))
      simpa [update, valid, entry, rejectUpdate] using refused
    | some activeOrder => exact update_active sound order valid activeOrder entry

theorem cancel_step (sound : engine.Sound) (order : CancelOrder) :
    engine.Simulates (.cancel order) (engine.cancel order) := by
  cases entry : engine.activeOrders.find? order.key with
  | none =>
    have refused := refused_simulates sound (.cancelInactive (sound.inactive entry))
    simpa [cancel, entry, rejectCancel] using refused
  | some activeOrder =>
    obtain ⟨book, l, node, found, rests, named, handle⟩ := sound.node_of_entry entry
    obtain ⟨bookSound, instrument⟩ := sound.book _ _ found
    have queued := queue_of_node found rests
    have queues : engine.market.queue activeOrder.instrument = book.queues :=
      funext (market_queue found)
    obtain ⟨after, result, ran, effect, cancelled, events⟩ := OrderBook.cancel_ok bookSound rests
    have refiled := effect.refiled (sound.functional found) rests
    rw [named] at ran effect events refiled
    have stored := sound.refile found effect.sound effect.instrument refiled (by simp)
      (engine.activeOrders.erase order.key)
      (fun key => by simp [refile, UnorderedMap.find?_erase]) engine.nextSequence
    refine ⟨_, result.events, ?_, stored, ?_⟩
    · simp [cancel, entry, findBook, found, handle, ran, setBook, recordCancelResult, cancelled,
        eraseActive, bind, Except.bind, pure, Except.pure]
    · have step := Market.Step.cancelled activeOrder.instrument l node.value queued named
        (after.queues l) ?_
      · rw [market_stored, events, instrument]
        simp only [Market.setQueue, queues, book.queues_update l effect.opposite] at step
        exact step
      · rw [queues, OrderBook.queues_eq, effect.own, OrderBook.queues_eq, List.filter_map]
        rfl

/-- Every command on a sound engine. -/
theorem apply_step (sound : engine.Sound) (command : Command) :
    engine.Simulates command (engine.apply command) := by
  cases command with
  | submit order => exact submit_step sound order
  | update order => exact update_step sound order
  | cancel order => exact cancel_step sound order

end Engine
end MarketLab.Matching

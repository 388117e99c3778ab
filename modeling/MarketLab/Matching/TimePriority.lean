import MarketLab.Matching.IndexConsistency
import MarketLab.Matching.MatchMoments
import MarketLab.Matching.QueueOrder

/-!
# Price-time priority over whole runs

At every moment a trade is made, its resting order has a best price of its side and, among
the orders of that price, the earliest last priority-setting command. Sequence numbers say
the same while they have not wrapped.
-/
namespace MarketLab.Matching
open MarketLab.Collections

/-! ## The last priority-setting call -/

/-- The call is an accepted submit of the key, or an accepted update of it that changes its
price or raises its size above its open size. -/
def Transition.SetsPriority (call : Transition) (key : OrderKey) : Prop :=
  match call.command with
  | .submit order => order.key = key ∧ .submitAccepted key ∈ call.events
  | .update order => order.key = key ∧ .updateAccepted key ∈ call.events ∧
      ∃ instrument l price node, call.before.RestsAt instrument l price node ∧
        node.value.key = key ∧ (limitPrice order.pricing ≠ some price ∨
          node.value.openSize.value < order.size.value)
  | .cancel _ => False

/-- The last of the calls that set the key's priority is the one at this index. -/
def LastSet (calls : List Transition) (key : OrderKey) (index : Nat) : Prop :=
  ∃ earlier call later, calls = earlier ++ call :: later ∧ earlier.length = index ∧
    call.SetsPriority key ∧ ∀ other ∈ later, ¬ other.SetsPriority key

theorem LastSet.later {calls : List Transition} {key : OrderKey} {index : Nat}
    (last : LastSet calls key index) {call : Transition} (quiet : ¬ call.SetsPriority key) :
    LastSet (calls ++ [call]) key index := by
  obtain ⟨earlier, setter, after, rfl, length, sets, none_⟩ := last
  refine ⟨earlier, setter, after ++ [call], by simp, length, sets, ?_⟩
  intro other member
  rcases List.mem_append.mp member with old | new
  · exact none_ other old
  · rwa [List.mem_singleton.mp new]

theorem LastSet.now {calls : List Transition} {key : OrderKey} {call : Transition}
    (sets : call.SetsPriority key) : LastSet (calls ++ [call]) key calls.length :=
  ⟨calls, call, [], rfl, rfl, sets, by simp⟩

theorem Engine.Sound.restsAt_price {engine : Engine} (sound : engine.Sound)
    {instrument : SymbolId} {l : Ladder} {price : Price} {node : Node RestingOrder}
    (rests : engine.RestsAt instrument l price node) : node.value.limitPrice = price := by
  obtain ⟨book, level, -, -, inside, levelSound⟩ := sound.level_of_restsAt rests
  exact (levelSound.filed node inside).1

/-- Only the market's priority-setting command sets a priority, and that of its own key. -/
theorem History.Taken.sets_of_setsPriority {history : History} {command : Command}
    {events : List Event} {after : Engine} (taken : history.Taken command events after)
    {key : OrderKey}
    (sets : Transition.SetsPriority { before := history.state, command, events, after } key) :
    history.state.market.Sets command ∧ command.key = key := by
  have moved : ∀ {order : UpdateOrder}, validateUpdate order = none → order.key = key →
      (∃ instrument l price node, history.state.RestsAt instrument l price node ∧
        node.value.key = key ∧ (limitPrice order.pricing ≠ some price ∨
          node.value.openSize.value < order.size.value)) →
      history.state.market.Sets (.update order) ∧ order.key = key := by
    intro order valid keyed further
    obtain ⟨instrument, l, price, node, rests, named, moved⟩ := further
    obtain ⟨book, found, inside⟩ := rests.node
    rw [← taken.sound.restsAt_price rests] at moved
    exact ⟨.update instrument l node.value valid (Engine.queue_of_node found inside)
      (named.trans keyed.symm) moved, keyed⟩
  have step := taken.step
  generalize after.market = reached at step
  unfold Transition.SetsPriority at sets
  cases step with
  | refused refusal => cases refusal <;> simp at sets
  | ignored valid inactive unnamed => simp at sets
  | submitted l valid inactive named a aggression queues queuesAfter =>
    exact ⟨.submit valid inactive l named, sets.1⟩
  | reduced instrument l resting valid rests named price smaller queue queueAfter =>
    exact moved valid sets.1 sets.2.2
  | replaced instrument l resting price valid rests named limit further a aggression queues
      queuesAfter =>
    exact moved valid sets.1 sets.2.2
  | cancelled instrument l resting rests named queue queueAfter => exact absurd sets id

/-- The market's priority-setting command is an accepted call that sets its key's. -/
theorem History.Taken.setsPriority {history : History} {command : Command}
    {events : List Event} {after : Engine} (taken : history.Taken command events after)
    (sets : history.state.market.Sets command) :
    Transition.SetsPriority { before := history.state, command, events, after } command.key := by
  have step := taken.step
  generalize after.market = reached at step
  cases sets with
  | submit valid inactive l named =>
    refine ⟨rfl, ?_⟩
    cases step with
    | refused refusal =>
      cases refusal with
      | submitInvalid invalid => simp [valid] at invalid
      | submitActive _ active => exact absurd active inactive
    | ignored _ _ unnamed => exact absurd named (unnamed l)
    | submitted _ _ _ _ a _ queues _ => simp [Command.key]
  | update instrument l resting valid rests named moved =>
    obtain ⟨book, found, node, inside, rfl⟩ := Engine.node_of_queue rests
    refine ⟨rfl, ?_, instrument, l, node.value.limitPrice, node,
      taken.sound.restsAt found inside, named, moved⟩
    cases step with
    | refused refusal =>
      cases refusal with
      | updateInvalid invalid => simp [valid] at invalid
      | updateInactive _ inactive => exact absurd ⟨instrument, l, _, rests, named⟩ inactive
    | reduced _ _ _ _ _ _ _ _ queue _ => simp [Command.key]
    | replaced _ _ _ _ _ _ _ _ _ a _ queues _ => simp [Command.key]

/-- Along every price of every queue the last priority-setting calls come in order. -/
def InCallOrder (calls : List Transition) (m : Market) : Prop :=
  ∀ instrument l, Ranked (fun order => LastSet calls order.key) calls.length
    ((m.queue instrument l).map identity)

theorem History.Taken.inCallOrder {history : History} {command : Command} {events : List Event}
    {after : Engine} (taken : history.Taken command events after)
    (ordered : InCallOrder history.transitions history.state.market) :
    InCallOrder (history.push command events after).transitions after.market := by
  intro instrument l
  rw [History.push_transitions, List.length_append, List.length_singleton]
  refine taken.step.ranked taken.sound.market ordered (Nat.le_succ _) ?_ ?_ instrument l
  · intro order i other last
    refine last.later fun sets => ?_
    obtain ⟨setting, named⟩ := taken.sets_of_setsPriority sets
    exact other setting named.symm
  · intro sets order named _
    refine ⟨history.transitions.length, ?_, Nat.le_refl _, Nat.lt_succ_self _⟩
    rw [named]
    exact LastSet.now (taken.setsPriority sets)

/-! ## Sequence numbers -/

/-- So many sequence numbers were issued; those held increase along every price. -/
structure Sequenced (m : Market) (issued : Nat) : Prop where
  next : m.nextSequence.value.toNat = (issued + 1) % 2 ^ 64
  increasing : ∀ instrument l, Ranked (fun order i => order.sequence.value.toNat = i) (issued + 1)
    ((m.queue instrument l).map identity)

/-- While the numbers have not run out, a step keeps them increasing. -/
theorem Market.Step.sequenced {m after : Market} {command : Command} {events : List Event}
    (step : m.Step command events after) (sound : m.Sound) {issued : Nat}
    (sequenced : Sequenced m issued) (room : issued + 1 < 2 ^ 64) :
    Sequenced after issued ∨ Sequenced after (issued + 1) := by
  have value : m.nextSequence.value.toNat = issued + 1 := by
    rw [sequenced.next, Nat.mod_eq_of_lt room]
  rcases step.nextSequence with ⟨same, quiet⟩ | advanced
  · left
    refine ⟨by rw [same]; exact sequenced.next, ?_⟩
    exact step.ranked sound sequenced.increasing (Nat.le_refl _) (fun _ _ _ held => held)
      fun sets => absurd sets quiet
  · right
    constructor
    · rw [advanced, SequenceNumber.next, UInt64.toNat_add, value]
      rfl
    · refine step.ranked sound sequenced.increasing (by omega) (fun _ _ _ held => held) ?_
      intro _ order _ placed
      refine ⟨issued + 1, ?_, Nat.le_refl _, by omega⟩
      rw [placed, value]

/-! ## Trades and their moments -/

/-- What a command enters matching with. -/
def Command.entry : Command → Option (OrderPricing × Quantity × Event)
  | .submit order => some (order.pricing, order.size, .submitAccepted order.key)
  | .update order => some (order.pricing, order.size, .updateAccepted order.key)
  | .cancel _ => none

/-- The moment is one of the `match_order` run the call makes as an order of this side, in
the instrument's book as it stood before the call. -/
def Transition.TradesAt (call : Transition) (instrument : SymbolId) (l : Ladder)
    (moment : Moment l.opposite) : Prop :=
  ∃ book pricing size accepted, call.before.books.find? instrument = some book ∧
    call.command.entry = some (pricing, size, accepted) ∧
    moment ∈ matchMoments book.instrument l.canCross pricing
      { incoming := { key := call.command.key, direction := l.side, openSize := size,
                      sequence := call.before.nextSequence }
        levels := book.levels l.opposite, events := [accepted], filledRestingOrders := [] }

/-- A trade in a command's events is written at a moment of its matching run. -/
theorem trade_moment {engine : Engine} (sound : engine.Sound) {instrument : SymbolId}
    {book : OrderBook} (found : engine.books.find? instrument = some book) (l : Ladder)
    (incoming : IncomingOrder) (pricing : OrderPricing) (accepted : Event)
    (announced : ∀ aggressor resting s p n, accepted ≠ .tradeExecuted aggressor resting s p n)
    {a : Aggression} (aggression : a = aggress l incoming pricing (book.queues l.opposite))
    {front back changes : List Event} {aggressor resting : OrderKey} {traded : SymbolId}
    {price : Price} {executedSize : Quantity}
    (quiet : ∀ aggressor resting s p n, .tradeExecuted aggressor resting s p n ∉ changes)
    (split : accepted :: a.trades instrument incoming.key ++ changes =
      front ++ .tradeExecuted aggressor resting traded price executedSize :: back) :
    ∃ moment ∈ matchMoments book.instrument l.canCross pricing
        { incoming, levels := book.levels l.opposite, events := [accepted],
          filledRestingOrders := [] },
      ∃ best rest, moment.level.events = front ∧ moment.side = best :: rest ∧
        resting = best.value.key ∧ traded = instrument ∧ price = best.value.limitPrice := by
  obtain ⟨bookSound, sameInstrument⟩ := sound.book _ _ found
  obtain ⟨final, ran, -, -, settled⟩ := matchOrder_ok book.instrument l.canCross pricing
    { incoming, levels := book.levels l.opposite, events := [accepted], filledRestingOrders := [] }
    (bookSound.levels l.opposite)
  have events : final.events = accepted :: a.trades instrument incoming.key := by
    have produced : final.events = (OrderMatch.settle book.instrument (l.canCross pricing)
        { incoming, levels := book.levels l.opposite, events := [accepted],
          filledRestingOrders := [] }).events := congrArg Settlement.events settled
    rw [produced, aggression, OrderBook.aggress_trades, sameInstrument]
    rfl
  -- The trade is not among the book changes, so it is one of the run's own events.
  have within : ∃ later, final.events = front ++
      .tradeExecuted aggressor resting traded price executedSize :: later := by
    rw [← events] at split
    rcases List.append_eq_append_iff.mp split with ⟨more, -, inChanges⟩ | ⟨own, whole, tail⟩
    · exact absurd (by simp [inChanges]) (quiet aggressor resting traded price executedSize)
    · cases own with
      | nil =>
        rw [List.nil_append] at tail
        exact absurd (by simp [← tail]) (quiet aggressor resting traded price executedSize)
      | cons head later =>
        rw [List.cons_append, List.cons.injEq] at tail
        exact ⟨later, by rw [whole, tail.1]⟩
  obtain ⟨later, whole⟩ := within
  have begun : [accepted] <+: front := by
    cases front with
    | nil =>
      rw [events, List.nil_append, List.cons.injEq] at whole
      exact absurd whole.1 (announced _ _ _ _ _)
    | cons head front =>
      rw [events, List.cons_append, List.cons.injEq] at whole
      rw [whole.1]
      exact ⟨front, rfl⟩
  obtain ⟨moment, member, best, rest, size, log, side, event⟩ :=
    matchOrder_moment book.instrument ran begun ⟨later, by rw [whole, List.append_assoc]; rfl⟩
  rw [Event.tradeExecuted.injEq] at event
  exact ⟨moment, member, best, rest, log, side, event.2.1, event.2.2.1.trans sameInstrument,
    event.2.2.2.1⟩

/-- The order at the front of a moment's side comes before everything else on it, by price
and, at its price, by rank. -/
theorem moment_front {engine : Engine} (sound : engine.Sound) {instrument : SymbolId}
    {book : OrderBook} (found : engine.books.find? instrument = some book) (l : Ladder)
    {rank : RestingOrder → Nat → Prop} {bound : Nat}
    (ranked : Ranked rank bound ((engine.market.queue instrument l.opposite).map identity))
    {pricing : OrderPricing} {m : OrderMatch l.opposite} (start : m.levels = book.levels l.opposite)
    {moment : Moment l.opposite}
    (member : moment ∈ matchMoments book.instrument l.canCross pricing m)
    {best : Node RestingOrder} {rest : List (Node RestingOrder)}
    (side : moment.side = best :: rest) :
    ∀ other ∈ rest, ¬ l.opposite.Before other.value.limitPrice best.value.limitPrice ∧
      (other.value.limitPrice = best.value.limitPrice →
        ∃ i j, rank (identity best.value) i ∧ rank (identity other.value) j ∧ i < j) := by
  obtain ⟨bookSound, -⟩ := sound.book _ _ found
  have levels := bookSound.levels l.opposite
  rw [← start] at levels
  have suffix := (matchMoments_suffix book.instrument l.canCross pricing m levels moment
    member).map Node.value
  have values : ((restingNodes m.levels).map identity).map Node.value =
      (engine.market.queue instrument l.opposite).map identity := by
    rw [Engine.market_queue found, OrderBook.queues_eq, OrderBook.nodes, start, List.map_map,
      List.map_map]
    rfl
  rw [values, side] at suffix
  have sorted := (List.pairwise_map (f := identity)
    (R := fun ahead behind : RestingOrder =>
      ¬ l.opposite.Before behind.limitPrice ahead.limitPrice)).mpr
        (sound.market.sorted instrument l.opposite)
  have bySorting := (List.pairwise_cons.mp (sorted.sublist suffix.sublist)).1
  have byRank := (List.pairwise_cons.mp (ranked.increasing.sublist suffix.sublist)).1
  intro other inRest
  have inMapped : identity other.value ∈ (rest.map identity).map Node.value :=
    List.mem_map.mpr ⟨identity other, List.mem_map_of_mem inRest, rfl⟩
  exact ⟨bySorting (identity other.value) inMapped,
    fun same => byRank (identity other.value) inMapped same.symm⟩

/-- A call's trade is made at a moment when its resting order is first by price and then by
last priority-setting call, among everything resting on that side. -/
def Transition.TradesInOrder (call : Transition) (earlier : List Transition) : Prop :=
  ∀ front aggressor resting instrument price executedSize back,
    call.events = front ++ .tradeExecuted aggressor resting instrument price executedSize :: back →
      ∃ l moment best rest, call.TradesAt instrument l moment ∧ moment.level.events = front ∧
        moment.side = best :: rest ∧ best.value.key = resting ∧ best.value.limitPrice = price ∧
        ∀ other ∈ rest, ¬ l.opposite.Before other.value.limitPrice best.value.limitPrice ∧
          (other.value.limitPrice = best.value.limitPrice →
            ∃ i j, LastSet earlier best.value.key i ∧ LastSet earlier other.value.key j ∧ i < j)

theorem History.Taken.tradesInOrder {history : History} {command : Command} {events : List Event}
    {after : Engine} (taken : history.Taken command events after)
    (ordered : InCallOrder history.transitions history.state.market) :
    Transition.TradesInOrder { before := history.state, command, events, after }
      history.transitions := by
  intro front aggressor resting instrument price executedSize back split
  have emitted : .tradeExecuted aggressor resting instrument price executedSize ∈ events := by
    simp only at split
    rw [split]
    simp
  -- The two matching commands differ in the instrument and in the accepting event only.
  have traded : ∀ (l : Ladder) (traded : SymbolId) (size : Quantity) (pricing : OrderPricing)
      (accepted : Event) (a : Aggression) (changes : List Event),
      command.entry = some (pricing, size, accepted) →
      (∀ aggressor resting s p n, accepted ≠ .tradeExecuted aggressor resting s p n) →
      a = aggress l (history.state.market.incoming command.key l size) pricing
        (history.state.market.queue traded l.opposite) →
      (∀ aggressor resting s p n, .tradeExecuted aggressor resting s p n ∉ changes) →
      events = accepted :: a.trades traded command.key ++ changes →
      ∃ l moment best rest,
        Transition.TradesAt { before := history.state, command, events, after } instrument l moment ∧
        moment.level.events = front ∧ moment.side = best :: rest ∧ best.value.key = resting ∧
        best.value.limitPrice = price ∧
        ∀ other ∈ rest, ¬ l.opposite.Before other.value.limitPrice best.value.limitPrice ∧
          (other.value.limitPrice = best.value.limitPrice → ∃ i j,
            LastSet history.transitions best.value.key i ∧
            LastSet history.transitions other.value.key j ∧ i < j) := by
    intro l traded size pricing accepted a changes entry announced aggression quiet shape
    cases found : history.state.books.find? traded with
    | none =>
      rw [Engine.market_queue_absent found] at aggression
      have nothing : a.trades traded command.key = [] := by
        rw [aggression]
        rfl
      rw [shape, nothing] at emitted
      rcases List.mem_append.mp emitted with first | inChanges
      · exact absurd (List.mem_singleton.mp first).symm (announced _ _ _ _ _)
      · exact absurd inChanges (quiet _ _ _ _ _)
    | some book =>
      rw [Engine.market_queue found] at aggression
      obtain ⟨moment, member, best, rest, log, side, named, here, priced⟩ :=
        trade_moment taken.sound found l (history.state.market.incoming command.key l size) pricing
          accepted announced aggression quiet (shape.symm.trans split)
      subst here
      exact ⟨l, moment, best, rest, ⟨book, pricing, size, accepted, found, entry, member⟩, log,
        side, named.symm, priced.symm,
        moment_front taken.sound found l (ordered instrument l.opposite) rfl member side⟩
  have step := taken.step
  generalize after.market = reached at step
  cases step with
  | refused refusal => cases refusal <;> simp at emitted
  | ignored => simp at emitted
  | submitted l valid inactive named a aggression queues queuesAfter =>
    refine traded l _ _ _ _ a _ rfl (fun _ _ _ _ _ => by simp) aggression ?_
      (List.append_assoc _ _ _)
    intro _ _ _ _ _ member
    simp [updateOf] at member
  | reduced => simp [updateOf] at emitted
  | replaced other l resting price valid rests named limit moved a aggression queues queuesAfter =>
    refine traded l _ _ _ _ a _ rfl (fun _ _ _ _ _ => by simp) aggression ?_
      (List.append_assoc _ _ _)
    intro _ _ _ _ _ member
    simp [updateOf] at member
  | cancelled => simp [updateOf] at emitted

/-! ## The order of what stays -/

/-- The keys resting on a side, best first. -/
def Engine.keysAt (engine : Engine) (instrument : SymbolId) (l : Ladder) : List OrderKey :=
  (engine.market.queue instrument l).map RestingOrder.key

/-- The call changes no order but its own: the other keys stay in order, a cancel takes its
key out, and an update that sets no priority moves nothing at all. -/
structure Transition.KeepsOrder (call : Transition) : Prop where
  others : ∀ instrument l, ((call.after.keysAt instrument l).filter
    fun key => key ≠ call.command.key).Sublist (call.before.keysAt instrument l)
  cancel : ∀ order, call.command = .cancel order → ∀ instrument l,
    call.after.keysAt instrument l =
      (call.before.keysAt instrument l).filter fun key => key ≠ order.key
  reduce : ∀ order, call.command = .update order → ¬ call.SetsPriority order.key →
    ∀ instrument l, call.after.keysAt instrument l = call.before.keysAt instrument l

theorem keys_of_identity {kept before : List RestingOrder}
    (sub : (kept.map identity).Sublist (before.map identity)) :
    (kept.map RestingOrder.key).Sublist (before.map RestingOrder.key) := by
  have keys := sub.map RestingOrder.key
  rw [List.map_map, List.map_map] at keys
  exact keys

theorem filter_enqueue (l : Ladder) (order : RestingOrder) (queue : List RestingOrder) :
    ((enqueue l order queue).map RestingOrder.key).filter (fun key => key ≠ order.key) =
      (queue.map RestingOrder.key).filter fun key => key ≠ order.key := by
  unfold enqueue
  induction queue with
  | nil => simp
  | cons head rest ih =>
    rw [List.orderedInsert_cons]
    split_ifs
    · simp
    · rw [List.map_cons, List.filter_cons, ih, List.map_cons, List.filter_cons]

theorem Market.Step.others_in_order {m after : Market} {command : Command} {events : List Event}
    (step : m.Step command events after) (sound : m.Sound) (instrument : SymbolId) (l : Ladder) :
    (((after.queue instrument l).map RestingOrder.key).filter
      fun key => key ≠ command.key).Sublist ((m.queue instrument l).map RestingOrder.key) := by
  rcases step.order sound with ⟨-, kept⟩ | ⟨-, pushed⟩
  · exact (List.filter_sublist).trans (keys_of_identity (kept instrument l))
  · obtain ⟨kept, sub, -, same | ⟨order, named, -, same⟩⟩ := pushed instrument l
    · rw [same]
      exact (List.filter_sublist).trans (keys_of_identity sub)
    · rw [same, ← named, filter_enqueue]
      exact (List.filter_sublist).trans (keys_of_identity sub)

/-- A queue that does not hold the key is what taking the key out leaves. -/
theorem filter_absent {queue : List RestingOrder} {key : OrderKey}
    (absent : ∀ order ∈ queue, order.key ≠ key) :
    (queue.map RestingOrder.key).filter (fun other => other ≠ key) = queue.map RestingOrder.key := by
  refine List.filter_eq_self.mpr fun other member => ?_
  obtain ⟨order, inside, rfl⟩ := List.mem_map.mp member
  simpa using absent order inside

theorem Market.Step.cancel_order {m after : Market} {order : CancelOrder} {events : List Event}
    (step : m.Step (.cancel order) events after) (sound : m.Sound) (instrument : SymbolId)
    (l : Ladder) : (after.queue instrument l).map RestingOrder.key =
      ((m.queue instrument l).map RestingOrder.key).filter fun key => key ≠ order.key := by
  cases step with
  | refused refusal =>
    cases refusal with
    | cancelInactive inactive =>
      refine (filter_absent ?_).symm
      intro resting rests keyed
      exact inactive ⟨instrument, l, resting, rests, keyed⟩
  | cancelled other side resting rests named queue queueAfter =>
    rw [queue_setQueue]
    split_ifs with here
    · obtain ⟨rfl, rfl⟩ := here
      rw [queueAfter, List.filter_map]
      rfl
    · refine (filter_absent ?_).symm
      intro same member keyed
      obtain ⟨rfl, rfl⟩ := sound.once _ _ _ _ resting rests same member (named.trans keyed.symm)
      exact here ⟨rfl, rfl⟩

theorem Market.Step.reduce_order {m after : Market} {order : UpdateOrder} {events : List Event}
    (step : m.Step (.update order) events after) (quiet : ¬ m.Sets (.update order))
    (instrument : SymbolId) (l : Ladder) : (after.queue instrument l).map RestingOrder.key =
      (m.queue instrument l).map RestingOrder.key := by
  cases step with
  | refused refusal => rfl
  | reduced other side resting valid rests named price smaller queue queueAfter =>
    rw [queue_advance]
    split_ifs with here
    · subst here
      rcases Ladder.eq_or_eq_opposite side l with rfl | rfl
      · rw [Function.update_self, queueAfter, List.map_map]
        refine List.map_congr_left fun order _ => ?_
        simp only [Function.comp_apply]
        split_ifs <;> rfl
      · rw [Function.update_of_ne side.opposite_ne]
    · rfl
  | replaced other side resting price valid rests named limit moved a aggression queues
      queuesAfter =>
    refine absurd (Market.Sets.update other side resting valid rests named (moved.imp ?_ id)) quiet
    intro different
    rw [limit]
    exact fun same => different (Option.some_inj.mp same)

theorem History.Taken.keepsOrder {history : History} {command : Command} {events : List Event}
    {after : Engine} (taken : history.Taken command events after) :
    Transition.KeepsOrder { before := history.state, command, events, after } where
  others instrument l := taken.step.others_in_order taken.sound.market instrument l
  cancel order same instrument l := by
    have step := taken.step
    simp only at same
    rw [same] at step
    exact step.cancel_order taken.sound.market instrument l
  reduce order same quiet instrument l := by
    have step := taken.step
    simp only at same
    subst same
    exact step.reduce_order (fun sets => quiet (taken.setsPriority sets)) instrument l

/-! ## Whole runs -/

/-- In every level the sequence numbers increase from front to back, and the next one is
above all of them unless it is the wrapped one. -/
def SequencesIncrease (engine : Engine) (wrapped : Prop) : Prop :=
  ∀ instrument book l price level, engine.books.find? instrument = some book →
    (book.levels l).find? price = some level →
      (level.orders.Pairwise fun ahead behind =>
        ahead.value.sequence.value < behind.value.sequence.value) ∧
      ∀ node ∈ level.orders, node.value.sequence.value < engine.nextSequence.value ∨
        (engine.nextSequence.value = 0 ∧ wrapped)

/-- Numbers issued without running out increase within every level. -/
theorem Engine.Sound.sequences {engine : Engine} (sound : engine.Sound) {issued calls : Nat}
    (sequenced : Sequenced engine.market issued) (fits : issued ≤ calls) (few : calls < 2 ^ 64) :
    SequencesIncrease engine (calls = 2 ^ 64 - 1) := by
  intro instrument book l price level found atPrice
  have levels := (sound.book _ _ found).1.levels l
  have levelSound := levels.level _ _ (OrderedMap.mem_entries_of_find? atPrice)
  obtain ⟨front, back, nodes, -⟩ := levels.split_level atPrice
  have inLevel : (level.orders.map fun node => identity node.value).Sublist
      ((engine.market.queue instrument l).map identity) := by
    rw [market_queue found, OrderBook.queues_eq, List.map_map, OrderBook.nodes, nodes,
      List.append_assoc]
    exact ((List.sublist_append_left _ _).trans (List.sublist_append_right _ _)).map _
  have ranked := (sequenced.increasing instrument l).sublist inLevel
  constructor
  · have increasing := List.pairwise_map.mp ranked.increasing
    refine List.Pairwise.imp_of_mem ?_ increasing
    intro ahead behind member memberToo earlier
    obtain ⟨i, j, first, second, less⟩ := earlier
      ((levelSound.filed ahead member).1.trans (levelSound.filed behind memberToo).1.symm)
    rw [UInt64.lt_iff_toNat_lt]
    change ahead.value.sequence.value.toNat = i at first
    change behind.value.sequence.value.toNat = j at second
    omega
  · intro node member
    obtain ⟨i, held, less⟩ := ranked.below _ (List.mem_map_of_mem member)
    change node.value.sequence.value.toNat = i at held
    have next : engine.nextSequence.value.toNat = (issued + 1) % 2 ^ 64 := sequenced.next
    by_cases room : issued + 1 < 2 ^ 64
    · left
      rw [UInt64.lt_iff_toNat_lt, next, Nat.mod_eq_of_lt room]
      omega
    · right
      have last : issued + 1 = 2 ^ 64 := by omega
      refine ⟨?_, by omega⟩
      rw [last, Nat.mod_self] at next
      exact UInt64.toNat_inj.mp next

/-- Price-time priority of every run: each trade is with the first order of its side, the
sequence numbers of a level increase and stay below the next one until it wraps, and no call
reorders orders other than its own. -/
theorem price_time_priority (commands : List Command) :
    ∃ history, History.run commands = .ok history ∧
      (∀ earlier call later, history.transitions = earlier ++ call :: later →
        call.TradesInOrder earlier) ∧
      (commands.length < 2 ^ 64 →
        SequencesIncrease history.state (commands.length = 2 ^ 64 - 1)) ∧
      ∀ call ∈ history.transitions, call.KeepsOrder := by
  obtain ⟨history, ran, sound, length, ⟨-, sequenced⟩, calls⟩ := History.run_induct_calls
    (P := fun history => InCallOrder history.transitions history.state.market ∧
      (history.transitions.length < 2 ^ 64 → ∃ issued, issued ≤ history.transitions.length ∧
        Sequenced history.state.market issued))
    (Q := fun earlier call => call.TradesInOrder earlier ∧ call.KeepsOrder)
    (by
      have empty : ∀ instrument l, ({} : Engine).market.queue instrument l = [] := by
        intro instrument l
        rfl
      refine ⟨?_, fun _ => ⟨0, Nat.le_refl _, rfl, ?_⟩⟩
      · intro instrument l
        rw [empty]
        exact ⟨by simp, by simp⟩
      · intro instrument l
        rw [empty]
        exact ⟨by simp, by simp⟩)
    (by
      intro history command events after taken held
      refine ⟨taken.inCallOrder held.1, ?_⟩
      rw [History.push_transitions, List.length_append, List.length_singleton]
      intro few
      obtain ⟨issued, fits, sequenced⟩ := held.2 (by omega)
      rcases taken.step.sequenced taken.sound.market sequenced (by omega) with same | one
      · exact ⟨issued, by omega, same⟩
      · exact ⟨issued + 1, by omega, one⟩)
    (fun history command events after taken held => ⟨taken.tradesInOrder held.1, taken.keepsOrder⟩)
    commands
  refine ⟨history, ran, ?_, ?_, ?_⟩
  · intro earlier call later split
    exact (calls earlier call later split).1
  · intro few
    obtain ⟨issued, fits, numbers⟩ := sequenced (by omega)
    exact sound.sequences numbers (by omega) few
  · intro call member
    obtain ⟨earlier, later, split⟩ := List.append_of_mem member
    exact (calls earlier call later split).2

/-! ## The last sequence number -/

/-- One bid of size one at price one, and the update that leaves it as it is. -/
def openingBid : SubmitOrder :=
  { key := { user := ⟨1⟩, clientOrder := ⟨1⟩ }, instrument := ⟨1⟩, direction := .buy,
    pricing := .limit ⟨1, by decide⟩, size := ⟨1⟩ }

def sameAgain : UpdateOrder :=
  { key := openingBid.key, pricing := openingBid.pricing, size := openingBid.size }

def openingNode : Node RestingOrder :=
  { address := 0
    value := { key := openingBid.key, direction := .buy, limitPrice := ⟨1, by decide⟩,
               openSize := ⟨1⟩, sequence := ⟨1⟩ } }

def openingBook : OrderBook :=
  { instrument := ⟨1⟩, bids := pushBack .empty ⟨1, by decide⟩ openingNode, allocated := 1 }

/-- The update is taken in place, whatever the sequence number. -/
theorem openingBook_update (sequence : SequenceNumber) :
    ∃ result, openingBook.update sameAgain (handleOf .bids openingNode) sequence =
        .ok (openingBook, result) ∧ result.updated = true ∧
      result.restingOrder = handleOf .bids openingNode ∧ result.filledRestingOrders = [] :=
  ⟨_, rfl, rfl, rfl, rfl⟩

/-- Updating the bid again and again only uses up sequence numbers. -/
theorem run_sameAgain (n : Nat) :
    ∃ history, History.run (.submit openingBid :: List.replicate n (.update sameAgain)) =
        .ok history ∧
      history.state.books.find? ⟨1⟩ = some openingBook ∧
      history.state.activeOrders.find? openingBid.key =
        some { instrument := ⟨1⟩, handle := handleOf .bids openingNode } ∧
      history.state.nextSequence.value.toNat = (n + 2) % 2 ^ 64 := by
  induction n with
  | zero => exact ⟨_, rfl, rfl, rfl, rfl⟩
  | succ n ih =>
    obtain ⟨history, ran, book, entry, next⟩ := ih
    obtain ⟨result, updated, accepted, handle, filled⟩ :=
      openingBook_update history.state.nextSequence
    obtain ⟨activeOrders, recorded, edited⟩ := Engine.recordUpdateResult_ok
      { history.state with
        books := history.state.books.insertOrAssign ⟨1⟩ openingBook
        nextSequence := history.state.nextSequence.next } sameAgain.key result _ entry
      (by simp [filled])
    have applied : history.state.apply (.update sameAgain) = .ok
        ({ books := history.state.books.insertOrAssign ⟨1⟩ openingBook, activeOrders,
           nextSequence := history.state.nextSequence.next }, result.events) := by
      have valid : validateUpdate sameAgain = none := rfl
      have sameEntry : history.state.activeOrders.find? sameAgain.key =
          some { instrument := ⟨1⟩, handle := handleOf .bids openingNode } := entry
      simp only [Engine.apply, Engine.update, valid, sameEntry, Engine.findBook, book, updated,
        Engine.setBook, accepted, recorded, bind, Except.bind, pure, Except.pure, Bool.not_true,
        Bool.false_eq_true, ↓reduceIte]
    refine ⟨history.push (.update sameAgain) result.events
      { books := history.state.books.insertOrAssign ⟨1⟩ openingBook, activeOrders,
        nextSequence := history.state.nextSequence.next }, ?_, by simp, ?_, ?_⟩
    · rw [List.replicate_succ', ← List.cons_append, History.run_snoc, ran]
      simp only [History.step, applied, bind, Except.bind, pure, Except.pure]
      rfl
    · rw [History.push_state, edited, handle]
      simp [Engine.refile, RestingOrderHandle.hasValue, handleOf, sameAgain]
    · rw [History.push_state]
      have one : (1 : UInt64).toNat = 1 := rfl
      simp only [SequenceNumber.next, UInt64.toNat_add, next, one]
      omega

/-- With `2 ^ 64 - 1` sequence numbers issued the next one is zero, below the one held. -/
theorem sequence_wraps :
    ∃ history instrument l price node,
      History.run (.submit openingBid :: List.replicate (2 ^ 64 - 2) (.update sameAgain)) =
        .ok history ∧
      (Command.submit openingBid :: List.replicate (2 ^ 64 - 2) (.update sameAgain)).length <
        2 ^ 64 ∧
      history.state.RestsAt instrument l price node ∧
      ¬ node.value.sequence.value < history.state.nextSequence.value := by
  obtain ⟨history, ran, book, -, next⟩ := run_sameAgain (2 ^ 64 - 2)
  refine ⟨history, ⟨1⟩, .bids, ⟨1, by decide⟩, openingNode, ran, ?_, ?_, ?_⟩
  · rw [List.length_cons, List.length_replicate]
    omega
  · exact ⟨openingBook, _, book, rfl, List.mem_singleton.mpr rfl⟩
  · have wrapped : history.state.nextSequence.value.toNat = 0 := next.trans (by norm_num)
    rw [UInt64.lt_iff_toNat_lt, wrapped]
    omega

end MarketLab.Matching

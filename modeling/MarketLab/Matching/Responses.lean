import MarketLab.Matching.TopOfBook

/-!
# What a call answers

The shape of every response in every reachable state, and exactly which commands are rejected.
The engine's defensive branches are not among the answers: the index and the books agree, so
no entry leads to a missing book or to an order its book does not hold.
-/
namespace MarketLab.Matching
open MarketLab.Collections

/-- A submit of either side; a side outside the enumeration is not one. -/
def Command.Named : Command → Prop
  | .submit order => order.direction = .buy ∨ order.direction = .sell
  | _ => True

/-- The event that answers a refused command. -/
def Command.rejection : Command → String → Event
  | .submit order => .submitRejected order.key
  | .update order => .updateRejected order.key
  | .cancel order => .cancelRejected order.key

/-- The event that opens the answer to an accepted one. -/
def Command.acceptance : Command → Event
  | .submit order => .submitAccepted order.key
  | .update order => .updateAccepted order.key
  | .cancel order => .orderCancelled order.key

/-! ## Shapes -/

/-- Trades of one aggressor in one book. -/
def TradesOf (aggressor : OrderKey) (instrument : SymbolId) (events : List Event) : Prop :=
  ∀ event ∈ events, ∃ resting executionPrice executedSize,
    event = .tradeExecuted aggressor resting instrument executionPrice executedSize

/-- At most one update, and one of this side. -/
def AtMostOneUpdate (instrument : SymbolId) (direction : Side) (events : List Event) : Prop :=
  events = [] ∨ ∃ bestPrice totalSize, events = [.bookUpdated instrument direction bestPrice totalSize]

namespace Engine

/-- The book and the side the index has for a key. -/
def FiledAt (engine : Engine) (key : OrderKey) (instrument : SymbolId) (l : Ladder) : Prop :=
  ∃ handle, engine.activeOrders.find? key = some { instrument, handle } ∧
    handle.direction = some l.side

/-- The answers a command can get. -/
inductive Response (engine : Engine) : Command → List Event → Prop
  | rejected (command : Command) (reason : String) : Response engine command [command.rejection reason]
  | submitted (order : SubmitOrder) (trades buys sells : List Event)
      (traded : TradesOf order.key order.instrument trades)
      (bought : AtMostOneUpdate order.instrument .buy buys)
      (sold : AtMostOneUpdate order.instrument .sell sells) :
      Response engine (.submit order) (.submitAccepted order.key :: trades ++ buys ++ sells)
  | updated (order : UpdateOrder) (instrument : SymbolId) (l : Ladder)
      (filed : engine.FiledAt order.key instrument l) (trades own opposite : List Event)
      (traded : TradesOf order.key instrument trades)
      (ownSide : AtMostOneUpdate instrument l.side own)
      (oppositeSide : AtMostOneUpdate instrument l.opposite.side opposite) :
      Response engine (.update order) (.updateAccepted order.key :: trades ++ own ++ opposite)
  | cancelled (order : CancelOrder) (instrument : SymbolId) (l : Ladder)
      (filed : engine.FiledAt order.key instrument l) (own : List Event)
      (ownSide : AtMostOneUpdate instrument l.side own) :
      Response engine (.cancel order) (.orderCancelled order.key :: own)

end Engine

/-- The event is about the key, as its subject or as an aggressor, or about the book. -/
def Event.Names (key : OrderKey) (instrument : Option SymbolId) : Event → Prop
  | .submitAccepted named | .submitRejected named _ | .updateAccepted named
  | .updateRejected named _ | .cancelRejected named _ | .orderCancelled named => named = key
  | .tradeExecuted aggressor _ _ _ _ => aggressor = key
  | .bookUpdated updated _ _ _ => instrument = some updated

/-- The reasons of the branches that distrust the index. -/
def Event.Internal : Event → Prop
  | .updateRejected _ reason | .cancelRejected _ reason | .submitRejected _ reason =>
    reason = "order book is missing" ∨ reason = "order book is inconsistent"
  | _ => False

theorem TradesOf.names {key : OrderKey} {instrument : SymbolId} {events : List Event}
    (traded : TradesOf key instrument events) (named : Option SymbolId) :
    ∀ event ∈ events, event.Names key named := by
  intro event member
  obtain ⟨_, _, _, rfl⟩ := traded event member
  exact rfl

theorem AtMostOneUpdate.names {instrument : SymbolId} {direction : Side} {events : List Event}
    (single : AtMostOneUpdate instrument direction events) (key : OrderKey) :
    ∀ event ∈ events, event.Names key (some instrument) := by
  rcases single with rfl | ⟨_, _, rfl⟩
  · exact fun _ member => nomatch member
  · exact List.forall_mem_singleton.mpr rfl

theorem TradesOf.external {key : OrderKey} {instrument : SymbolId} {events : List Event}
    (traded : TradesOf key instrument events) : ∀ event ∈ events, ¬ event.Internal := by
  intro event member
  obtain ⟨_, _, _, rfl⟩ := traded event member
  exact id

theorem AtMostOneUpdate.external {instrument : SymbolId} {direction : Side} {events : List Event}
    (single : AtMostOneUpdate instrument direction events) : ∀ event ∈ events, ¬ event.Internal := by
  rcases single with rfl | ⟨_, _, rfl⟩
  · exact fun _ member => nomatch member
  · exact List.forall_mem_singleton.mpr id

theorem tradesOf_trades (a : Aggression) (instrument : SymbolId) (aggressor : OrderKey) :
    TradesOf aggressor instrument (a.trades instrument aggressor) := by
  intro event member
  obtain ⟨fill, -, rfl⟩ := Aggression.mem_trades.mp member
  exact ⟨_, _, _, rfl⟩

theorem atMostOneUpdate_bookChange (instrument : SymbolId) (l : Ladder)
    (before after : List RestingOrder) :
    AtMostOneUpdate instrument l.side (bookChange instrument l before after) := by
  rw [bookChange_eq]
  split_ifs
  · exact Or.inl rfl
  · exact Or.inr ⟨_, _, rfl⟩

theorem Market.Refuses.rejection {m : Market} {command : Command} {event : Event}
    (refusal : m.Refuses command event) :
    (∃ reason, event = command.rejection reason) ∧ ¬ event.Internal := by
  cases refusal with
  | @submitInvalid order reason invalid =>
    refine ⟨⟨_, rfl⟩, ?_⟩
    rw [validateSubmit] at invalid
    split_ifs at invalid <;> rw [← Option.some_inj.mp invalid] <;> simp [Event.Internal]
  | @updateInvalid order reason invalid =>
    refine ⟨⟨_, rfl⟩, ?_⟩
    rw [validateUpdate] at invalid
    split_ifs at invalid <;> rw [← Option.some_inj.mp invalid] <;> simp [Event.Internal]
  | _ => exact ⟨⟨_, rfl⟩, by simp [Event.Internal]⟩

namespace Engine
variable {engine : Engine}

/-- A resting order is filed where it rests. -/
theorem Sound.filedAt (sound : engine.Sound) {instrument : SymbolId} {l : Ladder}
    {order : RestingOrder} (rests : order ∈ engine.market.queue instrument l) :
    engine.FiledAt order.key instrument l := by
  obtain ⟨book, found, node, inside, rfl⟩ := node_of_queue rests
  exact ⟨handleOf l node, (sound.index _ _).mpr ⟨book, found, OrderBook.files_of_node inside⟩, rfl⟩

/-- Every market step of a named command answers in one of the shapes. -/
theorem Sound.response (sound : engine.Sound) {command : Command} (named : command.Named)
    {events : List Event} {after : Market} (step : engine.market.Step command events after) :
    engine.Response command events ∧ ∀ event ∈ events, ¬ event.Internal := by
  cases step with
  | refused refusal =>
    obtain ⟨⟨reason, rfl⟩, external⟩ := refusal.rejection
    exact ⟨.rejected command reason, List.forall_mem_singleton.mpr external⟩
  | ignored valid inactive unnamed =>
    rcases named with buys | sells
    · exact absurd buys (unnamed .bids)
    · exact absurd sells (unnamed .asks)
  | @submitted order l valid inactive side a aggression queues queuesAfter =>
    refine ⟨.submitted order _ _ _ (tradesOf_trades a _ _) (atMostOneUpdate_bookChange _ .bids _ _)
      (atMostOneUpdate_bookChange _ .asks _ _), ?_⟩
    simp only [List.cons_append, List.forall_mem_cons, List.forall_mem_append]
    exact ⟨id,
      ⟨(tradesOf_trades a _ _).external, (atMostOneUpdate_bookChange _ _ _ _).external⟩,
      (atMostOneUpdate_bookChange _ _ _ _).external⟩
  | @reduced order instrument l resting valid rests key price smaller queue queueAfter =>
    have filed := sound.filedAt rests
    rw [key] at filed
    have shape := Response.updated order instrument l filed [] _ [] (fun _ member => nomatch member)
      (atMostOneUpdate_bookChange instrument l (engine.market.queue instrument l) queue) (Or.inl rfl)
    rw [List.append_nil, List.cons_append, List.nil_append] at shape
    exact ⟨shape, List.forall_mem_cons.mpr ⟨id, (atMostOneUpdate_bookChange _ _ _ _).external⟩⟩
  | @replaced order instrument l resting price valid rests key limit moved a aggression queues
      queuesAfter =>
    have filed := sound.filedAt rests
    rw [key] at filed
    refine ⟨.updated order instrument l filed _ _ _ (tradesOf_trades a _ _)
      (atMostOneUpdate_bookChange _ l _ _) (atMostOneUpdate_bookChange _ l.opposite _ _), ?_⟩
    simp only [List.cons_append, List.forall_mem_cons, List.forall_mem_append]
    exact ⟨id,
      ⟨(tradesOf_trades a _ _).external, (atMostOneUpdate_bookChange _ _ _ _).external⟩,
      (atMostOneUpdate_bookChange _ _ _ _).external⟩
  | @cancelled order instrument l resting rests key queue queueAfter =>
    have filed := sound.filedAt rests
    rw [key] at filed
    exact ⟨.cancelled order instrument l filed _ (atMostOneUpdate_bookChange _ l _ _),
      List.forall_mem_cons.mpr ⟨id, (atMostOneUpdate_bookChange _ _ _ _).external⟩⟩

theorem Response.nonempty {command : Command} {events : List Event}
    (response : engine.Response command events) : events ≠ [] := by
  cases response <;> exact List.cons_ne_nil _ _

/-- Every event of an answer is about the command's key or the book it acts on. -/
theorem Response.names {command : Command} {events : List Event}
    (response : engine.Response command events) :
    ∀ event ∈ events, event.Names command.key (engine.actsOn command) := by
  cases response with
  | rejected reason =>
    refine List.forall_mem_singleton.mpr ?_
    cases command <;> rfl
  | submitted order trades buys sells traded bought sold =>
    simp only [List.cons_append, List.forall_mem_cons, List.forall_mem_append]
    exact ⟨rfl, ⟨traded.names _, bought.names _⟩, sold.names _⟩
  | updated order instrument l filed trades own opposite traded ownSide oppositeSide =>
    obtain ⟨handle, entry, -⟩ := filed
    have acts : engine.actsOn (.update order) = some instrument := by simp [actsOn, entry]
    rw [acts]
    simp only [List.cons_append, List.forall_mem_cons, List.forall_mem_append]
    exact ⟨rfl, ⟨traded.names _, ownSide.names _⟩, oppositeSide.names _⟩
  | cancelled order instrument l filed own ownSide =>
    obtain ⟨handle, entry, -⟩ := filed
    have acts : engine.actsOn (.cancel order) = some instrument := by simp [actsOn, entry]
    rw [acts]
    exact List.forall_mem_cons.mpr ⟨rfl, ownSide.names _⟩

end Engine

/-- In every reachable state every command of a named side is answered in one of the shapes:
never with nothing, never by a branch that distrusts the index, and only about its own key and
the book it acts on. -/
theorem response_grammar (commands : List Command) :
    ∃ history, History.run commands = .ok history ∧
      ∀ command, command.Named → ∃ after events,
        history.state.apply command = .ok (after, events) ∧
        history.state.Response command events ∧ events ≠ [] ∧
        (∀ event ∈ events, event.Names command.key (history.state.actsOn command)) ∧
        ∀ event ∈ events, ¬ event.Internal := by
  obtain ⟨history, ran, sound⟩ := History.run_sound commands
  refine ⟨history, ran, fun command named => ?_⟩
  obtain ⟨after, events, applied, -, step⟩ := Engine.apply_step sound command
  obtain ⟨response, external⟩ := sound.response named step
  exact ⟨after, events, applied, response, response.nonempty, response.names, external⟩

/-! ## Rejections -/

namespace Engine

/-- What a command is refused for: a zero identifier or size, a market-priced update, a submit
of an active key, an update or cancel of an inactive one. -/
def Refuses (engine : Engine) : Command → Prop
  | .submit order => order.key.user.value = 0 ∨ order.key.clientOrder.value = 0 ∨
      order.instrument.value = 0 ∨ order.size.value = 0 ∨
      engine.activeOrders.contains order.key = true
  | .update order => order.key.user.value = 0 ∨ order.key.clientOrder.value = 0 ∨
      order.size.value = 0 ∨ order.pricing = .market ∨
      engine.activeOrders.contains order.key = false
  | .cancel order => engine.activeOrders.contains order.key = false

end Engine

theorem validateSubmit_eq_none (order : SubmitOrder) : validateSubmit order = none ↔
    order.key.user.value ≠ 0 ∧ order.key.clientOrder.value ≠ 0 ∧ order.instrument.value ≠ 0 ∧
      order.size.value ≠ 0 := by
  unfold validateSubmit
  split_ifs <;> simp_all

theorem validateUpdate_eq_none (order : UpdateOrder) : validateUpdate order = none ↔
    order.key.user.value ≠ 0 ∧ order.key.clientOrder.value ≠ 0 ∧ order.size.value ≠ 0 ∧
      order.pricing ≠ .market := by
  have limited : (limitPrice order.pricing).isNone = true ↔ order.pricing = .market := by
    cases order.pricing <;> simp [limitPrice]
  unfold validateUpdate
  split_ifs <;> simp_all

namespace Engine
variable {engine : Engine}

/-- A refused command is answered by its rejection alone, and the engine is the one before. -/
theorem apply_refused {command : Command} (refused : engine.Refuses command) :
    ∃ reason, engine.apply command = .ok (engine, [command.rejection reason]) := by
  cases command with
  | submit order =>
    simp only [apply, submit]
    cases valid : validateSubmit order with
    | some reason => exact ⟨reason, rfl⟩
    | none =>
      obtain ⟨user, clientOrder, instrument, size⟩ := (validateSubmit_eq_none order).mp valid
      have active : engine.activeOrders.contains order.key = true := by
        simpa [Refuses, user, clientOrder, instrument, size] using refused
      exact ⟨_, by rw [if_pos active]; rfl⟩
  | update order =>
    simp only [apply, update]
    cases valid : validateUpdate order with
    | some reason => exact ⟨reason, rfl⟩
    | none =>
      obtain ⟨user, clientOrder, size, pricing⟩ := (validateUpdate_eq_none order).mp valid
      have inactive : engine.activeOrders.find? order.key = none := by
        simpa [Refuses, user, clientOrder, size, pricing, UnorderedMap.contains] using refused
      exact ⟨_, by rw [inactive]; rfl⟩
  | cancel order =>
    have inactive : engine.activeOrders.find? order.key = none := by
      simpa [Refuses, UnorderedMap.contains] using refused
    exact ⟨"order is not active", by simp only [apply, cancel, inactive]; rfl⟩

/-- A market refuses what its engine does. -/
theorem Sound.refuses (sound : engine.Sound) {command : Command} {event : Event}
    (refusal : engine.market.Refuses command event) : engine.Refuses command := by
  have present : ∀ key, engine.market.Active key ↔ engine.activeOrders.contains key = true := by
    intro key
    rw [sound.active, UnorderedMap.contains, Option.isSome_iff_exists]
  cases refusal with
  | @submitInvalid order reason invalid =>
    have failed : ¬ validateSubmit order = none := by rw [invalid]; exact Option.some_ne_none _
    rw [validateSubmit_eq_none] at failed
    simp only [Refuses]
    tauto
  | submitActive valid active => exact Or.inr (Or.inr (Or.inr (Or.inr ((present _).mp active))))
  | @updateInvalid order reason invalid =>
    have failed : ¬ validateUpdate order = none := by rw [invalid]; exact Option.some_ne_none _
    rw [validateUpdate_eq_none] at failed
    simp only [Refuses]
    tauto
  | updateInactive valid inactive =>
    refine Or.inr (Or.inr (Or.inr (Or.inr ?_)))
    rw [present] at inactive
    exact Bool.eq_false_iff.mpr inactive
  | cancelInactive inactive =>
    rw [present] at inactive
    exact Bool.eq_false_iff.mpr inactive

/-- The answer to a command that is not refused opens with its acceptance, but that a submit of
no named side is ignored. -/
theorem Sound.accepts (sound : engine.Sound) {command : Command} {events : List Event}
    {after : Market} (accepted : ¬ engine.Refuses command)
    (step : engine.market.Step command events after) :
    (command.Named → events.head? = some command.acceptance) ∧
      (¬ command.Named → events = []) := by
  cases step with
  | refused refusal => exact absurd (sound.refuses refusal) accepted
  | ignored valid inactive unnamed =>
    refine ⟨fun named => ?_, fun _ => rfl⟩
    rcases named with buys | sells
    · exact absurd buys (unnamed .bids)
    · exact absurd sells (unnamed .asks)
  | @submitted order l valid inactive side a aggression queues queuesAfter =>
    refine ⟨fun _ => rfl, fun unnamed => absurd ?_ unnamed⟩
    cases l
    · exact Or.inl side
    · exact Or.inr side
  | _ => exact ⟨fun _ => rfl, fun unnamed => absurd trivial unnamed⟩

theorem Sound.unrejected (sound : engine.Sound) {command : Command} {events : List Event}
    {after : Market} (accepted : ¬ engine.Refuses command)
    (step : engine.market.Step command events after) (reason : String) :
    command.rejection reason ∉ events := by
  cases step with
  | refused refusal => exact absurd (sound.refuses refusal) accepted
  | _ => simp [Command.rejection, updateOf]

end Engine

/-- In every reachable state a command is rejected exactly for the listed reasons; then its
rejection is the whole answer and the engine is left as it was. Otherwise the answer opens with
the acceptance, and a submit of no named side gets none at all. -/
theorem rejection_exact (commands : List Command) :
    ∃ history, History.run commands = .ok history ∧
      ∀ command, ∃ after events, history.state.apply command = .ok (after, events) ∧
        ((∃ reason, command.rejection reason ∈ events) ↔ history.state.Refuses command) ∧
        (history.state.Refuses command →
          after = history.state ∧ ∃ reason, events = [command.rejection reason]) ∧
        (¬ history.state.Refuses command → command.Named →
          events.head? = some command.acceptance) ∧
        (¬ history.state.Refuses command → ¬ command.Named → events = []) := by
  obtain ⟨history, ran, sound⟩ := History.run_sound commands
  refine ⟨history, ran, fun command => ?_⟩
  by_cases refused : history.state.Refuses command
  · obtain ⟨reason, applied⟩ := Engine.apply_refused refused
    refine ⟨history.state, _, applied, ⟨fun _ => refused, fun _ => ⟨reason, List.mem_singleton_self _⟩⟩,
      fun _ => ⟨rfl, reason, rfl⟩, fun accepted => absurd refused accepted,
      fun accepted => absurd refused accepted⟩
  · obtain ⟨after, events, applied, -, step⟩ := Engine.apply_step sound command
    obtain ⟨opens, ignored⟩ := sound.accepts refused step
    refine ⟨after, events, applied, ⟨fun rejected => ?_, fun refuses => absurd refuses refused⟩,
      fun refuses => absurd refuses refused, fun _ => opens, fun _ => ignored⟩
    obtain ⟨reason, member⟩ := rejected
    exact absurd member (sound.unrejected refused step reason)

/-- An order of a fresh engine's instrument 1 that no identifier or activity stands against. -/
def plainOrder (direction : Side) (size : UInt64) : SubmitOrder :=
  { key := { user := ⟨1⟩, clientOrder := ⟨1⟩ }, instrument := ⟨1⟩, direction, pricing := .market,
    size := ⟨size⟩ }

/-- A size of zero is rejected too, under complete identifiers and an inactive key, and a side
that is neither buy nor sell is neither rejected nor accepted. -/
theorem other_answers :
    ((plainOrder .buy 0).key.user.value ≠ 0 ∧ (plainOrder .buy 0).key.clientOrder.value ≠ 0 ∧
      (plainOrder .buy 0).instrument.value ≠ 0 ∧
      ({} : Engine).activeOrders.contains (plainOrder .buy 0).key = false ∧
      Engine.submit {} (plainOrder .buy 0) =
        .ok ({}, [.submitRejected (plainOrder .buy 0).key "order size must be positive"])) ∧
    ∃ after, Engine.submit {} (plainOrder (.unnamed ⟨2, by decide⟩) 1) = .ok (after, []) :=
  ⟨⟨by decide, by decide, by decide, rfl, rfl⟩, _, rfl⟩

end MarketLab.Matching

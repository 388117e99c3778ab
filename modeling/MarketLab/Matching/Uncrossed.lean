import MarketLab.Matching.Runs

/-!
# The book is never crossed or locked

Between commands every bid is below every ask. Only an aggressor's remainder can
bring a new price, and it rests only after the sweep stopped short of it: what is
left of the opposite queue starts at a price the order does not cross.
-/
namespace MarketLab.Matching
open MarketLab.Collections

/-- Every bid is below every ask. -/
def Uncrossed (queues : Queues) : Prop :=
  ∀ bid ∈ queues .bids, ∀ ask ∈ queues .asks, bid.limitPrice < ask.limitPrice

/-- The same seen from either side: an own price would not cross an opposite one. -/
theorem uncrossed_iff (l : Ladder) {queues : Queues} :
    Uncrossed queues ↔ ∀ own ∈ queues l, ∀ other ∈ queues l.opposite,
      l.opposite.Before own.limitPrice other.limitPrice := by
  cases l with
  | bids => exact Iff.rfl
  | asks =>
    constructor
    · intro apart own member other memberToo
      exact apart other memberToo own member
    · intro apart bid member ask memberToo
      exact apart ask memberToo bid member

/-- Queues that bring no new price stay uncrossed. -/
theorem Uncrossed.of_prices {before after : Queues} (apart : Uncrossed before)
    (old : ∀ l, ∀ order ∈ after l, ∃ same ∈ before l, same.limitPrice = order.limitPrice) :
    Uncrossed after := by
  intro bid member ask memberToo
  obtain ⟨oldBid, wasBid, bidPrice⟩ := old .bids bid member
  obtain ⟨oldAsk, wasAsk, askPrice⟩ := old .asks ask memberToo
  rw [← bidPrice, ← askPrice]
  exact apart oldBid wasBid oldAsk wasAsk

section Aggression
variable (l : Ladder) (incoming : IncomingOrder) (pricing : OrderPricing)
  (opposite : List RestingOrder)

/-- What a sweep leaves of a queue has the prices of the queue's end. -/
theorem aggress_prices :
    ((aggress l incoming pricing opposite).outcome.rest.map RestingOrder.limitPrice) <:+
      opposite.map RestingOrder.limitPrice :=
  ⟨_, (sweep_ident _ RestingOrder.limitPrice (fun _ _ => rfl) _ opposite).symm⟩

/-- A remainder crosses nothing that is left of the opposite queue. -/
theorem aggress_rests_short (sorted : opposite.Pairwise
      fun ahead behind => ¬ l.opposite.Before behind.limitPrice ahead.limitPrice)
    {order : RestingOrder} (rests : (aggress l incoming pricing opposite).rests = some order) :
    ∀ other ∈ (aggress l incoming pricing opposite).outcome.rest,
      l.opposite.Before order.limitPrice other.limitPrice := by
  obtain ⟨priced, positive, -⟩ := remainder_some rests
  have stopped := sweep_left (fun resting : RestingOrder => l.canCross pricing resting.limitPrice)
    incoming.openSize.value opposite positive
  have suffix := aggress_prices l incoming pricing opposite
  have restSorted := (List.pairwise_map (f := RestingOrder.limitPrice)
    (R := fun ahead behind => ¬ l.opposite.Before behind ahead)).mpr sorted |>.sublist suffix.sublist
  change ∀ item ∈ (aggress l incoming pricing opposite).outcome.rest.head?, _ at stopped
  generalize (aggress l incoming pricing opposite).outcome.rest = rest at stopped restSorted
  intro other member
  cases rest with
  | nil => simp at member
  | cons first later =>
    have short : l.opposite.Before order.limitPrice first.limitPrice := by
      have rejected := stopped first (by simp)
      by_contra crossing
      rw [priced, (l.canCross_limit _ _).mpr crossing] at rejected
      cases rejected
    rw [List.map_cons, List.pairwise_cons] at restSorted
    rcases List.mem_cons.mp member with rfl | inLater
    · exact short
    · rcases trichotomous_of l.opposite.Before first.limitPrice other.limitPrice with
        before | same | after
      · exact trans_of l.opposite.Before short before
      · rw [← same]
        exact short
      · exact absurd after (restSorted.1 _ (List.mem_map_of_mem inLater))

/-- An aggression leaves an uncrossed book uncrossed. -/
theorem aggress_uncrossed (own : List RestingOrder)
    (apart : ∀ order ∈ own, ∀ other ∈ opposite,
      l.opposite.Before order.limitPrice other.limitPrice)
    (sorted : opposite.Pairwise
      fun ahead behind => ¬ l.opposite.Before behind.limitPrice ahead.limitPrice) :
    Uncrossed ((aggress l incoming pricing opposite).queues l own) := by
  rw [uncrossed_iff l, Aggression.queues_self, Aggression.queues_opposite]
  have old : ∀ order ∈ own, ∀ other ∈ (aggress l incoming pricing opposite).outcome.rest,
      l.opposite.Before order.limitPrice other.limitPrice := by
    intro order member other memberToo
    obtain ⟨same, was, price⟩ := List.mem_map.mp
      ((aggress_prices l incoming pricing opposite).subset (List.mem_map_of_mem memberToo))
    rw [← price]
    exact apart order member same was
  intro order member
  unfold Aggression.own at member
  cases rests : (aggress l incoming pricing opposite).rests with
  | none =>
    simp only [rests] at member
    exact old order member
  | some placed =>
    simp only [rests, enqueue, List.mem_orderedInsert] at member
    rcases member with rfl | inOwn
    · exact aggress_rests_short l incoming pricing opposite sorted rests
    · exact old order inOwn

end Aggression

/-- One step keeps every book uncrossed. -/
theorem Market.Step.uncrossed {m after : Market} {command : Command} {events : List Event}
    (step : m.Step command events after) (sound : m.Sound)
    (apart : ∀ instrument, Uncrossed (m.queue instrument)) :
    ∀ instrument, Uncrossed (after.queue instrument) := by
  cases step with
  | refused refusal => exact apart
  | ignored valid inactive unnamed => exact forall_advance apart (apart _)
  | submitted l valid inactive named a aggression queues queuesAfter =>
    subst queuesAfter
    subst aggression
    exact forall_advance apart
      (aggress_uncrossed l _ _ _ _ ((uncrossed_iff l).mp (apart _)) (sound.sorted _ _))
  | reduced instrument l resting valid rests named price smaller queue queueAfter =>
    refine forall_advance apart ((apart instrument).of_prices ?_)
    intro side order member
    rcases Ladder.eq_or_eq_opposite l side with rfl | rfl
    · rw [Function.update_self, queueAfter] at member
      obtain ⟨old, was, rfl⟩ := List.mem_map.mp member
      refine ⟨old, was, ?_⟩
      split <;> rfl
    · rw [Function.update_of_ne l.opposite_ne] at member
      exact ⟨order, member, rfl⟩
  | replaced instrument l resting price valid rests named limit moved a aggression queues
      queuesAfter =>
    subst queuesAfter
    subst aggression
    refine forall_advance apart (aggress_uncrossed l _ _ _ _ ?_ (sound.sorted _ _))
    intro order member
    exact (uncrossed_iff l).mp (apart instrument) order (List.mem_of_mem_filter member)
  | cancelled instrument l resting rests named queue queueAfter =>
    refine forall_setQueue apart ((apart instrument).of_prices ?_)
    intro side order member
    rcases Ladder.eq_or_eq_opposite l side with rfl | rfl
    · rw [Function.update_self, queueAfter] at member
      exact ⟨order, List.mem_of_mem_filter member, rfl⟩
    · rw [Function.update_of_ne l.opposite_ne] at member
      exact ⟨order, member, rfl⟩

/-- Every run leaves every book uncrossed. -/
theorem uncrossed_run (commands : List Command) :
    ∃ history, History.run commands = .ok history ∧ history.state.Sound ∧
      ∀ instrument, Uncrossed (history.state.market.queue instrument) := by
  obtain ⟨history, ran, sound, -, apart⟩ := History.run_induct
    (P := fun history => ∀ instrument, Uncrossed (history.state.market.queue instrument))
    (by intro instrument bid member; simp [Market.queue, Engine.market] at member)
    (fun history command events after taken apart =>
      taken.step.uncrossed taken.sound.market apart) commands
  exact ⟨history, ran, sound, apart⟩

/-- In every reachable state every bid level price is below every ask level price. -/
theorem levels_uncrossed (commands : List Command) :
    ∃ history, History.run commands = .ok history ∧
      ∀ instrument book, history.state.books.find? instrument = some book →
        ∀ bid ∈ book.bids.entries, ∀ ask ∈ book.asks.entries, bid.1 < ask.1 := by
  obtain ⟨history, ran, sound, apart⟩ := uncrossed_run commands
  refine ⟨history, ran, ?_⟩
  intro instrument book found bid isBid ask isAsk
  have front : ∀ l, ∀ entry ∈ (book.levels l).entries,
      ∃ order ∈ history.state.market.queue instrument l, order.limitPrice = entry.1 := by
    intro l entry member
    have levels := (sound.book _ _ found).1.levels l
    obtain ⟨node, rest, orders⟩ :=
      List.exists_cons_of_ne_nil (levels.nonempty entry.1 entry.2 member)
    have inside : node ∈ entry.2.orders := by simp [orders]
    exact ⟨node.value, Engine.queue_of_node found (mem_restingNodes.mpr ⟨_, _, member, inside⟩),
      ((levels.level _ _ member).filed node inside).1⟩
  obtain ⟨bestBid, rests, bidPrice⟩ := front .bids bid isBid
  obtain ⟨bestAsk, restsToo, askPrice⟩ := front .asks ask isAsk
  rw [← bidPrice, ← askPrice]
  exact apart instrument bestBid rests bestAsk restsToo

end MarketLab.Matching

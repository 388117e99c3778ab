import MarketLab.Matching.TopOfBook
import MarketLab.Matching.Uncrossed

/-!
# The stream of book updates between commands and inside them

The replica that keeps the last update of each side is the top of the book at the end of every
command. Inside one that reports two sides it is the new top of the first and the old top of the
second, which cross exactly when the first is the side of an order that traded and then rested.
-/
namespace MarketLab.Matching
open MarketLab.Collections

/-! ## The replica -/

def bookUpdates (instrument : SymbolId) (events : List Event) : List Event :=
  events.filter fun
    | .bookUpdated s _ _ _ => s = instrument
    | _ => false

/-- The best price of the last update of a side. -/
def lastBest (instrument : SymbolId) (l : Ladder) (log : List Event) : Option Price :=
  (updatesOf instrument l.side log).getLast?.bind fun
    | .bookUpdated _ _ bestPrice _ => bestPrice
    | _ => none

/-- The last bid is not below the last ask. -/
def Crossed (instrument : SymbolId) (log : List Event) : Prop :=
  ∃ bid ask, lastBest instrument .bids log = some bid ∧ lastBest instrument .asks log = some ask ∧
    ask ≤ bid

theorem crossed_iff (l : Ladder) {instrument : SymbolId} {log : List Event} :
    Crossed instrument log ↔ ∃ own other, lastBest instrument l log = some own ∧
      lastBest instrument l.opposite log = some other ∧ ¬ l.opposite.Before own other := by
  cases l with
  | bids =>
    refine exists_congr fun bid => exists_congr fun ask => ?_
    simp [Ladder.opposite, Ladder.Before, Price.not_lt]
  | asks =>
    constructor
    · rintro ⟨bid, ask, shown, shownToo, crossing⟩
      exact ⟨ask, bid, shownToo, shown, Price.not_lt.mpr crossing⟩
    · rintro ⟨ask, bid, shownToo, shown, crossing⟩
      exact ⟨bid, ask, shown, shownToo, Price.not_lt.mp crossing⟩

theorem updatesOf_bookUpdates (instrument : SymbolId) (direction : Side) (events : List Event) :
    updatesOf instrument direction (bookUpdates instrument events) =
      updatesOf instrument direction events := by
  rw [updatesOf, bookUpdates, List.filter_filter, updatesOf]
  refine List.filter_congr fun event _ => ?_
  cases event <;> simp [updates]
  tauto

/-- The price in front of a queue. -/
def frontPrice (queue : List RestingOrder) : Option Price := queue.head?.map RestingOrder.limitPrice

theorem bestOf_price (queue : List RestingOrder) :
    (bestOf queue).map TopOfBookState.bestPrice = frontPrice queue := by
  cases queue <;> rfl

/-- What one side shows now crosses what the other shows. -/
def Overlapping (l : Ladder) (own other : List RestingOrder) : Prop :=
  ∃ x y, frontPrice own = some x ∧ frontPrice other = some y ∧ ¬ l.opposite.Before x y

theorem not_overlapping {l : Ladder} {own other : List RestingOrder}
    (apart : ∀ order ∈ own, ∀ opposed ∈ other,
      l.opposite.Before order.limitPrice opposed.limitPrice) : ¬ Overlapping l own other := by
  rintro ⟨x, y, shown, shownToo, crossing⟩
  obtain ⟨order, front, rfl⟩ := Option.map_eq_some_iff.mp shown
  obtain ⟨opposed, frontToo, rfl⟩ := Option.map_eq_some_iff.mp shownToo
  exact crossing (apart order (List.mem_of_head? front) opposed (List.mem_of_head? frontToo))

/-! ## A matched order between its two updates -/

theorem Ladder.opposite_before (l : Ladder) (p q : Price) :
    l.opposite.Before p q ↔ l.Before q p := by
  cases l <;> exact Iff.rfl

section Aggression
variable {l : Ladder} {incoming : IncomingOrder} {pricing : OrderPricing}
  {own opposite : List RestingOrder} {a : Aggression}

/-- What enters a queue stands in front or behind something as good. -/
theorem enqueue_front (order : RestingOrder) (queue : List RestingOrder) :
    ∃ x, frontPrice (enqueue l order queue) = some x ∧ ¬ l.Before order.limitPrice x := by
  cases queue with
  | nil => exact ⟨order.limitPrice, rfl, irrefl_of l.Before _⟩
  | cons first rest =>
    unfold enqueue
    rw [List.orderedInsert_cons]
    split_ifs with before
    · exact ⟨order.limitPrice, rfl, irrefl_of l.Before _⟩
    · exact ⟨first.limitPrice, rfl, before⟩

/-- The new top of an aggressor's side crosses the old top of the other exactly when it traded and
something of it rests. -/
theorem overlapping_iff (aggression : a = aggress l incoming pricing opposite)
    (apart : ∀ order ∈ own, ∀ other ∈ opposite,
      l.opposite.Before order.limitPrice other.limitPrice)
    (sorted : opposite.Pairwise
      fun ahead behind => ¬ l.opposite.Before behind.limitPrice ahead.limitPrice) :
    Overlapping l (a.own l own) opposite ↔ a.outcome.fills ≠ [] ∧ a.rests ≠ none := by
  subst aggression
  cases rests : (aggress l incoming pricing opposite).rests with
  | none =>
    simp only [ne_eq, not_true_eq_false, and_false, iff_false]
    rw [Aggression.own, rests]
    exact not_overlapping apart
  | some order =>
    simp only [ne_eq, reduceCtorEq, not_false_eq_true, and_true]
    constructor
    · intro overlapping idle
      have untouched : (aggress l incoming pricing opposite).outcome.rest = opposite :=
        sweep_idle _ _ _ idle
      have short := aggress_uncrossed l incoming pricing opposite own apart sorted
      rw [uncrossed_iff l, Aggression.queues_self, Aggression.queues_opposite, untouched] at short
      exact not_overlapping short overlapping
    · intro traded
      obtain ⟨best, rest, rfl, accepted⟩ := sweep_fills_head _ _ _ traded
      obtain ⟨priced, -, -⟩ := remainder_some rests
      rw [priced, l.canCross_limit] at accepted
      obtain ⟨x, front, behind⟩ := enqueue_front (l := l) order own
      refine ⟨x, best.limitPrice, ?_, rfl, ?_⟩
      · rw [Aggression.own, rests]
        exact front
      · rw [l.opposite_before] at accepted ⊢
        intro before
        rcases trichotomous_of l.Before order.limitPrice x with ahead | rfl | after
        · exact behind ahead
        · exact accepted before
        · exact accepted (trans_of l.Before before after)

/-- What an aggressor leaves of the other side crosses nothing its own side showed. -/
theorem opposite_not_overlapping (aggression : a = aggress l incoming pricing opposite)
    (apart : ∀ order ∈ own, ∀ other ∈ opposite,
      l.opposite.Before order.limitPrice other.limitPrice) :
    ¬ Overlapping l.opposite a.outcome.rest own := by
  subst aggression
  apply not_overlapping
  intro left member order rests
  obtain ⟨other, was, price⟩ := List.mem_map.mp
    ((aggress_prices l incoming pricing opposite).subset (List.mem_map_of_mem member))
  rw [← price, l.opposite_opposite, ← l.opposite_before]
  exact apart order rests other was

end Aggression

/-! ## One command -/

def isTrade : Event → Bool
  | .tradeExecuted _ _ _ _ _ => true
  | _ => false

/-- Does a command report the side of its order before the one it trades with? -/
def Command.reportsOwnFirst : Command → Bool
  | .submit order => order.direction = .buy
  | .update _ => true
  | .cancel _ => false

/-- It traded and its order rests, on the side that is reported first. -/
structure Overlaps (command : Command) (events : List Event) (rests : Prop) : Prop where
  ownFirst : command.reportsOwnFirst = true
  traded : events.any isTrade = true
  rests : rests

theorem any_isTrade_trades (a : Aggression) (instrument : SymbolId) (aggressor : OrderKey) :
    (a.trades instrument aggressor).any isTrade = true ↔ a.outcome.fills ≠ [] := by
  cases fills : a.outcome.fills <;> simp [Aggression.trades, fills, isTrade]

theorem any_isTrade_bookChange (instrument : SymbolId) (l : Ladder)
    (before after : List RestingOrder) :
    (bookChange instrument l before after).any isTrade = false := by
  rw [bookChange_eq]
  split_ifs <;> rfl

/-- The events of a matched order hold a trade exactly when it filled something. -/
theorem any_isTrade_matched {answer : Event} (silent : isTrade answer = false) (a : Aggression)
    (instrument : SymbolId) (aggressor : OrderKey) (l side : Ladder)
    (before after old new : List RestingOrder) :
    (answer :: a.trades instrument aggressor ++ bookChange instrument l before after ++
      bookChange instrument side old new).any isTrade = true ↔ a.outcome.fills ≠ [] := by
  rw [List.any_append, List.any_append, List.any_cons, silent, any_isTrade_bookChange,
    any_isTrade_bookChange, Bool.or_false, Bool.or_false, Bool.false_or]
  exact any_isTrade_trades a instrument aggressor

@[simp] theorem bookUpdates_append (instrument : SymbolId) (front back : List Event) :
    bookUpdates instrument (front ++ back) =
      bookUpdates instrument front ++ bookUpdates instrument back :=
  List.filter_append ..

@[simp] theorem bookUpdates_trades (instrument : SymbolId) (a : Aggression) (traded : SymbolId)
    (aggressor : OrderKey) : bookUpdates instrument (a.trades traded aggressor) = [] := by
  refine List.filter_eq_nil_iff.mpr fun event member => ?_
  obtain ⟨fill, -, rfl⟩ := Aggression.mem_trades.mp member
  exact Bool.false_ne_true

@[simp] theorem bookUpdates_bookChange (instrument other : SymbolId) (l : Ladder)
    (before after : List RestingOrder) :
    bookUpdates instrument (bookChange other l before after) =
      if other = instrument then bookChange instrument l before after else [] := by
  rw [bookChange_eq, bookChange_eq]
  by_cases here : other = instrument
  · subst here
    rw [if_pos rfl]
    split_ifs <;> simp [bookUpdates, updateOf]
  · rw [if_neg here]
    split_ifs <;> simp [bookUpdates, updateOf, here]

namespace Market
variable {m after : Market} {command : Command} {events : List Event}

/-- Behind a matched order its key is active exactly when something of it rests. -/
theorem active_advance {key : OrderKey} {instrument : SymbolId} {l : Ladder}
    {size : Quantity} {pricing : OrderPricing} {own : List RestingOrder} {a : Aggression}
    (aggression : a = aggress l (m.incoming key l size) pricing (m.queue instrument l.opposite))
    (kept : ∀ order ∈ own, order ∈ m.queue instrument l ∧ order.key ≠ key)
    (alone : ∀ other side, ∀ order ∈ m.queue other side, order.key = key →
      other = instrument ∧ side = l) :
    (m.advance instrument (a.queues l own)).Active key ↔ a.rests ≠ none := by
  constructor
  · rintro ⟨other, side, order, rests, named⟩ nothing
    rw [queue_advance] at rests
    split_ifs at rests with here
    · rcases Ladder.eq_or_eq_opposite l side with rfl | rfl
      · rw [Aggression.queues_self, Aggression.own, nothing] at rests
        exact (kept order rests).2 named
      · rw [Aggression.queues_opposite] at rests
        have keys := sweep_ident (fun resting => l.canCross pricing resting.limitPrice)
          RestingOrder.key (fun _ _ => rfl) size.value (m.queue instrument l.opposite)
        have was : order.key ∈ (m.queue instrument l.opposite).map RestingOrder.key := by
          rw [keys]
          refine List.mem_append_right _ (List.mem_map_of_mem ?_)
          rw [aggression] at rests
          exact rests
        obtain ⟨old, before, same⟩ := List.mem_map.mp was
        exact l.opposite_ne (alone _ _ old before (same.trans named)).2
    · exact here (alone other side order rests named).1
  · intro some_
    obtain ⟨order, rests⟩ := Option.ne_none_iff_exists'.mp some_
    refine ⟨instrument, l, order, ?_, ?_⟩
    · rw [queue_advance, if_pos rfl, Aggression.queues_self, Aggression.own, rests]
      exact (List.mem_orderedInsert _).mpr (.inl rfl)
    · rw [aggression] at rests
      rw [(remainder_some rests).2.2]
      rfl

/-- A matched order that reports its own side first overlaps exactly when the new top of that side
crosses the old top of the other. -/
theorem overlapping_iff_overlaps {instrument : SymbolId} {l : Ladder} {size : Quantity}
    {pricing : OrderPricing} {own : List RestingOrder} {a : Aggression}
    (apart : Uncrossed (m.queue instrument))
    (sorted : (m.queue instrument l.opposite).Pairwise
      fun ahead behind => ¬ l.opposite.Before behind.limitPrice ahead.limitPrice)
    (aggression : a = aggress l (m.incoming command.key l size) pricing
      (m.queue instrument l.opposite))
    (kept : ∀ order ∈ own, order ∈ m.queue instrument l ∧ order.key ≠ command.key)
    (alone : ∀ other side, ∀ order ∈ m.queue other side, order.key = command.key →
      other = instrument ∧ side = l)
    (ownFirst : command.reportsOwnFirst = true)
    (traded : events.any isTrade = true ↔ a.outcome.fills ≠ []) :
    Overlapping l (a.own l own) (m.queue instrument l.opposite) ↔
      Overlaps command events ((m.advance instrument (a.queues l own)).Active command.key) := by
  have within : ∀ order ∈ own, ∀ other ∈ m.queue instrument l.opposite,
      l.opposite.Before order.limitPrice other.limitPrice := fun order member =>
    (uncrossed_iff l).mp apart order (kept order member).1
  rw [overlapping_iff aggression within sorted, ← traded, ← active_advance aggression kept alone]
  exact ⟨fun ⟨trade, rests⟩ => ⟨ownFirst, trade, rests⟩, fun ⟨_, trade, rests⟩ => ⟨trade, rests⟩⟩

/-- A command reports one side of an instrument and then the other, and the new top of the first
crosses the old top of the other exactly when the command overlaps. -/
structure Between (m : Market) (command : Command) (events : List Event) (after : Market)
    (instrument : SymbolId) (l : Ladder) : Prop where
  reported : bookUpdates instrument events =
    bookChange instrument l (m.queue instrument l) (after.queue instrument l) ++
      bookChange instrument l.opposite (m.queue instrument l.opposite)
        (after.queue instrument l.opposite)
  overlaps : bookChange instrument l.opposite (m.queue instrument l.opposite)
      (after.queue instrument l.opposite) ≠ [] →
    (Overlapping l (after.queue instrument l) (m.queue instrument l.opposite) ↔
      Overlaps command events (after.Active command.key))

section Between
variable {instrument touched : SymbolId} {l : Ladder} {answer : Event}

/-- Where the second side stays as it was nothing has to be compared. -/
theorem Between.of_one_side (reported : bookUpdates instrument events =
      bookChange instrument l (m.queue instrument l) (after.queue instrument l))
    (still : after.queue instrument l.opposite = m.queue instrument l.opposite) :
    m.Between command events after instrument l := by
  constructor
  · rw [still, bookChange_self, List.append_nil]
    exact reported
  · intro changed
    rw [still, bookChange_self] at changed
    exact absurd rfl changed

theorem Between.of_untouched (silent : bookUpdates instrument events = [])
    (still : ∀ l, after.queue instrument l = m.queue instrument l) :
    m.Between command events after instrument .bids := by
  apply Between.of_one_side
  · rw [silent, still, bookChange_self]
  · exact still _

theorem bookUpdates_answered (silent : bookUpdates instrument [answer] = []) (l : Ladder)
    (before after : List RestingOrder) :
    bookUpdates instrument (answer :: bookChange touched l before after) =
      if touched = instrument then bookChange instrument l before after else [] := by
  rw [← List.singleton_append, bookUpdates_append, silent, bookUpdates_bookChange, List.nil_append]

theorem bookUpdates_matched (silent : bookUpdates instrument [answer] = []) (a : Aggression)
    (aggressor : OrderKey) (l side : Ladder) (before after old new : List RestingOrder) :
    bookUpdates instrument (answer :: a.trades touched aggressor ++
        bookChange touched l before after ++ bookChange touched side old new) =
      if touched = instrument then
        bookChange instrument l before after ++ bookChange instrument side old new else [] := by
  rw [bookUpdates_append, bookUpdates_append, ← List.singleton_append, bookUpdates_append, silent,
    bookUpdates_trades, bookUpdates_bookChange, bookUpdates_bookChange]
  split_ifs <;> rfl

theorem queue_advance_self (queues : Queues) (l : Ladder) :
    (m.advance touched queues).queue touched l = queues l := by
  rw [queue_advance, if_pos rfl]

theorem queue_advance_other (other : touched ≠ instrument) (queues : Queues) (l : Ladder) :
    (m.advance touched queues).queue instrument l = m.queue instrument l := by
  rw [queue_advance, if_neg (Ne.symm other)]

end Between

theorem Step.between (step : m.Step command events after) (sound : m.Sound)
    (apart : ∀ instrument, Uncrossed (m.queue instrument)) (instrument : SymbolId) :
    ∃ l, m.Between command events after instrument l := by
  cases step with
  | refused refusal =>
    refine ⟨.bids, .of_untouched ?_ fun _ => rfl⟩
    cases refusal <;> rfl
  | @ignored order valid inactive unnamed =>
    refine ⟨.bids, .of_untouched rfl fun l => ?_⟩
    rw [queue_advance]
    split_ifs with here
    · rw [here]
    · rfl
  | @submitted order l valid inactive named a aggression queues queuesAfter =>
    by_cases here : order.instrument = instrument
    · subst here queuesAfter
      refine ⟨.bids, ?_, fun _ => ?_⟩
      · rw [bookUpdates_matched rfl, if_pos rfl, queue_advance_self, queue_advance_self]
        rfl
      · rw [queue_advance_self]
        cases l with
        | bids =>
          rw [Aggression.queues_self]
          refine overlapping_iff_overlaps (apart _) (sound.sorted _ _) aggression ?_ ?_ ?_ ?_
          · exact fun other rests => ⟨rests, fun same => inactive ⟨_, _, other, rests, same⟩⟩
          · exact fun _ _ other rests same => absurd ⟨_, _, other, rests, same⟩ inactive
          · exact decide_eq_true named
          · exact any_isTrade_matched rfl ..
        | asks =>
          -- The bids are reported first, and a sell only takes from them.
          have still := opposite_not_overlapping aggression ((uncrossed_iff .asks).mp (apart _))
          apply iff_of_false
          · exact still
          · rintro ⟨ownFirst, -, -⟩
            simp [Command.reportsOwnFirst, named, Ladder.side] at ownFirst
    · refine ⟨.bids, .of_untouched ?_ (queue_advance_other here queues)⟩
      rw [bookUpdates_matched rfl, if_neg here]
  | @reduced order touched l resting valid rests named price smaller queue queueAfter =>
    by_cases here : touched = instrument
    · subst here
      refine ⟨l, .of_one_side ?_ ?_⟩
      · rw [bookUpdates_answered rfl, if_pos rfl, queue_advance_self, Function.update_self]
      · rw [queue_advance_self, Function.update_of_ne l.opposite_ne]
    · refine ⟨.bids, .of_untouched ?_ (queue_advance_other here _)⟩
      rw [bookUpdates_answered rfl, if_neg here]
  | @replaced order touched l resting price valid rests named limit moved a aggression queues
      queuesAfter =>
    by_cases here : touched = instrument
    · subst here queuesAfter
      refine ⟨l, ?_, fun _ => ?_⟩
      · rw [bookUpdates_matched rfl, if_pos rfl, queue_advance_self, queue_advance_self]
      · rw [queue_advance_self, Aggression.queues_self]
        refine overlapping_iff_overlaps (apart _) (sound.sorted _ _) aggression ?_ ?_ rfl ?_
        · intro other member
          have differs : other.key ≠ order.key := by simpa using List.of_mem_filter member
          exact ⟨List.mem_of_mem_filter member, differs⟩
        · intro other side same member sameKey
          obtain ⟨rfl, rfl⟩ :=
            sound.once _ _ _ _ resting rests same member (named.trans sameKey.symm)
          exact ⟨rfl, rfl⟩
        · exact any_isTrade_matched rfl ..
    · refine ⟨.bids, .of_untouched ?_ (queue_advance_other here queues)⟩
      rw [bookUpdates_matched rfl, if_neg here]
  | @cancelled order touched l resting rests named queue queueAfter =>
    by_cases here : touched = instrument
    · subst here
      refine ⟨l, .of_one_side ?_ ?_⟩
      · rw [bookUpdates_answered rfl, if_pos rfl, queue_setQueue, if_pos ⟨rfl, rfl⟩]
      · rw [queue_setQueue, if_neg fun both => l.opposite_ne both.2]
    · refine ⟨.bids, .of_untouched ?_ fun side => ?_⟩
      · rw [bookUpdates_answered rfl, if_neg here]
      · rw [queue_setQueue, if_neg fun both => here both.1.symm]

end Market

/-! ## The replica between updates -/

/-- The log ends with these queues' fronts. -/
def Shows (instrument : SymbolId) (log : List Event) (queues : Queues) : Prop :=
  ∀ l, lastBest instrument l log = frontPrice (queues l)

theorem Shows.uncrossed {instrument : SymbolId} {log : List Event} {queues : Queues}
    (shows_ : Shows instrument log queues) (apart : Uncrossed queues) : ¬ Crossed instrument log := by
  rintro ⟨bid, ask, shown, shownToo, crossing⟩
  rw [shows_] at shown shownToo
  exact not_overlapping (l := .bids) apart ⟨bid, ask, shown, shownToo, Price.not_lt.mpr crossing⟩

/-- Reporting a side shows its new front. -/
theorem lastBest_bookChange {instrument : SymbolId} {l : Ladder} {log : List Event}
    {before after : List RestingOrder} (shown : lastBest instrument l log = frontPrice before) :
    lastBest instrument l (log ++ bookChange instrument l before after) = frontPrice after := by
  rw [lastBest, updatesOf_append, updatesOf_bookChange, if_pos ⟨rfl, rfl⟩, bookChange_eq]
  split_ifs with same
  · rw [List.append_nil, ← bestOf_price, ← same, bestOf_price]
    exact shown
  · rw [List.getLast?_append]
    exact bestOf_price after

theorem lastBest_bookChange_opposite {instrument : SymbolId} {l side : Ladder} {log : List Event}
    {before after : List RestingOrder} (other : side ≠ l) :
    lastBest instrument l (log ++ bookChange instrument side before after) =
      lastBest instrument l log := by
  rw [lastBest, updatesOf_append, updatesOf_bookChange, if_neg (fun both => other both.2),
    List.append_nil, lastBest]

/-- Between the updates of a call that reports two sides. -/
theorem crossed_between {instrument : SymbolId} {l : Ladder} {log : List Event} {queues : Queues}
    (shows_ : Shows instrument log queues) (after : List RestingOrder) :
    Crossed instrument (log ++ bookChange instrument l (queues l) after) ↔
      Overlapping l after (queues l.opposite) := by
  rw [crossed_iff l, lastBest_bookChange (shows_ l),
    lastBest_bookChange_opposite (Ne.symm l.opposite_ne), shows_ l.opposite]
  rfl

/-- Behind all updates of a call. -/
theorem Shows.both {instrument : SymbolId} {log : List Event} {queues after : Queues}
    (shows_ : Shows instrument log queues) (l : Ladder) :
    Shows instrument (log ++ (bookChange instrument l (queues l) (after l) ++
      bookChange instrument l.opposite (queues l.opposite) (after l.opposite))) after := by
  intro side
  rw [← List.append_assoc]
  rcases Ladder.eq_or_eq_opposite l side with rfl | rfl
  · rw [lastBest_bookChange_opposite side.opposite_ne, lastBest_bookChange (shows_ side)]
  · apply lastBest_bookChange
    rw [lastBest_bookChange_opposite (Ne.symm l.opposite_ne), shows_]

theorem bookChange_short (instrument : SymbolId) (l : Ladder) (before after : List RestingOrder) :
    bookChange instrument l before after = [] ∨
      ∃ event, bookChange instrument l before after = [event] := by
  rw [bookChange_eq]
  split_ifs
  · exact .inl rfl
  · exact .inr ⟨_, rfl⟩

/-- Inside one call the replica is crossed behind the first of two updates, when it overlaps. -/
theorem crossed_inside {m after : Market} {command : Command} {events : List Event}
    (step : m.Step command events after) (sound : m.Sound)
    (apart : ∀ instrument, Uncrossed (m.queue instrument))
    (still : ∀ instrument, Uncrossed (after.queue instrument)) {instrument : SymbolId}
    {log : List Event} (shows_ : Shows instrument log (m.queue instrument)) {part : List Event}
    (inside : part <+: bookUpdates instrument events) :
    Crossed instrument (log ++ part) ↔ ∃ first second,
      bookUpdates instrument events = [first, second] ∧ part = [first] ∧
        Overlaps command events (after.Active command.key) := by
  obtain ⟨l, reported, overlaps⟩ := step.between sound apart instrument
  have start : ¬ Crossed instrument (log ++ []) := by
    rw [List.append_nil]
    exact shows_.uncrossed (apart instrument)
  have whole : ¬ Crossed instrument (log ++ bookUpdates instrument events) := by
    rw [reported]
    exact (shows_.both l).uncrossed (still instrument)
  have between := crossed_between (l := l) shows_ (after.queue instrument l)
  have few : ∀ updates, (updates = [] ∨ ∃ event, updates = [event]) → part <+: updates →
      ¬ Crossed instrument (log ++ updates) → (Crossed instrument (log ++ part) ↔
        ∃ first second, updates = [first, second] ∧ part = [first] ∧
          Overlaps command events (after.Active command.key)) := by
    intro updates short within settled
    rcases short with rfl | ⟨event, rfl⟩
    · rw [List.prefix_nil] at within
      exact iff_of_false (within ▸ start) fun ⟨_, _, impossible, _⟩ => by cases impossible
    · refine iff_of_false ?_ fun ⟨_, _, impossible, _⟩ => by cases impossible
      rcases List.prefix_cons_iff.mp within with rfl | ⟨rest, rfl, inNil⟩
      · exact start
      · rwa [List.prefix_nil.mp inNil]
  rw [reported] at inside whole ⊢
  rcases bookChange_short instrument l (m.queue instrument l) (after.queue instrument l) with
    none | ⟨first, one⟩
  · rw [none, List.nil_append] at inside whole ⊢
    exact few _ (bookChange_short _ _ _ _) inside whole
  · rcases bookChange_short instrument l.opposite (m.queue instrument l.opposite)
      (after.queue instrument l.opposite) with none | ⟨second, two⟩
    · rw [none, List.append_nil] at inside whole ⊢
      exact few _ (.inr ⟨first, one⟩) inside whole
    · rw [one, two, List.singleton_append] at inside whole ⊢
      rw [one] at between
      rw [two] at overlaps
      rcases List.prefix_cons_iff.mp inside with rfl | ⟨rest, rfl, inRest⟩
      · exact iff_of_false start fun ⟨_, _, _, impossible, _⟩ => by cases impossible
      · rcases List.prefix_cons_iff.mp inRest with rfl | ⟨rest, rfl, inNil⟩
        · rw [between, overlaps (List.cons_ne_nil _ _)]
          constructor
          · exact fun overlap => ⟨first, second, rfl, rfl, overlap⟩
          · exact fun ⟨_, _, _, _, overlap⟩ => overlap
        · rw [List.prefix_nil] at inNil
          subst inNil
          refine iff_of_false whole ?_
          rintro ⟨_, _, _, impossible, -⟩
          cases impossible

/-! ## Whole runs -/

/-- A log that reports an engine's tops shows the fronts of its queues. -/
theorem ReportsTop.shows {log : List Event} {engine : Engine} (reports : ReportsTop log engine)
    (sound : engine.Sound) (instrument : SymbolId) :
    Shows instrument (bookUpdates instrument log) (engine.market.queue instrument) := by
  intro l
  have last := reportsTop_iff.mp reports instrument l
  rw [lastBest, updatesOf_bookUpdates, ← bestOf_price, ← sound.top_eq]
  cases logged : (updatesOf instrument l.side log).getLast? with
  | none =>
    rw [logged] at last
    rw [last]
    rfl
  | some event =>
    rw [logged] at last
    rw [last]
    rfl

/-- A prefix of what the items yield ends inside one item's. -/
theorem prefix_flatMap {α β : Type} {f : α → List β} {items : List α} {front : List β}
    (within : front <+: items.flatMap f) : front = [] ∨ ∃ earlier item later part,
      items = earlier ++ item :: later ∧ part <+: f item ∧ front = earlier.flatMap f ++ part := by
  induction items generalizing front with
  | nil => exact .inl (List.prefix_nil.mp within)
  | cons item items ih =>
    rw [List.flatMap_cons] at within
    rcases List.prefix_or_prefix_of_prefix within (List.prefix_append _ _) with inside | ⟨rest, rfl⟩
    · exact .inr ⟨[], item, items, front, rfl, inside, rfl⟩
    · rw [List.prefix_append_right_inj] at within
      rcases ih within with rfl | ⟨earlier, other, later, part, rfl, inside, rfl⟩
      · exact .inr ⟨[], item, items, f item, rfl, List.prefix_rfl, List.append_nil _⟩
      · exact .inr ⟨item :: earlier, other, later, part, rfl, inside, by simp⟩

theorem bookUpdates_flatMap (instrument : SymbolId) (calls : List Transition) :
    bookUpdates instrument (calls.flatMap Transition.events) =
      calls.flatMap fun call => bookUpdates instrument call.events := by
  rw [bookUpdates, List.filter_flatMap]
  rfl

/-- What the calls before show, and how one call goes on from there. -/
structure Transition.Continues (call : Transition) (earlier : List Transition) : Prop where
  inside : ∀ instrument part, part <+: bookUpdates instrument call.events →
    (Crossed instrument (bookUpdates instrument (earlier.flatMap Transition.events) ++ part) ↔
      ∃ first second, bookUpdates instrument call.events = [first, second] ∧ part = [first] ∧
        Overlaps call.command call.events (call.after.activeOrders.contains call.command.key = true))

theorem History.Taken.continues {history : History} {command : Command} {events : List Event}
    {after : Engine} (taken : history.Taken command events after)
    (reports : ReportsTop history.events history.state)
    (apart : ∀ instrument, Uncrossed (history.state.market.queue instrument)) :
    Transition.Continues { before := history.state, command, events, after } history.transitions where
  inside instrument part within := by
    have listed : after.market.Active command.key ↔
        after.activeOrders.contains command.key = true := by
      rw [taken.afterSound.active, UnorderedMap.contains, Option.isSome_iff_exists]
    have shows_ := reports.shows taken.sound instrument
    have crossed := crossed_inside taken.step taken.sound.market apart
      (taken.step.uncrossed taken.sound.market apart) shows_ within
    rw [History.events] at crossed
    rw [crossed, propext listed]

/-- The replica of a prefix of an instrument's updates is crossed exactly when the prefix ends
between the two updates of a call that traded and left its order resting, and whose own side is
the first reported: a buy submit, or an update that came back to the book. -/
theorem stream_crossed_iff (commands : List Command) (instrument : SymbolId) :
    ∃ history, History.run commands = .ok history ∧
      ∀ shown, shown <+: bookUpdates instrument history.events →
        (Crossed instrument shown ↔ ∃ earlier call later first second,
          history.transitions = earlier ++ call :: later ∧
          bookUpdates instrument call.events = [first, second] ∧
          shown = bookUpdates instrument (earlier.flatMap Transition.events) ++ [first] ∧
          Overlaps call.command call.events
            (call.after.activeOrders.contains call.command.key = true)) := by
  have runs := History.run_induct_calls
    (P := fun history => ReportsTop history.events history.state ∧
      ∀ instrument, Uncrossed (history.state.market.queue instrument))
    (Q := fun earlier call => call.Continues earlier) ?_ ?_ ?_ commands
  · obtain ⟨history, ran, -, -, -, calls⟩ := runs
    refine ⟨history, ran, fun shown within => ?_⟩
    constructor
    · intro crossed
      rw [History.events, bookUpdates_flatMap] at within
      rcases prefix_flatMap within with rfl | ⟨earlier, call, later, part, split, inside, rfl⟩
      · obtain ⟨_, _, impossible, -⟩ := crossed
        cases impossible
      · rw [← bookUpdates_flatMap] at crossed ⊢
        obtain ⟨first, second, two, rfl, overlaps⟩ :=
          ((calls earlier call later split).inside instrument part inside).mp crossed
        exact ⟨earlier, call, later, first, second, split, two, rfl, overlaps⟩
    · rintro ⟨earlier, call, later, first, second, split, two, rfl, overlaps⟩
      refine ((calls earlier call later split).inside instrument [first] ?_).mpr
        ⟨first, second, two, rfl, overlaps⟩
      rw [two]
      exact List.prefix_append [first] [second]
  · refine ⟨reportsTop_initial, ?_⟩
    intro instrument bid member
    simp [Market.queue, Engine.market] at member
  · intro history command events after taken held
    rw [History.push_events]
    exact ⟨taken.reportsTop held.1, taken.step.uncrossed taken.sound.market held.2⟩
  · intro history command events after taken held
    exact taken.continues held.1 held.2

/-- A buy limit takes the only ask and rests: its bid is reported while the ask is still shown. -/
theorem buy_overlaps_ask :
    let ask : SubmitOrder := { key := ⟨⟨1⟩, ⟨10⟩⟩, instrument := ⟨1⟩, direction := .sell,
                               pricing := .limit ⟨100, by decide⟩, size := ⟨3⟩ }
    let bid : SubmitOrder := { key := ⟨⟨2⟩, ⟨20⟩⟩, instrument := ⟨1⟩, direction := .buy,
                               pricing := .limit ⟨101, by decide⟩, size := ⟨10⟩ }
    let shown : List Event := [.bookUpdated ⟨1⟩ .sell (some ⟨100, by decide⟩) 3,
                               .bookUpdated ⟨1⟩ .buy (some ⟨101, by decide⟩) 7]
    ∃ history, History.run [.submit ask, .submit bid] = .ok history ∧
      shown <+: bookUpdates ⟨1⟩ history.events ∧ Crossed ⟨1⟩ shown := by
  refine ⟨_, rfl, ?_, ?_⟩
  · exact ⟨[.bookUpdated ⟨1⟩ .sell none 0], rfl⟩
  · exact ⟨⟨101, by decide⟩, ⟨100, by decide⟩, rfl, rfl, by decide⟩

end MarketLab.Matching

import MarketLab.Collections.Words
import MarketLab.Matching.TopOfBook

/-!
# When the totals are exact

A level's total is a 64-bit sum, so it is exact as long as the exact sum fits. Only a
remainder that comes to rest can make it outgrow its width: what `Fits` asks of a command is
that there is room for it at its price.
-/
namespace MarketLab.Matching
open MarketLab.Collections

/-- The exact quantity resting at a price of a queue. -/
def sizeAtPrice (price : Price) (queue : List RestingOrder) : Nat :=
  totalSize (fun order => order.limitPrice = price) queue

/-- The exact quantity at every price has a 64-bit value. -/
def BoundedQueues (queues : Queues) : Prop := ∀ l price, sizeAtPrice price (queues l) < 2 ^ 64

namespace Market

def Bounded (m : Market) : Prop := ∀ instrument, BoundedQueues (m.queue instrument)

/-- What the opposite queue does not take of an order at this limit, and the quantity of `own`
already at it, together have a 64-bit value. -/
def Room (m : Market) (instrument : SymbolId) (l : Ladder) (price : Price) (size : Quantity)
    (own : List RestingOrder) : Prop :=
  let crossed := totalSize (fun resting => l.canCross (.limit price) resting.limitPrice)
    (m.queue instrument l.opposite)
  let remaining := size.value.toNat - crossed
  remaining = 0 ∨ sizeAtPrice price own + remaining < 2 ^ 64

/-- An accepted limit order, or an accepted update that gives up its place, finds room. -/
def Fits (m : Market) : Command → Prop
  | .submit order => ∀ l price, validateSubmit order = none → ¬ m.Active order.key →
      order.direction = l.side → order.pricing = .limit price →
      m.Room order.instrument l price order.size (m.queue order.instrument l)
  | .update order => ∀ instrument l price, ∀ resting ∈ m.queue instrument l,
      validateUpdate order = none → resting.key = order.key → order.pricing = .limit price →
      price ≠ resting.limitPrice ∨ resting.openSize.value < order.size.value →
      m.Room instrument l price order.size
        ((m.queue instrument l).filter fun other => other.key ≠ order.key)
  | .cancel _ => True

end Market

/-! ## Aggressions -/

/-- Along a sorted queue an order crosses up to some price. -/
theorem canCross_ends {l : Ladder} {pricing : OrderPricing} {opposite : List RestingOrder}
    (sorted : opposite.Pairwise
      fun ahead behind => ¬ l.opposite.Before behind.limitPrice ahead.limitPrice) :
    opposite.Pairwise fun ahead behind => l.canCross pricing behind.limitPrice = true →
      l.canCross pricing ahead.limitPrice = true := by
  refine sorted.imp fun {ahead behind} order crosses => ?_
  cases pricing with
  | market => exact l.canCross_market _
  | limit price =>
    rw [l.canCross_limit] at crosses ⊢
    intro short
    rcases trichotomous_of l.opposite.Before ahead.limitPrice behind.limitPrice with
      before | same | after
    · exact crosses (trans_of l.opposite.Before short before)
    · exact crosses (same ▸ short)
    · exact order after

section Aggression
variable {l : Ladder} {incoming : IncomingOrder} {pricing : OrderPricing}
  {own opposite : List RestingOrder} {a : Aggression}
  (aggression : a = aggress l incoming pricing opposite)
include aggression

theorem rest_size_le (price : Price) : sizeAtPrice price a.outcome.rest ≤ sizeAtPrice price opposite := by
  have conserved := sweep_conserves (fun resting : RestingOrder => l.canCross pricing resting.limitPrice)
    (fun order : RestingOrder => decide (order.limitPrice = price)) (fun _ _ => rfl)
    incoming.openSize.value opposite
  rw [aggression, sizeAtPrice, sizeAtPrice, conserved]
  exact Nat.le_add_left ..

theorem own_size_at (price : Price) : sizeAtPrice price (a.own l own) =
    sizeAtPrice price own + if pricing = .limit price then a.outcome.left.toNat else 0 := by
  have rests : a.rests = remainder incoming pricing a.outcome.left := by
    rw [aggression]
    rfl
  unfold Aggression.own
  cases placed : a.rests with
  | none =>
    rw [rests] at placed
    cases pricing with
    | market => simp
    | limit limit =>
      have nothing : a.outcome.left = 0 := by
        simpa [remainder, limitPrice, UInt64.pos_iff_ne_zero] using placed
      simp [nothing]
  | some order =>
    rw [rests] at placed
    obtain ⟨priced, -, made⟩ := remainder_some placed
    have inserted : sizeAtPrice price (enqueue l order own) = sizeAtPrice price (order :: own) :=
      totalSize_perm _ (List.perm_orderedInsert _ order own)
    rw [inserted, sizeAtPrice, totalSize_cons, priced]
    have size : Sized.size order = a.outcome.left := by
      rw [made]
      rfl
    rw [size]
    by_cases same : order.limitPrice = price
    · simp [same, sizeAtPrice, Nat.add_comm]
    · simp [same, sizeAtPrice]

/-- A bounded book stays bounded exactly when the remainder finds room. -/
theorem aggress_bounded (sorted : opposite.Pairwise
      fun ahead behind => ¬ l.opposite.Before behind.limitPrice ahead.limitPrice)
    (ownFits : ∀ price, sizeAtPrice price own < 2 ^ 64)
    (oppositeFits : ∀ price, sizeAtPrice price opposite < 2 ^ 64) :
    BoundedQueues (a.queues l own) ↔ ∀ price, pricing = .limit price →
      let remaining := incoming.openSize.value.toNat -
        totalSize (fun resting => l.canCross pricing resting.limitPrice) opposite
      remaining = 0 ∨ sizeAtPrice price own + remaining < 2 ^ 64 := by
  have left : a.outcome.left.toNat = incoming.openSize.value.toNat -
      totalSize (fun resting => l.canCross pricing resting.limitPrice) opposite := by
    rw [aggression]
    exact sweep_left_exact _ _ _ (canCross_ends sorted)
  constructor
  · intro bounded price priced remaining
    have fits := bounded l price
    rw [Aggression.queues_self, own_size_at aggression, if_pos priced, left] at fits
    exact .inr fits
  · intro room side price
    rcases Ladder.eq_or_eq_opposite l side with rfl | rfl
    · rw [Aggression.queues_self, own_size_at aggression]
      split
      next priced =>
        have fits := room price priced
        rw [left]
        rcases fits with nothing | fits
        · rw [nothing]
          exact ownFits price
        · exact fits
      next => exact ownFits price
    · rw [Aggression.queues_opposite]
      exact Nat.lt_of_le_of_lt (rest_size_le aggression price) (oppositeFits price)

end Aggression

/-! ## Steps -/

namespace Market
variable {m : Market}

theorem advance_bounded (bounded : m.Bounded) (instrument : SymbolId) (queues : Queues) :
    (m.advance instrument queues).Bounded ↔ BoundedQueues queues := by
  constructor
  · intro after
    have here := after instrument
    have same : (m.advance instrument queues).queue instrument = queues := by
      funext l
      rw [queue_advance, if_pos rfl]
    rwa [same] at here
  · exact forall_advance (P := fun _ queues => BoundedQueues queues) bounded

/-- Queues with no more at any price stay bounded. -/
theorem bounded_of_le {before after : Queues} (bounded : BoundedQueues before)
    (less : ∀ l price, sizeAtPrice price (after l) ≤ sizeAtPrice price (before l)) :
    BoundedQueues after :=
  fun l price => Nat.lt_of_le_of_lt (less l price) (bounded l price)

theorem update_le {queues : Queues} {l : Ladder} {queue : List RestingOrder}
    (less : ∀ price, sizeAtPrice price queue ≤ sizeAtPrice price (queues l)) :
    ∀ side price, sizeAtPrice price (Function.update queues l queue side) ≤
      sizeAtPrice price (queues side) := by
  intro side price
  by_cases here : side = l
  · subst here
    rw [Function.update_self]
    exact less price
  · rw [Function.update_of_ne here]

/-- From a bounded market a step leads to a bounded one exactly when its command fits. -/
theorem Step.bounded_iff {after : Market} {command : Command} {events : List Event}
    (step : m.Step command events after) (sound : m.Sound) (bounded : m.Bounded) :
    after.Bounded ↔ m.Fits command := by
  cases step with
  | refused refusal =>
    refine ⟨fun _ => ?_, fun _ => bounded⟩
    cases refusal with
    | submitInvalid invalid =>
      intro l price valid
      rw [invalid] at valid
      cases valid
    | submitActive valid active => exact fun l price _ inactive => absurd active inactive
    | updateInvalid invalid =>
      intro instrument l price resting rests valid
      rw [invalid] at valid
      cases valid
    | updateInactive valid inactive =>
      exact fun instrument l price resting rests _ key =>
        absurd ⟨instrument, l, resting, rests, key⟩ inactive
    | cancelInactive inactive => trivial
  | ignored valid inactive unnamed =>
    rw [advance_bounded bounded]
    exact ⟨fun _ l price _ _ named => absurd named (unnamed l), fun _ => bounded _⟩
  | @submitted order l valid inactive named a aggression queues queuesAfter =>
    subst queuesAfter
    rw [advance_bounded bounded, aggress_bounded aggression (sound.sorted _ _) (bounded _ _)
      (bounded _ _)]
    constructor
    · intro room side price _ _ namedToo priced
      obtain rfl := Ladder.side_injective (named.symm.trans namedToo)
      have fits := room price priced
      rwa [priced] at fits
    · intro fits price priced
      have room := fits l price valid inactive named priced
      rwa [Room, ← priced] at room
  | @reduced order instrument l resting valid rests named price smaller queue queueAfter =>
    rw [advance_bounded bounded]
    refine ⟨fun _ => ?_, fun _ => bounded_of_le (bounded instrument) (update_le fun price => ?_)⟩
    · intro other side limit same restsToo _ namedToo priced moved
      obtain ⟨rfl, rfl, rfl⟩ := sound.same_resting rests restsToo (named.trans namedToo.symm)
      rw [priced] at price
      rcases moved with elsewhere | larger
      · exact absurd (Option.some.inj price) elsewhere
      · exact absurd smaller (UInt64.not_le.mpr larger)
    · rw [queueAfter]
      refine totalSize_map_le (fun other _ => by split <;> rfl) fun other member => ?_
      split
      next same =>
        obtain rfl := key_unique (sound.keys instrument l) member rests (same.trans named.symm)
        exact smaller
      next => exact UInt64.le_refl _
  | @replaced order instrument l resting price valid rests named limit moved a aggression queues
      queuesAfter =>
    subst queuesAfter
    have ownFits : ∀ price, sizeAtPrice price
        ((m.queue instrument l).filter fun other => other.key ≠ order.key) < 2 ^ 64 :=
      fun price => Nat.lt_of_le_of_lt (totalSize_filter_le _ _ _) (bounded instrument l price)
    rw [advance_bounded bounded, aggress_bounded aggression (sound.sorted _ _) ownFits (bounded _ _)]
    constructor
    · intro room other side price' same restsToo _ namedToo priced _
      obtain ⟨rfl, rfl, rfl⟩ := sound.same_resting rests restsToo (named.trans namedToo.symm)
      have fits := room price' priced
      rwa [priced] at fits
    · intro fits price' priced
      have same : price = price' := by
        rw [priced] at limit
        exact (Option.some.inj limit).symm
      have room := fits instrument l price' resting rests valid named priced (same ▸ moved)
      rwa [Room, ← priced] at room
  | cancelled instrument l resting rests named queue queueAfter =>
    refine ⟨fun _ => trivial, fun _ => ?_⟩
    refine forall_setQueue (P := fun _ queues => BoundedQueues queues) bounded
      (bounded_of_le (bounded instrument) (update_le fun price => ?_))
    rw [queueAfter]
    exact totalSize_filter_le _ _ _

end Market

/-- Any command fits the fresh engine. -/
theorem fits_fresh (command : Command) : (Engine.market {}).Fits command := by
  have empty : ∀ instrument l, (Engine.market {}).queue instrument l = [] := fun _ _ => rfl
  cases command with
  | submit order =>
    intro l price _ _ _ _
    refine .inr ?_
    rw [empty, empty]
    exact Nat.lt_of_le_of_lt (Nat.le_of_eq (Nat.zero_add _)) order.size.value.toNat_lt
  | update order =>
    intro instrument l price resting rests
    rw [empty] at rests
    cases rests
  | cancel order => trivial

/-! ## The stored totals -/

/-- The cached total is the exact sum of the open sizes in the level's queue. -/
def PriceLevel.Exact (level : PriceLevel) : Prop :=
  level.totalSize.toNat = (level.orders.map fun node => node.value.openSize.value.toNat).sum

namespace Engine
variable {engine : Engine}

def ExactTotals (engine : Engine) : Prop :=
  ∀ instrument book, engine.books.find? instrument = some book →
    ∀ l price level, (book.levels l).find? price = some level → level.Exact

/-- A level's orders are all the queue's orders at its price. -/
theorem Sound.sizeAtPrice_level (sound : engine.Sound) {instrument : SymbolId} {book : OrderBook}
    (found : engine.books.find? instrument = some book) {l : Ladder} {price : Price}
    {level : PriceLevel} (atPrice : (book.levels l).find? price = some level) :
    sizeAtPrice price (engine.market.queue instrument l) =
      (level.orders.map fun node => node.value.openSize.value.toNat).sum := by
  have levels := (sound.book _ _ found).1.levels l
  have filed := (levels.level _ _ (OrderedMap.mem_entries_of_find? atPrice)).filed
  obtain ⟨front, back, nodes, before, after, -⟩ := levels.split_level atPrice
  have elsewhere : ∀ part : List (Node RestingOrder),
      (∀ node ∈ part, node.value.limitPrice ≠ price) →
      sizeAtPrice price (part.map Node.value) = 0 := by
    intro part different
    refine totalSize_none fun order member => ?_
    obtain ⟨node, inside, rfl⟩ := List.mem_map.mp member
    exact decide_eq_false (different node inside)
  have here : sizeAtPrice price (level.orders.map Node.value) =
      (level.orders.map fun node => node.value.openSize.value.toNat).sum := by
    rw [sizeAtPrice, totalSize, List.map_map]
    congr 1
    refine List.map_congr_left fun node inside => ?_
    exact if_pos (decide_eq_true (filed node inside).1)
  have outside := elsewhere front fun node inside same =>
    irrefl_of l.Before _ (same ▸ before node inside)
  have beyond := elsewhere back fun node inside same =>
    irrefl_of l.Before _ (same ▸ after node inside)
  rw [market_queue found, OrderBook.queues_eq, OrderBook.nodes, nodes, List.map_append,
    List.map_append, sizeAtPrice, totalSize_append, totalSize_append]
  rw [sizeAtPrice] at outside beyond here
  omega

theorem Sound.sizeAtPrice_absent (sound : engine.Sound) {instrument : SymbolId} {book : OrderBook}
    (found : engine.books.find? instrument = some book) {l : Ladder} {price : Price}
    (absent : (book.levels l).find? price = none) :
    sizeAtPrice price (engine.market.queue instrument l) = 0 := by
  refine totalSize_none fun order member => decide_eq_false fun same => ?_
  rw [market_queue found] at member
  obtain ⟨node, inside, rfl⟩ := List.mem_map.mp member
  obtain ⟨level, atPrice, -⟩ := ((sound.book _ _ found).1.levels l).level_of_node inside
  rw [same, absent] at atPrice
  cases atPrice

/-- The totals are exact when and only when every exact sum has a 64-bit value. -/
theorem Sound.exactTotals_iff (sound : engine.Sound) :
    engine.ExactTotals ↔ engine.market.Bounded := by
  constructor
  · intro exact instrument l price
    cases found : engine.books.find? instrument with
    | none =>
      rw [market_queue_absent found]
      exact Nat.two_pow_pos 64
    | some book =>
      cases atPrice : (book.levels l).find? price with
      | none =>
        rw [sound.sizeAtPrice_absent found atPrice]
        exact Nat.two_pow_pos 64
      | some level =>
        rw [sound.sizeAtPrice_level found atPrice, ← exact _ _ found _ _ _ atPrice]
        exact level.totalSize.toNat_lt
  · intro bounded instrument book found l price level atPrice
    have levels := (sound.book _ _ found).1.levels l
    have total := (levels.level _ _ (OrderedMap.mem_entries_of_find? atPrice)).total
    have fits := bounded instrument l price
    rw [sound.sizeAtPrice_level found atPrice] at fits
    rw [PriceLevel.Exact, total, toNat_sum_of_lt (by rwa [List.map_map]), List.map_map]
    rfl

end Engine

/-! ## The updates that report them -/

/-- An update that can be published: a named side of a real instrument, and a price exactly
when there is quantity. -/
def Event.Publishable : Event → Prop
  | .bookUpdated instrument direction bestPrice totalSize =>
    instrument.value ≠ 0 ∧ (∃ l : Ladder, direction = l.side) ∧ (bestPrice.isSome ↔ totalSize ≠ 0)
  | _ => True

/-- The best orders of a bounded queue have a quantity. -/
theorem bestOf_positive {queue : List RestingOrder} {top : TopOfBookState}
    (best : bestOf queue = some top) (fits : sizeAtPrice top.bestPrice queue < 2 ^ 64)
    (positive : ∀ order ∈ queue, 0 < order.openSize.value) : top.totalSize ≠ 0 := by
  cases queue with
  | nil => cases best
  | cons first rest =>
    obtain rfl := Option.some.inj best
    have words : (((first :: rest).filter fun order => order.limitPrice = first.limitPrice).map
        fun order : RestingOrder => order.openSize.value).sum.toNat =
          sizeAtPrice first.limitPrice (first :: rest) := by
      rw [sizeAtPrice, totalSize_eq_sum] at fits ⊢
      rw [toNat_sum_of_lt] <;> rw [List.map_map]
      · rfl
      · exact fits
    intro zero
    have nothing := words.symm.trans (congrArg UInt64.toNat zero)
    rw [sizeAtPrice, totalSize_cons, if_pos (decide_eq_true rfl)] at nothing
    have least := UInt64.lt_iff_toNat_lt.mp (positive first List.mem_cons_self)
    have size : (Sized.size first).toNat = first.openSize.value.toNat := rfl
    rw [UInt64.toNat_zero] at nothing least
    omega

namespace Market
variable {m : Market}

/-- Orders rest for real instruments only. -/
def Listed (m : Market) : Prop := ∀ instrument l, ∀ order ∈ m.queue instrument l, instrument.value ≠ 0

theorem Step.listed {after : Market} {command : Command} {events : List Event}
    (step : m.Step command events after) (listed : m.Listed) : after.Listed := by
  let P := fun (instrument : SymbolId) (queues : Queues) =>
    ∀ l, ∀ order ∈ queues l, instrument.value ≠ 0
  cases step with
  | refused refusal => exact listed
  | ignored valid inactive unnamed => exact forall_advance (P := P) listed (listed _)
  | @submitted order l valid inactive named a aggression queues queuesAfter =>
    refine forall_advance (P := P) listed fun _ _ _ zero => ?_
    rw [validateSubmit] at valid
    split_ifs at valid
  | reduced instrument l resting valid rests named price smaller queue queueAfter =>
    exact forall_advance (P := P) listed fun _ _ _ => listed instrument l resting rests
  | replaced instrument l resting price valid rests named limit moved a aggression queues
      queuesAfter =>
    exact forall_advance (P := P) listed fun _ _ _ => listed instrument l resting rests
  | cancelled instrument l resting rests named queue queueAfter =>
    exact forall_setQueue (P := P) listed fun _ _ _ => listed instrument l resting rests

end Market

theorem bestOf_some_of_ne {before after : List RestingOrder} (differ : bestOf before ≠ bestOf after) :
    (∃ order, order ∈ before) ∨ ∃ order, order ∈ after := by
  cases before with
  | cons order rest => exact .inl ⟨order, List.mem_cons_self⟩
  | nil =>
    cases after with
    | cons order rest => exact .inr ⟨order, List.mem_cons_self⟩
    | nil => exact absurd rfl differ

theorem History.Taken.publishable {history : History} {command : Command} {events : List Event}
    {after : Engine} (taken : history.Taken command events after)
    (listed : history.state.market.Listed) (bounded : after.market.Bounded) :
    ∀ event ∈ events, event.Publishable := by
  intro event member
  cases event with
  | bookUpdated instrument direction bestPrice totalSize =>
    obtain ⟨-, l, rfl⟩ := taken.updates_instrument member
    have logged : .bookUpdated instrument l.side bestPrice totalSize ∈
        updatesOf instrument l.side events :=
      List.mem_filter.mpr ⟨member, decide_eq_true ⟨rfl, rfl⟩⟩
    rw [taken.updates_eq, taken.sound.top_eq, taken.afterSound.top_eq] at logged
    split at logged
    next => cases logged
    next differ =>
      have same := List.mem_singleton.mp logged
      rw [updateOf, Event.bookUpdated.injEq] at same
      refine ⟨?_, ⟨l, rfl⟩, ?_⟩
      · rcases bestOf_some_of_ne differ with ⟨order, rests⟩ | ⟨order, rests⟩
        · exact listed instrument l order rests
        · exact taken.step.listed listed instrument l order rests
      · rw [same.2.2.1, same.2.2.2]
        cases best : bestOf (after.market.queue instrument l) with
        | none => exact ⟨fun some => absurd some Bool.false_ne_true, fun positive => absurd rfl positive⟩
        | some top =>
          have positive := bestOf_positive best (bounded instrument l _)
            (taken.afterSound.market.positive instrument l)
          exact ⟨fun _ => positive, fun _ => rfl⟩
  | _ => trivial

/-! ## Runs -/

namespace History

/-- The states of a run, the fresh engine's included. -/
def states (history : History) : List Engine := {} :: history.transitions.map Transition.after

@[simp] theorem push_states (history : History) (command : Command) (events : List Event)
    (after : Engine) : (history.push command events after).states = history.states ++ [after] := by
  simp [states]

/-- What exactness of every state so far means, and gives, in a run. -/
structure Tallied (history : History) : Prop where
  reached : history.state ∈ history.states
  sound : ∀ engine ∈ history.states, engine.Sound
  listed : history.state.market.Listed
  exact_iff : (∀ engine ∈ history.states, engine.ExactTotals) ↔
    ∀ call ∈ history.transitions, call.before.market.Fits call.command
  publishable : (∀ engine ∈ history.states, engine.ExactTotals) →
    ∀ event ∈ history.events, event.Publishable

theorem tallied_initial : ({} : History).Tallied where
  reached := List.mem_singleton.mpr rfl
  sound := List.forall_mem_singleton.mpr Engine.initial_sound
  listed _ _ _ rests := by cases rests
  exact_iff := by
    refine ⟨fun _ => by simp, fun _ engine member => ?_⟩
    rw [List.mem_singleton.mp member]
    intro instrument book found
    cases found
  publishable _ := by simp [events]

theorem Taken.tallied {history : History} {command : Command} {events : List Event} {after : Engine}
    (taken : history.Taken command events after) (tallied : history.Tallied) :
    (history.push command events after).Tallied where
  reached := by simp
  sound := by
    simp only [push_states, List.forall_mem_append, List.forall_mem_singleton]
    exact ⟨tallied.sound, taken.afterSound⟩
  listed := taken.step.listed tallied.listed
  exact_iff := by
    simp only [push_states, push_transitions, List.forall_mem_append, List.forall_mem_singleton]
    rw [← tallied.exact_iff, and_congr_right_iff]
    intro exact
    rw [taken.afterSound.exactTotals_iff]
    exact taken.step.bounded_iff taken.sound.market
      (taken.sound.exactTotals_iff.mp (exact _ tallied.reached))
  publishable := by
    simp only [push_states, push_events, List.forall_mem_append, List.forall_mem_singleton]
    rintro ⟨exact, afterExact⟩
    exact ⟨tallied.publishable exact,
      taken.publishable tallied.listed (taken.afterSound.exactTotals_iff.mp afterExact)⟩

theorem tallied_run (commands : List Command) :
    ∃ history, run commands = .ok history ∧ history.Tallied := by
  obtain ⟨history, ran, -, -, tallied⟩ := run_induct (P := Tallied) tallied_initial
    (fun _ _ _ _ taken tallied => taken.tallied tallied) commands
  exact ⟨history, ran, tallied⟩

theorem Tallied.exact_iff_bounded {history : History} (tallied : history.Tallied) :
    (∀ engine ∈ history.states, engine.ExactTotals) ↔
      ∀ engine ∈ history.states, engine.market.Bounded :=
  forall₂_congr fun engine member => (tallied.sound engine member).exactTotals_iff

end History
end MarketLab.Matching

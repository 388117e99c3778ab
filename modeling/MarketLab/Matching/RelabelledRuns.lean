import MarketLab.Matching.Determinism
import MarketLab.Matching.Relabelling

/-!
# Relabelled runs

Two engines are compared on some keys and some instruments: those keys rest for those
instruments and no others. A run of any commands and the run of the relabelled commands of
those keys then go on alike there, whatever the rest of the first run does.
-/
namespace MarketLab.Matching
open MarketLab.Collections

/-- The keys and the instruments two runs are compared on. -/
structure Scope where
  keys : OrderKey → Prop
  instruments : SymbolId → Prop

namespace Scope

/-- A submit names both or neither. -/
def Fits (scope : Scope) : Command → Prop
  | .submit order => scope.keys order.key ↔ scope.instruments order.instrument
  | .update _ => True
  | .cancel _ => True

end Scope

/-- The keys rest for the instruments, and no other key does. -/
def Market.Keeps (m : Market) (scope : Scope) : Prop :=
  ∀ instrument l, ∀ order ∈ m.queue instrument l,
    (scope.keys order.key ↔ scope.instruments instrument)

namespace Market
variable {m after : Market} {scope : Scope} {command : Command} {events : List Event}

/-- What rests after an aggression rested before it, or is its remainder. -/
theorem mem_aggression {l side : Ladder} {key : OrderKey} {size : Quantity}
    {pricing : OrderPricing} {own opposite : List RestingOrder} {order : RestingOrder}
    (rests : order ∈ (aggress l (m.incoming key l size) pricing opposite).queues l own side) :
    order.key = key ∨ (∃ was ∈ own, was.key = order.key) ∨ ∃ was ∈ opposite, was.key = order.key := by
  rcases Ladder.eq_or_eq_opposite l side with rfl | rfl
  · rw [Aggression.queues_self, Aggression.own] at rests
    split at rests
    next pushed placed =>
      rw [enqueue, List.mem_orderedInsert] at rests
      rcases rests with rfl | member
      · obtain ⟨-, -, named⟩ := remainder_some placed
        left
        rw [named, incoming_key]
      · exact Or.inr (Or.inl ⟨order, member, rfl⟩)
    next => exact Or.inr (Or.inl ⟨order, rests, rfl⟩)
  · rw [Aggression.queues_opposite] at rests
    have split := sweep_ident (fun resting => l.canCross pricing resting.limitPrice)
      RestingOrder.key (fun _ _ => rfl) size.value opposite
    have member : order.key ∈ opposite.map RestingOrder.key := by
      rw [split]
      exact List.mem_append_right _ (List.mem_map_of_mem rests)
    exact Or.inr (Or.inr (List.mem_map.mp member))

theorem Step.keeps (step : m.Step command events after) (keeps : m.Keeps scope)
    (fits : scope.Fits command) : after.Keeps scope := by
  let P := fun (instrument : SymbolId) (queues : Queues) =>
    ∀ l, ∀ order ∈ queues l, (scope.keys order.key ↔ scope.instruments instrument)
  have held : ∀ instrument, P instrument (m.queue instrument) := keeps
  cases step with
  | refused refusal => exact keeps
  | ignored valid inactive unnamed => exact forall_advance held (held _)
  | @submitted order l valid inactive named a aggression queues queuesAfter =>
    refine forall_advance held fun side resting rests => ?_
    rw [queuesAfter, aggression] at rests
    rcases mem_aggression rests with same | ⟨was, member, same⟩ | ⟨was, member, same⟩
    · rw [same]
      exact fits
    · exact same ▸ keeps _ _ was member
    · exact same ▸ keeps _ _ was member
  | @reduced order instrument l resting valid rests named price smaller queue queueAfter =>
    refine forall_advance held fun side other restsToo => ?_
    by_cases here : side = l
    · subst here
      rw [Function.update_self, queueAfter] at restsToo
      obtain ⟨was, member, rfl⟩ := List.mem_map.mp restsToo
      have sameKey : (if was.key = order.key then { was with openSize := order.size }
          else was).key = was.key := by split <;> rfl
      rw [sameKey]
      exact keeps _ _ was member
    · rw [Function.update_of_ne here] at restsToo
      exact keeps _ _ other restsToo
  | @replaced order instrument l resting price valid rests named limit moved a aggression queues
      queuesAfter =>
    refine forall_advance held fun side other restsToo => ?_
    rw [queuesAfter, aggression] at restsToo
    rcases mem_aggression restsToo with same | ⟨was, member, same⟩ | ⟨was, member, same⟩
    · rw [same, ← named]
      exact keeps _ _ resting rests
    · exact same ▸ keeps _ _ was (List.mem_of_mem_filter member)
    · exact same ▸ keeps _ _ was member
  | cancelled instrument l resting rests named queue queueAfter =>
    refine forall_setQueue held fun side other restsToo => ?_
    by_cases here : side = l
    · subst here
      rw [Function.update_self, queueAfter] at restsToo
      exact keeps _ _ other (List.mem_of_mem_filter restsToo)
    · rw [Function.update_of_ne here] at restsToo
      exact keeps _ _ other restsToo

/-- A command of another key leaves the instruments alone. -/
theorem Step.outside (step : m.Step command events after) (keeps : m.Keeps scope)
    (fits : scope.Fits command) (outside : ¬ scope.keys command.key) (instrument : SymbolId)
    (within : scope.instruments instrument) : after.books instrument = m.books instrument := by
  have elsewhere : ∀ {other : SymbolId} {l : Ladder} {resting : RestingOrder},
      resting ∈ m.queue other l → resting.key = command.key → instrument ≠ other := by
    rintro other l resting rests named rfl
    exact outside (named ▸ (keeps instrument l resting rests).mpr within)
  cases step with
  | refused refusal => rfl
  | @ignored order valid inactive unnamed =>
    have other : instrument ≠ order.instrument := by
      rintro rfl
      exact outside (Iff.mpr fits within)
    exact Function.update_of_ne other _ _
  | @submitted order l valid inactive named a aggression queues queuesAfter =>
    have other : instrument ≠ order.instrument := by
      rintro rfl
      exact outside (Iff.mpr fits within)
    exact Function.update_of_ne other _ _
  | reduced other l resting valid rests named price smaller queue queueAfter =>
    exact Function.update_of_ne (elsewhere rests named) _ _
  | replaced other l resting price valid rests named limit moved a aggression queues queuesAfter =>
    exact Function.update_of_ne (elsewhere rests named) _ _
  | cancelled other l resting rests named queue queueAfter =>
    exact Function.update_of_ne (elsewhere rests named) _ _

end Market

namespace Relabelling

/-- The relabelled events of one command; where the sides are exchanged, the two updates that
end the response to a submit may be exchanged too. -/
inductive Answers (r : Relabelling) : Command → List Event → List Event → Prop
  | same (command : Command) (events : List Event) : Answers r command events (events.map r.event)
  | exchanged (swaps : r.ladder .bids = .asks) (order : SubmitOrder) (events : List Event)
      (bids asks : Option TopOfBookState) :
      Answers r (.submit order)
        (events ++ [updateOf order.instrument .bids bids, updateOf order.instrument .asks asks])
        ((events ++
          [updateOf order.instrument .asks asks, updateOf order.instrument .bids bids]).map r.event)

/-- The second market is the first under its new labels, on the instruments of the scope. -/
structure Alike (r : Relabelling) (scope : Scope) (m n : Market) : Prop where
  opened : ∀ instrument, scope.instruments instrument →
    (n.books instrument).isSome = (m.books instrument).isSome
  queues : ∀ instrument, scope.instruments instrument → ∀ l,
    r.Like (m.queue instrument l) (n.queue instrument (r.ladder l))
  stamps : r.stamp n.nextSequence = r.stamp m.nextSequence

namespace Alike
variable {r : Relabelling} {scope : Scope} {m n : Market}

theorem active (alike : r.Alike scope m n) (keeps : m.Keeps scope) (keepsToo : n.Keeps scope)
    {key : OrderKey} (within : scope.keys key) : n.Active key ↔ m.Active key := by
  constructor
  · rintro ⟨instrument, l, order, rests, rfl⟩
    have like := alike.queues instrument ((keepsToo _ _ _ rests).mp within) (r.ladder l)
    rw [r.ladder_ladder] at like
    obtain ⟨same, restsToo, faces⟩ := like.mem_back rests
    exact ⟨instrument, _, same, restsToo, (same_order faces).1.symm⟩
  · rintro ⟨instrument, l, order, rests, rfl⟩
    obtain ⟨same, restsToo, faces⟩ :=
      (alike.queues instrument ((keeps _ _ _ rests).mp within) l).mem rests
    exact ⟨instrument, _, same, restsToo, (same_order faces).1⟩

theorem refuses (alike : r.Alike scope m n) (keeps : m.Keeps scope) (keepsToo : n.Keeps scope)
    {command : Command} {event : Event} (refusal : m.Refuses command event)
    (within : scope.keys command.key) :
    n.Refuses (r.command command) event ∧ r.event event = event := by
  have active := alike.active keeps keepsToo within
  cases refusal with
  | submitInvalid invalid =>
    exact ⟨.submitInvalid ((r.validateSubmit_submitOrder _).trans invalid), rfl⟩
  | submitActive valid resting =>
    exact ⟨.submitActive ((r.validateSubmit_submitOrder _).trans valid) (active.mpr resting), rfl⟩
  | updateInvalid invalid =>
    exact ⟨.updateInvalid ((r.validateUpdate_updateOrder _).trans invalid), rfl⟩
  | updateInactive valid inactive =>
    exact ⟨.updateInactive ((r.validateUpdate_updateOrder _).trans valid)
      fun resting => inactive (active.mp resting), rfl⟩
  | cancelInactive inactive =>
    exact ⟨.cancelInactive fun resting => inactive (active.mp resting), rfl⟩

variable {instrument : SymbolId}

theorem advance (alike : r.Alike scope m n) {queues others : Queues}
    (like : ∀ l, r.Like (queues l) (others (r.ladder l))) :
    r.Alike scope (m.advance instrument queues) (n.advance instrument others) where
  opened other within := by
    by_cases here : other = instrument
    · simp [Market.advance, here]
    · simpa [Market.advance, here] using alike.opened other within
  queues other within l := by
    rw [Market.queue_advance, Market.queue_advance]
    split
    · exact like l
    · exact alike.queues other within l
  stamps := r.next _ _ alike.stamps

/-- Replacing one queue by an alike one. -/
theorem update (alike : r.Alike scope m n) (within : scope.instruments instrument) {l : Ladder}
    {queue other : List RestingOrder} (like : r.Like queue other) (side : Ladder) :
    r.Like (Function.update (m.queue instrument) l queue side)
      (Function.update (n.queue instrument) (r.ladder l) other (r.ladder side)) := by
  by_cases here : side = l
  · rw [here, Function.update_self, Function.update_self]
    exact like
  · rw [Function.update_of_ne here, Function.update_of_ne (r.ladder_injective.ne here)]
    exact alike.queues instrument within side

theorem setQueue (alike : r.Alike scope m n) (within : scope.instruments instrument) {l : Ladder}
    {queue other : List RestingOrder} (like : r.Like queue other) :
    r.Alike scope (m.setQueue instrument l queue) (n.setQueue instrument (r.ladder l) other) where
  opened := (alike.advance (alike.update within like)).opened
  queues := (alike.advance (alike.update within like)).queues
  stamps := alike.stamps

/-- The two updates a submit's response ends with, in the order of the other side. -/
theorem answers_submit (order : SubmitOrder) (front : List Event)
    {before after othersBefore othersAfter : Queues}
    (like : ∀ l, r.Like (before l) (othersBefore (r.ladder l)))
    (likeAfter : ∀ l, r.Like (after l) (othersAfter (r.ladder l))) :
    r.Answers (.submit order)
      (front ++ bookChange order.instrument .bids (before .bids) (after .bids) ++
        bookChange order.instrument .asks (before .asks) (after .asks))
      (front.map r.event ++
        bookChange order.instrument .bids (othersBefore .bids) (othersAfter .bids) ++
        bookChange order.instrument .asks (othersBefore .asks) (othersAfter .asks)) := by
  have bids := (like .bids).bookChange (likeAfter .bids) order.instrument .bids
  have asks := (like .asks).bookChange (likeAfter .asks) order.instrument .asks
  rcases r.ladder_cases with kept | exchanged
  · rw [kept] at bids asks
    rw [bids, asks, ← List.map_append, ← List.map_append]
    exact .same _ _
  · rw [exchanged] at bids asks
    dsimp only [Ladder.opposite] at bids asks
    rw [bids, asks, ← List.map_append, ← List.map_append, List.append_assoc, List.append_assoc]
    rw [bookChange_eq, bookChange_eq]
    split
    · rw [List.nil_append, List.append_nil]
      exact .same _ _
    · split
      · rw [List.append_nil, List.nil_append]
        exact .same _ _
      · exact .exchanged (exchanged .bids) order front _ _

/-- The two updates of an order that was matched again come own side first. -/
theorem answers_update (order : UpdateOrder) (instrument : SymbolId) (l : Ladder)
    (front : List Event) {before after othersBefore othersAfter : Queues}
    (like : ∀ l, r.Like (before l) (othersBefore (r.ladder l)))
    (likeAfter : ∀ l, r.Like (after l) (othersAfter (r.ladder l))) :
    r.Answers (.update order)
      (front ++ bookChange instrument l (before l) (after l) ++
        bookChange instrument l.opposite (before l.opposite) (after l.opposite))
      (front.map r.event ++
        bookChange instrument (r.ladder l) (othersBefore (r.ladder l)) (othersAfter (r.ladder l)) ++
        bookChange instrument (r.ladder l).opposite (othersBefore (r.ladder l).opposite)
          (othersAfter (r.ladder l).opposite)) := by
  rw [← r.opposite, (like l).bookChange (likeAfter l),
    (like l.opposite).bookChange (likeAfter l.opposite), ← List.map_append, ← List.map_append]
  exact .same _ _

/-- A command of the scope has the same effect on alike markets. -/
theorem step (alike : r.Alike scope m n) (keeps : m.Keeps scope) (keepsToo : n.Keeps scope)
    {command : Command} {events : List Event} {after : Market}
    (step : m.Step command events after) (within : scope.keys command.key)
    (fits : scope.Fits command) :
    ∃ others reached, n.Step (r.command command) others reached ∧
      r.Answers command events others ∧ r.Alike scope after reached := by
  -- An order the command names rests in both markets, and for an instrument of the scope.
  have resting : ∀ {instrument : SymbolId} {l : Ladder} {order : RestingOrder},
      order ∈ m.queue instrument l → order.key = command.key →
        scope.instruments instrument ∧ ∃ same ∈ n.queue instrument (r.ladder l),
          same.key = command.key ∧ same.limitPrice = r.price order.limitPrice ∧
            same.openSize = order.openSize := by
    intro instrument l order rests named
    have here := (keeps _ _ _ rests).mp (named ▸ within)
    obtain ⟨same, restsToo, faces⟩ := (alike.queues instrument here l).mem rests
    obtain ⟨sameKey, priced, sized⟩ := same_order faces
    exact ⟨here, same, restsToo, sameKey.trans named, priced, sized⟩
  cases step with
  | @refused _ event refusal =>
    obtain ⟨refusalToo, same⟩ := alike.refuses keeps keepsToo refusal within
    have answers : r.Answers command [event] ([event].map r.event) := .same command [event]
    rw [List.map_singleton, same] at answers
    exact ⟨_, n, .refused refusalToo, answers, alike⟩
  | @ignored order valid inactive unnamed =>
    have here : scope.instruments order.instrument := Iff.mp fits within
    have active := alike.active keeps keepsToo within
    exact ⟨[], _, .ignored valid (fun rests => inactive (active.mp rests)) (r.side_ne unnamed),
      .same _ [], alike.advance (alike.queues _ here)⟩
  | @submitted order l valid inactive named a aggression queues queuesAfter =>
    subst aggression queuesAfter
    have here : scope.instruments order.instrument := Iff.mp fits within
    have active := alike.active keeps keepsToo within
    have opposite := alike.queues _ here l.opposite
    rw [r.opposite] at opposite
    have aggresses := opposite.aggress alike.stamps order.key l order.size order.pricing
    have likeAfter := aggresses.queues (alike.queues _ here l) l
    have answers := answers_submit order
      (.submitAccepted order.key :: (aggress l (m.incoming order.key l order.size) order.pricing
        (m.queue order.instrument l.opposite)).trades order.instrument order.key)
      (alike.queues _ here) likeAfter
    rw [List.map_cons, ← aggresses.trades] at answers
    have sameSide : r.side order.direction = (r.ladder l).side := by rw [named, r.side_side]
    exact ⟨_, _, @Market.Step.submitted n (r.submitOrder order) (r.ladder l) valid
      (fun rests => inactive (active.mp rests)) sameSide _ rfl _ rfl, answers,
      alike.advance likeAfter⟩
  | @reduced order instrument l order' valid rests named price smaller queue queueAfter =>
    subst queueAfter
    obtain ⟨here, same, restsToo, namedToo, priced, sized⟩ := resting rests named
    have likeAfter := (alike.queues _ here l).resize order.key order.size
    have samePrice : limitPrice (r.pricing order.pricing) = some same.limitPrice := by
      rw [limitPrice_pricing, price, priced, Option.map_some]
    have answers := Answers.same (r := r) (.update order) (.updateAccepted order.key ::
      bookChange instrument l (m.queue instrument l) ((m.queue instrument l).map fun other =>
        if other.key = order.key then { other with openSize := order.size } else other))
    rw [List.map_cons, ← (alike.queues _ here l).bookChange likeAfter] at answers
    exact ⟨_, _, @Market.Step.reduced n (r.updateOrder order) instrument (r.ladder l) same
      ((r.validateUpdate_updateOrder order).trans valid) restsToo namedToo samePrice
      (sized ▸ smaller) _ rfl, answers, alike.advance (alike.update here likeAfter)⟩
  | @replaced order instrument l order' price valid rests named limit moved a aggression queues
      queuesAfter =>
    subst aggression queuesAfter
    obtain ⟨here, same, restsToo, namedToo, priced, sized⟩ := resting rests named
    have opposite := alike.queues _ here l.opposite
    rw [r.opposite] at opposite
    have aggresses := opposite.aggress alike.stamps order.key l order.size order.pricing
    have likeAfter := aggresses.queues ((alike.queues _ here l).filter order.key) l
    have sameLimit : limitPrice (r.pricing order.pricing) = some (r.price price) := by
      rw [limitPrice_pricing, limit, Option.map_some]
    have movedToo : r.price price ≠ same.limitPrice ∨ same.openSize.value < order.size.value := by
      rw [priced, sized]
      exact moved.imp_left r.price_injective.ne
    have answers := answers_update order instrument l
      (.updateAccepted order.key :: (aggress l (m.incoming order.key l order.size) order.pricing
        (m.queue instrument l.opposite)).trades instrument order.key)
      (alike.queues _ here) likeAfter
    rw [List.map_cons, ← aggresses.trades] at answers
    exact ⟨_, _, @Market.Step.replaced n (r.updateOrder order) instrument (r.ladder l) same
      (r.price price) ((r.validateUpdate_updateOrder order).trans valid) restsToo namedToo sameLimit
      movedToo _ rfl _ rfl, answers, alike.advance likeAfter⟩
  | @cancelled order instrument l order' rests named queue queueAfter =>
    subst queueAfter
    obtain ⟨here, same, restsToo, namedToo, -, -⟩ := resting rests named
    have likeAfter := (alike.queues _ here l).filter order.key
    have answers := Answers.same (r := r) (.cancel order) (.orderCancelled order.key ::
      bookChange instrument l (m.queue instrument l)
        ((m.queue instrument l).filter fun other => other.key ≠ order.key))
    rw [List.map_cons, ← (alike.queues _ here l).bookChange likeAfter] at answers
    exact ⟨_, _, @Market.Step.cancelled n order instrument (r.ladder l) same restsToo namedToo _ rfl,
      answers, alike.setQueue here likeAfter⟩

/-- A command of another key changes nothing that is compared, where no stamp is. -/
theorem outside (alike : r.Alike scope m n) (keeps : m.Keeps scope) {command : Command}
    {events : List Event} {after : Market} (step : m.Step command events after)
    (fits : scope.Fits command) (other : ¬ scope.keys command.key)
    (unstamped : ∀ s t, r.stamp s = r.stamp t) : r.Alike scope after n where
  opened instrument within := by
    rw [step.outside keeps fits other instrument within]
    exact alike.opened instrument within
  queues instrument within l := by
    rw [Market.queue, step.outside keeps fits other instrument within]
    exact alike.queues instrument within l
  stamps := unstamped _ _

end Alike

variable (r : Relabelling) (scope : Scope) [DecidablePred scope.keys]

/-- A run of any commands, and the run of the relabelled commands of the scope. -/
theorem run_alike (commands : List Command) (fits : ∀ command ∈ commands, scope.Fits command)
    (unseen : (∀ key, scope.keys key) ∨ ∀ s t, r.stamp s = r.stamp t) :
    ∃ whole own, History.run commands = .ok whole ∧
      History.run ((commands.filter fun command => scope.keys command.key).map r.command) =
        .ok own ∧
      whole.state.Sound ∧ own.state.Sound ∧ r.Alike scope whole.state.market own.state.market ∧
      List.Forall₂ (fun call other => other.command = r.command call.command ∧
          r.Answers call.command call.events other.events)
        (whole.transitions.filter fun call => scope.keys call.command.key) own.transitions := by
  suffices extended : ∃ whole own, History.run commands = .ok whole ∧
      History.run ((commands.filter fun command => scope.keys command.key).map r.command) =
        .ok own ∧
      whole.state.Sound ∧ own.state.Sound ∧ r.Alike scope whole.state.market own.state.market ∧
      List.Forall₂ (fun call other => other.command = r.command call.command ∧
          r.Answers call.command call.events other.events)
        (whole.transitions.filter fun call => scope.keys call.command.key) own.transitions ∧
      whole.state.market.Keeps scope ∧ own.state.market.Keeps scope by
    obtain ⟨whole, own, ran, ranToo, sound, soundToo, alike, answers, -, -⟩ := extended
    exact ⟨whole, own, ran, ranToo, sound, soundToo, alike, answers⟩
  induction commands using List.reverseRecOn with
  | nil =>
    exact ⟨{}, {}, rfl, rfl, Engine.initial_sound, Engine.initial_sound,
      ⟨fun _ _ => rfl, fun _ _ _ => rfl, rfl⟩, .nil, fun _ _ _ => (nomatch ·),
      fun _ _ _ => (nomatch ·)⟩
  | append_singleton commands command ih =>
    obtain ⟨whole, own, ran, ranToo, sound, soundToo, alike, answers, keeps, keepsToo⟩ :=
      ih fun earlier member => fits earlier (List.mem_append_left _ member)
    have fit := fits command (by simp)
    obtain ⟨after, events, applied, afterSound, taken⟩ := Engine.apply_step sound command
    have ranOn : History.run (commands ++ [command]) = .ok (whole.push command events after) :=
      History.run_push ran applied
    by_cases within : scope.keys command.key
    · obtain ⟨others, reached, takenToo, answer, alikeAfter⟩ :=
        alike.step keeps keepsToo taken within fit
      obtain ⟨otherAfter, appliedToo, otherSound, rfl⟩ := Engine.apply_of_step soundToo takenToo
      refine ⟨_, own.push (r.command command) others otherAfter, ranOn, ?_, afterSound, otherSound,
        alikeAfter, ?_, taken.keeps keeps fit, takenToo.keeps keepsToo ?_⟩
      · simpa [within] using History.run_push ranToo appliedToo
      · simpa [within] using List.rel_append answers (.cons ⟨rfl, answer⟩ .nil)
      · cases command <;> exact fit
    · have seen := unseen.resolve_left fun all => within (all _)
      refine ⟨_, own, ranOn, ?_, afterSound, soundToo, alike.outside keeps taken fit within seen, ?_,
        taken.keeps keeps fit, keepsToo⟩
      · simpa [within] using ranToo
      · simpa [within] using answers

end Relabelling
end MarketLab.Matching

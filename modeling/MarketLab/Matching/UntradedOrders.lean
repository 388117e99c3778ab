import MarketLab.Matching.SymbolIsolation
import MarketLab.Matching.UpdateRefinement

/-!
# Orders that never trade

Whether an order rests or not cannot be told from what happens to the others as long as it does
not trade: they get the same answers and trades, and rest in the same order. Only the tops of
books can tell.
-/
namespace MarketLab.Matching
open MarketLab.Collections

/-- Inserting commutes with taking items out, where those an item goes in front of are behind the
others. -/
theorem orderedInsert_filter {α : Type} {goesBefore : α → α → Prop} [DecidableRel goesBefore]
    (keeps : α → Bool) {item : α} {items : List α}
    (sorted : items.Pairwise fun ahead behind => goesBefore item ahead → goesBefore item behind) :
    (items.orderedInsert goesBefore item).filter keeps =
      if keeps item then (items.filter keeps).orderedInsert goesBefore item
      else items.filter keeps := by
  induction items with
  | nil => cases kept : keeps item <;> simp [kept]
  | cons front items ih =>
    obtain ⟨ahead, rest⟩ := List.pairwise_cons.mp sorted
    by_cases before : goesBefore item front
    · rw [List.orderedInsert_cons_of_le _ _ before]
      cases kept : keeps item with
      | false => rw [List.filter_cons_of_neg (by simp [kept])]; rfl
      | true =>
        rw [List.filter_cons_of_pos kept, if_pos rfl]
        cases inside : (front :: items).filter keeps with
        | nil => rfl
        | cons first others =>
          have member : first ∈ front :: items :=
            List.mem_of_mem_filter (inside ▸ List.mem_cons_self)
          have behind : goesBefore item first := by
            rcases List.mem_cons.mp member with rfl | later
            · exact before
            · exact ahead first later before
          rw [List.orderedInsert_cons_of_le _ _ behind]
    · rw [List.orderedInsert_of_not_le _ _ before]
      cases stays : keeps front with
      | false =>
        rw [List.filter_cons_of_neg (by simp [stays]), List.filter_cons_of_neg (by simp [stays]), ih rest]
      | true =>
        rw [List.filter_cons_of_pos stays, List.filter_cons_of_pos stays, ih rest]
        split
        · rw [List.orderedInsert_of_not_le _ _ before]
        · rfl


theorem enqueue_filter {l : Ladder} (keeps : RestingOrder → Bool) (order : RestingOrder)
    {queue : List RestingOrder}
    (sorted : queue.Pairwise fun ahead behind => ¬ l.Before behind.limitPrice ahead.limitPrice) :
    (enqueue l order queue).filter keeps =
      if keeps order then enqueue l order (queue.filter keeps) else queue.filter keeps := by
  unfold enqueue
  apply orderedInsert_filter
  refine sorted.imp fun {ahead behind} notBefore before => ?_
  rcases trichotomous_of l.Before ahead.limitPrice behind.limitPrice with less | same | more
  · exact trans_of l.Before before less
  · exact same ▸ before
  · exact absurd more notBefore

/-- The answer and the trades of a command, without the tops of books. -/
def reports (events : List Event) : List Event :=
  events.filter fun
    | .bookUpdated .. => false
    | _ => true

@[simp] theorem reports_append (front back : List Event) :
    reports (front ++ back) = reports front ++ reports back := List.filter_append ..

@[simp] theorem reports_bookChange (instrument : SymbolId) (l : Ladder)
    (before after : List RestingOrder) : reports (bookChange instrument l before after) = [] := by
  apply List.filter_eq_nil_iff.mpr
  intro event member
  obtain ⟨-, rfl⟩ := mem_bookChange.mp member
  exact Bool.false_ne_true

theorem reports_change (answer : Event) (instrument : SymbolId) (l : Ladder)
    (before after : List RestingOrder) :
    reports (answer :: bookChange instrument l before after) = reports [answer] := by
  rw [← List.singleton_append, reports_append, reports_bookChange, List.append_nil]

section Unseen
variable (unseen : OrderKey → Bool)

/-- No trade names an unseen key. -/
def Untraded (events : List Event) : Prop :=
  ∀ aggressor resting instrument executionPrice executedSize,
    .tradeExecuted aggressor resting instrument executionPrice executedSize ∈ events →
      unseen aggressor = false ∧ unseen resting = false

/-- The orders of a queue with seen keys. -/
def seenIn (queue : List RestingOrder) : List RestingOrder :=
  queue.filter fun order => !unseen order.key

/-- The second market has the seen orders of the first one. -/
def Untraced (m n : Market) : Prop :=
  ∀ instrument l, unstamped.Like (seenIn unseen (m.queue instrument l)) (n.queue instrument l)

variable {unseen} {m n after : Market} {command : Command} {events : List Event}

theorem Untraded.sublist {others : List Event} (untraded : Untraded unseen events)
    (among : ∀ event ∈ others, event ∈ events) : Untraded unseen others :=
  fun aggressor resting instrument price size member =>
    untraded aggressor resting instrument price size (among _ member)

/-- An aggression that trades with seen orders only. -/
theorem aggress_seen {l : Ladder} (incoming : IncomingOrder) (pricing : OrderPricing)
    {opposite : List RestingOrder}
    (sorted : opposite.Pairwise
      fun ahead behind => ¬ l.opposite.Before behind.limitPrice ahead.limitPrice)
    {a : Aggression} (aggression : a = aggress l incoming pricing opposite)
    (seen : ∀ fill ∈ a.outcome.fills, unseen fill.1.key = false) :
    aggress l incoming pricing (seenIn unseen opposite) =
      { outcome := { a.outcome with rest := seenIn unseen a.outcome.rest }, rests := a.rests } := by
  subst aggression
  have swept := sweep_filter (fun resting : RestingOrder => l.canCross pricing resting.limitPrice)
    (fun order => !unseen order.key) (fun _ _ => rfl) incoming.openSize.value opposite
    (canCross_ends sorted) fun fill member => by rw [seen fill member]; rfl
  unfold aggress
  rw [seenIn, swept]
  rfl

/-- The queues behind an aggression of a seen key. -/
theorem queues_seen {l : Ladder} {a b : Aggression} {own : List RestingOrder}
    (sorted : own.Pairwise fun ahead behind => ¬ l.Before behind.limitPrice ahead.limitPrice)
    (rests : ∀ order, a.rests = some order → unseen order.key = false)
    (seen : b = { outcome := { a.outcome with rest := seenIn unseen a.outcome.rest }, rests := a.rests })
    (side : Ladder) :
    b.queues l (seenIn unseen own) side = seenIn unseen (a.queues l own side) := by
  subst seen
  rcases Ladder.eq_or_eq_opposite l side with rfl | rfl
  · rw [Aggression.queues_self, Aggression.queues_self, Aggression.own, Aggression.own]
    cases placed : a.rests with
    | none => rfl
    | some order =>
      simp only [seenIn]
      rw [enqueue_filter _ order sorted, rests order placed]
      rfl
  · rw [Aggression.queues_opposite, Aggression.queues_opposite]

theorem Untraded.fills {a : Aggression} {instrument : SymbolId} {aggressor : OrderKey}
    (untraded : Untraded unseen (a.trades instrument aggressor)) {fill : RestingOrder × UInt64}
    (made : fill ∈ a.outcome.fills) : unseen aggressor = false ∧ unseen fill.1.key = false :=
  untraded _ _ _ _ _ (Aggression.mem_trades.mpr ⟨fill, made, rfl⟩)

/-- An order of a seen key goes through both markets alike. -/
theorem aggression_untraced {l : Ladder} {key : OrderKey} {size : Quantity} {pricing : OrderPricing}
    {instrument : SymbolId} {own opposite ownToo oppositeToo : List RestingOrder}
    (seen : unseen key = false)
    (sorted : own.Pairwise fun ahead behind => ¬ l.Before behind.limitPrice ahead.limitPrice)
    (sortedToo : opposite.Pairwise
      fun ahead behind => ¬ l.opposite.Before behind.limitPrice ahead.limitPrice)
    (like : unstamped.Like (seenIn unseen own) ownToo)
    (likeToo : unstamped.Like (seenIn unseen opposite) oppositeToo) {a : Aggression}
    (aggression : a = aggress l (m.incoming key l size) pricing opposite)
    (untraded : Untraded unseen (a.trades instrument key)) :
    let b := aggress l (n.incoming key l size) pricing oppositeToo
    b.trades instrument key = a.trades instrument key ∧
      ∀ side, unstamped.Like (seenIn unseen (a.queues l own side)) (b.queues l ownToo side) := by
  intro b
  have same := aggress_seen _ _ sortedToo aggression fun fill made => (untraded.fills made).2
  have aggresses : unstamped.Aggresses
      (aggress l (m.incoming key l size) pricing (seenIn unseen opposite)) b := by
    have likes := likeToo.aggress (m := m) (n := n) rfl key l size pricing
    rwa [unstamped_pricing] at likes
  have rests : ∀ order, a.rests = some order → unseen order.key = false := by
    intro order placed
    rw [aggression] at placed
    obtain ⟨-, -, named⟩ := remainder_some placed
    rw [named]
    exact seen
  constructor
  · have trades := aggresses.trades instrument key
    rw [unstamped_event, List.map_id, same] at trades
    exact trades
  · intro side
    have queues := aggresses.queues like l side
    rwa [queues_seen sorted rests same] at queues

/-! ## One command -/

theorem Untraced.active (untraced : Untraced unseen m n) {key : OrderKey} (seen : unseen key = false) :
    n.Active key ↔ m.Active key := by
  constructor
  · rintro ⟨instrument, l, order, rests, rfl⟩
    obtain ⟨resting, inside, faces⟩ := (untraced instrument l).mem_back rests
    exact ⟨instrument, l, resting, List.mem_of_mem_filter inside, (Relabelling.same_order faces).1.symm⟩
  · rintro ⟨instrument, l, order, rests, rfl⟩
    have inside : order ∈ seenIn unseen (m.queue instrument l) :=
      List.mem_filter.mpr ⟨rests, by rw [seen]; rfl⟩
    obtain ⟨same, restsToo, faces⟩ := (untraced instrument l).mem inside
    exact ⟨instrument, l, same, restsToo, (Relabelling.same_order faces).1⟩

/-- A seen order that rests in the first market rests in the second one. -/
theorem Untraced.resting (untraced : Untraced unseen m n) {instrument : SymbolId} {l : Ladder}
    {order : RestingOrder} (rests : order ∈ m.queue instrument l) (seen : unseen order.key = false) :
    ∃ same ∈ n.queue instrument l, same.key = order.key ∧ same.limitPrice = order.limitPrice ∧
      same.openSize = order.openSize := by
  have inside : order ∈ seenIn unseen (m.queue instrument l) :=
    List.mem_filter.mpr ⟨rests, by rw [seen]; rfl⟩
  obtain ⟨same, restsToo, faces⟩ := (untraced instrument l).mem inside
  exact ⟨same, restsToo, Relabelling.same_order faces⟩

theorem Untraced.refuses (untraced : Untraced unseen m n) {event : Event}
    (refusal : m.Refuses command event) (seen : unseen command.key = false) :
    n.Refuses command event := by
  have active := untraced.active seen
  cases refusal with
  | submitInvalid invalid => exact .submitInvalid invalid
  | submitActive valid resting => exact .submitActive valid (active.mpr resting)
  | updateInvalid invalid => exact .updateInvalid invalid
  | updateInactive valid inactive =>
    exact .updateInactive valid fun resting => inactive (active.mp resting)
  | cancelInactive inactive => exact .cancelInactive fun resting => inactive (active.mp resting)

theorem Untraced.advance (untraced : Untraced unseen m n) {instrument : SymbolId}
    {queues others : Queues} (like : ∀ l, unstamped.Like (seenIn unseen (queues l)) (others l)) :
    Untraced unseen (m.advance instrument queues) (n.advance instrument others) := by
  intro other l
  rw [Market.queue_advance, Market.queue_advance]
  split
  · exact like l
  · exact untraced other l

theorem Untraced.update (untraced : Untraced unseen m n) {instrument : SymbolId} {l : Ladder}
    {queue other : List RestingOrder} (like : unstamped.Like (seenIn unseen queue) other)
    (side : Ladder) : unstamped.Like
      (seenIn unseen (Function.update (m.queue instrument) l queue side))
      (Function.update (n.queue instrument) l other side) := by
  by_cases here : side = l
  · rw [here, Function.update_self, Function.update_self]
    exact like
  · rw [Function.update_of_ne here, Function.update_of_ne here]
    exact untraced instrument side

/-- What a command of a seen key does to the queue it names. -/
theorem seenIn_filter (key : OrderKey) (queue : List RestingOrder) :
    seenIn unseen (queue.filter fun order => order.key ≠ key) =
      (seenIn unseen queue).filter fun order => order.key ≠ key := by
  unfold seenIn
  rw [List.filter_filter, List.filter_filter]
  exact List.filter_congr fun order _ => Bool.and_comm _ _

theorem seenIn_resize (key : OrderKey) (size : Quantity) (queue : List RestingOrder) :
    seenIn unseen (queue.map fun order =>
        if order.key = key then { order with openSize := size } else order) =
      (seenIn unseen queue).map fun order =>
        if order.key = key then { order with openSize := size } else order := by
  unfold seenIn
  rw [List.filter_map]
  refine congrArg _ (List.filter_congr fun order _ => ?_)
  by_cases named : order.key = key <;> simp [named]

/-- A command of a seen key is answered alike. -/
theorem Untraced.step (untraced : Untraced unseen m n) (sound : m.Sound)
    (step : m.Step command events after) (seen : unseen command.key = false)
    (untraded : Untraded unseen events) :
    ∃ others reached, n.Step command others reached ∧ reports others = reports events ∧
      Untraced unseen after reached := by
  cases step with
  | refused refusal => exact ⟨_, n, .refused (untraced.refuses refusal seen), rfl, untraced⟩
  | @ignored order valid inactive unnamed =>
    exact ⟨[], _, .ignored valid (fun resting => inactive ((untraced.active seen).mp resting)) unnamed,
      rfl, untraced.advance fun l => untraced _ l⟩
  | @submitted order l valid inactive named a aggression queues queuesAfter =>
    subst queuesAfter
    obtain ⟨trades, like⟩ := aggression_untraced (n := n) seen (sound.sorted order.instrument l)
      (sound.sorted order.instrument l.opposite) (untraced order.instrument l)
      (untraced order.instrument l.opposite) aggression
      (untraded.sublist fun event member =>
        List.mem_append_left _ (List.mem_append_left _ (List.mem_cons_of_mem _ member)))
    have submitted := Market.Step.submitted (m := n) l valid
      (fun resting => inactive ((untraced.active seen).mp resting)) named _ rfl _ rfl
    refine ⟨_, _, submitted, ?_, untraced.advance like⟩
    rw [Command.key] at trades
    simp only [trades, reports_append, reports_bookChange]
  | @reduced order instrument l resting valid rests named price smaller queue queueAfter =>
    subst queueAfter
    obtain ⟨same, restsToo, key, priced, sized⟩ := untraced.resting rests (named ▸ seen)
    have like := (untraced instrument l).resize order.key order.size
    rw [← seenIn_resize] at like
    have reduced := Market.Step.reduced (m := n) instrument l same valid restsToo (key.trans named)
      (price.trans (congrArg some priced.symm)) (sized ▸ smaller) _ rfl
    exact ⟨_, _, reduced, by rw [reports_change, reports_change],
      untraced.advance (untraced.update like)⟩
  | @replaced order instrument l resting price valid rests named limit moved a aggression queues
      queuesAfter =>
    subst queuesAfter
    obtain ⟨same, restsToo, key, priced, sized⟩ := untraced.resting rests (named ▸ seen)
    have like := (untraced instrument l).filter order.key
    rw [← seenIn_filter] at like
    obtain ⟨trades, likeAfter⟩ := aggression_untraced (n := n) seen
      ((sound.sorted instrument l).filter _) (sound.sorted instrument l.opposite) like
      (untraced instrument l.opposite) aggression
      (untraded.sublist fun event member =>
        List.mem_append_left _ (List.mem_append_left _ (List.mem_cons_of_mem _ member)))
    have replaced := Market.Step.replaced (m := n) instrument l same price valid restsToo
      (key.trans named) limit (by rw [priced, sized]; exact moved) _ rfl _ rfl
    refine ⟨_, _, replaced, ?_, untraced.advance likeAfter⟩
    rw [Command.key] at trades
    simp only [trades, reports_append, reports_bookChange]
  | @cancelled order instrument l resting rests named queue queueAfter =>
    subst queueAfter
    obtain ⟨same, restsToo, key, -⟩ := untraced.resting rests (named ▸ seen)
    have like := (untraced instrument l).filter order.key
    rw [← seenIn_filter] at like
    have cancelled := Market.Step.cancelled (m := n) instrument l same restsToo (key.trans named) _ rfl
    exact ⟨_, _, cancelled, by rw [reports_change, reports_change],
      untraced.advance (untraced.update like)⟩

/-- An order of an unseen key that trades with nobody. -/
theorem queues_hidden {l : Ladder} {key : OrderKey} {size : Quantity} {pricing : OrderPricing}
    {instrument : SymbolId} {own opposite : List RestingOrder} (hidden : unseen key = true)
    (sorted : own.Pairwise fun ahead behind => ¬ l.Before behind.limitPrice ahead.limitPrice)
    {a : Aggression} (aggression : a = aggress l (m.incoming key l size) pricing opposite)
    (untraded : Untraded unseen (a.trades instrument key)) :
    seenIn unseen (a.queues l own l) = seenIn unseen own ∧ a.queues l own l.opposite = opposite := by
  have idle : a.outcome.fills = [] := by
    apply List.eq_nil_iff_forall_not_mem.mpr
    intro fill made
    exact absurd (hidden.symm.trans (untraded.fills made).1) (by decide)
  constructor
  · rw [Aggression.queues_self, Aggression.own]
    cases placed : a.rests with
    | none => rfl
    | some order =>
      rw [aggression] at placed
      obtain ⟨-, -, named⟩ := remainder_some placed
      have mine : unseen order.key = true := by
        rw [named]
        exact hidden
      simp only [seenIn]
      rw [enqueue_filter _ order sorted, mine]
      rfl
  · rw [Aggression.queues_opposite]
    subst aggression
    exact sweep_idle _ _ _ idle

theorem seenIn_unnamed {key : OrderKey} (hidden : unseen key = true) (queue : List RestingOrder) :
    seenIn unseen (queue.filter fun order => order.key ≠ key) = seenIn unseen queue := by
  unfold seenIn
  rw [List.filter_filter]
  apply List.filter_congr
  intro order _
  by_cases named : order.key = key <;> simp [named, hidden]

theorem seenIn_resized {key : OrderKey} (hidden : unseen key = true) (size : Quantity)
    (queue : List RestingOrder) :
    seenIn unseen (queue.map fun order =>
      if order.key = key then { order with openSize := size } else order) = seenIn unseen queue := by
  rw [seenIn_resize]
  conv_rhs => rw [← List.map_id (seenIn unseen queue)]
  apply List.map_congr_left
  intro order member
  have seen := (List.mem_filter.mp member).2
  rw [if_neg]
  · rfl
  · rintro rfl
    simp [hidden] at seen

/-- A command of an unseen key that trades with nobody changes no seen order. -/
theorem hidden_step (sound : m.Sound) (step : m.Step command events after)
    (hidden : unseen command.key = true) (untraded : Untraded unseen events) (other : SymbolId)
    (side : Ladder) :
    seenIn unseen (after.queue other side) = seenIn unseen (m.queue other side) := by
  have advanced : ∀ {instrument : SymbolId} {queues : Queues},
      (∀ l, seenIn unseen (queues l) = seenIn unseen (m.queue instrument l)) →
        seenIn unseen ((m.advance instrument queues).queue other side) =
          seenIn unseen (m.queue other side) := by
    intro instrument queues same
    rw [Market.queue_advance]
    split
    next here => rw [same, here]
    next => rfl
  have updated : ∀ {instrument : SymbolId} {l : Ladder} {queue : List RestingOrder},
      seenIn unseen queue = seenIn unseen (m.queue instrument l) → ∀ each,
        seenIn unseen (Function.update (m.queue instrument) l queue each) =
          seenIn unseen (m.queue instrument each) := by
    intro instrument l queue same each
    by_cases here : each = l
    · rw [here, Function.update_self, same]
    · rw [Function.update_of_ne here]
  have matched : ∀ {instrument : SymbolId} {l : Ladder} {a : Aggression} {own : List RestingOrder},
      seenIn unseen own = seenIn unseen (m.queue instrument l) →
      seenIn unseen (a.queues l own l) = seenIn unseen own ∧
        a.queues l own l.opposite = m.queue instrument l.opposite →
      ∀ each, seenIn unseen (a.queues l own each) = seenIn unseen (m.queue instrument each) := by
    intro instrument l a own same ⟨mine, theirs⟩ each
    rcases Ladder.eq_or_eq_opposite l each with rfl | rfl
    · rw [mine, same]
    · rw [theirs]
  cases step with
  | refused refusal => rfl
  | ignored valid inactive unnamed => exact advanced fun _ => rfl
  | @submitted order l valid inactive named a aggression queues queuesAfter =>
    subst queuesAfter
    exact advanced (matched rfl (queues_hidden hidden (sound.sorted order.instrument l) aggression
      (untraded.sublist fun event member =>
        List.mem_append_left _ (List.mem_append_left _ (List.mem_cons_of_mem _ member)))))
  | @reduced order instrument l resting valid rests named price smaller queue queueAfter =>
    subst queueAfter
    exact advanced (updated (seenIn_resized hidden order.size _))
  | @replaced order instrument l resting price valid rests named limit moved a aggression queues
      queuesAfter =>
    subst queuesAfter
    exact advanced (matched (seenIn_unnamed hidden _) (queues_hidden hidden
      ((sound.sorted instrument l).filter _) aggression (untraded.sublist fun event member =>
        List.mem_append_left _ (List.mem_append_left _ (List.mem_cons_of_mem _ member)))))
  | @cancelled order instrument l resting rests named queue queueAfter =>
    subst queueAfter
    exact advanced (updated (seenIn_unnamed hidden _))

/-! ## Runs -/

/-- The run of the commands of seen keys answers them as the whole run does. -/
structure Kept (unseen : OrderKey → Bool) (commands : List Command) (whole seen : History) : Prop where
  ran : History.run (commands.filter fun command => !unseen command.key) = .ok seen
  sound : seen.state.Sound
  untraced : Untraced unseen whole.state.market seen.state.market
  answers : (whole.transitions.filter fun call => !unseen call.command.key).map
      (fun call => (call.command, reports call.events)) =
    seen.transitions.map fun call => (call.command, reports call.events)

theorem exists_kept (unseen : OrderKey → Bool) (commands : List Command) :
    ∃ whole, History.run commands = .ok whole ∧ whole.state.Sound ∧
      (Untraded unseen whole.events → ∃ seen, Kept unseen commands whole seen) := by
  induction commands using List.reverseRecOn with
  | nil =>
    exact ⟨{}, rfl, Engine.initial_sound, fun _ =>
      ⟨{}, rfl, Engine.initial_sound, fun _ _ => rfl, rfl⟩⟩
  | append_singleton commands command ih =>
    obtain ⟨whole, ran, sound, kept⟩ := ih
    obtain ⟨after, events, applied, afterSound, taken⟩ := Engine.apply_step sound command
    refine ⟨whole.push command events after, History.run_push ran applied, afterSound, fun untraded => ?_⟩
    rw [History.push_events] at untraded
    obtain ⟨seen, kept⟩ := kept (untraded.sublist fun event member => List.mem_append_left _ member)
    have here := untraded.sublist fun event member => List.mem_append_right whole.events member
    cases hidden : unseen command.key with
    | true =>
      refine ⟨seen, ?_, kept.sound, fun instrument l => ?_, ?_⟩
      · simpa [hidden] using kept.ran
      · rw [History.push_state, hidden_step sound.market taken hidden here]
        exact kept.untraced instrument l
      · simpa [hidden] using kept.answers
    | false =>
      obtain ⟨others, reached, takenToo, same, untraced⟩ :=
        kept.untraced.step sound.market taken hidden here
      obtain ⟨otherAfter, appliedToo, otherSound, rfl⟩ := Engine.apply_of_step kept.sound takenToo
      refine ⟨seen.push command others otherAfter, ?_, otherSound, untraced, ?_⟩
      · simpa [hidden] using History.run_push kept.ran appliedToo
      · simpa [hidden, same] using kept.answers

end Unseen

/-- Where no trade of a run names an unseen key, the commands of the other keys get the same
answers and trades when those of unseen keys are never sent, and leave the same orders resting with
the same open sizes, in the same order. -/
theorem untraded_orders_leave_no_trace (unseen : OrderKey → Bool) {commands : List Command}
    {whole : History} (ran : History.run commands = .ok whole)
    (untraded : Untraded unseen whole.events) :
    ∃ seen, History.run (commands.filter fun command => !unseen command.key) = .ok seen ∧
      (whole.transitions.filter fun call => !unseen call.command.key).map
          (fun call => (call.command, reports call.events)) =
        seen.transitions.map (fun call => (call.command, reports call.events)) ∧
      ∀ instrument l,
        ((whole.state.market.queue instrument l).filter fun order => !unseen order.key).map
            (fun order => (order.key, order.limitPrice, order.openSize)) =
          (seen.state.market.queue instrument l).map
            (fun order => (order.key, order.limitPrice, order.openSize)) := by
  obtain ⟨same, ranToo, -, keeps⟩ := exists_kept unseen commands
  obtain rfl := Except.ok.inj (ran.symm.trans ranToo)
  obtain ⟨seen, kept⟩ := keeps untraded
  refine ⟨seen, kept.ran, kept.answers, fun instrument l => ?_⟩
  have like := congrArg (List.map fun order : RestingOrder =>
    (order.key, order.limitPrice, order.openSize)) (kept.untraced instrument l)
  rw [List.map_map, List.map_map] at like
  exact like.symm

/-- A bid that is moved away while two others trade, and withdrawn. -/
def withdrawnBid : List Command :=
  [.submit { key := ⟨⟨1⟩, ⟨1⟩⟩, instrument := ⟨1⟩, direction := .buy,
             pricing := .limit ⟨20, by decide⟩, size := ⟨5⟩ },
   .submit { key := ⟨⟨2⟩, ⟨1⟩⟩, instrument := ⟨1⟩, direction := .sell,
             pricing := .limit ⟨21, by decide⟩, size := ⟨4⟩ },
   .update { key := ⟨⟨1⟩, ⟨1⟩⟩, pricing := .limit ⟨19, by decide⟩, size := ⟨5⟩ },
   .submit { key := ⟨⟨3⟩, ⟨1⟩⟩, instrument := ⟨1⟩, direction := .buy,
             pricing := .limit ⟨21, by decide⟩, size := ⟨1⟩ },
   .cancel { key := ⟨⟨1⟩, ⟨1⟩⟩ }]

theorem withdrawn_bid_leaves_no_trace :
    ∃ whole seen, History.run withdrawnBid = .ok whole ∧
      History.run (withdrawnBid.filter fun command => !(command.key.user.value == 1)) = .ok seen ∧
      whole.transitions.length = 5 ∧ seen.transitions.length = 2 ∧
      (whole.transitions.filter fun call => !(call.command.key.user.value == 1)).map
          (fun call => (call.command, reports call.events)) =
        seen.transitions.map fun call => (call.command, reports call.events) := by
  let whole := (History.run withdrawnBid).toOption.getD {}
  have ran : History.run withdrawnBid = .ok whole := rfl
  have untraded : Untraded (fun key => key.user.value == 1) whole.events := by
    intro aggressor resting instrument price size member
    have trades : tradesIn whole.events =
        [.tradeExecuted ⟨⟨3⟩, ⟨1⟩⟩ ⟨⟨2⟩, ⟨1⟩⟩ ⟨1⟩ ⟨21, by decide⟩ ⟨1⟩] := rfl
    have inside : .tradeExecuted aggressor resting instrument price size ∈ tradesIn whole.events :=
      List.mem_filter.mpr ⟨member, rfl⟩
    rw [trades, List.mem_singleton, Event.tradeExecuted.injEq] at inside
    obtain ⟨rfl, rfl, -⟩ := inside
    decide
  obtain ⟨seen, ranToo, answers, -⟩ := untraded_orders_leave_no_trace _ ran untraded
  refine ⟨whole, seen, ran, ranToo, rfl, ?_, answers⟩
  have count := congrArg List.length answers
  rw [List.length_map, List.length_map] at count
  exact count.symm

end MarketLab.Matching

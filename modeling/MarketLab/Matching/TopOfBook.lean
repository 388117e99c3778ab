import MarketLab.Matching.Runs

/-!
# Book updates are the change log of the top of book

Each command reports a side of its instrument's book when the best price or the
stored total at it changed, and reports nothing else. The last report of a side is
therefore its current top.
-/
namespace MarketLab.Matching
open MarketLab.Collections

/-- Is this an update of the side? -/
def updates (instrument : SymbolId) (direction : Side) : Event → Bool
  | .bookUpdated s d _ _ => s = instrument ∧ d = direction
  | _ => false

def updatesOf (instrument : SymbolId) (direction : Side) (events : List Event) : List Event :=
  events.filter (updates instrument direction)

/-- The best price of a side of the stored book, with the total stored for it. -/
def Engine.top (engine : Engine) (instrument : SymbolId) (l : Ladder) : Option TopOfBookState :=
  (engine.books.find? instrument).bind fun book => topOfBook (book.levels l)

/-- What tops a side of the stored book: the best of its prices with the total stored at it, and
nothing where it has no level. -/
inductive Engine.Tops (engine : Engine) (instrument : SymbolId) (l : Ladder) :
    Option TopOfBookState → Prop
  | empty (bare : ∀ book, engine.books.find? instrument = some book →
      (book.levels l).entries = []) : Tops engine instrument l none
  | best {book : OrderBook} {bestPrice : Price} {level : PriceLevel}
      (found : engine.books.find? instrument = some book)
      (stored : (bestPrice, level) ∈ (book.levels l).entries)
      (best : ∀ other ∈ (book.levels l).entries, ¬l.Before other.1 bestPrice) :
      Tops engine instrument l (some { bestPrice, totalSize := level.totalSize })

/-- The instrument a command acts on: the one it names, or the one its order rests in. -/
def Engine.actsOn (engine : Engine) : Command → Option SymbolId
  | .submit order => some order.instrument
  | .update order => (engine.activeOrders.find? order.key).map ActiveOrder.instrument
  | .cancel order => (engine.activeOrders.find? order.key).map ActiveOrder.instrument

@[simp] theorem updatesOf_nil (instrument : SymbolId) (direction : Side) :
    updatesOf instrument direction [] = [] := rfl

@[simp] theorem updatesOf_append (instrument : SymbolId) (direction : Side)
    (front back : List Event) : updatesOf instrument direction (front ++ back) =
      updatesOf instrument direction front ++ updatesOf instrument direction back :=
  List.filter_append ..

@[simp] theorem updatesOf_trades (instrument : SymbolId) (direction : Side) (a : Aggression)
    (traded : SymbolId) (aggressor : OrderKey) :
    updatesOf instrument direction (a.trades traded aggressor) = [] := by
  refine List.filter_eq_nil_iff.mpr fun event member => ?_
  obtain ⟨fill, -, rfl⟩ := Aggression.mem_trades.mp member
  simp [updates]

/-- A report of one side is in the log of that side only. -/
theorem updatesOf_bookChange (instrument other : SymbolId) (l side : Ladder)
    (before after : List RestingOrder) :
    updatesOf instrument l.side (bookChange other side before after) =
      if other = instrument ∧ side = l then bookChange instrument l before after else [] := by
  rw [bookChange_eq]
  split_ifs with same here here
  · obtain ⟨rfl, rfl⟩ := here
    simp [bookChange_eq, same]
  · rfl
  · obtain ⟨rfl, rfl⟩ := here
    rw [bookChange_eq, if_neg same]
    simp [updatesOf, updateOf, updates]
  · have different : ¬ (other = instrument ∧ side.side = l.side) := by
      intro both
      exact here ⟨both.1, Ladder.side_injective both.2⟩
    simpa [updatesOf, updateOf, updates] using different

/-- What a step logs for a side is the change of that side's queue. -/
theorem Market.Step.updates {m after : Market} {command : Command} {events : List Event}
    (step : m.Step command events after) (instrument : SymbolId) (l : Ladder) :
    updatesOf instrument l.side events =
      bookChange instrument l (m.queue instrument l) (after.queue instrument l) := by
  cases step with
  | refused refusal =>
    rw [bookChange_self]
    cases refusal <;> rfl
  | ignored valid inactive unnamed =>
    rw [queue_advance]
    split_ifs with here
    · subst here
      simp
    · simp
  | @submitted order side valid inactive named a aggression queues queuesAfter =>
    have accepted : updatesOf instrument l.side [.submitAccepted order.key] = [] := rfl
    rw [queue_advance, List.append_assoc, ← List.singleton_append, List.append_assoc,
      updatesOf_append, accepted]
    by_cases here : instrument = order.instrument
    · subst here
      cases l <;> simp [updatesOf_bookChange]
    · simp [updatesOf_bookChange, here, Ne.symm here]
  | @reduced order other side resting valid rests named price smaller queue queueAfter =>
    have accepted : updatesOf instrument l.side [.updateAccepted order.key] = [] := rfl
    rw [queue_advance, ← List.singleton_append, updatesOf_append, accepted, updatesOf_bookChange]
    by_cases here : instrument = other
    · subst here
      by_cases same : side = l
      · subst same
        simp
      · simp [same, Ne.symm same]
    · simp [here, Ne.symm here]
  | @replaced order other side resting price valid rests named limit moved a aggression queues
      queuesAfter =>
    have accepted : updatesOf instrument l.side [.updateAccepted order.key] = [] := rfl
    rw [queue_advance, List.append_assoc, ← List.singleton_append, List.append_assoc,
      updatesOf_append, accepted]
    by_cases here : instrument = other
    · subst here
      rcases Ladder.eq_or_eq_opposite side l with rfl | rfl
      · simp [updatesOf_bookChange]
      · simp [updatesOf_bookChange, Ne.symm side.opposite_ne]
    · simp [updatesOf_bookChange, here, Ne.symm here]
  | @cancelled order other side resting rests named queue queueAfter =>
    have accepted : updatesOf instrument l.side [.orderCancelled order.key] = [] := rfl
    rw [queue_setQueue, ← List.singleton_append, updatesOf_append, accepted, updatesOf_bookChange]
    by_cases here : instrument = other ∧ l = side
    · obtain ⟨rfl, rfl⟩ := here
      simp
    · have there : ¬ (other = instrument ∧ side = l) := by
        intro both
        exact here ⟨both.1.symm, both.2.symm⟩
      simp [here, there]

namespace Engine
variable {engine : Engine}

/-- What `top_of_book` takes from a side tops it, and nothing else does. -/
theorem tops_iff {instrument : SymbolId} {l : Ladder} {top : Option TopOfBookState} :
    engine.Tops instrument l top ↔ top = engine.top instrument l := by
  constructor
  · intro tops
    cases tops with
    | empty bare =>
      unfold Engine.top
      cases found : engine.books.find? instrument with
      | none => rfl
      | some book => simp [topOfBook, OrderedMap.first?, bare book found]
    | @best book bestPrice level found stored best =>
      have sorted := (book.levels l).sorted
      unfold Engine.top
      rw [found, Option.bind_some, topOfBook, OrderedMap.first?]
      cases entries : (book.levels l).entries with
      | nil => simp [entries] at stored
      | cons first rest =>
        rw [entries] at stored best sorted
        rcases List.mem_cons.mp stored with rfl | later
        · rfl
        · have before := (List.pairwise_cons.mp sorted).1 _ later
          exact absurd before (best first List.mem_cons_self)
  · rintro rfl
    unfold Engine.top
    cases found : engine.books.find? instrument with
    | none => exact .empty fun book other => by simp [found] at other
    | some book =>
      have sorted := (book.levels l).sorted
      rw [Option.bind_some, topOfBook, OrderedMap.first?]
      cases entries : (book.levels l).entries with
      | nil =>
        refine .empty fun other same => ?_
        obtain rfl := Option.some.inj (found.symm.trans same)
        exact entries
      | cons first rest =>
        rw [entries] at sorted
        have stored : (first.1, first.2) ∈ (book.levels l).entries := by
          rw [entries]
          exact List.mem_cons_self
        refine .best found stored fun other member => ?_
        rw [entries] at member
        rcases List.mem_cons.mp member with rfl | later
        · exact irrefl_of l.Before other.1
        · exact asymm_of l.Before ((List.pairwise_cons.mp sorted).1 other later)

theorem Sound.top_eq (sound : engine.Sound) (instrument : SymbolId) (l : Ladder) :
    engine.top instrument l = bestOf (engine.market.queue instrument l) := by
  cases found : engine.books.find? instrument with
  | none => simp [top, found, market_queue_absent found, bestOf]
  | some book =>
    rw [market_queue found, ← OrderBook.topOfBook_levels (sound.book _ _ found).1]
    simp [top, found]

end Engine

/-- An update a step emits is for a side of the instrument it acts on. -/
theorem History.Taken.updates_instrument {history : History} {command : Command}
    {events : List Event} {after : Engine} (taken : history.Taken command events after)
    {instrument : SymbolId} {direction : Side} {bestPrice : Option Price} {totalSize : UInt64}
    (emitted : .bookUpdated instrument direction bestPrice totalSize ∈ events) :
    history.state.actsOn command = some instrument ∧ ∃ l : Ladder, direction = l.side := by
  have named : ∀ {l : Ladder} {other : SymbolId} {before after : List RestingOrder},
      .bookUpdated instrument direction bestPrice totalSize ∈ bookChange other l before after →
        instrument = other ∧ direction = l.side := by
    intro l other before after member
    obtain ⟨-, same⟩ := mem_bookChange.mp member
    simp only [updateOf, Event.bookUpdated.injEq] at same
    exact ⟨same.1, same.2.1⟩
  have active : ∀ {key : OrderKey} {other : SymbolId} {l : Ladder} {resting : RestingOrder},
      resting ∈ history.state.market.queue other l → resting.key = key →
        (history.state.activeOrders.find? key).map ActiveOrder.instrument = some other := by
    intro key other l resting rests keyed
    obtain ⟨book, found, node, inside, rfl⟩ := Engine.node_of_queue rests
    have entry := (taken.sound.index key { instrument := other, handle := handleOf l node }).mpr
      ⟨book, found, keyed ▸ OrderBook.files_of_node inside⟩
    simp [entry]
  have step := taken.step
  generalize after.market = reached at step
  cases step with
  | refused refusal => cases refusal <;> simp at emitted
  | ignored valid inactive unnamed => simp at emitted
  | submitted l valid inactive side a aggression queues queuesAfter =>
    simp only [List.mem_append, List.mem_cons, reduceCtorEq, false_or, Aggression.mem_trades,
      and_false, exists_false] at emitted
    rcases emitted with own | own <;> obtain ⟨rfl, direction⟩ := named own <;>
      exact ⟨rfl, _, direction⟩
  | reduced other l resting valid rests keyed price smaller queue queueAfter =>
    simp only [List.mem_cons, reduceCtorEq, false_or] at emitted
    obtain ⟨rfl, direction⟩ := named emitted
    exact ⟨active rests keyed, l, direction⟩
  | replaced other l resting price valid rests keyed limit moved a aggression queues queuesAfter =>
    simp only [List.mem_append, List.mem_cons, reduceCtorEq, false_or, Aggression.mem_trades,
      and_false, exists_false] at emitted
    rcases emitted with own | own <;> obtain ⟨rfl, direction⟩ := named own <;>
      exact ⟨active rests keyed, _, direction⟩
  | cancelled other l resting rests keyed queue queueAfter =>
    simp only [List.mem_cons, reduceCtorEq, false_or] at emitted
    obtain ⟨rfl, direction⟩ := named emitted
    exact ⟨active rests keyed, l, direction⟩

/-- What one call logs for a side, from the tops before and after it. -/
theorem History.Taken.updates_eq {history : History} {command : Command} {events : List Event}
    {after : Engine} (taken : history.Taken command events after) (instrument : SymbolId)
    (l : Ladder) :
    updatesOf instrument l.side events =
      if history.state.top instrument l = after.top instrument l then []
      else [updateOf instrument l (after.top instrument l)] := by
  rw [taken.step.updates, bookChange_eq, taken.sound.top_eq, taken.afterSound.top_eq]

/-- The last update logged for a side, if any, reports its top; if none was, it has none. -/
def ReportsTop (log : List Event) (engine : Engine) : Prop :=
  ∀ instrument l, ∃ top, engine.Tops instrument l top ∧
    match (updatesOf instrument l.side log).getLast? with
    | some event => event = updateOf instrument l top
    | none => top = none

theorem reportsTop_iff {log : List Event} {engine : Engine} : ReportsTop log engine ↔
    ∀ instrument l, match (updatesOf instrument l.side log).getLast? with
      | some event => event = updateOf instrument l (engine.top instrument l)
      | none => engine.top instrument l = none := by
  simp only [ReportsTop, Engine.tops_iff, exists_eq_left]

theorem reportsTop_initial : ReportsTop [] {} := reportsTop_iff.mpr fun _ _ => rfl

theorem History.Taken.reportsTop {history : History} {command : Command} {events : List Event}
    {after : Engine} (taken : history.Taken command events after)
    (reports : ReportsTop history.events history.state) :
    ReportsTop (history.events ++ events) after := by
  rw [reportsTop_iff] at reports ⊢
  intro instrument l
  have before := reports instrument l
  rw [updatesOf_append, taken.updates_eq]
  by_cases same : history.state.top instrument l = after.top instrument l
  · rw [if_pos same, List.append_nil]
    rwa [same] at before
  · rw [if_neg same, List.getLast?_append]
    rfl

/-- The call logs one update for a side whose top it changed, none for another, and none
for another instrument than the one it acts on. -/
structure Transition.ReportsChanges (call : Transition) : Prop where
  updates : ∀ instrument l, ∃ before after, call.before.Tops instrument l before ∧
    call.after.Tops instrument l after ∧ updatesOf instrument l.side call.events =
      if before = after then [] else [updateOf instrument l after]
  instrument : ∀ instrument direction bestPrice totalSize,
    .bookUpdated instrument direction bestPrice totalSize ∈ call.events →
      call.before.actsOn call.command = some instrument ∧ ∃ l : Ladder, direction = l.side

theorem Transition.ReportsChanges.logged {call : Transition} (changes : call.ReportsChanges)
    (instrument : SymbolId) (l : Ladder) : updatesOf instrument l.side call.events =
      if call.before.top instrument l = call.after.top instrument l then []
      else [updateOf instrument l (call.after.top instrument l)] := by
  obtain ⟨before, after, started, ended, logged⟩ := changes.updates instrument l
  rwa [Engine.tops_iff.mp started, Engine.tops_iff.mp ended] at logged

theorem History.Taken.reportsChanges {history : History} {command : Command} {events : List Event}
    {after : Engine} (taken : history.Taken command events after) :
    Transition.ReportsChanges { before := history.state, command, events, after } where
  updates instrument l :=
    ⟨_, _, Engine.tops_iff.mpr rfl, Engine.tops_iff.mpr rfl, taken.updates_eq instrument l⟩
  instrument _ _ _ _ emitted := taken.updates_instrument emitted

/-- In every run the last `book_updated` of a side is its current top, one call emits one
for a side exactly when that side's top changed, and only for the instrument it acts on. -/
theorem updates_are_change_log (commands : List Command) :
    ∃ history, History.run commands = .ok history ∧
      ReportsTop history.events history.state ∧
      ∀ call ∈ history.transitions, call.ReportsChanges := by
  obtain ⟨history, ran, -, -, reports, calls⟩ := History.run_induct_calls
    (P := fun history => ReportsTop history.events history.state)
    (Q := fun _ call => call.ReportsChanges)
    reportsTop_initial
    (by
      intro history command events after taken reports
      rw [History.push_events]
      exact taken.reportsTop reports)
    (fun history command events after taken _ => taken.reportsChanges) commands
  refine ⟨history, ran, reports, ?_⟩
  intro call member
  obtain ⟨earlier, later, split⟩ := List.append_of_mem member
  exact calls earlier call later split

end MarketLab.Matching

import Mathlib.Data.List.Induction
import MarketLab.Matching.EngineSteps

/-!
# Runs of a fresh engine

Every run returns. A property of histories holds of every run when it holds of the
empty one and every market step of a sound engine keeps it. What a sound engine's
market always satisfies is collected in `Market.Sound`.
-/
namespace MarketLab.Matching
open MarketLab.Collections

/-! ## The market of a sound engine -/

/-- A key rests at most once in the whole market; each queue is of its side's orders,
best price first, with none used up. -/
structure Market.Sound (m : Market) : Prop where
  keys : ∀ instrument l, ((m.queue instrument l).map RestingOrder.key).Nodup
  once : ∀ instrument other l side, ∀ order ∈ m.queue instrument l, ∀ same ∈ m.queue other side,
    order.key = same.key → instrument = other ∧ l = side
  direction : ∀ instrument l, ∀ order ∈ m.queue instrument l, order.direction = l.side
  positive : ∀ instrument l, ∀ order ∈ m.queue instrument l, 0 < order.openSize.value
  sorted : ∀ instrument l, (m.queue instrument l).Pairwise
    fun ahead behind => ¬ l.Before behind.limitPrice ahead.limitPrice

/-- A key names one resting order. -/
theorem Market.Sound.same_resting {m : Market} (sound : m.Sound) {instrument other : SymbolId}
    {l side : Ladder} {resting same : RestingOrder} (rests : resting ∈ m.queue instrument l)
    (restsToo : same ∈ m.queue other side) (key : resting.key = same.key) :
    instrument = other ∧ l = side ∧ resting = same := by
  obtain ⟨rfl, rfl⟩ := sound.once instrument other l side resting rests same restsToo key
  exact ⟨rfl, rfl, key_unique (sound.keys instrument l) rests restsToo key⟩

theorem LevelsSound.sorted {l : Ladder} {allocated : Nat} {levels : Levels l}
    (sound : LevelsSound allocated levels) :
    (restingNodes levels).Pairwise
      fun ahead behind => ¬ l.Before behind.value.limitPrice ahead.value.limitPrice := by
  unfold restingNodes entryNodes
  rw [List.pairwise_flatMap]
  constructor
  · intro entry member
    have filed := (sound.level entry.1 entry.2 member).filed
    refine List.Pairwise.imp_of_mem ?_ (List.pairwise_of_forall (R := fun _ _ => True) (by simp))
    intro ahead behind inLevel inLevelToo _
    rw [(filed ahead inLevel).1, (filed behind inLevelToo).1]
    exact irrefl_of l.Before _
  · refine List.Pairwise.imp_of_mem ?_ levels.sorted
    intro first second member memberToo before ahead inFirst behind inSecond
    rw [((sound.level first.1 first.2 member).filed ahead inFirst).1,
      ((sound.level second.1 second.2 memberToo).filed behind inSecond).1]
    exact asymm_of l.Before before

namespace Engine
variable {engine : Engine}

/-- A resting order's book, node and side are known from its key. -/
theorem Sound.same_place (sound : engine.Sound) {instrument other : SymbolId} {l side : Ladder}
    {book otherBook : OrderBook} (found : engine.books.find? instrument = some book)
    (foundToo : engine.books.find? other = some otherBook) {node otherNode : Node RestingOrder}
    (rests : node ∈ book.nodes l) (restsToo : otherNode ∈ otherBook.nodes side)
    (same : node.value.key = otherNode.value.key) :
    instrument = other ∧ handleOf l node = handleOf side otherNode := by
  have entry := (sound.index node.value.key { instrument, handle := handleOf l node }).mpr
    ⟨book, found, OrderBook.files_of_node rests⟩
  have entryToo := (sound.index node.value.key
    { instrument := other, handle := handleOf side otherNode }).mpr
      ⟨otherBook, foundToo, same ▸ OrderBook.files_of_node restsToo⟩
  have equal := Option.some_inj.mp (entry.symm.trans entryToo)
  exact ⟨congrArg ActiveOrder.instrument equal, congrArg ActiveOrder.handle equal⟩

theorem Sound.market (sound : engine.Sound) : engine.market.Sound where
  keys instrument l := by
    cases found : engine.books.find? instrument with
    | none => simp [market_queue_absent found]
    | some book =>
      rw [market_queue found, OrderBook.queues_eq, List.map_map]
      exact (sound.book _ _ found).1.keys l
  once instrument other l side order rests same restsToo key := by
    obtain ⟨book, found, node, inside, rfl⟩ := node_of_queue rests
    obtain ⟨otherBook, foundToo, otherNode, insideToo, rfl⟩ := node_of_queue restsToo
    obtain ⟨here, handles⟩ := sound.same_place found foundToo inside insideToo key
    have sides := congrArg RestingOrderHandle.direction handles
    exact ⟨here, Ladder.side_injective (Option.some_inj.mp sides)⟩
  direction instrument l order rests := by
    obtain ⟨book, found, node, inside, rfl⟩ := node_of_queue rests
    exact ((sound.book _ _ found).1.levels l).node inside |>.1
  positive instrument l order rests := by
    obtain ⟨book, found, node, inside, rfl⟩ := node_of_queue rests
    exact ((sound.book _ _ found).1.levels l).node inside |>.2.1
  sorted instrument l := by
    cases found : engine.books.find? instrument with
    | none => simp [market_queue_absent found]
    | some book =>
      rw [market_queue found, OrderBook.queues_eq, List.pairwise_map]
      exact ((sound.book _ _ found).1.levels l).sorted

end Engine

/-! ## Histories -/

namespace History

/-- The history after one more completed call. -/
def push (history : History) (command : Command) (events : List Event) (after : Engine) : History :=
  { transitions := history.transitions ++ [{ before := history.state, command, events, after }]
    state := after }

@[simp] theorem push_state (history : History) (command : Command) (events : List Event)
    (after : Engine) : (history.push command events after).state = after := rfl

@[simp] theorem push_transitions (history : History) (command : Command) (events : List Event)
    (after : Engine) : (history.push command events after).transitions =
      history.transitions ++ [{ before := history.state, command, events, after }] := rfl

@[simp] theorem push_events (history : History) (command : Command) (events : List Event)
    (after : Engine) : (history.push command events after).events = history.events ++ events := by
  simp [History.events]

theorem run_snoc (commands : List Command) (command : Command) :
    run (commands ++ [command]) = run commands >>= fun history => history.step command := by
  simp [run]

/-- A run goes on with a call that returns. -/
theorem run_push {commands : List Command} {history : History} (ran : run commands = .ok history)
    {command : Command} {events : List Event} {after : Engine}
    (applied : history.state.apply command = .ok (after, events)) :
    run (commands ++ [command]) = .ok (history.push command events after) := by
  rw [run_snoc, ran]
  simp only [step, applied, bind, Except.bind, pure, Except.pure]
  rfl

/-- One completed call of a run: what it was, and that it was a market step. -/
structure Taken (history : History) (command : Command) (events : List Event) (after : Engine) :
    Prop where
  sound : history.state.Sound
  applied : history.state.apply command = .ok (after, events)
  afterSound : after.Sound
  step : Market.Step history.state.market command events after.market

/-- Every run returns, and what every completed call keeps holds after it. -/
theorem run_induct {P : History → Prop} (initial : P {})
    (step : ∀ history command events after, history.Taken command events after → P history →
      P (history.push command events after)) :
    ∀ commands, ∃ history, run commands = .ok history ∧ history.state.Sound ∧
      history.transitions.length = commands.length ∧ P history := by
  intro commands
  induction commands using List.reverseRecOn with
  | nil => exact ⟨{}, rfl, Engine.initial_sound, rfl, initial⟩
  | append_singleton commands command ih =>
    obtain ⟨history, ran, sound, length, holds⟩ := ih
    obtain ⟨after, events, applied, afterSound, taken⟩ := Engine.apply_step sound command
    exact ⟨history.push command events after, run_push ran applied, afterSound, by simp [length],
      step history command events after ⟨sound, applied, afterSound, taken⟩ holds⟩

theorem run_sound (commands : List Command) :
    ∃ history, run commands = .ok history ∧ history.state.Sound := by
  obtain ⟨history, ran, sound, -, -⟩ :=
    run_induct (P := fun _ => True) trivial (fun _ _ _ _ _ _ => trivial) commands
  exact ⟨history, ran, sound⟩

/-- What holds of every call before is kept when it holds of the one just made. -/
theorem forall_calls_push {Q : List Transition → Transition → Prop} {calls : List Transition}
    {made : Transition}
    (old : ∀ earlier call later, calls = earlier ++ call :: later → Q earlier call)
    (new : Q calls made) :
    ∀ earlier call later, calls ++ [made] = earlier ++ call :: later → Q earlier call := by
  intro earlier call later split
  rcases List.eq_nil_or_concat later with rfl | ⟨front, last, rfl⟩
  · obtain ⟨rfl, same⟩ := List.append_inj' split rfl
    rw [← (List.cons.inj same).1]
    exact new
  · rw [List.concat_eq_append, ← List.cons_append, ← List.append_assoc] at split
    obtain ⟨whole, -⟩ := List.append_inj' split rfl
    exact old earlier call front whole

/-- The same for a property of each call and the calls before it, next to the histories'. -/
theorem run_induct_calls {P : History → Prop} {Q : List Transition → Transition → Prop}
    (initial : P {})
    (step : ∀ history command events after, history.Taken command events after → P history →
      P (history.push command events after))
    (calls : ∀ history command events after, history.Taken command events after → P history →
      Q history.transitions { before := history.state, command, events, after }) :
    ∀ commands, ∃ history, run commands = .ok history ∧ history.state.Sound ∧
      history.transitions.length = commands.length ∧ P history ∧
      ∀ earlier call later, history.transitions = earlier ++ call :: later → Q earlier call := by
  refine run_induct ⟨initial, by simp⟩ ?_
  intro history command events after taken held
  exact ⟨step history command events after taken held.1,
    forall_calls_push held.2 (calls history command events after taken held.1)⟩

end History
end MarketLab.Matching

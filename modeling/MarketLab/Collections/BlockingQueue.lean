import Mathlib.Tactic.SplitIfs

/-!
# A bounded blocking queue

First in, first out, shared by threads. An operation that would wait is not possible yet.
-/
namespace MarketLab.Collections

structure BlockingQueue (α : Type) where
  capacity : Nat
  items : List α := []
  closed : Bool := false

/-- What `push` does when it does not have to wait. -/
inductive Push (α : Type) where
  | appended (queue : BlockingQueue α)
  | threw

/-- What `wait_and_pop` does when it does not have to wait. -/
inductive Pop (α : Type) where
  | popped (item : α) (queue : BlockingQueue α)
  | drained

namespace BlockingQueue
variable {α : Type}

def push (queue : BlockingQueue α) (item : α) : Option (Push α) :=
  if queue.closed then some .threw
  else if queue.items.length < queue.capacity then
    some (.appended { queue with items := queue.items ++ [item] })
  else none

def waitAndPop (queue : BlockingQueue α) : Option (Pop α) :=
  match queue.items with
  | item :: items => some (.popped item { queue with items })
  | [] => if queue.closed then some .drained else none

def close (queue : BlockingQueue α) : BlockingQueue α := { queue with closed := true }

theorem push_appended {queue after : BlockingQueue α} {item : α}
    (pushed : queue.push item = some (.appended after)) :
    queue.closed = false ∧ after.closed = false ∧ after.items = queue.items ++ [item] := by
  unfold push at pushed
  split_ifs at pushed with closed room
  · cases pushed
  · obtain rfl := Push.appended.inj (Option.some.inj pushed)
    exact ⟨Bool.eq_false_iff.mpr closed, Bool.eq_false_iff.mpr closed, rfl⟩

theorem push_threw {queue : BlockingQueue α} {item : α} (threw : queue.push item = some .threw) :
    queue.closed = true := by
  unfold push at threw
  split_ifs at threw with closed room
  · exact closed
  · cases threw

theorem waitAndPop_popped {queue after : BlockingQueue α} {item : α}
    (popped : queue.waitAndPop = some (.popped item after)) :
    queue.items = item :: after.items ∧ after.closed = queue.closed := by
  unfold waitAndPop at popped
  split at popped
  next front items held =>
    obtain ⟨rfl, rfl⟩ := Pop.popped.inj (Option.some.inj popped)
    exact ⟨held, rfl⟩
  next =>
    split_ifs at popped
    cases popped

theorem waitAndPop_drained {queue : BlockingQueue α}
    (drained : queue.waitAndPop = some .drained) : queue.closed = true ∧ queue.items = [] := by
  unfold waitAndPop at drained
  split at drained
  next => cases drained
  next held =>
    split_ifs at drained with closed
    exact ⟨closed, held⟩

theorem push_capacity {queue after : BlockingQueue α} {item : α}
    (pushed : queue.push item = some (.appended after)) : after.capacity = queue.capacity := by
  unfold push at pushed
  split_ifs at pushed
  · cases pushed
  · obtain rfl := Push.appended.inj (Option.some.inj pushed)
    rfl

theorem waitAndPop_capacity {queue after : BlockingQueue α} {item : α}
    (popped : queue.waitAndPop = some (.popped item after)) : after.capacity = queue.capacity := by
  unfold waitAndPop at popped
  split at popped
  next =>
    obtain ⟨-, rfl⟩ := Pop.popped.inj (Option.some.inj popped)
    rfl
  next =>
    split_ifs at popped
    cases popped

/-- Only a push into a full queue waits. -/
theorem push_waits {queue : BlockingQueue α} {item : α} (waits : queue.push item = none) :
    queue.closed = false ∧ queue.capacity ≤ queue.items.length := by
  unfold push at waits
  split_ifs at waits with closed room
  exact ⟨Bool.eq_false_iff.mpr closed, Nat.le_of_not_lt room⟩

/-- Only a pop from an empty open queue waits. -/
theorem waitAndPop_waits {queue : BlockingQueue α} (waits : queue.waitAndPop = none) :
    queue.closed = false ∧ queue.items = [] := by
  unfold waitAndPop at waits
  split at waits
  next => cases waits
  next empty =>
    split_ifs at waits with closed
    exact ⟨Bool.eq_false_iff.mpr closed, empty⟩

end BlockingQueue
end MarketLab.Collections

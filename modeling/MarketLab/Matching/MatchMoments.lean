import MarketLab.Matching.MatchLoop

/-!
# The moments of a matching run

A trade is made in the body of the inner loop. A moment is the state both loops are
in when that body starts: the levels still on the side, the one at the front being
matched. Every trade event of a run of `match_order` is written at one moment, by the
order at the front of the side.
-/
namespace MarketLab.Matching
open MarketLab.Collections MarketLab.Control

/-- `order` is the state the outer body started in, `level` the state of the inner loop. -/
structure Moment (l : Ladder) where
  order : OrderMatch l
  level : LevelMatch

namespace Moment
variable {l : Ladder}

/-- Everything resting on the side at the moment. The level at the front of the map is
matched in place, so the inner loop's level stands for it. -/
def side (moment : Moment l) : List (Node RestingOrder) :=
  moment.level.side (entryNodes moment.order.levels.entries.tail)

end Moment

section Moments
variable {l : Ladder} (instrument : SymbolId)

/-- The inner moments of one round of the outer loop. -/
def levelMoments (order : OrderMatch l) : List (Moment l) :=
  match order.levels.first? with
  | none => []
  | some (_, level) =>
    (whileVisits LevelMatch.continues (LevelMatch.execute instrument) (level.orders.length + 1)
      (order.enterLevel level)).map fun inner => { order, level := inner }

/-- The moments of `match_order`, in order. -/
def matchMoments (canCross : OrderPricing → Price → Bool) (pricing : OrderPricing)
    (m : OrderMatch l) : List (Moment l) :=
  (whileVisits (OrderMatch.continues (canCross pricing)) (OrderMatch.execute instrument)
    (m.levels.size + 1) m).flatMap (levelMoments instrument)

/-- A body that returns has made one trade, with the order at the front. -/
theorem LevelMatch.execute_trade {m next : LevelMatch} (ran : m.execute instrument = .ok next) :
    ∃ front rest executedSize, m.level.orders = front :: rest ∧
      next.events = m.events ++ [.tradeExecuted m.incoming.key front.value.key instrument
        front.value.limitPrice executedSize] := by
  unfold execute at ran
  split at ran
  · cases ran
  next front rest orders =>
    cases made : Quantity.make (min m.incoming.openSize.value front.value.openSize.value) with
    | error e => simp [made, bind, Except.bind] at ran
    | ok executedSize =>
      simp only [made, bind, Except.bind, pure, Except.pure] at ran
      refine ⟨front, rest, executedSize, orders, ?_⟩
      split at ran <;> rw [← Except.ok.inj ran]

theorem LevelMatch.execute_grows (m next : LevelMatch) (_ : m.continues = true)
    (ran : m.execute instrument = .ok next) : m.events <+: next.events := by
  obtain ⟨front, rest, executedSize, -, events⟩ := LevelMatch.execute_trade instrument ran
  exact ⟨_, events.symm⟩

theorem OrderMatch.execute_grows (canCross : Price → Bool) (m next : OrderMatch l)
    (_ : m.continues canCross = true) (ran : m.execute instrument = .ok next) :
    m.events <+: next.events := by
  obtain ⟨price, level, matched, -, inner, rfl⟩ := (OrderMatch.execute_iff instrument).mp ran
  exact whileLoop_grows LevelMatch.events (LevelMatch.execute_grows instrument) inner

/-- Every event `match_order` appends is the trade of one moment, whose log so far ends
right before it. -/
theorem matchOrder_moment {canCross : OrderPricing → Price → Bool} {pricing : OrderPricing}
    {m final : OrderMatch l} (ran : matchOrder instrument canCross pricing m = .ok final)
    {front : List Event} {event : Event} (before : m.events <+: front)
    (within : front ++ [event] <+: final.events) :
    ∃ moment ∈ matchMoments instrument canCross pricing m, ∃ best rest executedSize,
      moment.level.events = front ∧ moment.side = best :: rest ∧
      event = .tradeExecuted moment.level.incoming.key best.value.key instrument
        best.value.limitPrice executedSize := by
  obtain ⟨outer, visitedOuter, nextOuter, ranOuter, beforeOuter, withinOuter⟩ :=
    whileVisits_log OrderMatch.events (OrderMatch.execute_grows instrument (canCross pricing)) ran
      before within
  obtain ⟨price, level, matched, first, inner, rfl⟩ :=
    (OrderMatch.execute_iff instrument).mp ranOuter
  obtain ⟨visited, visitedInner, next, ranInner, beforeInner, withinInner⟩ :=
    whileVisits_log LevelMatch.events (LevelMatch.execute_grows instrument) inner
      (beforeOuter : (outer.enterLevel level).events <+: front) withinOuter
  obtain ⟨best, rest, executedSize, orders, traded⟩ :=
    LevelMatch.execute_trade instrument ranInner
  -- One entry was written, so the log stopped exactly before it.
  have pinned : visited.events = front ∧ event = .tradeExecuted visited.incoming.key
      best.value.key instrument best.value.limitPrice executedSize := by
    rw [traded] at withinInner
    have shorter := withinInner.length_le
    simp only [List.length_append, List.length_singleton] at shorter
    have same := beforeInner.eq_of_length_le (by omega)
    rw [← same] at withinInner
    have whole := withinInner.eq_of_length_le (by simp)
    have entries := List.append_cancel_left whole
    exact ⟨same, by simpa using entries⟩
  refine ⟨⟨outer, visited⟩, ?_, best,
    rest ++ entryNodes outer.levels.entries.tail, executedSize, pinned.1, ?_, pinned.2⟩
  · refine List.mem_flatMap.mpr ⟨outer, visitedOuter, ?_⟩
    simp only [levelMoments, first]
    exact List.mem_map_of_mem visitedInner
  · simp [Moment.side, LevelMatch.side, orders]

/-- At every moment the side holds an end of the queue it started with, but for sizes. -/
theorem matchMoments_suffix {allocated : Nat} (canCross : OrderPricing → Price → Bool)
    (pricing : OrderPricing) (m : OrderMatch l) (sound : LevelsSound allocated m.levels) :
    ∀ moment ∈ matchMoments instrument canCross pricing m,
      moment.side.map identity <:+ (restingNodes m.levels).map identity := by
  intro moment member
  obtain ⟨outer, visitedOuter, inLevel⟩ := List.mem_flatMap.mp member
  let outerInvariant (s : OrderMatch l) : Prop := LevelsSound allocated s.levels ∧
    (restingNodes s.levels).map identity <:+ (restingNodes m.levels).map identity
  obtain ⟨⟨levelsSound, outerSuffix⟩, running⟩ := whileVisits_invariant outerInvariant
    (by
      intro s next held running ran
      obtain ⟨kept, shorter⟩ :=
        OrderMatch.execute_kept instrument (canCross pricing) held.1 running ran
      exact ⟨kept, shorter.trans held.2⟩)
    ⟨sound, List.suffix_refl _⟩ outer visitedOuter
  obtain ⟨-, price, level, rest, entries, crossed⟩ :=
    (OrderMatch.continues_iff (canCross pricing) outer).mp running
  have first : outer.levels.first? = some (price, level) := by
    simp [OrderedMap.first?, entries]
  simp only [levelMoments, first, List.mem_map] at inLevel
  obtain ⟨inner, visitedInner, rfl⟩ := inLevel
  let innerInvariant (s : LevelMatch) : Prop := s.level.Sound l allocated price ∧
    (s.side (entryNodes rest)).map identity <:+ (restingNodes outer.levels).map identity
  have start : innerInvariant (outer.enterLevel level) := by
    refine ⟨levelsSound.level price level (by simp [entries]), ?_⟩
    rw [OrderMatch.side_enterLevel entries]
  obtain ⟨⟨-, innerSuffix⟩, -⟩ := whileVisits_invariant innerInvariant
    (by
      intro s next held running ran
      obtain ⟨kept, shorter⟩ := LevelMatch.execute_kept instrument (canCross pricing)
        (entryNodes rest) crossed held.1 running ran
      exact ⟨kept, shorter.trans held.2⟩)
    start inner visitedInner
  have tail : outer.levels.entries.tail = rest := by simp [entries]
  simp only [Moment.side, tail]
  exact innerSuffix.trans outerSuffix

end Moments
end MarketLab.Matching

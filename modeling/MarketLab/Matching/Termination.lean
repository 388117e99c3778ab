import MarketLab.Matching.MatchMoments
import MarketLab.Matching.Runs

/-!
# Matching terminates

Neither loop of `match_order` counts. Without their bounds both still run to their
exits on every reachable book: each inner body executes the first of what a sweep of
the side has pending, and the sweep says which orders these are and how much of each
is taken. No body makes an empty `quantity` or subtracts more than there is.
-/
namespace MarketLab.Matching
open MarketLab.Collections MarketLab.Control

/-- The inner body, started in `m`, trades `fill.2` with the order `fill.1` at the front, which
leaves the level when nothing of it is left. -/
structure LevelMatch.Executes (instrument : SymbolId) (m : LevelMatch)
    (fill : Node RestingOrder × UInt64) : Prop where
  front : m.level.orders.head? = some fill.1
  executedSize : fill.2 = min m.incoming.openSize.value fill.1.value.openSize.value
  positive : 1 ≤ fill.2
  constructed : Quantity.make fill.2 = .ok ⟨fill.2⟩
  incoming : fill.2 ≤ m.incoming.openSize.value
  resting : fill.2 ≤ fill.1.value.openSize.value
  returns : ∃ next, m.execute instrument = .ok next ∧
    next.events = m.events ++ [tradeOf instrument m.incoming.key fill] ∧
    next.incoming.openSize.value = m.incoming.openSize.value - fill.2 ∧
    next.level.orders =
      if fill.2 = fill.1.value.openSize.value then m.level.orders.tail
      else Sized.resize fill.1 (fill.1.value.openSize.value - fill.2) :: m.level.orders.tail

/-- `match_order` runs from `m` to `final` with no bound on its loops: `rounds` are the states
the outer body starts in, `fills` what the inner bodies trade. -/
structure OrderMatch.Terminates {l : Ladder} (instrument : SymbolId) (canCross : Price → Bool)
    (m : OrderMatch l) (rounds : List (OrderMatch l)) (fills : List (Node RestingOrder × UInt64))
    (final : OrderMatch l) : Prop where
  outer : LoopTrace (OrderMatch.continues canCross) (OrderMatch.execute instrument) m rounds final
  inner : ∀ round ∈ rounds, ∃ price level matched, round.levels.first? = some (price, level) ∧
    matchAgainstLevel instrument (round.enterLevel level) = .ok matched ∧
    LoopTrace LevelMatch.continues (LevelMatch.execute instrument) (round.enterLevel level)
      ((levelMoments instrument round).map Moment.level) matched
  bodies : List.Forall₂ (fun moment fill => moment.level.Executes instrument fill)
    (rounds.flatMap (levelMoments instrument)) fills
  trades : final.events = m.events ++ fills.map (tradeOf instrument m.incoming.key)
  crossing : fills.map Prod.fst <+: (restingNodes m.levels).filter (crosses canCross)
  whole : ∀ fill ∈ fills.dropLast, fill.2 = fill.1.value.openSize.value

section Loops
variable {l : Ladder} {allocated : Nat} (instrument : SymbolId) (canCross : Price → Bool)

/-- What the sweep of the side has still to execute. -/
def LevelMatch.pending (tail : List (Node RestingOrder)) (m : LevelMatch) :
    List (Node RestingOrder × UInt64) :=
  (sweep (crosses canCross) m.incoming.openSize.value (m.side tail)).fills

def OrderMatch.pending (m : OrderMatch l) : List (Node RestingOrder × UInt64) :=
  (sweep (crosses canCross) m.incoming.openSize.value (restingNodes m.levels)).fills

/-- The smaller of two open sizes is a `quantity`, and no more than either. -/
theorem executedSize_fits {incoming resting executedSize : UInt64}
    (least : executedSize = min incoming resting) (positive : 0 < incoming) (filled : 0 < resting) :
    1 ≤ executedSize ∧ Quantity.make executedSize = .ok ⟨executedSize⟩ ∧
      executedSize ≤ incoming ∧ executedSize ≤ resting := by
  have most : executedSize ≤ incoming ∧ executedSize ≤ resting := by
    rw [least]
    exact ⟨Std.min_le_left, Std.min_le_right⟩
  have nonzero : executedSize ≠ 0 := by
    rw [Std.min_eq_if] at least
    grind
  have one : 1 ≤ executedSize := by grind
  exact ⟨one, if_neg nonzero, most⟩

/-- The inner body executes the first of what is pending. -/
theorem LevelMatch.execute_executes {price : Price} (crossed : canCross price = true)
    (tail : List (Node RestingOrder)) {m next : LevelMatch}
    (sound : m.level.Sound l allocated price) (running : m.continues = true)
    (ran : m.execute instrument = .ok next) :
    ∃ fill, m.Executes instrument fill ∧
      m.pending canCross tail = fill :: next.pending canCross tail := by
  obtain ⟨positive, inhabited⟩ := (continues_iff m).mp running
  obtain ⟨front, rest, orders⟩ := List.exists_cons_of_ne_nil inhabited
  obtain ⟨filed, -, filled⟩ := sound.filed front (by simp [orders])
  have accepted : crosses canCross front = true := by rw [crosses, filed, crossed]
  have before : m.side tail = front :: (rest ++ tail) := by simp [side, orders]
  have first : m.level.orders.head? = some front := by rw [orders, List.head?_cons]
  rcases execute_cases instrument m front rest orders positive filled with
    ⟨fits, full⟩ | ⟨larger, part⟩
  · have least : front.value.openSize.value =
        min m.incoming.openSize.value front.value.openSize.value := by
      rw [Std.min_eq_if]
      grind
    obtain ⟨one, constructed, incoming, resting⟩ := executedSize_fits least positive filled
    obtain rfl := Except.ok.inj (ran.symm.trans full)
    refine ⟨(front, front.value.openSize.value),
      ⟨first, least, one, constructed, incoming, resting, _, ran, rfl, rfl, ?_⟩, ?_⟩
    · rw [if_pos rfl, orders, List.tail_cons]
    · unfold pending
      rw [before, sweep_fill _ _ front _ positive accepted fits]
      rfl
  · have least : m.incoming.openSize.value =
        min m.incoming.openSize.value front.value.openSize.value := by
      rw [Std.min_eq_if, if_pos (UInt64.le_of_lt larger)]
    obtain ⟨one, constructed, incoming, resting⟩ := executedSize_fits least positive filled
    obtain rfl := Except.ok.inj (ran.symm.trans part)
    refine ⟨(front, m.incoming.openSize.value),
      ⟨first, least, one, constructed, incoming, resting, _, ran, rfl,
        (UInt64.sub_self _).symm, ?_⟩, ?_⟩
    · rw [if_neg (UInt64.ne_of_lt larger), orders, List.tail_cons]
    · unfold pending
      rw [before, sweep_part _ _ front _ positive accepted larger, sweep_stop _ _ _ (Or.inl rfl)]

/-- One round of the outer loop executes what is pending up to its inner exit. -/
theorem OrderMatch.execute_executes {m next : OrderMatch l}
    (sound : LevelsSound allocated m.levels) (running : m.continues canCross = true)
    (ran : m.execute instrument = .ok next) :
    LevelsSound allocated next.levels ∧
      ∃ fills, List.Forall₂ (fun moment fill => moment.level.Executes instrument fill)
          (levelMoments instrument m) fills ∧
        m.pending canCross = fills ++ next.pending canCross := by
  obtain ⟨positive, price, level, rest, entries, crossed⟩ := (continues_iff canCross m).mp running
  have first : m.levels.first? = some (price, level) := by simp [OrderedMap.first?, entries]
  obtain ⟨atPrice, atLevel, matched, found, inner, rfl⟩ := (execute_iff instrument).mp ran
  obtain ⟨rfl, rfl⟩ := Prod.mk.inj (Option.some_inj.mp (first.symm.trans found))
  -- The inner loop keeps its level sound and executes the side it shares with the outer one.
  have step : ∀ s after : LevelMatch, s.level.Sound l allocated price → s.continues = true →
      s.execute instrument = .ok after → after.level.Sound l allocated price ∧
        ∃ fills, List.Forall₂ (fun visited fill => visited.Executes instrument fill) [s] fills ∧
          s.pending canCross (entryNodes rest) =
            fills ++ after.pending canCross (entryNodes rest) := by
    intro s after sound running ran
    have kept :=
      (LevelMatch.execute_kept instrument canCross (entryNodes rest) crossed sound running ran).1
    obtain ⟨fill, executes, pending⟩ :=
      LevelMatch.execute_executes instrument canCross crossed (entryNodes rest) sound running ran
    exact ⟨kept, [fill], List.Forall₂.cons executes List.Forall₂.nil, pending⟩
  obtain ⟨kept, -, fills, executed, pending⟩ := (whileLoop_trace inner).emits
    (fun s => s.level.Sound l allocated price) (fun s => [s])
    (LevelMatch.pending canCross (entryNodes rest)) step
    (sound.level price level (by simp [entries]))
  refine ⟨putBack_sound sound entries kept, fills, ?_, ?_⟩
  · rw [List.flatMap_singleton'] at executed
    simp only [levelMoments, first]
    exact List.forall₂_map_left_iff.mpr executed
  · have before := side_enterLevel entries
    have after := restingNodes_putBack entries matched.level
    simp only [OrderMatch.pending, ← before, after]
    exact pending

theorem OrderMatch.inner_trace {round next : OrderMatch l}
    (ran : round.execute instrument = .ok next) :
    ∃ price level matched, round.levels.first? = some (price, level) ∧
      matchAgainstLevel instrument (round.enterLevel level) = .ok matched ∧
      LoopTrace LevelMatch.continues (LevelMatch.execute instrument) (round.enterLevel level)
        ((levelMoments instrument round).map Moment.level) matched := by
  obtain ⟨price, level, matched, first, inner, -⟩ := (execute_iff instrument).mp ran
  refine ⟨price, level, matched, first, inner, ?_⟩
  have visits : (levelMoments instrument round).map Moment.level =
      whileVisits LevelMatch.continues (LevelMatch.execute instrument) (level.orders.length + 1)
        (round.enterLevel level) := by
    simp only [levelMoments, first, List.map_map]
    exact List.map_id _
  rw [visits]
  exact whileLoop_trace inner

/-- On sound levels both loops terminate, and what the bodies trade is the sweep of the side. -/
theorem OrderMatch.terminates (canCross : OrderPricing → Price → Bool) (pricing : OrderPricing)
    (m : OrderMatch l) (sound : LevelsSound allocated m.levels) :
    ∃ rounds fills final, matchOrder instrument canCross pricing m = .ok final ∧
      m.Terminates instrument (canCross pricing) rounds fills final := by
  obtain ⟨final, ran, -, -, settled⟩ := matchOrder_ok instrument canCross pricing m sound
  have trace := whileLoop_trace ran
  obtain ⟨kept, stopped, fills, bodies, pending⟩ := trace.emits
    (fun s => LevelsSound allocated s.levels) (levelMoments instrument)
    (OrderMatch.pending (canCross pricing))
    (fun s next => OrderMatch.execute_executes instrument (canCross pricing)) sound
  have swept : (sweep (crosses (canCross pricing)) m.incoming.openSize.value
      (restingNodes m.levels)).fills = fills := by
    have nothing : final.pending (canCross pricing) = [] := by
      rw [OrderMatch.pending, sweep_stopped (canCross pricing) final kept stopped]
    rw [nothing, List.append_nil] at pending
    exact pending
  have trades : final.events = m.events ++ fills.map (tradeOf instrument m.incoming.key) := by
    have events := congrArg Settlement.events settled
    rw [← swept]
    exact events
  have crossing : fills.map Prod.fst <+:
      (restingNodes m.levels).filter (crosses (canCross pricing)) := by
    rw [← swept]
    exact sweep_fills_accepted _ _ _
  have whole : ∀ fill ∈ fills.dropLast, fill.2 = fill.1.value.openSize.value := by
    rw [← swept]
    exact sweep_fills_whole _ _ _
  have inner := fun round visited =>
    (trace.body_ran round visited).elim fun _ => OrderMatch.inner_trace instrument
  exact ⟨_, fills, final, ran, { outer := trace, inner, bodies, trades, crossing, whole }⟩

end Loops

/-- Every inner body is for an order of its own among the crossing ones. -/
theorem OrderMatch.Terminates.bodies_le {l : Ladder} {instrument : SymbolId}
    {canCross : Price → Bool} {m final : OrderMatch l} {rounds : List (OrderMatch l)}
    {fills : List (Node RestingOrder × UInt64)}
    (terminates : m.Terminates instrument canCross rounds fills final) :
    (rounds.flatMap (levelMoments instrument)).length ≤
      ((restingNodes m.levels).filter (crosses canCross)).length := by
  have counted := terminates.bodies.length_eq
  have bound := terminates.crossing.length_le
  rw [List.length_map] at bound
  omega

/-- On every book of a reachable state, and on one just made, matching an incoming order
terminates without a fault: each inner body trades with a crossing order of its own, at least
one and at most what either side has open, and every trade but the last takes the whole
resting order. -/
theorem matching_terminates (commands : List Command) :
    ∃ history, History.run commands = .ok history ∧
      ∀ symbol book, history.state.books.find? symbol = some book ∨ book = { instrument := symbol } →
        ∀ (l : Ladder) (canCross : OrderPricing → Price → Bool) (pricing : OrderPricing)
          (incoming : IncomingOrder) (events : List Event) (filled : List OrderKey),
          let m : OrderMatch l :=
            { incoming, levels := book.levels l, events, filledRestingOrders := filled }
          ∃ rounds fills final, matchOrder book.instrument canCross pricing m = .ok final ∧
            m.Terminates book.instrument (canCross pricing) rounds fills final ∧
            (fills.map fun fill => fill.1.value.key).Nodup ∧
            (rounds.flatMap (levelMoments book.instrument)).length ≤
              ((restingNodes (book.levels l)).filter (crosses (canCross pricing))).length := by
  obtain ⟨history, ran, sound⟩ := History.run_sound commands
  refine ⟨history, ran, ?_⟩
  intro symbol book reachable l canCross pricing incoming events filled m
  have bookSound : book.Sound := by
    rcases reachable with found | rfl
    · exact (sound.book symbol book found).1
    · exact OrderBook.empty_sound symbol
  obtain ⟨rounds, fills, final, returned, terminates⟩ :=
    OrderMatch.terminates book.instrument canCross pricing m (bookSound.levels l)
  refine ⟨rounds, fills, final, returned, terminates, ?_, terminates.bodies_le⟩
  have keys := (bookSound.keys l).sublist
    ((terminates.crossing.sublist.trans List.filter_sublist).map fun node => node.value.key)
  rw [List.map_map] at keys
  exact keys

end MarketLab.Matching

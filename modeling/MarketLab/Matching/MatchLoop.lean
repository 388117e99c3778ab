import MarketLab.Collections.Greedy
import MarketLab.Matching.OrderBook

/-!
# The matching loops are one sweep

A side of a book, flattened, is the queue of its list nodes: best level first,
front of the level first. On sound levels the two nested loops never fault and
end exactly where a greedy sweep of that queue ends. The proof follows one
invariant through both loops: the settlement, what a sweep from the current
state would still produce together with what was produced already, never moves.
-/
namespace MarketLab.Matching
open MarketLab.Collections MarketLab.Control

instance : Sized RestingOrder where
  size order := order.openSize.value
  resize order n := { order with openSize := ⟨n⟩ }
  size_resize _ _ := rfl
  resize_resize _ _ _ := rfl

instance : Sized (Node RestingOrder) where
  size node := node.value.openSize.value
  resize node n := { node with value := { node.value with openSize := ⟨n⟩ } }
  size_resize _ _ := rfl
  resize_resize _ _ _ := rfl

/-- The nodes of a run of levels, in iteration order. -/
def entryNodes (entries : List (Price × PriceLevel)) : List (Node RestingOrder) :=
  entries.flatMap fun entry => entry.2.orders

@[simp] theorem entryNodes_nil : entryNodes [] = [] := rfl

@[simp] theorem entryNodes_cons (entry : Price × PriceLevel) (entries : List (Price × PriceLevel)) :
    entryNodes (entry :: entries) = entry.2.orders ++ entryNodes entries := rfl

@[simp] theorem entryNodes_append (front back : List (Price × PriceLevel)) :
    entryNodes (front ++ back) = entryNodes front ++ entryNodes back := List.flatMap_append

def restingNodes {l : Ladder} (levels : Levels l) : List (Node RestingOrder) :=
  entryNodes levels.entries

/-- A level agrees with its price, side and cached total. -/
structure PriceLevel.Sound (l : Ladder) (allocated : Nat) (price : Price) (level : PriceLevel) :
    Prop where
  filed : ∀ node ∈ level.orders, node.value.limitPrice = price ∧
    node.value.direction = l.side ∧ 0 < node.value.openSize.value
  total : level.totalSize = (level.orders.map fun node => node.value.openSize.value).sum
  addresses : (LinkedList.addresses level.orders).Nodup
  allocated : ∀ node ∈ level.orders, node.address < allocated

/-- Every level is sound and holds an order. -/
structure LevelsSound {l : Ladder} (allocated : Nat) (levels : Levels l) : Prop where
  level : ∀ price level, (price, level) ∈ levels.entries → level.Sound l allocated price
  nonempty : ∀ price level, (price, level) ∈ levels.entries → level.orders ≠ []

/-- Where the loops end up: quantity left, queue left, events and filled keys. -/
structure Settlement where
  left : UInt64
  nodes : List (Node RestingOrder)
  events : List Event
  filled : List OrderKey

def tradeOf (instrument : SymbolId) (aggressor : OrderKey) (fill : Node RestingOrder × UInt64) :
    Event :=
  .tradeExecuted aggressor fill.1.value.key instrument fill.1.value.limitPrice ⟨fill.2⟩

/-- What was produced before a sweep, and the sweep's own outcome. -/
def settlement (instrument : SymbolId) (aggressor : OrderKey) (events : List Event)
    (filled : List OrderKey) (outcome : Outcome (Node RestingOrder)) : Settlement :=
  { left := outcome.left
    nodes := outcome.rest
    events := events ++ outcome.fills.map (tradeOf instrument aggressor)
    filled := filled ++ outcome.filled.map fun node => node.value.key }

section Loops
variable {l : Ladder} {allocated : Nat} (instrument : SymbolId) (canCross : Price → Bool)

/-- The crossing test of `match_order`, on a node of the queue. -/
def crosses (node : Node RestingOrder) : Bool := canCross node.value.limitPrice

namespace LevelMatch
variable (tail : List (Node RestingOrder))

/-- The whole side while its best level is being matched. -/
def side (m : LevelMatch) : List (Node RestingOrder) := m.level.orders ++ tail

def settle (m : LevelMatch) : Settlement :=
  settlement instrument m.incoming.key m.events m.filledRestingOrders
    (sweep (crosses canCross) m.incoming.openSize.value (m.side tail))

def remaining (m : LevelMatch) : Nat :=
  if m.incoming.openSize.value = 0 then 0 else m.level.orders.length + 1

theorem continues_iff (m : LevelMatch) :
    m.continues = true ↔ 0 < m.incoming.openSize.value ∧ m.level.orders ≠ [] := by
  simp [continues]

/-- One iteration, in the two ways it can go. -/
theorem execute_cases (m : LevelMatch) (front : Node RestingOrder)
    (rest : List (Node RestingOrder)) (orders : m.level.orders = front :: rest)
    (positive : 0 < m.incoming.openSize.value) (filled : 0 < front.value.openSize.value) :
    (front.value.openSize.value ≤ m.incoming.openSize.value ∧
      m.execute instrument = .ok
        { incoming := { m.incoming with
            openSize := ⟨m.incoming.openSize.value - front.value.openSize.value⟩ }
          level := { totalSize := m.level.totalSize - front.value.openSize.value, orders := rest }
          events := m.events ++
            [tradeOf instrument m.incoming.key (front, front.value.openSize.value)]
          filledRestingOrders := m.filledRestingOrders ++ [front.value.key] }) ∨
    (m.incoming.openSize.value < front.value.openSize.value ∧
      m.execute instrument = .ok
        { incoming := { m.incoming with openSize := ⟨0⟩ }
          level :=
            { totalSize := m.level.totalSize - m.incoming.openSize.value
              orders := Sized.resize front
                (front.value.openSize.value - m.incoming.openSize.value) :: rest }
          events := m.events ++
            [tradeOf instrument m.incoming.key (front, m.incoming.openSize.value)]
          filledRestingOrders := m.filledRestingOrders }) := by
  by_cases fits : front.value.openSize.value ≤ m.incoming.openSize.value
  · left
    have least : min m.incoming.openSize.value front.value.openSize.value =
        front.value.openSize.value := by
      rw [Std.min_eq_if]
      grind
    have nonzero : front.value.openSize.value ≠ 0 := UInt64.pos_iff_ne_zero.mp filled
    refine ⟨fits, ?_⟩
    simp [execute, orders, least, Quantity.make, nonzero, tradeOf, bind, Except.bind, pure,
      Except.pure]
  · right
    have larger := UInt64.not_le.mp fits
    have least : min m.incoming.openSize.value front.value.openSize.value =
        m.incoming.openSize.value := by
      rw [Std.min_eq_if, if_pos (UInt64.le_of_lt larger)]
    have nonzero : m.incoming.openSize.value ≠ 0 := UInt64.pos_iff_ne_zero.mp positive
    have remains : front.value.openSize.value - m.incoming.openSize.value ≠ 0 := by
      grind
    refine ⟨larger, ?_⟩
    simp [execute, orders, least, Quantity.make, nonzero, remains, tradeOf, bind, Except.bind,
      pure, Except.pure, Sized.resize]

/-- One iteration keeps the settlement, the level's soundness and the identities of
the side, and gets closer to the end. -/
theorem execute_step {price : Price} (crossed : canCross price = true) (m : LevelMatch)
    (sound : m.level.Sound l allocated price) (running : m.continues = true) :
    ∃ next, m.execute instrument = .ok next ∧ next.level.Sound l allocated price ∧
      next.settle instrument canCross tail = m.settle instrument canCross tail ∧
      next.incoming = { m.incoming with openSize := next.incoming.openSize } ∧
      (next.side tail).map identity <:+ (m.side tail).map identity ∧
      next.remaining < m.remaining := by
  obtain ⟨positive, inhabited⟩ := (continues_iff m).mp running
  obtain ⟨front, rest, orders⟩ := List.exists_cons_of_ne_nil inhabited
  obtain ⟨filed, total, addresses, allocatedBound⟩ := sound
  simp only [orders, List.forall_mem_cons, List.map_cons, List.sum_cons, LinkedList.addresses,
    List.nodup_cons] at filed total addresses allocatedBound
  have accepted : crosses canCross front = true := by rw [crosses, filed.1.1, crossed]
  have nonzero : m.incoming.openSize.value ≠ 0 := UInt64.pos_iff_ne_zero.mp positive
  have measured : m.remaining = rest.length + 2 := by simp [remaining, nonzero, orders]
  have before : m.side tail = front :: (rest ++ tail) := by simp [side, orders]
  rcases execute_cases instrument m front rest orders positive filed.1.2.2 with
    ⟨fits, ran⟩ | ⟨larger, ran⟩
  · refine ⟨_, ran, ?_, ?_, rfl, ?_, ?_⟩
    · refine ⟨filed.2, ?_, addresses.2, allocatedBound.2⟩
      simp only [total]
      grind
    · simp only [settle, before, settlement]
      rw [sweep_fill _ _ front _ positive accepted fits]
      simp [side, Sized.size]
    · rw [before]
      simp [side]
    · rw [measured, remaining]
      split <;> simp
  · refine ⟨_, ran, ?_, ?_, rfl, ?_, ?_⟩
    · refine ⟨?_, ?_, ?_, ?_⟩
      · simp only [List.forall_mem_cons]
        refine ⟨⟨filed.1.1, filed.1.2.1, ?_⟩, filed.2⟩
        simp only [Sized.resize]
        grind
      · simp only [total, List.map_cons, List.sum_cons, Sized.resize]
        grind
      · exact List.nodup_cons.mpr addresses
      · simp only [List.forall_mem_cons]
        exact ⟨allocatedBound.1, allocatedBound.2⟩
    · simp only [settle, before, settlement]
      rw [sweep_part _ _ front _ positive accepted larger]
      simp [side, Sized.size, sweep_stop]
    · rw [before]
      simp [side]
    · rw [measured]
      simp [remaining]

/-- A body that returns keeps its level sound and only shortens the side. -/
theorem execute_kept {price : Price} (crossed : canCross price = true) {m next : LevelMatch}
    (sound : m.level.Sound l allocated price) (running : m.continues = true)
    (ran : m.execute instrument = .ok next) :
    next.level.Sound l allocated price ∧
      (next.side tail).map identity <:+ (m.side tail).map identity := by
  obtain ⟨same, returned, kept, -, -, shorter, -⟩ :=
    execute_step instrument canCross tail crossed m sound running
  obtain rfl := Except.ok.inj (returned.symm.trans ran)
  exact ⟨kept, shorter⟩

/-- The inner loop stops with the incoming order or the level used up. -/
theorem matchAgainstLevel_ok {price : Price} (crossed : canCross price = true) (m : LevelMatch)
    (sound : m.level.Sound l allocated price) :
    ∃ final, matchAgainstLevel instrument m = .ok final ∧ final.level.Sound l allocated price ∧
      final.settle instrument canCross tail = m.settle instrument canCross tail ∧
      final.incoming = { m.incoming with openSize := final.incoming.openSize } ∧
      (final.side tail).map identity <:+ (m.side tail).map identity ∧
      (final.incoming.openSize.value = 0 ∨ final.level.orders = []) := by
  let invariant (s : LevelMatch) : Prop := s.level.Sound l allocated price ∧
    s.settle instrument canCross tail = m.settle instrument canCross tail ∧
    s.incoming = { m.incoming with openSize := s.incoming.openSize } ∧
    (s.side tail).map identity <:+ (m.side tail).map identity
  have step : ∀ s, invariant s → s.continues = true →
      ∃ next, s.execute instrument = .ok next ∧ invariant next ∧ next.remaining < s.remaining := by
    rintro s ⟨holds, settled, framed, suffix⟩ running
    obtain ⟨next, ran, kept, same, frame, shorter, less⟩ :=
      execute_step instrument canCross tail crossed s holds running
    exact ⟨next, ran, ⟨kept, same.trans settled, by rw [frame, framed], shorter.trans suffix⟩, less⟩
  have enough : m.remaining ≤ m.level.orders.length + 1 := by
    unfold remaining
    split <;> simp
  obtain ⟨final, ran, ⟨kept, same, frame, shorter⟩, stopped⟩ :=
    whileLoop_total Fault.boundExceeded invariant remaining step
      ⟨sound, rfl, rfl, List.suffix_refl _⟩ enough
  refine ⟨final, ran, kept, same, frame, shorter, ?_⟩
  have exit := mt (continues_iff final).mpr (by simp [stopped])
  rcases not_and_or.mp exit with zero | empty
  · exact Or.inl (UInt64.le_zero_iff.mp (UInt64.not_lt.mp zero))
  · exact Or.inr (not_not.mp empty)

end LevelMatch

namespace OrderMatch

def settle (m : OrderMatch l) : Settlement :=
  settlement instrument m.incoming.key m.events m.filledRestingOrders
    (sweep (crosses canCross) m.incoming.openSize.value (restingNodes m.levels))

def remaining (m : OrderMatch l) : Nat :=
  if m.incoming.openSize.value = 0 then 0 else m.levels.size + 1

theorem continues_iff (m : OrderMatch l) :
    m.continues canCross = true ↔ 0 < m.incoming.openSize.value ∧
      ∃ price level rest, m.levels.entries = (price, level) :: rest ∧ canCross price = true := by
  cases entries : m.levels.entries with
  | nil => simp [continues, OrderedMap.first?, entries]
  | cons entry rest =>
    obtain ⟨price, level⟩ := entry
    simp [continues, OrderedMap.first?, entries]

theorem side_enterLevel {m : OrderMatch l} {price : Price} {level : PriceLevel}
    {rest : List (Price × PriceLevel)} (entries : m.levels.entries = (price, level) :: rest) :
    (m.enterLevel level).side (entryNodes rest) = restingNodes m.levels := by
  simp [restingNodes, entries, enterLevel, LevelMatch.side]

/-- What rests on the side once its first level is put back, or erased as empty. -/
theorem restingNodes_putBack {levels : Levels l} {price : Price} {level : PriceLevel}
    {rest : List (Price × PriceLevel)} (entries : levels.entries = (price, level) :: rest)
    (matched : PriceLevel) :
    restingNodes (if matched.orders.isEmpty then levels.eraseFirst
      else levels.insertOrAssign price matched) = matched.orders ++ entryNodes rest := by
  cases orders : matched.orders with
  | nil => simp [restingNodes, entries]
  | cons front others =>
    have assigned : (levels.insertOrAssign price matched).entries = (price, matched) :: rest :=
      OrderedMap.insertOrAssign_split_found matched (entries.trans (List.nil_append _).symm)
    simp [restingNodes, assigned, orders]

/-- A body of the outer loop runs the inner loop on the first level and puts the level back, or
erases it as empty. -/
theorem execute_iff {m next : OrderMatch l} :
    m.execute instrument = .ok next ↔
      ∃ price level matched, m.levels.first? = some (price, level) ∧
        matchAgainstLevel instrument (m.enterLevel level) = .ok matched ∧
        next =
          { incoming := matched.incoming
            levels := if matched.level.orders.isEmpty then m.levels.eraseFirst
              else m.levels.insertOrAssign price matched.level
            events := matched.events
            filledRestingOrders := matched.filledRestingOrders } := by
  constructor
  · intro ran
    unfold execute at ran
    split at ran
    · cases ran
    next price level first =>
      cases inner : matchAgainstLevel instrument (m.enterLevel level) with
      | error e => simp [inner, bind, Except.bind] at ran
      | ok matched =>
        simp only [inner, bind, Except.bind, pure, Except.pure] at ran
        exact ⟨price, level, matched, first, inner, (Except.ok.inj ran).symm⟩
  · rintro ⟨price, level, matched, first, inner, rfl⟩
    simp [execute, first, inner, bind, Except.bind, pure, Except.pure]

/-- The first level put back, or erased as empty, leaves sound levels. -/
theorem putBack_sound {levels : Levels l} (sound : LevelsSound allocated levels) {price : Price}
    {level : PriceLevel} {rest : List (Price × PriceLevel)}
    (entries : levels.entries = (price, level) :: rest) {matched : PriceLevel}
    (kept : matched.Sound l allocated price) :
    LevelsSound allocated (if matched.orders.isEmpty then levels.eraseFirst
      else levels.insertOrAssign price matched) := by
  have restSound : ∀ p lv, (p, lv) ∈ rest → lv.Sound l allocated p ∧ lv.orders ≠ [] :=
    fun p lv member => ⟨sound.level p lv (by simp [entries, member]),
      sound.nonempty p lv (by simp [entries, member])⟩
  by_cases empty : matched.orders = []
  · rw [if_pos (by simp [empty])]
    constructor <;> intro p lv member
    · exact (restSound p lv (by simpa [entries] using member)).1
    · exact (restSound p lv (by simpa [entries] using member)).2
  · have assigned : (levels.insertOrAssign price matched).entries = (price, matched) :: rest :=
      OrderedMap.insertOrAssign_split_found matched (entries.trans (List.nil_append _).symm)
    rw [if_neg (by simp [empty])]
    constructor <;> intro p lv member <;> rw [assigned, List.mem_cons] at member <;>
      rcases member with same | later
    · obtain ⟨rfl, rfl⟩ := Prod.mk.inj same
      exact kept
    · exact (restSound p lv later).1
    · obtain ⟨rfl, rfl⟩ := Prod.mk.inj same
      exact empty
    · exact (restSound p lv later).2

/-- One iteration of the outer loop, with the same invariant. -/
theorem execute_step (m : OrderMatch l) (sound : LevelsSound allocated m.levels)
    (running : m.continues canCross = true) :
    ∃ next, m.execute instrument = .ok next ∧ LevelsSound allocated next.levels ∧
      next.settle instrument canCross = m.settle instrument canCross ∧
      next.incoming = { m.incoming with openSize := next.incoming.openSize } ∧
      (restingNodes next.levels).map identity <:+ (restingNodes m.levels).map identity ∧
      next.remaining < m.remaining := by
  obtain ⟨positive, price, level, rest, entries, crossed⟩ := (continues_iff canCross m).mp running
  have levelSound := sound.level price level (by simp [entries])
  obtain ⟨final, inner, kept, same, frame, shorter, exit⟩ :=
    LevelMatch.matchAgainstLevel_ok instrument canCross (entryNodes rest) crossed
      (m.enterLevel level) levelSound
  have first : m.levels.first? = some (price, level) := by simp [OrderedMap.first?, entries]
  have before := side_enterLevel entries
  have after := restingNodes_putBack entries final.level
  have ran := (execute_iff instrument).mpr ⟨price, level, final, first, inner, rfl⟩
  refine ⟨_, ran, putBack_sound sound entries kept, ?_, frame, ?_, ?_⟩
  · simp only [settle, ← before, after]
    exact same
  · rw [← before, after]
    exact shorter
  · have nonzero : m.incoming.openSize.value ≠ 0 := UInt64.pos_iff_ne_zero.mp positive
    have measured : m.remaining = rest.length + 2 := by
      simp [remaining, nonzero, OrderedMap.size, entries]
    rw [measured]
    rcases exit with exhausted | empty
    · simp [remaining, exhausted]
    · rw [if_pos (by simp [empty])]
      unfold remaining
      split <;> simp [OrderedMap.size, entries]

theorem execute_kept {m next : OrderMatch l} (sound : LevelsSound allocated m.levels)
    (running : m.continues canCross = true) (ran : m.execute instrument = .ok next) :
    LevelsSound allocated next.levels ∧
      (restingNodes next.levels).map identity <:+ (restingNodes m.levels).map identity := by
  obtain ⟨same, returned, kept, -, -, shorter, -⟩ :=
    execute_step instrument canCross m sound running
  obtain rfl := Except.ok.inj (returned.symm.trans ran)
  exact ⟨kept, shorter⟩

/-- At the exit there is nothing left to sweep: no quantity, no level or no crossing. -/
theorem sweep_stopped (m : OrderMatch l) (sound : LevelsSound allocated m.levels)
    (stopped : m.continues canCross = false) :
    sweep (crosses canCross) m.incoming.openSize.value (restingNodes m.levels) =
      { left := m.incoming.openSize.value, rest := restingNodes m.levels } := by
  apply sweep_stop
  have exit := mt (continues_iff canCross m).mpr (by simp [stopped])
  rcases not_and_or.mp exit with zero | noLevel
  · exact Or.inl (UInt64.le_zero_iff.mp (UInt64.not_lt.mp zero))
  · right
    cases entries : m.levels.entries with
    | nil => simp [restingNodes, entries]
    | cons entry rest =>
      obtain ⟨price, level⟩ := entry
      have levelSound := sound.level price level (by simp [entries])
      obtain ⟨front, orders, split⟩ :=
        List.exists_cons_of_ne_nil (sound.nonempty price level (by simp [entries]))
      have atPrice := (levelSound.filed front (by simp [split])).1
      have uncrossed : canCross price = false := by
        by_contra crossed
        exact noLevel ⟨price, level, rest, entries, by simpa using crossed⟩
      simp [restingNodes, entries, split, crosses, atPrice, uncrossed]

end OrderMatch

/-- On sound levels `match_order` returns, and returns what a sweep of the side's
queue says: the quantity left, the remaining queue, the trades and the filled keys. -/
theorem matchOrder_ok (canCross : OrderPricing → Price → Bool) (pricing : OrderPricing)
    (m : OrderMatch l) (sound : LevelsSound allocated m.levels) :
    ∃ final, matchOrder instrument canCross pricing m = .ok final ∧
      LevelsSound allocated final.levels ∧
      final.incoming = { m.incoming with openSize := final.incoming.openSize } ∧
      { left := final.incoming.openSize.value, nodes := restingNodes final.levels,
        events := final.events, filled := final.filledRestingOrders } =
        m.settle instrument (canCross pricing) := by
  let invariant (s : OrderMatch l) : Prop := LevelsSound allocated s.levels ∧
    s.settle instrument (canCross pricing) = m.settle instrument (canCross pricing) ∧
    s.incoming = { m.incoming with openSize := s.incoming.openSize }
  have step : ∀ s, invariant s → s.continues (canCross pricing) = true →
      ∃ next, s.execute instrument = .ok next ∧ invariant next ∧ next.remaining < s.remaining := by
    rintro s ⟨holds, settled, framed⟩ running
    obtain ⟨next, ran, kept, same, frame, -, less⟩ :=
      OrderMatch.execute_step instrument (canCross pricing) s holds running
    exact ⟨next, ran, ⟨kept, same.trans settled, by rw [frame, framed]⟩, less⟩
  have enough : m.remaining ≤ m.levels.size + 1 := by
    unfold OrderMatch.remaining
    split <;> simp
  obtain ⟨final, ran, ⟨kept, settled, frame⟩, stopped⟩ :=
    whileLoop_total Fault.boundExceeded invariant OrderMatch.remaining step ⟨sound, rfl, rfl⟩
      enough
  refine ⟨final, ran, kept, frame, ?_⟩
  rw [← settled]
  simp [OrderMatch.settle, settlement,
    OrderMatch.sweep_stopped (canCross pricing) final kept stopped]

end Loops
end MarketLab.Matching

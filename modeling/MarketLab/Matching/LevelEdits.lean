import MarketLab.Collections.KeyedList
import MarketLab.Matching.Market

/-!
# Edits of one side

What `remove_order`, `reduce_order_size` and the push in `rest_order` do to a
sound side, as edits of its queue of nodes, and that the side stays sound. The
handle a resting order is filed under is a function of its ladder and node.
-/
namespace MarketLab.Matching
open MarketLab.Collections

/-- The handle that denotes a node. -/
def handleOf (l : Ladder) (node : Node RestingOrder) : RestingOrderHandle :=
  { direction := some l.side, limitPrice := some node.value.limitPrice, order := node.address }

variable {l : Ladder} {allocated : Nat} {levels : Levels l}

theorem LevelsSound.mono (sound : LevelsSound allocated levels) {more : Nat}
    (grows : allocated ≤ more) : LevelsSound more levels where
  level price level member := by
    have holds := sound.level price level member
    exact ⟨holds.filed, holds.total, holds.addresses,
      fun node inside => Nat.lt_of_lt_of_le (holds.allocated node inside) grows⟩
  nonempty := sound.nonempty

theorem LevelsSound.assign (sound : LevelsSound allocated levels) {price : Price}
    {level : PriceLevel} (levelSound : level.Sound l allocated price) (orders : level.orders ≠ []) :
    LevelsSound allocated (levels.insertOrAssign price level) := by
  constructor <;> intro other otherLevel member <;>
    rcases OrderedMap.mem_insertOrAssign.mp member with same | ⟨-, old⟩
  · obtain ⟨rfl, rfl⟩ := Prod.mk.inj same
    exact levelSound
  · exact sound.level other otherLevel old
  · obtain ⟨rfl, rfl⟩ := Prod.mk.inj same
    exact orders
  · exact sound.nonempty other otherLevel old

theorem LevelsSound.erase (sound : LevelsSound allocated levels) (price : Price) :
    LevelsSound allocated (levels.erase price) where
  level other level member := sound.level other level (List.mem_of_mem_filter member)
  nonempty other level member := sound.nonempty other level (List.mem_of_mem_filter member)

theorem mem_restingNodes {node : Node RestingOrder} :
    node ∈ restingNodes levels ↔
      ∃ price level, (price, level) ∈ levels.entries ∧ node ∈ level.orders := by
  simp [restingNodes, entryNodes]

/-- A resting node is in the level its price names. -/
theorem LevelsSound.level_of_node (sound : LevelsSound allocated levels)
    {node : Node RestingOrder} (rests : node ∈ restingNodes levels) :
    ∃ level, levels.find? node.value.limitPrice = some level ∧ node ∈ level.orders := by
  obtain ⟨price, level, member, inside⟩ := mem_restingNodes.mp rests
  have atPrice := ((sound.level price level member).filed node inside).1
  exact ⟨level, by rw [atPrice, OrderedMap.find?_eq_some]; exact member, inside⟩

theorem LevelsSound.node (sound : LevelsSound allocated levels) {node : Node RestingOrder}
    (rests : node ∈ restingNodes levels) :
    node.value.direction = l.side ∧ 0 < node.value.openSize.value ∧ node.address < allocated := by
  obtain ⟨price, level, member, inside⟩ := mem_restingNodes.mp rests
  have holds := sound.level price level member
  exact ⟨(holds.filed node inside).2.1, (holds.filed node inside).2.2, holds.allocated node inside⟩

/-- The nodes of a run of sound levels are priced by those levels. -/
theorem LevelsSound.entryNodes_priced (sound : LevelsSound allocated levels)
    (priced : Price → Prop) {entries : List (Price × PriceLevel)}
    (part : ∀ entry ∈ entries, entry ∈ levels.entries) (prices : ∀ entry ∈ entries, priced entry.1) :
    ∀ node ∈ entryNodes entries, priced node.value.limitPrice := by
  intro node member
  obtain ⟨⟨price, level⟩, inEntries, inside⟩ := List.mem_flatMap.mp member
  have atPrice := ((sound.level price level (part _ inEntries)).filed node inside).1
  rw [atPrice]
  exact prices _ inEntries

/-- A present level splits the queue, and an assignment to it replaces its part. -/
theorem LevelsSound.split_level (sound : LevelsSound allocated levels) {price : Price}
    {level : PriceLevel} (found : levels.find? price = some level) :
    ∃ front back, restingNodes levels = front ++ level.orders ++ back ∧
      (∀ node ∈ front, l.Before node.value.limitPrice price) ∧
      (∀ node ∈ back, l.Before price node.value.limitPrice) ∧
      restingNodes (levels.erase price) = front ++ back ∧
      ∀ next : PriceLevel,
        restingNodes (levels.insertOrAssign price next) = front ++ next.orders ++ back := by
  obtain ⟨front, back, split, below, above⟩ := OrderedMap.split_of_find? found
  have frontPart : ∀ entry ∈ front, entry ∈ levels.entries := by
    intro entry member
    simp [split, member]
  have backPart : ∀ entry ∈ back, entry ∈ levels.entries := by
    intro entry member
    simp [split, member]
  refine ⟨entryNodes front, entryNodes back, by simp [restingNodes, split],
    sound.entryNodes_priced (fun p => l.Before p price) frontPart below,
    sound.entryNodes_priced (fun p => l.Before price p) backPart above, ?_, ?_⟩
  · simp [restingNodes, OrderedMap.entries_erase_split split]
  · intro next
    simp [restingNodes, OrderedMap.insertOrAssign_split_found next split]

/-- An absent level has one place in the queue. -/
theorem LevelsSound.split_no_level (sound : LevelsSound allocated levels) {price : Price}
    (absent : levels.find? price = none) (next : PriceLevel) :
    ∃ front back, restingNodes levels = front ++ back ∧
      (∀ node ∈ front, l.Before node.value.limitPrice price) ∧
      (∀ node ∈ back, l.Before price node.value.limitPrice) ∧
      restingNodes (levels.insertOrAssign price next) = front ++ next.orders ++ back := by
  obtain ⟨front, back, whole, assigned, below, above⟩ :=
    OrderedMap.insertOrAssign_split_new next absent
  have frontPart : ∀ entry ∈ front, entry ∈ levels.entries := by
    intro entry member
    simp [whole, member]
  have backPart : ∀ entry ∈ back, entry ∈ levels.entries := by
    intro entry member
    simp [whole, member]
  exact ⟨entryNodes front, entryNodes back, by simp [restingNodes, whole],
    sound.entryNodes_priced (fun p => l.Before p price) frontPart below,
    sound.entryNodes_priced (fun p => l.Before price p) backPart above,
    by simp [restingNodes, assigned]⟩

/-! ## Removing -/

theorem removeOrder_ok (sound : LevelsSound allocated levels)
    (keys : ((restingNodes levels).map fun node => node.value.key).Nodup)
    {node : Node RestingOrder} (rests : node ∈ restingNodes levels) :
    ∃ after, removeOrder node.value.key (handleOf l node) levels = .ok (some after) ∧
      LevelsSound allocated after ∧
      restingNodes after =
        (restingNodes levels).filter fun other => other.value.key ≠ node.value.key := by
  obtain ⟨level, found, inside⟩ := sound.level_of_node rests
  have levelSound := sound.level _ level (OrderedMap.mem_entries_of_find? found)
  obtain ⟨front, back, orders, erased, -⟩ :=
    LinkedList.split_of_mem levelSound.addresses inside
  obtain ⟨outer, tail, nodes, -, -, without, assigned⟩ := sound.split_level found
  have kept : (restingNodes levels).filter (fun other => other.value.key ≠ node.value.key) =
      outer ++ (front ++ back) ++ tail := by
    rw [nodes, orders] at keys ⊢
    have regroup : outer ++ (front ++ node :: back) ++ tail =
        (outer ++ front) ++ node :: (back ++ tail) := by simp
    rw [regroup] at keys ⊢
    rw [filter_key_ne keys]
    simp
  have deref := LinkedList.deref?_of_mem levelSound.addresses inside
  by_cases empty : front ++ back = []
  · refine ⟨levels.erase node.value.limitPrice, ?_, sound.erase _, ?_⟩
    · simp [removeOrder, handleOf, found, deref, erased, empty]
    · rw [without, kept, empty, List.append_nil]
  · refine ⟨_, by simp [removeOrder, handleOf, found, deref, erased, empty]; rfl, ?_, ?_⟩
    · refine sound.assign ⟨?_, ?_, ?_, ?_⟩ empty
      · intro other member
        refine levelSound.filed other ?_
        rw [orders]
        exact List.mem_append.mpr ((List.mem_append.mp member).imp id (List.mem_cons_of_mem _))
      · rw [levelSound.total, orders]
        simp only [List.map_append, List.map_cons, List.sum_append, List.sum_cons]
        grind
      · have nodup := levelSound.addresses
        rw [orders] at nodup
        exact nodup.sublist (List.Sublist.map _ (by simp))
      · intro other member
        refine levelSound.allocated other ?_
        rw [orders]
        exact List.mem_append.mpr ((List.mem_append.mp member).imp id (List.mem_cons_of_mem _))
    · rw [assigned, kept]

/-! ## Reducing -/

/-- The two answers of `reduce_order_size` on a resting order: a smaller or equal
size at the same price is written in place, anything else is declined. -/
theorem reduceOrderSize_ok (sound : LevelsSound allocated levels)
    (keys : ((restingNodes levels).map fun node => node.value.key).Nodup)
    {node : Node RestingOrder} (rests : node ∈ restingNodes levels) (order : UpdateOrder)
    (named : node.value.key = order.key) {price : Price}
    (limit : limitPrice order.pricing = some price) (positive : 0 < order.size.value) :
    (price = node.value.limitPrice ∧ order.size.value ≤ node.value.openSize.value ∧
      ∃ after, reduceOrderSize order (handleOf l node) levels = .ok (some after) ∧
        LevelsSound allocated after ∧
        restingNodes after = (restingNodes levels).map fun other =>
          if other.value.key = order.key then Sized.resize other order.size.value else other) ∨
    ((price ≠ node.value.limitPrice ∨ node.value.openSize.value < order.size.value) ∧
      reduceOrderSize order (handleOf l node) levels = .ok none) := by
  obtain ⟨level, found, inside⟩ := sound.level_of_node rests
  have levelSound := sound.level _ level (OrderedMap.mem_entries_of_find? found)
  have deref := LinkedList.deref?_of_mem levelSound.addresses inside
  by_cases moved : price = node.value.limitPrice
  case neg =>
    exact Or.inr ⟨Or.inl moved, by simp [reduceOrderSize, handleOf, limit, moved]⟩
  subst moved
  by_cases larger : node.value.openSize.value < order.size.value
  case pos =>
    exact Or.inr ⟨Or.inr larger, by
      simp [reduceOrderSize, handleOf, limit, found, deref, named, larger]⟩
  have fits := UInt64.not_lt.mp larger
  obtain ⟨front, back, orders, -, modified⟩ := LinkedList.split_of_mem levelSound.addresses inside
  obtain ⟨outer, tail, nodes, -, -, -, assigned⟩ := sound.split_level found
  have edited := modified fun resting => { resting with openSize := order.size }
  refine Or.inl ⟨rfl, fits, _, by
    simp [reduceOrderSize, handleOf, limit, found, deref, named, larger]; rfl, ?_, ?_⟩
  · refine sound.assign ⟨?_, ?_, ?_, ?_⟩ ?_ <;> simp only [edited]
    · have filed := levelSound.filed
      rw [orders] at filed
      simp only [List.forall_mem_append, List.forall_mem_cons] at filed ⊢
      exact ⟨filed.1, ⟨filed.2.1.1, filed.2.1.2.1, positive⟩, filed.2.2⟩
    · rw [levelSound.total, orders]
      simp only [List.map_append, List.map_cons, List.sum_append, List.sum_cons]
      grind
    · have nodup := levelSound.addresses
      rw [orders] at nodup
      simpa [LinkedList.addresses] using nodup
    · have bound := levelSound.allocated
      rw [orders] at bound
      simp only [List.forall_mem_append, List.forall_mem_cons] at bound ⊢
      exact bound
    · simp
  · rw [assigned, edited]
    rw [nodes, orders] at keys ⊢
    have regroup : outer ++ (front ++ node :: back) ++ tail =
        (outer ++ front) ++ node :: (back ++ tail) := by simp
    rw [regroup] at keys ⊢
    rw [← named, map_key_eq keys]
    simp [Sized.resize]

/-- An update that moves the price or raises the size is declined. -/
theorem reduceOrderSize_declined (sound : LevelsSound allocated levels)
    (keys : ((restingNodes levels).map fun node => node.value.key).Nodup)
    {node : Node RestingOrder} (rests : node ∈ restingNodes levels) (order : UpdateOrder)
    (named : node.value.key = order.key) {price : Price}
    (limit : limitPrice order.pricing = some price) (positive : 0 < order.size.value)
    (moved : price ≠ node.value.limitPrice ∨ node.value.openSize.value < order.size.value) :
    reduceOrderSize order (handleOf l node) levels = .ok none := by
  rcases reduceOrderSize_ok sound keys rests order named limit positive with
    ⟨same, smaller, -⟩ | ⟨-, declined⟩
  · rcases moved with different | larger
    · exact absurd same different
    · exact absurd larger (UInt64.not_lt.mpr smaller)
  · exact declined

/-! ## Resting -/

theorem orderedInsert_between {front back : List (Node RestingOrder)} (node : Node RestingOrder)
    (ahead : ∀ other ∈ front, ¬ l.Before node.value.limitPrice other.value.limitPrice)
    (behind : ∀ other ∈ back, l.Before node.value.limitPrice other.value.limitPrice) :
    (front ++ back).orderedInsert
        (fun a b => l.Before a.value.limitPrice b.value.limitPrice) node =
      front ++ node :: back := by
  induction front with
  | nil =>
    cases back with
    | nil => rfl
    | cons head rest => exact List.orderedInsert_cons_of_le _ _ (behind head (by simp))
  | cons head rest ih =>
    rw [List.cons_append, List.orderedInsert_cons, if_neg (ahead head (by simp)),
      ih fun other member => ahead other (by simp [member]), List.cons_append]

/-- A pushed node goes behind every node of a price at least as good. -/
theorem pushBack_ok (sound : LevelsSound allocated levels) (node : Node RestingOrder)
    (address : node.address = allocated) (direction : node.value.direction = l.side)
    (positive : 0 < node.value.openSize.value) :
    LevelsSound (allocated + 1) (pushBack levels node.value.limitPrice node) ∧
      restingNodes (pushBack levels node.value.limitPrice node) =
        (restingNodes levels).orderedInsert
          (fun a b => l.Before a.value.limitPrice b.value.limitPrice) node := by
  have grown := sound.mono (Nat.le_succ allocated)
  cases found : levels.find? node.value.limitPrice with
  | none =>
    have pushed : pushBack levels node.value.limitPrice node =
        levels.insertOrAssign node.value.limitPrice
          { totalSize := 0 + node.value.openSize.value, orders := [node] } := by
      simp [pushBack, found]
    obtain ⟨front, back, nodes, below, above, assigned⟩ := sound.split_no_level found
      { totalSize := 0 + node.value.openSize.value, orders := [node] }
    rw [pushed]
    constructor
    · refine grown.assign ⟨?_, ?_, ?_, ?_⟩ (by simp)
      · simpa using ⟨direction, positive⟩
      · simp
      · simp [LinkedList.addresses]
      · simp [address]
    · rw [assigned, nodes, orderedInsert_between node
        (fun other member => asymm_of l.Before (below other member)) above]
      simp
  | some level =>
    have levelSound := sound.level _ level (OrderedMap.mem_entries_of_find? found)
    have pushed : pushBack levels node.value.limitPrice node =
        levels.insertOrAssign node.value.limitPrice
          { totalSize := level.totalSize + node.value.openSize.value,
            orders := level.orders ++ [node] } := by
      simp [pushBack, found]
    obtain ⟨front, back, nodes, below, above, -, assigned⟩ := sound.split_level found
    rw [pushed]
    constructor
    · refine grown.assign ⟨?_, ?_, ?_, ?_⟩ (by simp)
      · simp only [List.forall_mem_append, List.forall_mem_singleton]
        exact ⟨levelSound.filed, trivial, direction, positive⟩
      · simp only [levelSound.total, List.map_append, List.sum_append, List.map_cons, List.map_nil,
          List.sum_cons, List.sum_nil]
        grind
      · simp only [LinkedList.addresses, List.map_append, List.map_cons, List.map_nil]
        refine List.nodup_append.mpr ⟨levelSound.addresses, by simp, ?_⟩
        intro old inLevel new isNew same
        obtain ⟨other, inside, rfl⟩ := List.mem_map.mp inLevel
        have bound := levelSound.allocated other inside
        rw [List.mem_singleton.mp isNew] at same
        omega
      · simp only [List.forall_mem_append, List.forall_mem_singleton]
        refine ⟨fun other inside => ?_, by omega⟩
        exact Nat.lt_succ_of_lt (levelSound.allocated other inside)
    · rw [assigned, nodes, orderedInsert_between node ?_ above]
      · simp
      · intro other member
        rcases List.mem_append.mp member with inFront | inLevel
        · exact asymm_of l.Before (below other inFront)
        · rw [(levelSound.filed other inLevel).1]
          exact irrefl_of l.Before _

/-! ## Reading the best level -/

theorem topOfBook_eq (sound : LevelsSound allocated levels) :
    topOfBook levels = bestOf (LinkedList.values (restingNodes levels)) := by
  cases entries : levels.entries with
  | nil => simp [topOfBook, OrderedMap.first?, restingNodes, entries, bestOf]
  | cons entry rest =>
    obtain ⟨price, level⟩ := entry
    have member : (price, level) ∈ levels.entries := by simp [entries]
    have levelSound := sound.level price level member
    have found : levels.find? price = some level := OrderedMap.find?_eq_some.mpr member
    obtain ⟨best, queue, orders⟩ := List.exists_cons_of_ne_nil (sound.nonempty price level member)
    have sorted := levels.sorted
    rw [entries, List.pairwise_cons] at sorted
    have later : ∀ node ∈ entryNodes rest, l.Before price node.value.limitPrice :=
      sound.entryNodes_priced (fun p => l.Before price p) (by simp [entries]; tauto)
        sorted.1
    have bestPrice := (levelSound.filed best (by simp [orders])).1
    have here : (level.orders.filter fun node => node.value.limitPrice = price) = level.orders :=
      List.filter_eq_self.mpr fun node inside => by simp [(levelSound.filed node inside).1]
    have none_later :
        ((entryNodes rest).filter fun node => node.value.limitPrice = price) = [] := by
      refine List.filter_eq_nil_iff.mpr fun node inside same => ?_
      have before := later node inside
      rw [of_decide_eq_true same] at before
      exact irrefl_of l.Before _ before
    have queued : restingNodes levels = best :: (queue ++ entryNodes rest) := by
      simp [restingNodes, entries, orders]
    have filtered : ((restingNodes levels).filter fun node => node.value.limitPrice = price) =
        level.orders := by
      have whole : restingNodes levels = level.orders ++ entryNodes rest := by
        simp [restingNodes, entries]
      rw [whole, List.filter_append, here, none_later, List.append_nil]
    have summed : (((LinkedList.values (restingNodes levels)).filter fun order =>
        order.limitPrice = price).map fun order => order.openSize.value).sum = level.totalSize := by
      rw [levelSound.total, ← filtered, LinkedList.values, List.filter_map, List.map_map]
      rfl
    rw [queued] at summed ⊢
    simp only [LinkedList.values_cons] at summed ⊢
    simp only [bestOf, bestPrice, summed]
    simp [topOfBook, OrderedMap.first?, entries]

end MarketLab.Matching

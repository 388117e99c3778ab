import MarketLab.Matching.LevelGroups
import MarketLab.Matching.Market

/-!
# Relabelled queues

A relabelling may exchange the two sides, rename prices so that the better one stays the
better one, and forget part of a sequence number. Matching reads nothing it changes: queues
that are alike up to a relabelling are filled, cut, left and joined alike.
-/
namespace MarketLab.Matching
open MarketLab.Collections

structure Relabelling where
  ladder : Ladder → Ladder
  price : Price → Price
  /-- What is compared of a sequence number. -/
  stamp : SequenceNumber → SequenceNumber
  opposite : ∀ l, ladder l.opposite = (ladder l).opposite
  before : ∀ l p q, (ladder l).Before (price p) (price q) ↔ l.Before p q
  next : ∀ s t, stamp s = stamp t → stamp s.next = stamp t.next

namespace Relabelling
variable (r : Relabelling)

/-- A side that is neither enumerator keeps its value. -/
def side : Side → Side
  | .buy => (r.ladder .bids).side
  | .sell => (r.ladder .asks).side
  | .unnamed underlying => .unnamed underlying

def pricing : OrderPricing → OrderPricing
  | .limit limitPrice => .limit (r.price limitPrice)
  | .market => .market

def submitOrder (order : SubmitOrder) : SubmitOrder :=
  { order with direction := r.side order.direction, pricing := r.pricing order.pricing }

def updateOrder (order : UpdateOrder) : UpdateOrder :=
  { order with pricing := r.pricing order.pricing }

def command : Command → Command
  | .submit order => .submit (r.submitOrder order)
  | .update order => .update (r.updateOrder order)
  | .cancel order => .cancel order

def event : Event → Event
  | .tradeExecuted aggressor resting instrument executionPrice executedSize =>
    .tradeExecuted aggressor resting instrument (r.price executionPrice) executedSize
  | .bookUpdated instrument direction bestPrice totalSize =>
    .bookUpdated instrument (r.side direction) (bestPrice.map r.price) totalSize
  | other => other

/-- A resting order under its new labels. -/
def order (resting : RestingOrder) : RestingOrder :=
  { resting with
    direction := r.side resting.direction
    limitPrice := r.price resting.limitPrice
    sequence := r.stamp resting.sequence }

/-- What is compared of a resting order. -/
def face (resting : RestingOrder) : RestingOrder :=
  { resting with sequence := r.stamp resting.sequence }

/-- The second queue is the first under its new labels. -/
def Like (queue other : List RestingOrder) : Prop := other.map r.face = queue.map r.order

theorem side_side (l : Ladder) : r.side l.side = (r.ladder l).side := by cases l <;> rfl

/-- What no label touches. -/
theorem same_order {r : Relabelling} {resting same : RestingOrder}
    (faces : r.face same = r.order resting) : same.key = resting.key ∧
      same.limitPrice = r.price resting.limitPrice ∧ same.openSize = resting.openSize := by
  obtain ⟨key, -, limitPrice, openSize, -⟩ := RestingOrder.mk.inj faces
  exact ⟨key, limitPrice, openSize⟩

/-- A relabelling keeps both sides or exchanges them. -/
theorem ladder_cases : (∀ l, r.ladder l = l) ∨ ∀ l, r.ladder l = l.opposite := by
  have asks := r.opposite .bids
  rcases Ladder.eq_or_eq_opposite .bids (r.ladder .bids) with kept | exchanged
  · left
    rintro (_ | _)
    · exact kept
    · exact asks.trans (congrArg Ladder.opposite kept)
  · right
    rintro (_ | _)
    · exact exchanged
    · exact asks.trans (congrArg Ladder.opposite exchanged)

@[simp] theorem ladder_ladder (l : Ladder) : r.ladder (r.ladder l) = l := by
  rcases r.ladder_cases with kept | exchanged
  · rw [kept, kept]
  · rw [exchanged, exchanged, Ladder.opposite_opposite]

theorem ladder_injective : Function.Injective r.ladder :=
  Function.LeftInverse.injective r.ladder_ladder

theorem side_ne {direction : Side} (unnamed : ∀ l : Ladder, direction ≠ l.side) (l : Ladder) :
    r.side direction ≠ l.side := by
  cases direction with
  | buy => exact absurd rfl (unnamed .bids)
  | sell => exact absurd rfl (unnamed .asks)
  | unnamed underlying => cases l <;> exact Side.noConfusion

theorem price_injective : Function.Injective r.price := by
  intro p q same
  have apart : ∀ {a b : Price}, r.price a = r.price b → ¬ Ladder.bids.Before a b := by
    intro a b equal before
    have renamed := (r.before .bids a b).mpr before
    rw [equal] at renamed
    exact irrefl_of (r.ladder .bids).Before _ renamed
  rcases trichotomous_of Ladder.bids.Before p q with less | equal | more
  · exact absurd less (apart same)
  · exact equal
  · exact absurd more (apart same.symm)

@[simp] theorem limitPrice_pricing (pricing : OrderPricing) :
    limitPrice (r.pricing pricing) = (limitPrice pricing).map r.price := by
  cases pricing <;> rfl

theorem canCross (l : Ladder) (pricing : OrderPricing) (price : Price) :
    (r.ladder l).canCross (r.pricing pricing) (r.price price) = l.canCross pricing price := by
  cases pricing with
  | market => rw [Relabelling.pricing, Ladder.canCross_market, Ladder.canCross_market]
  | limit limit =>
    rw [Relabelling.pricing, Bool.eq_iff_iff, Ladder.canCross_limit, Ladder.canCross_limit,
      ← r.opposite, r.before]

theorem validateSubmit_submitOrder (order : SubmitOrder) :
    validateSubmit (r.submitOrder order) = validateSubmit order := rfl

theorem validateUpdate_updateOrder (order : UpdateOrder) :
    validateUpdate (r.updateOrder order) = validateUpdate order := by
  simp [validateUpdate, updateOrder]

/-! ## Reading a queue -/

/-- A top under a new price. -/
def reprice (g : Price → Price) (top : TopOfBookState) : TopOfBookState :=
  { bestPrice := g top.bestPrice, totalSize := top.totalSize }

theorem reprice_injective {g : Price → Price} (injective : Function.Injective g) :
    Function.Injective (reprice g) := by
  rintro ⟨price, size⟩ ⟨otherPrice, otherSize⟩ equal
  obtain ⟨prices, sizes⟩ := TopOfBookState.mk.inj equal
  exact congrArg₂ TopOfBookState.mk (injective prices) sizes

/-- The top of a queue, where a map renames prices one to one and keeps sizes. -/
theorem bestOf_map {f : RestingOrder → RestingOrder} {g : Price → Price}
    (injective : Function.Injective g) (prices : ∀ order, (f order).limitPrice = g order.limitPrice)
    (sizes : ∀ order, (f order).openSize = order.openSize) (queue : List RestingOrder) :
    bestOf (queue.map f) = (bestOf queue).map (reprice g) := by
  cases queue with
  | nil => rfl
  | cons best queue =>
    have filtered : ((best :: queue).map f).filter
          (fun order => order.limitPrice = (f best).limitPrice) =
        ((best :: queue).filter fun order => order.limitPrice = best.limitPrice).map f := by
      rw [List.filter_map]
      refine congrArg _ (List.filter_congr fun order _ => ?_)
      simp [prices, injective.eq_iff]
    rw [List.map_cons, bestOf, ← List.map_cons, filtered, List.map_map, bestOf, Option.map_some,
      prices]
    refine congrArg (fun sizes => some (TopOfBookState.mk (g best.limitPrice) (List.sum sizes))) ?_
    exact List.map_congr_left fun order _ => congrArg Quantity.value (sizes order)

theorem depthOf_map {f : RestingOrder → RestingOrder} {g : Price → Price}
    (injective : Function.Injective g) (prices : ∀ order, (f order).limitPrice = g order.limitPrice)
    (sizes : ∀ order, (f order).openSize = order.openSize) (queue : List RestingOrder)
    (depth : Nat) :
    depthOf (queue.map f) depth =
      (depthOf queue depth).map fun level => { level with levelPrice := g level.levelPrice } := by
  rw [depthOf, groups_map injective prices, depthOf, ← List.map_take, List.map_map, List.map_map]
  refine List.map_congr_left fun group _ => ?_
  simp only [Function.comp_apply, List.map_map]
  refine congrArg (fun sizes => PriceLevelSnapshot.mk (g group.1) (List.sum sizes)) ?_
  exact List.map_congr_left fun order _ => congrArg Quantity.value (sizes order)

variable {r} {queue other after otherAfter : List RestingOrder}

namespace Like

theorem bestOf (like : r.Like queue other) :
    bestOf other = (bestOf queue).map (reprice r.price) := by
  have faces := bestOf_map (f := r.face) Function.injective_id (fun _ => rfl) (fun _ => rfl) other
  have orders := bestOf_map (f := r.order) r.price_injective (fun _ => rfl) (fun _ => rfl) queue
  rw [like, orders] at faces
  rw [faces]
  cases Matching.bestOf other <;> rfl

theorem depthOf (like : r.Like queue other) (depth : Nat) :
    depthOf other depth = (depthOf queue depth).map fun level =>
      { level with levelPrice := r.price level.levelPrice } := by
  have faces := depthOf_map (f := r.face) Function.injective_id (fun _ => rfl) (fun _ => rfl) other
    depth
  have orders := depthOf_map (f := r.order) r.price_injective (fun _ => rfl) (fun _ => rfl) queue
    depth
  rw [like, orders] at faces
  rw [faces]
  exact (List.map_id _).symm

/-- The same order on the other side of the comparison. -/
theorem mem (like : r.Like queue other) {resting : RestingOrder} (rests : resting ∈ queue) :
    ∃ same ∈ other, r.face same = r.order resting := by
  have member : r.order resting ∈ other.map r.face := by
    rw [like]
    exact List.mem_map_of_mem rests
  exact List.mem_map.mp member

theorem mem_back (like : r.Like queue other) {same : RestingOrder} (rests : same ∈ other) :
    ∃ resting ∈ queue, r.face same = r.order resting := by
  have member : r.face same ∈ queue.map r.order := by
    rw [← like]
    exact List.mem_map_of_mem rests
  obtain ⟨resting, inside, faces⟩ := List.mem_map.mp member
  exact ⟨resting, inside, faces.symm⟩

theorem filter (like : r.Like queue other) (key : OrderKey) :
    r.Like (queue.filter fun order => order.key ≠ key)
      (other.filter fun order => order.key ≠ key) := by
  have faces : (other.map r.face).filter (fun order => order.key ≠ key) =
      (other.filter fun order => order.key ≠ key).map r.face := List.filter_map ..
  have orders : (queue.map r.order).filter (fun order => order.key ≠ key) =
      (queue.filter fun order => order.key ≠ key).map r.order := List.filter_map ..
  rw [Like, ← faces, like, orders]

theorem resize (like : r.Like queue other) (key : OrderKey) (size : Quantity) :
    r.Like (queue.map fun order => if order.key = key then { order with openSize := size } else order)
      (other.map fun order =>
        if order.key = key then { order with openSize := size } else order) := by
  let cut := fun order : RestingOrder =>
    if order.key = key then { order with openSize := size } else order
  have commutes : ∀ {f : RestingOrder → RestingOrder} (items : List RestingOrder),
      (∀ order, cut (f order) = f (cut order)) →
        (items.map cut).map f = (items.map f).map cut := by
    intro f items same
    rw [List.map_map, List.map_map]
    exact List.map_congr_left fun order _ => (same order).symm
  have faces : ∀ order, cut (r.face order) = r.face (cut order) := by
    intro order
    by_cases named : order.key = key <;> simp [cut, face, named]
  have orders : ∀ order, cut (r.order order) = r.order (cut order) := by
    intro order
    by_cases named : order.key = key <;> simp [cut, Relabelling.order, named]
  change (other.map cut).map r.face = (queue.map cut).map r.order
  rw [commutes other faces, commutes queue orders, like]

/-- Alike changes are reported alike. -/
theorem bookChange (like : r.Like queue other) (likeAfter : r.Like after otherAfter)
    (instrument : SymbolId) (l : Ladder) :
    bookChange instrument (r.ladder l) other otherAfter =
      (bookChange instrument l queue after).map r.event := by
  have injective := Option.map_injective (reprice_injective r.price_injective)
  rw [bookChange_eq, bookChange_eq, like.bestOf, likeAfter.bestOf]
  by_cases same : Matching.bestOf queue = Matching.bestOf after
  · rw [if_pos same, if_pos (by rw [same]), List.map_nil]
  · rw [if_neg same, if_neg fun equal => same (injective equal)]
    cases Matching.bestOf after <;> simp [updateOf, event, side_side, reprice]

/-- An order joins alike queues alike. -/
theorem enqueue (like : r.Like queue other) {resting same : RestingOrder}
    (faces : r.face same = r.order resting) (l : Ladder) :
    r.Like (enqueue l resting queue) (enqueue (r.ladder l) same other) := by
  have front := List.map_orderedInsert
    (r := fun a b : RestingOrder => (r.ladder l).Before a.limitPrice b.limitPrice)
    (s := fun a b : RestingOrder => (r.ladder l).Before a.limitPrice b.limitPrice)
    r.face other same (fun _ _ => Iff.rfl) (fun _ _ => Iff.rfl)
  have back := List.map_orderedInsert
    (r := fun a b : RestingOrder => l.Before a.limitPrice b.limitPrice)
    (s := fun a b : RestingOrder => (r.ladder l).Before a.limitPrice b.limitPrice)
    r.order queue resting (fun _ _ => (r.before l _ _).symm) (fun _ _ => (r.before l _ _).symm)
  rw [Like, Matching.enqueue, front, like, faces, Matching.enqueue, back]

end Like

/-! ## Matching -/

/-- Two aggressions with the same effect but for the labels. -/
structure Aggresses (r : Relabelling) (a b : Aggression) : Prop where
  rest : r.Like a.outcome.rest b.outcome.rest
  rests : b.rests.map r.face = a.rests.map r.order
  trades : ∀ instrument aggressor, b.trades instrument aggressor =
    (a.trades instrument aggressor).map r.event

theorem Like.aggress {m n : Market} (like : r.Like queue other)
    (stamps : r.stamp n.nextSequence = r.stamp m.nextSequence) (key : OrderKey) (l : Ladder)
    (size : Quantity) (pricing : OrderPricing) :
    r.Aggresses (aggress l (m.incoming key l size) pricing queue)
      (aggress (r.ladder l) (n.incoming key (r.ladder l) size) (r.pricing pricing) other) := by
  let accepts := fun resting : RestingOrder => l.canCross pricing resting.limitPrice
  let accepts' := fun resting : RestingOrder =>
    (r.ladder l).canCross (r.pricing pricing) resting.limitPrice
  have faces := sweep_map accepts' accepts' r.face (fun _ => rfl) (fun _ _ => rfl) (fun _ => rfl)
    size.value other
  have orders := sweep_map accepts accepts' r.order (fun _ => rfl) (fun _ _ => rfl)
    (fun resting => r.canCross l pricing resting.limitPrice) size.value queue
  have like' : other.map r.face = queue.map r.order := like
  rw [like', orders] at faces
  obtain ⟨left, rest, fills, -⟩ := Outcome.mk.inj faces
  refine ⟨rest.symm, ?_, fun instrument aggressor => ?_⟩
  · change (remainder _ (r.pricing pricing) (sweep accepts' size.value other).left).map r.face =
      (remainder _ pricing (sweep accepts size.value queue).left).map r.order
    rw [← left]
    cases pricing with
    | market => rfl
    | limit limit =>
      simp only [remainder, Relabelling.pricing, limitPrice]
      split
      · simp [face, order, Market.incoming, side_side, stamps]
      · rfl
  · change (sweep accepts' size.value other).fills.map _ =
      ((sweep accepts size.value queue).fills.map _).map r.event
    have named : (fun fill : RestingOrder × UInt64 =>
          Event.tradeExecuted aggressor fill.1.key instrument fill.1.limitPrice ⟨fill.2⟩) =
        (fun fill => .tradeExecuted aggressor fill.1.key instrument fill.1.limitPrice ⟨fill.2⟩) ∘
          fun fill => (r.face fill.1, fill.2) := rfl
    rw [named, ← List.map_map, ← fills, List.map_map, List.map_map]
    rfl

variable {a b : Aggression}

theorem Aggresses.own (likes : r.Aggresses a b) (like : r.Like queue other) (l : Ladder) :
    r.Like (a.own l queue) (b.own (r.ladder l) other) := by
  have rests := likes.rests
  cases resting : a.rests with
  | none =>
    rw [resting, Option.map_none, Option.map_eq_none_iff] at rests
    simpa only [Aggression.own, resting, rests] using like
  | some order =>
    rw [resting, Option.map_some, Option.map_eq_some_iff] at rests
    obtain ⟨same, restsToo, faces⟩ := rests
    simpa only [Aggression.own, resting, restsToo] using like.enqueue faces l

theorem Aggresses.queues (likes : r.Aggresses a b) (like : r.Like queue other) (l side : Ladder) :
    r.Like (a.queues l queue side) (b.queues (r.ladder l) other (r.ladder side)) := by
  rcases Ladder.eq_or_eq_opposite l side with rfl | rfl
  · rw [Aggression.queues_self, Aggression.queues_self]
    exact likes.own like side
  · rw [Aggression.queues_opposite, r.opposite, Aggression.queues_opposite]
    exact likes.rest

end Relabelling
end MarketLab.Matching

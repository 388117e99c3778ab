import MarketLab.Matching.RelabelledRuns

/-!
# Buying and selling are mirror images

The source writes each side's submit, update and cancel out on its own. Exchanging the sides
and reversing the order of prices turns every run into a run, so the two texts say the same.
-/
namespace MarketLab.Matching
open MarketLab.Collections

/-- `2^64 - p`: positive with `p`, and lower as `p` is higher. -/
def Price.mirror (p : Price) : Price where
  value := 0 - p.value
  positive zero := p.positive (by
    have back : p.value = 0 - (0 - p.value) := by simp
    rw [back, zero]
    rfl)

theorem Price.mirror_toNat (p : Price) : p.mirror.value.toNat = 2 ^ 64 - p.value.toNat := by
  have positive : p.value.toNat ≠ 0 := fun zero => p.positive (UInt64.toNat_inj.mp zero)
  have bounded := p.value.toNat_lt
  rw [mirror, UInt64.toNat_sub, UInt64.toNat_zero]
  omega

@[simp] theorem Price.mirror_mirror (p : Price) : p.mirror.mirror = p :=
  Price.value_injective (by simp [mirror])

theorem Price.mirror_lt (p q : Price) : p.mirror < q.mirror ↔ q < p := by
  change p.mirror.value < q.mirror.value ↔ q.value < p.value
  have below := p.value.toNat_lt
  have belowToo := q.value.toNat_lt
  rw [UInt64.lt_iff_toNat_lt, UInt64.lt_iff_toNat_lt, mirror_toNat, mirror_toNat]
  omega

/-- The mirror of the market. -/
def mirror : Relabelling where
  ladder := Ladder.opposite
  price := Price.mirror
  stamp := id
  opposite _ := rfl
  before l p q := by cases l <;> exact Price.mirror_lt _ _
  next _ _ same := congrArg SequenceNumber.next same

@[simp] theorem mirror_buy : mirror.side .buy = .sell := rfl

@[simp] theorem mirror_sell : mirror.side .sell = .buy := rfl

/-! ## Mirrored states -/

/-- One level as it is stored: its price, its total and its queue. -/
structure LevelView where
  price : Price
  totalSize : UInt64
  orders : List RestingOrder

def LevelView.mirror (view : LevelView) : LevelView :=
  { price := view.price.mirror
    totalSize := view.totalSize
    orders := view.orders.map Matching.mirror.order }

/-- The levels of one side of an instrument's book, best first. -/
def Engine.levelViews (engine : Engine) (instrument : SymbolId) (l : Ladder) :
    Option (List LevelView) :=
  (engine.books.find? instrument).map fun book => (book.levels l).entries.map fun entry =>
    { price := entry.1, totalSize := entry.2.totalSize, orders := LinkedList.values entry.2.orders }

/-- Where the index says an active order rests. -/
structure Place where
  instrument : SymbolId
  direction : Option Side
  limitPrice : Option Price

def Place.mirror (place : Place) : Place :=
  { instrument := place.instrument
    direction := place.direction.map Matching.mirror.side
    limitPrice := place.limitPrice.map Price.mirror }

def Engine.place (engine : Engine) (key : OrderKey) : Option Place :=
  (engine.activeOrders.find? key).map fun active =>
    { instrument := active.instrument, direction := active.handle.direction,
      limitPrice := active.handle.limitPrice }

/-- Bids and asks exchanged with mirrored prices, with the same queues and totals, the same
active keys and the same next sequence number. -/
structure Engine.Mirrors (engine image : Engine) : Prop where
  levels : ∀ instrument l, image.levelViews instrument l.opposite =
    (engine.levelViews instrument l).map (List.map LevelView.mirror)
  active : ∀ key, image.place key = (engine.place key).map Place.mirror
  nextSequence : image.nextSequence = engine.nextSequence

/-- The levels a queue falls into. -/
def viewsOf (queue : List RestingOrder) : List LevelView :=
  (groups RestingOrder.limitPrice queue).map fun group =>
    { price := group.1
      totalSize := (group.2.map fun order => order.openSize.value).sum
      orders := group.2 }

theorem viewsOf_mirror (queue : List RestingOrder) :
    viewsOf (queue.map mirror.order) = (viewsOf queue).map LevelView.mirror := by
  have grouped : groups RestingOrder.limitPrice (queue.map mirror.order) =
      (groups RestingOrder.limitPrice queue).map
        fun group => (group.1.mirror, group.2.map mirror.order) :=
    groups_map mirror.price_injective
      (fun order => (rfl : (mirror.order order).limitPrice = order.limitPrice.mirror)) queue
  rw [viewsOf, grouped, viewsOf, List.map_map, List.map_map]
  refine List.map_congr_left fun group _ => ?_
  simp only [Function.comp_apply, LevelView.mirror, List.map_map]
  rfl

theorem LevelsSound.views {l : Ladder} {allocated : Nat} {levels : Levels l}
    (sound : LevelsSound allocated levels) :
    (levels.entries.map fun entry => LevelView.mk entry.1 entry.2.totalSize
      (LinkedList.values entry.2.orders)) = viewsOf (LinkedList.values (restingNodes levels)) := by
  rw [sound.entries_eq, viewsOf, groups_values, List.map_map, List.map_map]
  refine List.map_congr_left fun group _ => ?_
  simp [levelOf, LinkedList.values, Function.comp_def]

/-- Nothing left out. -/
def Scope.everything : Scope where
  keys _ := True
  instruments _ := True

instance : DecidablePred Scope.everything.keys := fun _ => isTrue trivial

namespace Engine
variable {engine image : Engine}

theorem Sound.levelViews (sound : engine.Sound) (instrument : SymbolId) (l : Ladder) :
    engine.levelViews instrument l =
      (engine.market.books instrument).map fun queues => viewsOf (queues l) := by
  rw [Engine.levelViews, Engine.market, Option.map_map]
  cases found : engine.books.find? instrument with
  | none => rfl
  | some book => exact congrArg some ((sound.book _ _ found).1.levels l).views

/-- An order rests where the index says. -/
theorem Sound.place (sound : engine.Sound) {instrument : SymbolId} {l : Ladder}
    {order : RestingOrder} (rests : order ∈ engine.market.queue instrument l) :
    engine.place order.key =
      some { instrument, direction := some l.side, limitPrice := some order.limitPrice } := by
  obtain ⟨book, found, node, inside, rfl⟩ := node_of_queue rests
  have entry := (sound.index node.value.key { instrument, handle := handleOf l node }).mpr
    ⟨book, found, OrderBook.files_of_node inside⟩
  rw [Engine.place, entry]
  rfl

/-- Sound engines whose markets are mirrored are mirrored. -/
theorem Sound.mirrors (sound : engine.Sound) (imageSound : image.Sound)
    (alike : mirror.Alike .everything engine.market image.market) : engine.Mirrors image where
  levels instrument l := by
    have opened := alike.opened instrument trivial
    have like := alike.queues instrument trivial l
    rw [sound.levelViews, imageSound.levelViews]
    unfold Market.queue at like
    cases own : engine.market.books instrument with
    | none =>
      rw [own, Option.isSome_none, Option.isSome_eq_false_iff, Option.isNone_iff_eq_none] at opened
      rw [opened]
      rfl
    | some queues =>
      rw [own, Option.isSome_some, Option.isSome_iff_exists] at opened
      obtain ⟨others, other⟩ := opened
      rw [own, other] at like
      have same : others l.opposite = (queues l).map mirror.order :=
        (List.map_id (others l.opposite)).symm.trans like
      rw [other, Option.map_some, same, viewsOf_mirror]
      rfl
  active key := by
    have keeps : ∀ m : Market, m.Keeps .everything := fun _ _ _ _ _ => Iff.rfl
    cases entry : engine.activeOrders.find? key with
    | none =>
      have active : ¬ image.market.Active key := by
        rw [alike.active (keeps _) (keeps _) trivial]
        exact sound.inactive entry
      have absent : image.activeOrders.find? key = none := by
        rw [imageSound.active, not_exists] at active
        exact Option.eq_none_iff_forall_ne_some.mpr active
      rw [Engine.place, Engine.place, entry, absent]
      rfl
    | some activeOrder =>
      obtain ⟨book, l, node, found, rests, rfl, -⟩ := sound.node_of_entry entry
      have queued := queue_of_node found rests
      obtain ⟨same, restsToo, faces⟩ := (alike.queues _ trivial l).mem queued
      have place := imageSound.place restsToo
      obtain ⟨sameKey, samePrice, -⟩ := Relabelling.same_order faces
      rw [sameKey, samePrice] at place
      rw [place, sound.place queued, Option.map_some, Place.mirror, Option.map_some,
        Option.map_some, mirror.side_side]
      rfl
  nextSequence := alike.stamps

end Engine

/-- The mirrored run of every run answers every command with the mirrored events, but for the
order of the two updates that may end the response to a submit, and leaves the mirrored state. -/
theorem buy_and_sell_mirror (commands : List Command) :
    ∃ history image, History.run commands = .ok history ∧
      History.run (commands.map mirror.command) = .ok image ∧
      List.Forall₂ (fun call reflected => mirror.Answers call.command call.events reflected.events)
        history.transitions image.transitions ∧
      history.state.Mirrors image.state := by
  obtain ⟨history, image, ran, ranToo, sound, soundToo, alike, answers⟩ :=
    mirror.run_alike .everything commands (fun command _ => by
      cases command <;> first | exact Iff.rfl | trivial) (Or.inl fun _ => trivial)
  refine ⟨history, image, ran, ?_, ?_, sound.mirrors soundToo alike⟩
  · have whole : (commands.filter fun command => Scope.everything.keys command.key) = commands :=
      List.filter_eq_self.mpr fun _ _ => rfl
    rwa [whole] at ranToo
  · have whole : (history.transitions.filter fun call => Scope.everything.keys call.command.key) =
        history.transitions := List.filter_eq_self.mpr fun _ _ => rfl
    rw [whole] at answers
    exact answers.imp fun call other answer => answer.2

end MarketLab.Matching

import MarketLab.Matching.IndexConsistency
import MarketLab.Matching.LevelGroups

/-!
# Snapshots

A snapshot reads cached level totals, and shows the sorted groups of the active orders, in whatever
order those are listed. It is missing until a submit of its instrument has passed the checks, which
is the only thing the active orders do not tell.
-/
namespace MarketLab.Matching
open MarketLab.Collections

/-! ## Orders and levels -/

/-- An active order as its owner knows it. -/
structure Listing where
  key : OrderKey
  limitPrice : Price
  openSize : Quantity
  deriving DecidableEq, Repr

def RestingOrder.listing (order : RestingOrder) : Listing where
  key := order.key
  limitPrice := order.limitPrice
  openSize := order.openSize

/-- The levels of one side, best price first, each with the wrapping sum of its open sizes. -/
def priceLevels (l : Ladder) (orders : List Listing) : List PriceLevelSnapshot :=
  (sortedGroups l.Before Listing.limitPrice orders).map fun group =>
    { levelPrice := group.1, totalSize := (group.2.map fun order => order.openSize.value).sum }

theorem priceLevels_sorted (l : Ladder) (orders : List Listing) :
    (priceLevels l orders).Pairwise fun a b => l.Before a.levelPrice b.levelPrice := by
  rw [priceLevels, List.pairwise_map]
  exact sortedGroups_sorted Listing.limitPrice orders

theorem priceLevels_perm (l : Ladder) {orders others : List Listing} (perm : orders.Perm others) :
    priceLevels l orders = priceLevels l others := by
  refine sortedGroups_perm perm ?_
  intro price group other same
  exact congrArg (PriceLevelSnapshot.mk price) (same.map _).sum_eq

/-- A queue's levels are those of its listings. -/
theorem depthOf_eq {l : Ladder} {queue : List RestingOrder}
    (sorted : queue.Pairwise fun ahead behind => ¬ l.Before behind.limitPrice ahead.limitPrice)
    (depth : Nat) :
    depthOf queue depth = (priceLevels l (queue.map RestingOrder.listing)).take depth := by
  have listed : (queue.map RestingOrder.listing).Pairwise
      fun ahead behind => ¬ l.Before behind.limitPrice ahead.limitPrice := List.pairwise_map.mpr sorted
  have keyed : ∀ order : RestingOrder, order.listing.limitPrice = id order.limitPrice := fun _ => rfl
  rw [depthOf, priceLevels, sortedGroups_of_sorted listed, groups_map Function.injective_id keyed,
    List.map_map, ← List.map_take]
  refine List.map_congr_left fun group _ => ?_
  simp only [Function.comp_apply, List.map_map, id_eq]
  rfl

/-- What a snapshot shows of an instrument's queues. -/
def Market.snapshot (m : Market) (instrument : SymbolId) (depth : Nat) : Option OrderBookSnapshot :=
  (m.books instrument).map fun queues =>
    { instrument, bids := depthOf (queues .bids) depth, asks := depthOf (queues .asks) depth }

theorem Engine.Sound.snapshot {engine : Engine} (sound : engine.Sound) (instrument : SymbolId)
    (depth : Nat) : engine.snapshot instrument depth = engine.market.snapshot instrument depth := by
  cases found : engine.books.find? instrument with
  | none => simp [Engine.snapshot, findBook, Market.snapshot, Engine.market, found]
  | some book =>
    obtain ⟨bookSound, named⟩ := sound.book _ _ found
    simp [Engine.snapshot, findBook, Market.snapshot, Engine.market, found, bookSound.snapshot, named]

namespace Engine
variable {engine : Engine}

/-- The index names an order of this key on this side of the instrument's book, and that is the
price and the open size it rests with. -/
def Lists (engine : Engine) (instrument : SymbolId) (l : Ladder) (listing : Listing) : Prop :=
  ∃ activeOrder node, engine.activeOrders.find? listing.key = some activeOrder ∧
    activeOrder.instrument = instrument ∧
    engine.Referenced listing.key activeOrder l listing.limitPrice node ∧
    node.value.openSize = listing.openSize

/-- The listings of one side's active orders, each once, in any order. -/
structure Enumerates (engine : Engine) (instrument : SymbolId) (l : Ladder)
    (orders : List Listing) : Prop where
  once : orders.Nodup
  all : ∀ listing, listing ∈ orders ↔ engine.Lists instrument l listing

theorem Sound.lists_iff (sound : engine.Sound) (instrument : SymbolId) (l : Ladder)
    (listing : Listing) : engine.Lists instrument l listing ↔
      listing ∈ (engine.market.queue instrument l).map RestingOrder.listing := by
  constructor
  · rintro ⟨activeOrder, node, -, rfl, referenced, size⟩
    obtain ⟨book, found, rests⟩ := referenced.rests.node
    refine List.mem_map.mpr ⟨node.value, queue_of_node found rests, ?_⟩
    rw [RestingOrder.listing, referenced.key, referenced.limitPrice, size]
  · intro member
    obtain ⟨order, queued, rfl⟩ := List.mem_map.mp member
    obtain ⟨book, found, node, rests, rfl⟩ := node_of_queue queued
    have restsAt := sound.restsAt found rests
    have entry := sound.order_indexed restsAt
    obtain ⟨side, price, other, referenced⟩ := sound.entry_referenced entry
    obtain ⟨-, rfl, rfl, rfl⟩ := sound.rests_once restsAt referenced.rests referenced.key.symm
    exact ⟨_, node, entry, rfl, referenced, rfl⟩

theorem Sound.enumerates (sound : engine.Sound) (instrument : SymbolId) (l : Ladder) :
    engine.Enumerates instrument l ((engine.market.queue instrument l).map RestingOrder.listing) where
  once := by
    have keys := sound.market.keys instrument l
    refine List.Nodup.of_map Listing.key ?_
    rwa [List.map_map]
  all listing := (sound.lists_iff instrument l listing).symm

theorem Enumerates.perm {instrument : SymbolId} {l : Ladder} {orders others : List Listing}
    (first : engine.Enumerates instrument l orders)
    (second : engine.Enumerates instrument l others) : orders.Perm others :=
  (List.perm_ext_iff_of_nodup first.once second.once).mpr fun listing =>
    (first.all listing).trans (second.all listing).symm

/-- What a snapshot shows of a side, from any list of its active orders. -/
theorem Sound.depthOf_queue (sound : engine.Sound) {instrument : SymbolId} {l : Ladder}
    {orders : List Listing} (enumerates : engine.Enumerates instrument l orders) (depth : Nat) :
    depthOf (engine.market.queue instrument l) depth = (priceLevels l orders).take depth := by
  rw [depthOf_eq (sound.market.sorted instrument l)]
  exact congrArg (List.take depth)
    (priceLevels_perm l ((sound.enumerates instrument l).perm enumerates))

/-- A snapshot from any lists of the active orders. -/
theorem Sound.snapshot_eq (sound : engine.Sound) {instrument : SymbolId} {bids asks : List Listing}
    (bidders : engine.Enumerates instrument .bids bids)
    (askers : engine.Enumerates instrument .asks asks) {depth : Nat} {shown : OrderBookSnapshot}
    (snapshot : engine.snapshot instrument depth = some shown) :
    shown = { instrument, bids := (priceLevels .bids bids).take depth,
              asks := (priceLevels .asks asks).take depth } := by
  rw [sound.snapshot, Market.snapshot, Option.map_eq_some_iff] at snapshot
  obtain ⟨queues, filed, rfl⟩ := snapshot
  have queue : engine.market.queue instrument = queues := by
    funext l
    rw [Market.queue, filed]
  rw [← sound.depthOf_queue bidders, ← sound.depthOf_queue askers, queue]

theorem Sound.snapshot_eq_none (sound : engine.Sound) (instrument : SymbolId) (depth : Nat) :
    engine.snapshot instrument depth = none ↔ engine.market.books instrument = none := by
  rw [sound.snapshot, Market.snapshot, Option.map_eq_none_iff]

end Engine

/-! ## Which instruments have a book -/

/-- Every submit of the instrument was rejected. -/
def History.Refused (history : History) (instrument : SymbolId) : Prop :=
  ∀ call ∈ history.transitions, ∀ order, call.command = .submit order →
    order.instrument = instrument → ∃ reason, call.events = [.submitRejected order.key reason]

namespace Market
variable {m after : Market} {command : Command} {events : List Event}

theorem books_of_queue {instrument : SymbolId} {l : Ladder} {order : RestingOrder}
    (rests : order ∈ m.queue instrument l) : m.books instrument ≠ none := by
  intro missing
  simp [queue, missing] at rests

/-- Storing queues makes no other book. -/
theorem advance_books_none {instrument other : SymbolId} {queues : Queues} :
    (m.advance instrument queues).books other = none ↔
      other ≠ instrument ∧ m.books other = none := by
  by_cases here : other = instrument <;> simp [advance, here]

/-- A submit that is not rejected leaves a book of its instrument. -/
theorem books_none_of_accepted {order : SubmitOrder} {queues : Queues}
    (answered : ∀ reason, events ≠ [.submitRejected order.key reason]) (instrument : SymbolId) :
    (m.advance order.instrument queues).books instrument = none ↔ m.books instrument = none ∧
      ∀ other, Command.submit order = .submit other → other.instrument = instrument →
        ∃ reason, events = [.submitRejected other.key reason] := by
  rw [advance_books_none]
  constructor
  · rintro ⟨other, missing⟩
    refine ⟨missing, ?_⟩
    rintro _ ⟨⟩ same
    exact absurd same.symm other
  · rintro ⟨missing, refused⟩
    refine ⟨?_, missing⟩
    rintro rfl
    obtain ⟨reason, impossible⟩ := refused _ rfl rfl
    exact answered reason impossible

/-- Only a submit that passed the checks makes a book. -/
theorem Step.books_none (step : m.Step command events after) (instrument : SymbolId) :
    after.books instrument = none ↔ m.books instrument = none ∧
      ∀ order, command = .submit order → order.instrument = instrument →
        ∃ reason, events = [.submitRejected order.key reason] := by
  have stored : ∀ {other : SymbolId} {queues : Queues} {l : Ladder} {resting : RestingOrder},
      resting ∈ m.queue other l →
      ((m.advance other queues).books instrument = none ↔ m.books instrument = none) := by
    intro other queues l resting rests
    rw [advance_books_none]
    refine ⟨And.right, fun missing => ⟨?_, missing⟩⟩
    rintro rfl
    exact books_of_queue rests missing
  cases step with
  | refused refusal =>
    refine ⟨fun missing => ⟨missing, ?_⟩, And.left⟩
    rintro order rfl -
    cases refusal with
    | submitInvalid invalid => exact ⟨_, rfl⟩
    | submitActive valid active => exact ⟨_, rfl⟩
  | ignored valid inactive unnamed => exact books_none_of_accepted (by simp) instrument
  | submitted l valid inactive named a aggression queues filed =>
    exact books_none_of_accepted (by simp) instrument
  | reduced other l resting valid rests named price smaller queue filed =>
    rw [stored rests]
    simp
  | replaced other l resting price valid rests named limit moved a aggression queues filed =>
    rw [stored rests]
    simp
  | cancelled other l resting rests named queue filed =>
    have same : (m.advance other (Function.update (m.queue other) l queue)).books instrument = none ↔
        m.books instrument = none := stored rests
    simpa [setQueue, advance] using same

end Market

/-- An instrument has no book just when every submit of it was rejected. -/
theorem run_refused (commands : List Command) :
    ∃ history, History.run commands = .ok history ∧ history.state.Sound ∧
      ∀ instrument, history.state.market.books instrument = none ↔ history.Refused instrument := by
  have runs := History.run_induct (P := fun history => ∀ instrument,
    history.state.market.books instrument = none ↔ history.Refused instrument) ?_ ?_ commands
  · obtain ⟨history, ran, sound, -, refused⟩ := runs
    exact ⟨history, ran, sound, refused⟩
  · intro instrument
    exact iff_of_true rfl fun _ member => nomatch member
  · intro history command events after taken held instrument
    rw [History.push_state, taken.step.books_none, held]
    simp only [History.Refused, History.push_transitions, List.forall_mem_append,
      List.forall_mem_singleton]

/-! ## What a snapshot tells -/

/-- A snapshot is missing while every submit of its instrument was rejected. Otherwise it shows the
first of the sorted groups of the active orders, whatever the order they are listed in; so it is
strictly sorted, a deeper one goes on where it ends, and two runs that leave the same active orders
have the same snapshots once both or neither have a book. -/
theorem snapshot_of_active_orders (commands others : List Command) (instrument : SymbolId) :
    ∃ history other, History.run commands = .ok history ∧ History.run others = .ok other ∧
      (∀ depth, history.state.snapshot instrument depth = none ↔ history.Refused instrument) ∧
      (∀ l, ∃ orders, history.state.Enumerates instrument l orders) ∧
      (∀ depth shown bids asks, history.state.snapshot instrument depth = some shown →
        history.state.Enumerates instrument .bids bids →
        history.state.Enumerates instrument .asks asks →
        shown = { instrument, bids := (priceLevels .bids bids).take depth,
                  asks := (priceLevels .asks asks).take depth }) ∧
      (∀ depth deeper shown more, depth ≤ deeper →
        history.state.snapshot instrument depth = some shown →
        history.state.snapshot instrument deeper = some more →
        shown.bids.Pairwise (fun a b => b.levelPrice < a.levelPrice) ∧
        shown.asks.Pairwise (fun a b => a.levelPrice < b.levelPrice) ∧
        shown.bids <+: more.bids ∧ shown.asks <+: more.asks) ∧
      ((∀ l listing, history.state.Lists instrument l listing ↔
          other.state.Lists instrument l listing) →
        (history.Refused instrument ↔ other.Refused instrument) →
        ∀ depth, history.state.snapshot instrument depth =
          other.state.snapshot instrument depth) := by
  obtain ⟨history, ran, sound, refused⟩ := run_refused commands
  obtain ⟨other, ranToo, soundToo, refusedToo⟩ := run_refused others
  have bidders := sound.enumerates instrument .bids
  have askers := sound.enumerates instrument .asks
  refine ⟨history, other, ran, ranToo, ?_, ?_, ?_, ?_, ?_⟩
  · intro depth
    rw [sound.snapshot_eq_none, refused]
  · exact fun l => ⟨_, sound.enumerates instrument l⟩
  · intro depth shown bids asks snapshot first second
    exact sound.snapshot_eq first second snapshot
  · intro depth deeper shown more le snapshot further
    rw [sound.snapshot_eq bidders askers snapshot, sound.snapshot_eq bidders askers further]
    refine ⟨?_, ?_, List.take_prefix_take_left le, List.take_prefix_take_left le⟩
    · exact (priceLevels_sorted .bids _).sublist (List.take_sublist _ _)
    · exact (priceLevels_sorted .asks _).sublist (List.take_sublist _ _)
  · intro same missing depth
    have listed : ∀ {l orders}, history.state.Enumerates instrument l orders →
        other.state.Enumerates instrument l orders := fun enumerates =>
      { once := enumerates.once
        all := fun listing => (enumerates.all listing).trans (same _ listing) }
    cases snapshot : history.state.snapshot instrument depth with
    | none =>
      rw [eq_comm, soundToo.snapshot_eq_none, refusedToo, ← missing, ← refused,
        ← sound.snapshot_eq_none _ depth, snapshot]
    | some shown =>
      cases snapshotToo : other.state.snapshot instrument depth with
      | none =>
        rw [soundToo.snapshot_eq_none, refusedToo, ← missing, ← refused,
          ← sound.snapshot_eq_none _ depth, snapshot] at snapshotToo
        cases snapshotToo
      | some shownToo =>
        rw [sound.snapshot_eq bidders askers snapshot,
          soundToo.snapshot_eq (listed bidders) (listed askers) snapshotToo]

/-- A bid that comes and goes leaves a book with nothing in it, where a fresh engine has none; and
so does a submit of an unnamed side, with no event at all. -/
theorem empty_book_is_shown :
    let bid : SubmitOrder := { key := ⟨⟨1⟩, ⟨1⟩⟩, instrument := ⟨1⟩, direction := .buy,
                               pricing := .limit ⟨10, by decide⟩, size := ⟨5⟩ }
    ∃ history ignored, History.run [.submit bid, .cancel { key := bid.key }] = .ok history ∧
      History.run [.submit { bid with direction := .unnamed ⟨2, by decide⟩ }] = .ok ignored ∧
      History.run [] = .ok {} ∧
      (∀ key, history.state.activeOrders.find? key = none) ∧
      (∀ key, ({} : Engine).activeOrders.find? key = none) ∧ ignored.events = [] ∧
      history.state.snapshot ⟨1⟩ 1 = some { instrument := ⟨1⟩, bids := [], asks := [] } ∧
      ignored.state.snapshot ⟨1⟩ 1 = some { instrument := ⟨1⟩, bids := [], asks := [] } ∧
      ({} : Engine).snapshot ⟨1⟩ 1 = none := by
  refine ⟨_, _, rfl, rfl, rfl, ?_, fun _ => rfl, rfl, rfl, rfl, rfl⟩
  intro key
  change (UnorderedMap.erase _ (⟨⟨1⟩, ⟨1⟩⟩ : OrderKey)).find? key = none
  rw [UnorderedMap.find?_erase]
  split
  next => rfl
  next other => exact Function.update_of_ne other _ _

end MarketLab.Matching

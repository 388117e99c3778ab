import MarketLab.Matching.RelabelledRuns
import MarketLab.Matching.Snapshots

/-!
# Symbols do not interfere

The index and the sequence counter are shared by all books. Where every key is used for one
instrument, an instrument's commands are answered as if the others' had never been sent: only
the sequence numbers of its resting orders can tell, and nothing a caller sees depends on them.
-/
namespace MarketLab.Matching
open MarketLab.Collections

/-- Everything but the sequence numbers. -/
def unstamped : Relabelling where
  ladder := id
  price := id
  stamp _ := {}
  opposite _ := rfl
  before _ _ _ := Iff.rfl
  next _ _ _ := rfl

theorem unstamped_side (direction : Side) : unstamped.side direction = direction := by
  cases direction <;> rfl

theorem unstamped_pricing (pricing : OrderPricing) : unstamped.pricing pricing = pricing := by
  cases pricing <;> rfl

theorem unstamped_command : unstamped.command = id := by
  funext command
  cases command <;>
    simp [Relabelling.command, Relabelling.submitOrder, Relabelling.updateOrder, unstamped_side,
      unstamped_pricing]

theorem unstamped_event : unstamped.event = id := by
  funext event
  cases event with
  | bookUpdated instrument direction bestPrice totalSize =>
    rw [Relabelling.event, unstamped_side]
    exact congrArg (Event.bookUpdated _ _ · _) (congrFun Option.map_id bestPrice)
  | _ => rfl

theorem unstamped_answers {command : Command} {events others : List Event}
    (answers : unstamped.Answers command events others) : others = events := by
  cases answers with
  | same => rw [unstamped_event, List.map_id]
  | exchanged swaps => cases swaps

theorem Relabelling.Alike.snapshot {scope : Scope} {m n : Market}
    (alike : unstamped.Alike scope m n) {instrument : SymbolId}
    (within : scope.instruments instrument) (depth : Nat) :
    n.snapshot instrument depth = m.snapshot instrument depth := by
  have opened := alike.opened instrument within
  have shown : ∀ l, depthOf (n.queue instrument l) depth = depthOf (m.queue instrument l) depth := by
    intro l
    have like := (alike.queues instrument within l).depthOf depth
    exact like.trans (List.map_id _)
  unfold Market.queue at shown
  unfold Market.snapshot
  cases own : m.books instrument with
  | none =>
    rw [own, Option.isSome_none, Option.isSome_eq_false_iff, Option.isNone_iff_eq_none] at opened
    rw [opened]
  | some queues =>
    rw [own, Option.isSome_some, Option.isSome_iff_exists] at opened
    obtain ⟨others, other⟩ := opened
    rw [other]
    rw [own, other] at shown
    rw [Option.map_some, Option.map_some, shown .bids, shown .asks]

/-- The keys assigned to an instrument, and that instrument. -/
def assignedTo (assign : OrderKey → SymbolId) (instrument : SymbolId) : Scope where
  keys key := assign key = instrument
  instruments other := other = instrument

instance (assign : OrderKey → SymbolId) (instrument : SymbolId) :
    DecidablePred (assignedTo assign instrument).keys := fun key => decEq (assign key) instrument

/-- Where every submit uses a key assigned to its instrument, the commands of one instrument's
keys are answered alike, and leave the same snapshots, with the other commands and without. -/
theorem symbols_do_not_interfere (assign : OrderKey → SymbolId) (commands : List Command)
    (assigned : ∀ order, .submit order ∈ commands → assign order.key = order.instrument)
    (instrument : SymbolId) :
    ∃ whole alone, History.run commands = .ok whole ∧
      History.run (commands.filter fun command => assign command.key = instrument) = .ok alone ∧
      (whole.transitions.filter fun call => assign call.command.key = instrument).map
          (fun call => (call.command, call.events)) =
        alone.transitions.map (fun call => (call.command, call.events)) ∧
      ∀ depth, whole.state.snapshot instrument depth = alone.state.snapshot instrument depth := by
  have fits : ∀ command ∈ commands, (assignedTo assign instrument).Fits command := by
    intro command member
    cases command with
    | submit order => exact iff_of_eq (congrArg (· = instrument) (assigned order member))
    | update order => trivial
    | cancel order => trivial
  obtain ⟨whole, alone, ran, ranToo, sound, soundToo, alike, answers⟩ :=
    unstamped.run_alike (assignedTo assign instrument) commands fits (Or.inr fun _ _ => rfl)
  refine ⟨whole, alone, ran, ?_, ?_, fun depth => ?_⟩
  · rw [unstamped_command, List.map_id] at ranToo
    exact ranToo
  · have same : List.Forall₂ (fun call other : Transition =>
        (call.command, call.events) = (other.command, other.events))
        (whole.transitions.filter fun call => assign call.command.key = instrument)
        alone.transitions := by
      refine answers.imp fun call other answer => ?_
      rw [answer.1, unstamped_command, unstamped_answers answer.2]
      rfl
    rw [← List.forall₂_eq_eq_eq, List.forall₂_map_left_iff, List.forall₂_map_right_iff]
    exact same
  · rw [sound.snapshot, soundToo.snapshot, alike.snapshot rfl]

/-- A bid for one instrument, an offer for another at the same price, and the bid's end. -/
def bidAndOffer : List Command :=
  [.submit { key := ⟨⟨1⟩, ⟨1⟩⟩, instrument := ⟨1⟩, direction := .buy,
             pricing := .limit ⟨10, by decide⟩, size := ⟨5⟩ },
   .submit { key := ⟨⟨2⟩, ⟨1⟩⟩, instrument := ⟨2⟩, direction := .sell,
             pricing := .limit ⟨10, by decide⟩, size := ⟨5⟩ },
   .cancel { key := ⟨⟨1⟩, ⟨1⟩⟩ }]

theorem symbols_do_not_interfere_bid_and_offer :
    (∀ order, .submit order ∈ bidAndOffer →
      SymbolId.mk order.key.user.value.toUInt32 = order.instrument) ∧
    ∃ whole alone, History.run bidAndOffer = .ok whole ∧
      History.run (bidAndOffer.filter fun command => command.key.user.value.toUInt32 = 2) =
        .ok alone ∧
      ∀ depth, whole.state.snapshot ⟨2⟩ depth = alone.state.snapshot ⟨2⟩ depth := by
  have assigned : ∀ order, .submit order ∈ bidAndOffer →
      SymbolId.mk order.key.user.value.toUInt32 = order.instrument := by
    intro order member
    simp only [bidAndOffer, List.mem_cons, Command.submit.injEq, reduceCtorEq, List.not_mem_nil,
      or_false] at member
    rcases member with rfl | rfl <;> decide
  obtain ⟨whole, alone, ran, ranToo, -, shown⟩ :=
    symbols_do_not_interfere (fun key => ⟨key.user.value.toUInt32⟩) bidAndOffer assigned ⟨2⟩
  exact ⟨assigned, whole, alone, ran, ranToo, shown⟩

end MarketLab.Matching

import MarketLab.MarketData.FeedEncoder
import MarketLab.Matching.ExactTotals

/-!
# Which runs can be published

The encoder refuses an update that pairs a price with no quantity, and the engine emits one
when a level's total wraps to zero. A run whose totals stay exact emits none, and its totals
stay exact exactly when every command fits.
-/
namespace MarketLab.MarketData
open MarketLab.Matching (Command Engine Event History Ladder Price)

def sideOf : Matching.Side → Side
  | .buy => .buy
  | .sell => .sell
  | .unnamed underlying => .unnamed underlying

/-- The protocol's form of an update, field by field. -/
def translated (instrument : Matching.SymbolId) (direction : Matching.Side) (bestPrice : Option Price)
    (totalSize : UInt64) : BookUpdate :=
  { instrument := ⟨instrument.value⟩, direction := sideOf direction,
    bestPrice := bestPrice.map Price.value, aggregateSize := totalSize }

theorem toBookUpdate_named (instrument : Matching.SymbolId) (l : Ladder) (bestPrice : Option Price)
    (totalSize : UInt64) : toBookUpdate instrument l.side bestPrice totalSize =
      .ok (translated instrument l.side bestPrice totalSize) := by
  cases l <;> rfl

theorem translated_canonical {instrument : Matching.SymbolId} {l : Ladder} {bestPrice : Option Price}
    {totalSize : UInt64} (publishable : (Event.bookUpdated instrument l.side bestPrice totalSize).Publishable) :
    (translated instrument l.side bestPrice totalSize).Canonical := by
  obtain ⟨listed, -, paired⟩ := publishable
  have named : sideOf l.side = .buy ∨ sideOf l.side = .sell := by cases l <;> decide
  refine ⟨listed, named, ?_⟩
  cases bestPrice with
  | none =>
    by_contra positive
    exact absurd (paired.mpr positive) (by decide)
  | some price =>
    exact ⟨UInt64.pos_iff_ne_zero.mpr price.positive, UInt64.pos_iff_ne_zero.mpr (paired.mp rfl)⟩

namespace FeedEncoder
variable (endian : Endian) {encoder : FeedEncoder}

/-- A publishable update is encoded under the next sequence. -/
theorem encode_update {instrument : Matching.SymbolId} {l : Ladder} {bestPrice : Option Price}
    {totalSize : UInt64}
    (publishable : (Event.bookUpdated instrument l.side bestPrice totalSize).Publishable)
    (more : encoder.sequenceExhausted = false) :
    ∃ bytes, encoder.encode endian (.bookUpdated instrument l.side bestPrice totalSize) =
        .ok (encoder.advance, some { sequence := encoder.nextSequence, bytes }) ∧
      decode endian bytes = .ok
        { sequence := encoder.nextSequence
          payload := translated instrument l.side bestPrice totalSize } := by
  have canonical : Packet.Canonical
      { sequence := encoder.nextSequence
        payload := translated instrument l.side bestPrice totalSize } :=
    ⟨encoder.positive, translated_canonical publishable⟩
  obtain ⟨side, -, written⟩ := encode_canonical endian canonical
  refine ⟨_, ?_, decode_encode endian written⟩
  rw [encode, if_neg (by rw [more]; decide), toBookUpdate_named]
  simp only [bind, Except.bind, written]
  rfl

theorem encode_publishable {event : Event} (publishable : event.Publishable) (what : String) :
    encoder.encode endian event ≠ .error (.invalidArgument what) := by
  cases event with
  | bookUpdated instrument direction bestPrice totalSize =>
    obtain ⟨l, rfl⟩ := publishable.2.1
    cases exhausted : encoder.sequenceExhausted with
    | true =>
      rw [encode, if_pos exhausted]
      exact fun same => by cases same
    | false =>
      obtain ⟨bytes, encoded, -⟩ := encode_update endian publishable exhausted
      rw [encoded]
      exact fun same => by cases same
  | _ => exact fun same => by cases same

end FeedEncoder

/-- In a run every stored total is exact and the encoder takes every event exactly when every
command fits into the market it is applied to. -/
theorem publishable_iff (endian : Endian) (commands : List Command) :
    ∃ history, History.run commands = .ok history ∧
      (((∀ engine ∈ history.states, engine.ExactTotals) ∧
          ∀ event ∈ history.events, ∀ (encoder : FeedEncoder) (what : String),
            encoder.encode endian event ≠ .error (.invalidArgument what)) ↔
        ∀ call ∈ history.transitions, call.before.market.Fits call.command) := by
  obtain ⟨history, ran, tallied⟩ := History.tallied_run commands
  refine ⟨history, ran, fun both => tallied.exact_iff.mp both.1, fun fits => ?_⟩
  have exact := tallied.exact_iff.mpr fits
  exact ⟨exact, fun event member encoder what =>
    FeedEncoder.encode_publishable endian (tallied.publishable exact event member) what⟩

def bidPrice : Price := ⟨100, by decide⟩

/-- A bid at 100 of user 1, told apart by its client order id. -/
def bidOf (clientOrder size : UInt64) : Command :=
  .submit { key := { user := ⟨1⟩, clientOrder := ⟨clientOrder⟩ }, instrument := ⟨1⟩, direction := .buy,
            pricing := .limit bidPrice, size := ⟨size⟩ }

/-- Two bids that together outgrow 64 bits: the level's total is zero, and so is the published one. -/
theorem total_wraps :
    ∃ history book level, History.run [bidOf 1 0xffffffffffffffff, bidOf 2 1] = .ok history ∧
      history.state.books.find? ⟨1⟩ = some book ∧ (book.levels .bids).find? bidPrice = some level ∧
      level.totalSize = 0 ∧
      (level.orders.map fun node => node.value.openSize.value.toNat).sum = 2 ^ 64 ∧
      .bookUpdated ⟨1⟩ .buy (some bidPrice) 0 ∈ history.events ∧
      FeedEncoder.encode networkOrder { nextSequence := 1, positive := by decide }
        (.bookUpdated ⟨1⟩ .buy (some bidPrice) 0) = .error (.invalidArgument
          "book update must pair a price with positive aggregate size") := by
  refine ⟨_, _, _, rfl, rfl, rfl, rfl, ?_, ?_, ?_⟩
  · rfl
  · decide
  · rfl

end MarketLab.MarketData

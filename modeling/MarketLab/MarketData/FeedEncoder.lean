import MarketLab.MarketData.Canonical
import MarketLab.MarketData.SequencedBuffer
import MarketLab.Matching.Types

/-!
# The feed encoder

`feed_encoder.hpp` and `feed_encoder.cpp`. A call that throws leaves the encoder as it was.
-/
namespace MarketLab.MarketData

structure EncodedDatagram where
  sequence : UInt64
  bytes : List UInt8
  deriving DecidableEq, Repr

/-- The constructor throws on zero, and the counter stops at the maximum. -/
structure FeedEncoder where
  nextSequence : UInt64
  positive : nextSequence ≠ 0
  sequenceExhausted : Bool := false

def toBookUpdate (instrument : Matching.SymbolId) (direction : Matching.Side)
    (bestPrice : Option Matching.Price) (totalSize : UInt64) : Except Fault BookUpdate := do
  let direction ← match direction with
    | .buy => .ok Side.buy
    | .sell => .ok Side.sell
    | .unnamed _ => .error (.invalidArgument "matching update has an invalid side")
  return { instrument := ⟨instrument.value⟩, direction, bestPrice := bestPrice.map Matching.Price.value,
           aggregateSize := totalSize }

namespace FeedEncoder

def make (firstSequence : UInt64) : Except Fault FeedEncoder :=
  if zero : firstSequence = 0 then
    .error (.invalidArgument "first market-data sequence must be positive")
  else .ok { nextSequence := firstSequence, positive := zero }

theorem succ_positive {sequence : UInt64} (more : sequence ≠ maximumSequence) : sequence + 1 ≠ 0 := by
  intro zero
  apply more
  have wraps : (sequence + 1) - 1 = 0 - 1 := congrArg (· - 1) zero
  rwa [UInt64.add_sub_cancel] at wraps

/-- The sequence just used is the last one, or the counter moves on. -/
def advance (encoder : FeedEncoder) : FeedEncoder :=
  if last : encoder.nextSequence = maximumSequence then { encoder with sequenceExhausted := true }
  else { encoder with nextSequence := encoder.nextSequence + 1, positive := succ_positive last }

def encode (endian : Endian) (encoder : FeedEncoder) :
    Matching.Event → Except Fault (FeedEncoder × Option EncodedDatagram)
  | .bookUpdated instrument direction bestPrice totalSize =>
    if encoder.sequenceExhausted then .error (.overflowError "market-data sequence is exhausted")
    else do
      let sequence := encoder.nextSequence
      let update ← toBookUpdate instrument direction bestPrice totalSize
      let bytes ← MarketData.encode endian { sequence, payload := update }
      return (encoder.advance, some { sequence, bytes })
  | _ => .ok (encoder, none)

end FeedEncoder
end MarketLab.MarketData

import MarketLab.Replay.JsonlWriter

/-!
# The console writer

`console_writer.cpp`. A function yields what the source's function writes to the output stream; a
reason is written as it is.
-/
namespace MarketLab.Replay.Console
open MarketLab.Text
open MarketLab.Matching (OrderKey Price OrderBookSnapshot PriceLevelSnapshot)

/-- `operator<<` for an `order_key`. -/
def writeKey (key : OrderKey) : Bytes :=
  decimal key.user.value.toNat ++ ascii ":" ++ decimal key.clientOrder.value.toNat

def writeBestPrice : Option Price → Bytes
  | some value => decimal value.value.toNat
  | none => ascii "none"

def writeEvent : EmittedEvent → Bytes
  | .submitAccepted key => ascii "  submit_accepted key=" ++ writeKey key ++ ascii "\n"
  | .submitRejected key reason =>
    ascii "  submit_rejected key=" ++ writeKey key ++ ascii " reason=\"" ++ reason ++ ascii "\"\n"
  | .updateAccepted key => ascii "  update_accepted key=" ++ writeKey key ++ ascii "\n"
  | .updateRejected key reason =>
    ascii "  update_rejected key=" ++ writeKey key ++ ascii " reason=\"" ++ reason ++ ascii "\"\n"
  | .cancelRejected key reason =>
    ascii "  cancel_rejected key=" ++ writeKey key ++ ascii " reason=\"" ++ reason ++ ascii "\"\n"
  | .orderCancelled key => ascii "  order_cancelled key=" ++ writeKey key ++ ascii "\n"
  | .tradeExecuted aggressor resting instrument executionPrice executedSize =>
    ascii "  trade_executed instrument=" ++ decimal instrument.value.toNat ++
    ascii " aggressor=" ++ writeKey aggressor ++ ascii " resting=" ++ writeKey resting ++
    ascii " price=" ++ decimal executionPrice.value.toNat ++
    ascii " size=" ++ decimal executedSize.value.toNat ++ ascii "\n"
  | .bookUpdated instrument direction bestPrice totalSize =>
    ascii "  book_updated instrument=" ++ decimal instrument.value.toNat ++
    ascii " side=" ++ sideToString direction ++ ascii " best_price=" ++ writeBestPrice bestPrice ++
    ascii " total_size=" ++ decimal totalSize.toNat ++ ascii "\n"

def writeEvents (events : List EmittedEvent) : Bytes := events.flatMap writeEvent

def writePriceLevel (level : PriceLevelSnapshot) : Bytes :=
  ascii "    price=" ++ decimal level.levelPrice.value.toNat ++
  ascii " total_size=" ++ decimal level.totalSize.toNat ++ ascii "\n"

def writePriceLevels (label : String) (levels : List PriceLevelSnapshot) : Bytes :=
  ascii "  " ++ ascii label ++ ascii ":\n" ++
  if levels.isEmpty then ascii "    empty\n" else levels.flatMap writePriceLevel

def writeSnapshot : Option OrderBookSnapshot → Bytes
  | none => ascii "  no book found\n"
  | some snapshot =>
    ascii "  instrument=" ++ decimal snapshot.instrument.value.toNat ++ ascii "\n" ++
    writePriceLevels "bids" snapshot.bids ++ writePriceLevels "asks" snapshot.asks

end MarketLab.Replay.Console

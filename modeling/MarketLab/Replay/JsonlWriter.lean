import MarketLab.Matching.OrderBook
import MarketLab.Text.Bytes

/-!
# The writer of JSON lines

`jsonl_writer.cpp`. A function yields what the source's function writes to the output stream, which
prints unsigned integers in plain decimal. In a literal `\x7b` is an opening brace and `\x7d` a
closing one.
-/
namespace MarketLab.Replay
open MarketLab.Text
open MarketLab.Matching (SymbolId OrderKey Price Quantity Side Event OrderBookSnapshot
  PriceLevelSnapshot)

/-- `event`, with the bytes of its reason. -/
inductive EmittedEvent where
  | submitAccepted (key : OrderKey)
  | submitRejected (key : OrderKey) (reason : Bytes)
  | updateAccepted (key : OrderKey)
  | updateRejected (key : OrderKey) (reason : Bytes)
  | cancelRejected (key : OrderKey) (reason : Bytes)
  | orderCancelled (key : OrderKey)
  | tradeExecuted (aggressor resting : OrderKey) (instrument : SymbolId)
      (executionPrice : Price) (executedSize : Quantity)
  | bookUpdated (instrument : SymbolId) (direction : Side) (bestPrice : Option Price)
      (totalSize : UInt64)
  deriving DecidableEq, Repr

/-- An event of the engine, whose reasons are plain literals. -/
def EmittedEvent.ofEvent : Event → EmittedEvent
  | .submitAccepted key => .submitAccepted key
  | .submitRejected key reason => .submitRejected key (ascii reason)
  | .updateAccepted key => .updateAccepted key
  | .updateRejected key reason => .updateRejected key (ascii reason)
  | .cancelRejected key reason => .cancelRejected key (ascii reason)
  | .orderCancelled key => .orderCancelled key
  | .tradeExecuted aggressor resting instrument executionPrice executedSize =>
    .tradeExecuted aggressor resting instrument executionPrice executedSize
  | .bookUpdated instrument direction bestPrice totalSize =>
    .bookUpdated instrument direction bestPrice totalSize

def hexDigit (value : UInt8) : UInt8 := if value < 10 then 48 + value else 97 + (value - 10)

/-- `to_string`. -/
def sideToString : Side → Bytes
  | .buy => ascii "buy"
  | .sell => ascii "sell"
  | .unnamed _ => ascii "unknown"

/-- What the loop of `write_json_string` writes for one `char`. -/
def writeJsonChar (value : UInt8) : Bytes :=
  if value = 34 then ascii "\\\""
  else if value = 92 then ascii "\\\\"
  else if value = 8 then ascii "\\b"
  else if value = 12 then ascii "\\f"
  else if value = 10 then ascii "\\n"
  else if value = 13 then ascii "\\r"
  else if value = 9 then ascii "\\t"
  else if value < 0x20 then ascii "\\u00" ++ [hexDigit (value >>> 4), hexDigit (value &&& 0x0f)]
  else [value]

def writeJsonString (text : Bytes) : Bytes :=
  ascii "\"" ++ text.flatMap writeJsonChar ++ ascii "\""

def writePrice : Option Price → Bytes
  | some value => decimal value.value.toNat
  | none => ascii "null"

def writeKey (key : OrderKey) : Bytes :=
  ascii "\x7b\"user\":" ++ decimal key.user.value.toNat ++
  ascii ",\"client_order\":" ++ decimal key.clientOrder.value.toNat ++ ascii "\x7d"

/-- What the loop of `write_price_levels` writes for one index. -/
def writePriceLevel (level : PriceLevelSnapshot) (index : Nat) : Bytes :=
  (if index ≠ 0 then ascii "," else []) ++
  (ascii "\x7b\"price\":" ++ decimal level.levelPrice.value.toNat ++
  ascii ",\"total_size\":" ++ decimal level.totalSize.toNat ++ ascii "\x7d")

def writePriceLevels (levels : List PriceLevelSnapshot) : Bytes :=
  ascii "[" ++ levels.zipIdx.flatMap (fun entry => writePriceLevel entry.1 entry.2) ++
  ascii "]"

def writeEvent : EmittedEvent → Bytes
  | .submitAccepted key =>
    ascii "\x7b\"type\":\"submit_accepted\",\"key\":" ++ writeKey key ++ ascii "\x7d\n"
  | .submitRejected key reason =>
    ascii "\x7b\"type\":\"submit_rejected\",\"key\":" ++ writeKey key ++
    ascii ",\"reason\":" ++ writeJsonString reason ++ ascii "\x7d\n"
  | .updateAccepted key =>
    ascii "\x7b\"type\":\"update_accepted\",\"key\":" ++ writeKey key ++ ascii "\x7d\n"
  | .updateRejected key reason =>
    ascii "\x7b\"type\":\"update_rejected\",\"key\":" ++ writeKey key ++
    ascii ",\"reason\":" ++ writeJsonString reason ++ ascii "\x7d\n"
  | .cancelRejected key reason =>
    ascii "\x7b\"type\":\"cancel_rejected\",\"key\":" ++ writeKey key ++
    ascii ",\"reason\":" ++ writeJsonString reason ++ ascii "\x7d\n"
  | .orderCancelled key =>
    ascii "\x7b\"type\":\"order_cancelled\",\"key\":" ++ writeKey key ++ ascii "\x7d\n"
  | .tradeExecuted aggressor resting instrument executionPrice executedSize =>
    ascii "\x7b\"type\":\"trade_executed\",\"aggressor\":" ++ writeKey aggressor ++
    ascii ",\"resting\":" ++ writeKey resting ++
    ascii ",\"instrument_id\":" ++ decimal instrument.value.toNat ++
    ascii ",\"price\":" ++ decimal executionPrice.value.toNat ++
    ascii ",\"size\":" ++ decimal executedSize.value.toNat ++ ascii "\x7d\n"
  | .bookUpdated instrument direction bestPrice totalSize =>
    ascii "\x7b\"type\":\"book_updated\",\"instrument_id\":" ++ decimal instrument.value.toNat ++
    ascii ",\"side\":" ++ writeJsonString (sideToString direction) ++
    ascii ",\"best_price\":" ++ writePrice bestPrice ++
    ascii ",\"total_size\":" ++ decimal totalSize.toNat ++ ascii "\x7d\n"

def writeEvents (events : List EmittedEvent) : Bytes := events.flatMap writeEvent

def writeSnapshot (snapshot : Option OrderBookSnapshot) : Bytes :=
  ascii "\x7b\"type\":\"snapshot\",\"snapshot\":" ++
  match snapshot with
  | none => ascii "null\x7d\n"
  | some snapshot =>
    ascii "\x7b\"instrument_id\":" ++ decimal snapshot.instrument.value.toNat ++
    ascii ",\"bids\":" ++ writePriceLevels snapshot.bids ++
    ascii ",\"asks\":" ++ writePriceLevels snapshot.asks ++ ascii "\x7d\x7d\n"

end MarketLab.Replay

import MarketLab.Wire.FixedWidth

/-!
# The wire codec

`messages.hpp`, `codec.hpp` and `codec.cpp`. A byte vector filled through an advancing span
is the concatenation of what is written; the fields of a packet add up to its size. The
conversions of `obz/endian.hpp` are a parameter, of which only the widths and that reading
inverts writing are used.
-/
namespace MarketLab.MarketData
open MarketLab.Wire

/-- `write_be` and `read_be` at the four unsigned widths. -/
structure Endian where
  byte : FixedWidth UInt8 1
  half : FixedWidth UInt16 2
  word : FixedWidth UInt32 4
  long : FixedWidth UInt64 8

/-- Network byte order. -/
def networkOrder : Endian where
  byte := bigEndian 1 UInt8.toNat UInt8.ofNat UInt8.toNat_lt (fun _ => UInt8.ofNat_toNat)
    (fun n fits => by rw [UInt8.toNat_ofNat']; omega)
  half := bigEndian 2 UInt16.toNat UInt16.ofNat UInt16.toNat_lt (fun _ => UInt16.ofNat_toNat)
    (fun n fits => by rw [UInt16.toNat_ofNat']; omega)
  word := bigEndian 4 UInt32.toNat UInt32.ofNat UInt32.toNat_lt (fun _ => UInt32.ofNat_toNat)
    (fun n fits => by rw [UInt32.toNat_ofNat']; omega)
  long := bigEndian 8 UInt64.toNat UInt64.ofNat UInt64.toNat_lt (fun _ => UInt64.ofNat_toNat)
    (fun n fits => by rw [UInt64.toNat_ofNat']; omega)

/-- What an encoder throws. -/
inductive Fault where
  | invalidArgument (what : String)
  | overflowError (what : String)
  deriving DecidableEq, Repr

/-- `unnamed` is every value of the `enum class` that is neither enumerator. -/
inductive Side where
  | buy
  | sell
  | unnamed (underlying : { code : Int32 // code ≠ 0 ∧ code ≠ 1 })
  deriving DecidableEq, Repr

structure SymbolId where
  value : UInt32 := 0
  deriving DecidableEq, Repr

structure BookUpdate where
  instrument : SymbolId
  direction : Side
  bestPrice : Option UInt64
  aggregateSize : UInt64
  deriving DecidableEq, Repr

/-- A variant of one alternative. -/
abbrev Message := BookUpdate

structure Packet where
  sequence : UInt64
  payload : Message
  deriving DecidableEq, Repr

inductive DecodeError where
  | headerTruncated
  | invalidSignature
  | unsupportedVersion
  | unknownMessageType
  | invalidSequence
  | bodyTruncated
  | bodyLengthMismatch
  | invalidSymbol
  | invalidSide
  | invalidFlags
  | invalidBookState
  deriving DecidableEq, Repr

def protocolVersion : UInt16 := 2

inductive MessageType where
  | bookUpdated
  deriving DecidableEq, Repr

/-- `static_cast<std::uint16_t>(type)`. -/
def MessageType.encoded : MessageType → UInt16
  | .bookUpdated => 1

namespace HeaderLayout

def signature : UInt32 := 0x4f425a4d
def size : Nat := 16

end HeaderLayout

namespace BookUpdateLayout

def size : Nat := 22
def hasPriceFlag : UInt8 := 0x01

end BookUpdateLayout

structure DecodedHeader where
  encodedMessageType : UInt16
  sequence : UInt64

variable (endian : Endian)

/-! ## Encoding -/

def encodeHeader (type : MessageType) (sequence : UInt64) : List UInt8 :=
  endian.word.write HeaderLayout.signature ++ endian.half.write protocolVersion ++
    endian.half.write type.encoded ++ endian.long.write sequence

def encodeSide : Side → Except Fault UInt8
  | .buy => .ok 0
  | .sell => .ok 1
  | .unnamed _ => .error (.invalidArgument "book update has an invalid side")

def encodeBookUpdate (update : BookUpdate) (sequence : UInt64) : Except Fault (List UInt8) :=
  if update.instrument.value = 0 then
    .error (.invalidArgument "book update symbol id must be non-zero")
  else
    match encodeSide update.direction with
    | .error fault => .error fault
    | .ok encodedSide =>
      if update.bestPrice = some 0 then
        .error (.invalidArgument "book update price must be positive")
      else if update.bestPrice.isSome ≠ decide (0 < update.aggregateSize) then
        .error (.invalidArgument "book update must pair a price with positive aggregate size")
      else
        .ok (encodeHeader endian .bookUpdated sequence ++ (endian.byte.write encodedSide ++
          (endian.byte.write (if update.bestPrice.isSome then BookUpdateLayout.hasPriceFlag else 0) ++
          (endian.long.write (update.bestPrice.getD 0) ++
          (endian.long.write update.aggregateSize ++
          endian.word.write update.instrument.value)))))

def encode (value : Packet) : Except Fault (List UInt8) :=
  if value.sequence = 0 then .error (.invalidArgument "market-data sequence must be positive")
  else encodeBookUpdate endian value.payload value.sequence

/-! ## Decoding -/

def decodeHeader (bytes : List UInt8) : Except DecodeError DecodedHeader :=
  if bytes.length < HeaderLayout.size then .error .headerTruncated
  else
    let source := bytes.take HeaderLayout.size
    let (signature, source) := endian.word.readAndAdvance source
    if signature ≠ HeaderLayout.signature then .error .invalidSignature
    else
      let (version, source) := endian.half.readAndAdvance source
      if version ≠ protocolVersion then .error .unsupportedVersion
      else
        let (encodedMessageType, source) := endian.half.readAndAdvance source
        let (sequence, _) := endian.long.readAndAdvance source
        if sequence = 0 then .error .invalidSequence
        else .ok { encodedMessageType, sequence }

def decodeSide (encodedSide : UInt8) : Except DecodeError Side :=
  if encodedSide = 0 then .ok .buy
  else if encodedSide = 1 then .ok .sell
  else .error .invalidSide

def decodeBookUpdate (body : List UInt8) (sequence : UInt64) : Except DecodeError Packet :=
  if body.length < BookUpdateLayout.size then .error .bodyTruncated
  else if body.length ≠ BookUpdateLayout.size then .error .bodyLengthMismatch
  else
    let (encodedSide, source) := endian.byte.readAndAdvance body
    match decodeSide encodedSide with
    | .error error => .error error
    | .ok direction =>
      let (encodedFlags, source) := endian.byte.readAndAdvance source
      if encodedFlags &&& ~~~BookUpdateLayout.hasPriceFlag ≠ 0 then .error .invalidFlags
      else
        let hasPrice := decide (encodedFlags &&& BookUpdateLayout.hasPriceFlag ≠ 0)
        let (encodedPrice, source) := endian.long.readAndAdvance source
        if hasPrice ≠ decide (0 < encodedPrice) then .error .invalidBookState
        else
          let bestPrice := if hasPrice then some encodedPrice else none
          let (aggregateSize, source) := endian.long.readAndAdvance source
          if hasPrice ≠ decide (0 < aggregateSize) then .error .invalidBookState
          else
            let (instrument, _) := endian.word.readAndAdvance source
            if instrument = 0 then .error .invalidSymbol
            else .ok { sequence, payload :=
              { instrument := ⟨instrument⟩, direction, bestPrice, aggregateSize } }

def decode (bytes : List UInt8) : Except DecodeError Packet :=
  match decodeHeader endian bytes with
  | .error error => .error error
  | .ok header =>
    let body := bytes.drop HeaderLayout.size
    if header.encodedMessageType = MessageType.bookUpdated.encoded then
      decodeBookUpdate endian body header.sequence
    else .error .unknownMessageType

/-! ## Canonical packets -/

/-- A populated side has a positive price and a positive size, an empty one neither. -/
def BookUpdate.Canonical (update : BookUpdate) : Prop :=
  update.instrument.value ≠ 0 ∧ (update.direction = .buy ∨ update.direction = .sell) ∧
    match update.bestPrice with
    | some price => 0 < price ∧ 0 < update.aggregateSize
    | none => update.aggregateSize = 0

def Packet.Canonical (packet : Packet) : Prop := packet.sequence ≠ 0 ∧ packet.payload.Canonical

end MarketLab.MarketData

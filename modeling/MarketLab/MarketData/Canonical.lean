import MarketLab.MarketData.Codec

/-!
# Canonical packets are the accepted strings

Every string of a packet's length is the writing of some field values, so `decode` need
only be understood on such strings. There its checks and those of `encode` are the same.
-/
namespace MarketLab.MarketData
open MarketLab.Wire

variable (endian : Endian)

/-! ## Field by field -/

def headerBytes (signature : UInt32) (version type : UInt16) (sequence : UInt64) : List UInt8 :=
  endian.word.write signature ++ (endian.half.write version ++
    (endian.half.write type ++ endian.long.write sequence))

def bodyBytes (side flags : UInt8) (price size : UInt64) (instrument : UInt32) : List UInt8 :=
  endian.byte.write side ++ (endian.byte.write flags ++ (endian.long.write price ++
    (endian.long.write size ++ endian.word.write instrument)))

theorem encodeHeader_eq (type : MessageType) (sequence : UInt64) :
    encodeHeader endian type sequence =
      headerBytes endian HeaderLayout.signature protocolVersion type.encoded sequence := by
  simp only [encodeHeader, headerBytes, List.append_assoc]

theorem length_headerBytes (signature : UInt32) (version type : UInt16) (sequence : UInt64) :
    (headerBytes endian signature version type sequence).length = HeaderLayout.size := by
  simp only [headerBytes, List.length_append, FixedWidth.length_write, HeaderLayout.size]

theorem length_bodyBytes (side flags : UInt8) (price size : UInt64) (instrument : UInt32) :
    (bodyBytes endian side flags price size instrument).length = BookUpdateLayout.size := by
  simp only [bodyBytes, List.length_append, FixedWidth.length_write, BookUpdateLayout.size]

theorem exists_headerBytes {bytes : List UInt8} (enough : HeaderLayout.size ≤ bytes.length) :
    ∃ signature version type sequence body,
      bytes = headerBytes endian signature version type sequence ++ body := by
  rw [HeaderLayout.size] at enough
  obtain ⟨signature, rest, rfl, left⟩ :=
    endian.word.exists_write bytes (by omega)
  obtain ⟨version, rest, rfl, left⟩ := endian.half.exists_write rest (by omega)
  obtain ⟨type, rest, rfl, left⟩ := endian.half.exists_write rest (by omega)
  obtain ⟨sequence, body, rfl, -⟩ := endian.long.exists_write rest (by omega)
  refine ⟨signature, version, type, sequence, body, ?_⟩
  simp only [headerBytes, List.append_assoc]

theorem exists_bodyBytes {body : List UInt8} (exact : body.length = BookUpdateLayout.size) :
    ∃ side flags price size instrument, body = bodyBytes endian side flags price size instrument := by
  rw [BookUpdateLayout.size] at exact
  obtain ⟨side, rest, rfl, left⟩ := endian.byte.exists_write body (by omega)
  obtain ⟨flags, rest, rfl, left⟩ := endian.byte.exists_write rest (by omega)
  obtain ⟨price, rest, rfl, left⟩ := endian.long.exists_write rest (by omega)
  obtain ⟨size, rest, rfl, left⟩ := endian.long.exists_write rest (by omega)
  obtain ⟨instrument, rest, rfl, left⟩ := endian.word.exists_write rest (by omega)
  obtain rfl : rest = [] := List.eq_nil_of_length_eq_zero (by omega)
  exact ⟨side, flags, price, size, instrument, by rw [List.append_nil, bodyBytes]⟩

theorem decodeHeader_headerBytes (signature : UInt32) (version type : UInt16) (sequence : UInt64)
    (body : List UInt8) :
    decodeHeader endian (headerBytes endian signature version type sequence ++ body) =
      if signature ≠ HeaderLayout.signature then .error .invalidSignature
      else if version ≠ protocolVersion then .error .unsupportedVersion
      else if sequence = 0 then .error .invalidSequence
      else .ok { encodedMessageType := type, sequence } := by
  have length := length_headerBytes endian signature version type sequence
  have enough : ¬(headerBytes endian signature version type sequence ++ body).length <
      HeaderLayout.size := by
    rw [List.length_append]
    omega
  rw [decodeHeader, if_neg enough, List.take_left' length]
  simp only [headerBytes, FixedWidth.readAndAdvance_write, FixedWidth.readAndAdvance_write_last]

/-- What `decode` checks once the lengths are right. -/
def decodeFields (sequence : UInt64) (side flags : UInt8) (price size : UInt64)
    (instrument : UInt32) : Except DecodeError Packet :=
  match decodeSide side with
  | .error error => .error error
  | .ok direction =>
    if flags &&& ~~~BookUpdateLayout.hasPriceFlag ≠ 0 then .error .invalidFlags
    else
      let hasPrice := decide (flags &&& BookUpdateLayout.hasPriceFlag ≠ 0)
      if hasPrice ≠ decide (0 < price) then .error .invalidBookState
      else if hasPrice ≠ decide (0 < size) then .error .invalidBookState
      else if instrument = 0 then .error .invalidSymbol
      else .ok { sequence, payload :=
        { instrument := ⟨instrument⟩, direction, aggregateSize := size,
          bestPrice := if hasPrice then some price else none } }

theorem decodeBookUpdate_bodyBytes (sequence : UInt64) (side flags : UInt8) (price size : UInt64)
    (instrument : UInt32) :
    decodeBookUpdate endian (bodyBytes endian side flags price size instrument) sequence =
      decodeFields sequence side flags price size instrument := by
  have length := length_bodyBytes endian side flags price size instrument
  rw [decodeBookUpdate, if_neg (by omega), if_neg (by omega)]
  simp only [bodyBytes, FixedWidth.readAndAdvance_write, FixedWidth.readAndAdvance_write_last]
  rfl

/-! ## The two lists of checks -/

/-- Which one-byte code stands for a side. -/
theorem encodeSide_eq_ok {direction : Side} {side : UInt8} :
    encodeSide direction = .ok side ↔ decodeSide side = .ok direction := by
  constructor
  · intro encoded
    cases direction with
    | buy => cases encoded; rfl
    | sell => cases encoded; rfl
    | unnamed underlying => cases encoded
  · intro decoded
    rw [decodeSide] at decoded
    split at decoded
    next zero => cases decoded; rw [zero]; rfl
    split at decoded
    next one => cases decoded; rw [one]; rfl
    next => cases decoded

theorem encodeSide_named {direction : Side} :
    (∃ side, encodeSide direction = .ok side) ↔ direction = .buy ∨ direction = .sell := by
  cases direction with
  | buy => exact ⟨fun _ => .inl rfl, fun _ => ⟨0, rfl⟩⟩
  | sell => exact ⟨fun _ => .inr rfl, fun _ => ⟨1, rfl⟩⟩
  | unnamed underlying =>
    constructor
    · rintro ⟨side, encoded⟩
      cases encoded
    · rintro (buy | sell)
      · cases buy
      · cases sell

/-- Of the flag bits only the price bit may be set. -/
theorem flags_cases {flags : UInt8} (defined : flags &&& ~~~BookUpdateLayout.hasPriceFlag = 0) :
    flags = 0 ∨ flags = BookUpdateLayout.hasPriceFlag := by
  have bits : ∀ bits : BitVec 8, bits &&& ~~~(1#8) = 0#8 → bits = 0#8 ∨ bits = 1#8 := by decide
  have known := bits flags.toBitVec (congrArg UInt8.toBitVec defined)
  exact known.imp (fun zero => UInt8.toBitVec_inj.mp zero) (fun one => UInt8.toBitVec_inj.mp one)

def BookUpdate.flags (update : BookUpdate) : UInt8 :=
  if update.bestPrice.isSome then BookUpdateLayout.hasPriceFlag else 0

def BookUpdate.body (update : BookUpdate) (side : UInt8) : List UInt8 :=
  bodyBytes endian side update.flags (update.bestPrice.getD 0) update.aggregateSize
    update.instrument.value

theorem encodeBookUpdate_canonical {update : BookUpdate} (canonical : update.Canonical)
    (sequence : UInt64) : ∃ side, encodeSide update.direction = .ok side ∧
      encodeBookUpdate endian update sequence =
        .ok (encodeHeader endian .bookUpdated sequence ++ update.body endian side) := by
  obtain ⟨instrument, named, paired⟩ := canonical
  obtain ⟨side, encoded⟩ := encodeSide_named.mpr named
  refine ⟨side, encoded, ?_⟩
  rw [encodeBookUpdate, if_neg instrument, encoded]
  cases best : update.bestPrice with
  | none =>
    rw [best] at paired
    simp only [BookUpdate.body, bodyBytes, BookUpdate.flags, best, paired]
    rfl
  | some price =>
    rw [best] at paired
    have positive : ¬some price = some 0 := fun zero => by
      rw [Option.some.inj zero] at paired
      exact absurd paired.1 (UInt64.lt_irrefl 0)
    have together : ¬(some price).isSome ≠ decide (0 < update.aggregateSize) := by
      rw [decide_eq_true paired.2]
      exact fun differ => differ rfl
    simp only [if_neg positive, if_neg together, BookUpdate.body, bodyBytes, BookUpdate.flags, best]

theorem encodeBookUpdate_refused {update : BookUpdate} (refused : ¬update.Canonical)
    (sequence : UInt64) :
    ∃ what, encodeBookUpdate endian update sequence = .error (.invalidArgument what) := by
  rw [encodeBookUpdate]
  split
  next => exact ⟨_, rfl⟩
  next instrument =>
    cases encoded : encodeSide update.direction with
    | error fault =>
      cases direction : update.direction with
      | buy => rw [direction] at encoded; cases encoded
      | sell => rw [direction] at encoded; cases encoded
      | unnamed underlying =>
        rw [direction] at encoded
        cases encoded
        exact ⟨_, rfl⟩
    | ok side =>
      have named := encodeSide_named.mp ⟨side, encoded⟩
      simp only
      split
      next => exact ⟨_, rfl⟩
      next positive =>
        split
        next => exact ⟨_, rfl⟩
        next together =>
          refine absurd ⟨instrument, named, ?_⟩ refused
          have together := not_not.mp together
          cases best : update.bestPrice with
          | none =>
            rw [best] at together
            have zero : ¬0 < update.aggregateSize := of_decide_eq_false together.symm
            exact UInt64.le_zero_iff.mp (UInt64.not_lt.mp zero)
          | some price =>
            rw [best] at positive together
            have nonzero : price ≠ 0 := fun zero => positive (congrArg some zero)
            exact ⟨UInt64.pos_iff_ne_zero.mpr nonzero, of_decide_eq_true together.symm⟩

theorem decodeFields_body {update : BookUpdate} (canonical : update.Canonical) {side : UInt8}
    (encoded : encodeSide update.direction = .ok side) (sequence : UInt64) :
    decodeFields sequence side update.flags (update.bestPrice.getD 0) update.aggregateSize
      update.instrument.value = .ok { sequence, payload := update } := by
  obtain ⟨instrument, -, paired⟩ := canonical
  obtain ⟨symbol, direction, bestPrice, size⟩ := update
  rw [decodeFields, encodeSide_eq_ok.mp encoded]
  cases bestPrice with
  | none =>
    obtain rfl : size = 0 := paired
    simp [BookUpdate.flags, instrument]
  | some price =>
    obtain ⟨pricePositive, sizePositive⟩ : 0 < price ∧ 0 < size := paired
    simp [BookUpdate.flags, BookUpdateLayout.hasPriceFlag, pricePositive, sizePositive, instrument]

theorem decodeFields_accepted {sequence : UInt64} {side flags : UInt8} {price size : UInt64}
    {instrument : UInt32} {packet : Packet}
    (decoded : decodeFields sequence side flags price size instrument = .ok packet) :
    packet.sequence = sequence ∧ packet.payload.Canonical ∧
      encodeSide packet.payload.direction = .ok side ∧
      packet.payload.body endian side = bodyBytes endian side flags price size instrument := by
  rw [decodeFields] at decoded
  cases direction : decodeSide side with
  | error error => rw [direction] at decoded; cases decoded
  | ok direction' =>
    rw [direction] at decoded
    simp only at decoded
    split at decoded
    next => cases decoded
    next defined =>
      split at decoded
      next => cases decoded
      next priced =>
        split at decoded
        next => cases decoded
        next sized =>
          split at decoded
          next => cases decoded
          next nonzero =>
            cases decoded
            have encoded := encodeSide_eq_ok.mpr direction
            have named := encodeSide_named.mp ⟨side, encoded⟩
            rcases flags_cases (not_not.mp defined) with rfl | rfl
            · have noPrice : price = 0 := UInt64.le_zero_iff.mp
                (UInt64.not_lt.mp (of_decide_eq_false (not_not.mp priced).symm))
              have noSize : size = 0 := UInt64.le_zero_iff.mp
                (UInt64.not_lt.mp (of_decide_eq_false (not_not.mp sized).symm))
              refine ⟨rfl, ⟨nonzero, named, noSize⟩, encoded, ?_⟩
              rw [noPrice]
              rfl
            · have pricePositive : 0 < price := of_decide_eq_true (not_not.mp priced).symm
              have sizePositive : 0 < size := of_decide_eq_true (not_not.mp sized).symm
              exact ⟨rfl, ⟨nonzero, named, pricePositive, sizePositive⟩, encoded, rfl⟩

/-! ## Whole packets -/

theorem encode_canonical {packet : Packet} (canonical : packet.Canonical) :
    ∃ side, encodeSide packet.payload.direction = .ok side ∧ encode endian packet =
      .ok (encodeHeader endian .bookUpdated packet.sequence ++ packet.payload.body endian side) := by
  obtain ⟨side, encoded, written⟩ :=
    encodeBookUpdate_canonical endian canonical.2 packet.sequence
  exact ⟨side, encoded, (if_neg canonical.1).trans written⟩

theorem encode_refused {packet : Packet} (refused : ¬packet.Canonical) :
    ∃ what, encode endian packet = .error (.invalidArgument what) := by
  rw [encode]
  split
  next => exact ⟨_, rfl⟩
  next sequence =>
    exact encodeBookUpdate_refused endian (fun canonical => refused ⟨sequence, canonical⟩) _

theorem canonical_of_encode {packet : Packet} {bytes : List UInt8}
    (encoded : encode endian packet = .ok bytes) : packet.Canonical := by
  by_contra refused
  obtain ⟨what, error⟩ := encode_refused endian refused
  rw [error] at encoded
  cases encoded

theorem decode_encode {packet : Packet} {bytes : List UInt8}
    (encoded : encode endian packet = .ok bytes) : decode endian bytes = .ok packet := by
  have canonical := canonical_of_encode endian encoded
  obtain ⟨side, code, written⟩ := encode_canonical endian canonical
  rw [encoded] at written
  obtain rfl := Except.ok.inj written
  have length := length_headerBytes endian HeaderLayout.signature protocolVersion
    MessageType.bookUpdated.encoded packet.sequence
  rw [encodeHeader_eq, decode, decodeHeader_headerBytes, if_neg (not_not.mpr rfl),
    if_neg (not_not.mpr rfl), if_neg canonical.1]
  simp only [if_true]
  rw [List.drop_left' length, BookUpdate.body, decodeBookUpdate_bodyBytes]
  exact decodeFields_body canonical.2 code packet.sequence

theorem encode_decode {packet : Packet} {bytes : List UInt8}
    (decoded : decode endian bytes = .ok packet) : encode endian packet = .ok bytes := by
  rcases Nat.lt_or_ge bytes.length HeaderLayout.size with short | enough
  · rw [decode, decodeHeader, if_pos short] at decoded
    cases decoded
  obtain ⟨signature, version, type, sequence, body, rfl⟩ := exists_headerBytes endian enough
  have length := length_headerBytes endian signature version type sequence
  rw [decode, decodeHeader_headerBytes] at decoded
  by_cases signed : signature ≠ HeaderLayout.signature
  · rw [if_pos signed] at decoded
    cases decoded
  by_cases versioned : version ≠ protocolVersion
  · rw [if_neg signed, if_pos versioned] at decoded
    cases decoded
  by_cases zero : sequence = 0
  · rw [if_neg signed, if_neg versioned, if_pos zero] at decoded
    cases decoded
  rw [if_neg signed, if_neg versioned, if_neg zero] at decoded
  simp only [List.drop_left' length] at decoded
  split at decoded
  next typed =>
    rcases Nat.lt_trichotomy body.length BookUpdateLayout.size with short | exact | long
    · rw [decodeBookUpdate, if_pos short] at decoded
      cases decoded
    · obtain ⟨side, flags, price, size, instrument, rfl⟩ := exists_bodyBytes endian exact
      rw [decodeBookUpdate_bodyBytes] at decoded
      obtain ⟨same, canonical, code, body⟩ := decodeFields_accepted endian decoded
      obtain ⟨side', code', written⟩ := encode_canonical endian
        (show packet.Canonical from ⟨same ▸ zero, canonical⟩)
      obtain rfl := Except.ok.inj (code.symm.trans code')
      rw [written, body, encodeHeader_eq, same, not_not.mp signed, not_not.mp versioned, typed]
    · rw [decodeBookUpdate, if_neg (by omega), if_pos (by omega)] at decoded
      cases decoded
  next => cases decoded

theorem length_encode {packet : Packet} {bytes : List UInt8}
    (encoded : encode endian packet = .ok bytes) :
    bytes.length = HeaderLayout.size + BookUpdateLayout.size := by
  have canonical := canonical_of_encode endian encoded
  obtain ⟨side, -, written⟩ := encode_canonical endian canonical
  obtain rfl := Except.ok.inj (encoded.symm.trans written)
  rw [List.length_append, encodeHeader_eq, length_headerBytes, BookUpdate.body, length_bodyBytes]

theorem decode_rejects {bytes : List UInt8} (other : ∀ packet, encode endian packet ≠ .ok bytes) :
    ∃ error, decode endian bytes = .error error := by
  cases decoded : decode endian bytes with
  | error error => exact ⟨error, rfl⟩
  | ok packet => exact absurd (encode_decode endian decoded) (other packet)

/-- The strings `decode` accepts are the encodings of the canonical packets, one each. -/
theorem codec_bijective (endian : Endian) :
    (∀ packet, (∃ what, encode endian packet = .error (.invalidArgument what)) ↔
      ¬packet.Canonical) ∧
    (∀ packet, packet.Canonical →
      ∃ bytes, encode endian packet = .ok bytes ∧ decode endian bytes = .ok packet) ∧
    (∀ bytes packet, decode endian bytes = .ok packet →
      packet.Canonical ∧ encode endian packet = .ok bytes) ∧
    (∀ first second packet, decode endian first = .ok packet →
      decode endian second = .ok packet → first = second) ∧
    (∀ bytes, (∀ packet, encode endian packet ≠ .ok bytes) →
      ∃ error, decode endian bytes = .error error) ∧
    (∀ packet bytes other, encode endian packet = .ok bytes → other ≠ bytes →
      other <+: bytes ∨ bytes <+: other → ∃ error, decode endian other = .error error) := by
  refine ⟨fun packet => ⟨?_, fun refused => encode_refused endian refused⟩, fun packet canonical => ?_,
    fun bytes packet decoded => ?_, fun first second packet firstDecoded secondDecoded => ?_,
    fun bytes other => decode_rejects endian other, fun packet bytes other encoded differ related => ?_⟩
  · rintro ⟨what, error⟩ canonical
    obtain ⟨side, -, written⟩ := encode_canonical endian canonical
    rw [error] at written
    cases written
  · obtain ⟨side, -, written⟩ := encode_canonical endian canonical
    exact ⟨_, written, decode_encode endian written⟩
  · have encoded := encode_decode endian decoded
    exact ⟨canonical_of_encode endian encoded, encoded⟩
  · have firstEncoded := encode_decode endian firstDecoded
    have secondEncoded := encode_decode endian secondDecoded
    exact Except.ok.inj (firstEncoded.symm.trans secondEncoded)
  · refine decode_rejects endian (fun packet' encoded' => differ ?_)
    have length := length_encode endian encoded
    have length' := length_encode endian encoded'
    rcases related with shorter | longer
    · exact shorter.eq_of_length (length'.trans length.symm)
    · exact (longer.eq_of_length (length.trans length'.symm)).symm

/-- The documented packet is written in network byte order, and read from these bytes only. -/
theorem codec_bijective_in_network_order :
    let packet : Packet := { sequence := 42, payload :=
      { instrument := ⟨1⟩, direction := .buy, bestPrice := some 101, aggregateSize := 7 } }
    ∃ bytes, encode networkOrder packet = .ok bytes ∧
      ∀ other, decode networkOrder other = .ok packet ↔ other = bytes := by
  intro packet
  have canonical : packet.Canonical := ⟨by decide, by decide, .inl rfl, by decide, by decide⟩
  obtain ⟨-, written, -, unique, -⟩ := codec_bijective networkOrder
  obtain ⟨bytes, encoded, decoded⟩ := written packet canonical
  refine ⟨bytes, encoded, fun other => ⟨fun read => unique other bytes packet read decoded, ?_⟩⟩
  rintro rfl
  exact decoded

/-- The documented packet: a buy side at price 101, size 7, of instrument 1. -/
example : encode networkOrder { sequence := 42, payload :=
      { instrument := ⟨1⟩, direction := .buy, bestPrice := some 101, aggregateSize := 7 } } =
    .ok [0x4f, 0x42, 0x5a, 0x4d, 0, 2, 0, 1, 0, 0, 0, 0, 0, 0, 0, 42, 0, 1, 0, 0, 0, 0, 0, 0, 0, 101,
      0, 0, 0, 0, 0, 0, 0, 7, 0, 0, 0, 1] := by
  rfl

end MarketLab.MarketData

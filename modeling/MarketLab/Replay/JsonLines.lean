import MarketLab.Matching.Runs
import MarketLab.Replay.JsonlWriter
import MarketLab.Text.JsonReader

/-!
# JSON lines read back

What the writer writes is the printed JSON object of its record and a line feed, and a reader of
JSON gets the record back, up to which unnamed side a book update had.
-/
namespace MarketLab.Replay
open MarketLab.Text
open MarketLab.Matching (SymbolId OrderKey Price Quantity Side Event Command History Ladder
  Aggression Market RestingOrder OrderBookSnapshot PriceLevelSnapshot)

/-- What one call of the writer writes. -/
inductive Record where
  | event (emitted : EmittedEvent)
  | snapshot (snapshot : Option OrderBookSnapshot)
  deriving DecidableEq, Repr

def writeRecord : Record → Bytes
  | .event emitted => writeEvent emitted
  | .snapshot snapshot => writeSnapshot snapshot

def writeRecords (records : List Record) : Bytes := records.flatMap writeRecord

/-! ## Records as JSON -/

def numberJson (n : Nat) : Json := .number ⟨decimal n, Json.decimal_mem_numeric n⟩

def member (name : String) (value : Json) : Bytes × Json := (ascii name, value)

def keyJson (key : OrderKey) : Json :=
  .object [member "user" (numberJson key.user.value.toNat),
    member "client_order" (numberJson key.clientOrder.value.toNat)]

def priceJson : Option Price → Json
  | some value => numberJson value.value.toNat
  | none => .null

def levelJson (level : PriceLevelSnapshot) : Json :=
  .object [member "price" (numberJson level.levelPrice.value.toNat),
    member "total_size" (numberJson level.totalSize.toNat)]

/-- An object that names its kind first. -/
def typed (kind : String) (members : List (Bytes × Json)) : Json :=
  .object (member "type" (.string (ascii kind)) :: members)

def eventJson : EmittedEvent → Json
  | .submitAccepted key => typed "submit_accepted" [member "key" (keyJson key)]
  | .submitRejected key reason =>
    typed "submit_rejected" [member "key" (keyJson key), member "reason" (.string reason)]
  | .updateAccepted key => typed "update_accepted" [member "key" (keyJson key)]
  | .updateRejected key reason =>
    typed "update_rejected" [member "key" (keyJson key), member "reason" (.string reason)]
  | .cancelRejected key reason =>
    typed "cancel_rejected" [member "key" (keyJson key), member "reason" (.string reason)]
  | .orderCancelled key => typed "order_cancelled" [member "key" (keyJson key)]
  | .tradeExecuted aggressor resting instrument executionPrice executedSize =>
    typed "trade_executed" [member "aggressor" (keyJson aggressor),
      member "resting" (keyJson resting),
      member "instrument_id" (numberJson instrument.value.toNat),
      member "price" (numberJson executionPrice.value.toNat),
      member "size" (numberJson executedSize.value.toNat)]
  | .bookUpdated instrument direction bestPrice totalSize =>
    typed "book_updated" [member "instrument_id" (numberJson instrument.value.toNat),
      member "side" (.string (sideToString direction)), member "best_price" (priceJson bestPrice),
      member "total_size" (numberJson totalSize.toNat)]

def snapshotJson : Option OrderBookSnapshot → Json
  | none => .null
  | some snapshot =>
    .object [member "instrument_id" (numberJson snapshot.instrument.value.toNat),
      member "bids" (.array (snapshot.bids.map levelJson)),
      member "asks" (.array (snapshot.asks.map levelJson))]

def recordJson : Record → Json
  | .event emitted => eventJson emitted
  | .snapshot snapshot => typed "snapshot" [member "snapshot" (snapshotJson snapshot)]

/-! ## What is written is printed -/

abbrev printJson : Json → Bytes := Json.print writeJsonChar

theorem writeJsonString_eq (text : Bytes) : writeJsonString text = printJson (.string text) := rfl

theorem writePrice_eq (price : Option Price) : writePrice price = printJson (priceJson price) := by
  cases price <;> rfl

theorem writeKey_eq (key : OrderKey) : writeKey key = printJson (keyJson key) := by
  simp only [writeKey, keyJson, printJson, Json.print, Json.printMembers, numberJson, member,
    ascii, String.reduceToList, List.append_assoc, List.cons_append, List.nil_append]
  rfl

theorem writePriceLevel_eq (level : PriceLevelSnapshot) (index : Nat) :
    writePriceLevel level index =
      (if index ≠ 0 then ascii "," else []) ++ printJson (levelJson level) := by
  simp only [writePriceLevel, levelJson, printJson, Json.print, Json.printMembers, numberJson,
    member, ascii, String.reduceToList, List.append_assoc, List.cons_append, List.nil_append]
  rfl

theorem writePriceLevels_behind (levels : List PriceLevelSnapshot) (index : Nat) :
    (levels.zipIdx (index + 1)).flatMap (fun entry => writePriceLevel entry.1 entry.2) =
      Json.printItems writeJsonChar (levels.map levelJson) := by
  induction levels generalizing index with
  | nil => rfl
  | cons level levels ih =>
    rw [List.zipIdx_cons, List.flatMap_cons, ih, writePriceLevel_eq,
      if_pos (Nat.succ_ne_zero index)]
    rfl

theorem writePriceLevels_eq (levels : List PriceLevelSnapshot) :
    writePriceLevels levels = printJson (.array (levels.map levelJson)) := by
  cases levels with
  | nil => rfl
  | cons level levels =>
    unfold writePriceLevels
    rw [List.zipIdx_cons, List.flatMap_cons, writePriceLevels_behind, writePriceLevel_eq,
      if_neg (not_not.mpr rfl), List.map_cons]
    simp only [printJson, Json.print, List.append_assoc, List.cons_append, List.nil_append]
    rfl

theorem writeEvent_eq (emitted : EmittedEvent) :
    writeEvent emitted = printJson (eventJson emitted) ++ ascii "\n" := by
  cases emitted <;>
    simp only [writeEvent, eventJson, typed, writeKey_eq, writePrice_eq, writeJsonString_eq,
      printJson, Json.print, Json.printMembers, numberJson, member, ascii, String.reduceToList,
      List.append_assoc, List.cons_append, List.nil_append] <;> rfl

/-- The rejection of the writer's own test. -/
example : writeEvent (.submitRejected ⟨⟨1⟩, ⟨10⟩⟩ (ascii "bad \"order\"\nreason\x01")) =
    ascii ("\x7b\"type\":\"submit_rejected\",\"key\":\x7b\"user\":1,\"client_order\":10\x7d," ++
      "\"reason\":\"bad \\\"order\\\"\\nreason\\u0001\"\x7d\n") := by
  decide +kernel

theorem writeSnapshot_eq (snapshot : Option OrderBookSnapshot) :
    writeSnapshot snapshot = printJson (recordJson (.snapshot snapshot)) ++ ascii "\n" := by
  cases snapshot with
  | none => rfl
  | some snapshot =>
    simp only [writeSnapshot, recordJson, snapshotJson, typed, writePriceLevels_eq, printJson,
      Json.print, Json.printMembers, numberJson, member, ascii, String.reduceToList,
      List.append_assoc, List.cons_append, List.nil_append]
    rfl

/-- A record is written as its JSON object and a line feed. -/
theorem writeRecord_eq (record : Record) :
    writeRecord record = printJson (recordJson record) ++ ascii "\n" := by
  cases record with
  | event emitted => exact writeEvent_eq emitted
  | snapshot snapshot => exact writeSnapshot_eq snapshot

/-! ## The characters of strings -/

theorem control_escape : ∀ n < 32,
    Json.codeUnit [48, 48, hexDigit (UInt8.ofNat n >>> 4), hexDigit (UInt8.ofNat n &&& 0x0f)] =
      some n ∧ Json.utf8 n = [UInt8.ofNat n] := by decide +kernel

theorem printable_writeJsonChar :
    ∀ n < 256, (writeJsonChar (UInt8.ofNat n)).all (32 ≤ ·) = true := by decide +kernel

theorem spells_writeJsonChar : Json.Spells writeJsonChar where
  character c text contents rest more := by
    unfold writeJsonChar
    split_ifs with h1 h2 h3 h4 h5 h6 h7 control
    · exact .letter (by rw [h1]; rfl) more
    · exact .letter (by rw [h2]; rfl) more
    · exact .letter (by rw [h3]; rfl) more
    · exact .letter (by rw [h4]; rfl) more
    · exact .letter (by rw [h5]; rfl) more
    · exact .letter (by rw [h6]; rfl) more
    · exact .letter (by rw [h7]; rfl) more
    · obtain ⟨stands, denoted⟩ := control_escape c.toNat (UInt8.lt_iff_toNat_lt.mp control)
      rw [UInt8.ofNat_toNat] at stands denoted
      have unit := Json.Characters.unit stands more
      rw [denoted] at unit
      exact unit
    · exact .plain (UInt8.not_lt.mp control) h1 h2 more
  printable c b written := by
    have printable := printable_writeJsonChar c.toNat c.toNat_lt
    rw [UInt8.ofNat_toNat] at printable
    exact forall_mem_of_all printable b written

/-! ## Reading back -/

def field (name : String) : Json → Option Json
  | .object members => members.lookup (ascii name)
  | _ => none

def readText : Json → Option Bytes
  | .string contents => some contents
  | _ => none

def readUnsigned : Json → Option UInt64
  | .number spelling => do
    let (value, used) ← fromChars spelling.1
    if used = spelling.1.length then return value else none
  | _ => none

def readInstrument (json : Json) : Option SymbolId := do
  let value ← readUnsigned json
  if value.toUInt32.toUInt64 = value then return ⟨value.toUInt32⟩ else none

def readPrice (json : Json) : Option Price := do
  let value ← readUnsigned json
  if positive : value ≠ 0 then return ⟨value, positive⟩ else none

def readBestPrice : Json → Option (Option Price)
  | .null => some none
  | json => (readPrice json).map some

/-- The side that stands for all unnamed ones. -/
def unknownSide : Side := .unnamed ⟨2, by decide⟩

def readSide (json : Json) : Option Side := do
  let text ← readText json
  if text = ascii "buy" then return .buy
  else if text = ascii "sell" then return .sell
  else if text = ascii "unknown" then return unknownSide
  else none

def readKey (json : Json) : Option OrderKey := do
  let user ← readUnsigned (← field "user" json)
  let clientOrder ← readUnsigned (← field "client_order" json)
  return ⟨⟨user⟩, ⟨clientOrder⟩⟩

def readLevel (json : Json) : Option PriceLevelSnapshot := do
  let levelPrice ← readPrice (← field "price" json)
  let totalSize ← readUnsigned (← field "total_size" json)
  return { levelPrice, totalSize }

def readLevels : Json → Option (List PriceLevelSnapshot)
  | .array items => items.mapM readLevel
  | _ => none

def readSnapshot : Json → Option (Option OrderBookSnapshot)
  | .null => some none
  | json => do
    let instrument ← readInstrument (← field "instrument_id" json)
    let bids ← readLevels (← field "bids" json)
    let asks ← readLevels (← field "asks" json)
    return some { instrument, bids, asks }

def readKeyed (make : OrderKey → EmittedEvent) (json : Json) : Option Record := do
  let key ← readKey (← field "key" json)
  return .event (make key)

def readRejected (make : OrderKey → Bytes → EmittedEvent) (json : Json) : Option Record := do
  let key ← readKey (← field "key" json)
  let reason ← readText (← field "reason" json)
  return .event (make key reason)

def readTrade (json : Json) : Option Record := do
  let aggressor ← readKey (← field "aggressor" json)
  let resting ← readKey (← field "resting" json)
  let instrument ← readInstrument (← field "instrument_id" json)
  let executionPrice ← readPrice (← field "price" json)
  let executedSize ← readUnsigned (← field "size" json)
  return .event (.tradeExecuted aggressor resting instrument executionPrice ⟨executedSize⟩)

def readBookUpdate (json : Json) : Option Record := do
  let instrument ← readInstrument (← field "instrument_id" json)
  let direction ← readSide (← field "side" json)
  let bestPrice ← readBestPrice (← field "best_price" json)
  let totalSize ← readUnsigned (← field "total_size" json)
  return .event (.bookUpdated instrument direction bestPrice totalSize)

def readShown (json : Json) : Option Record := do
  let snapshot ← readSnapshot (← field "snapshot" json)
  return .snapshot snapshot

/-- How a record of each type is read. -/
def recordReaders : List (Bytes × (Json → Option Record)) :=
  [(ascii "submit_accepted", readKeyed .submitAccepted),
    (ascii "submit_rejected", readRejected .submitRejected),
    (ascii "update_accepted", readKeyed .updateAccepted),
    (ascii "update_rejected", readRejected .updateRejected),
    (ascii "cancel_rejected", readRejected .cancelRejected),
    (ascii "order_cancelled", readKeyed .orderCancelled),
    (ascii "trade_executed", readTrade),
    (ascii "book_updated", readBookUpdate),
    (ascii "snapshot", readShown)]

def readRecord (json : Json) : Option Record := do
  let reader ← recordReaders.lookup (← readText (← field "type" json))
  reader json

/-- The records of the lines of an output. -/
def readRecords (output : Bytes) : Option (List Record) :=
  (lines output).mapM fun line => do readRecord (← Json.read line)

/-! ## What is read -/

/-- The record with the side that its text names. -/
def Record.shown : Record → Record
  | .event (.bookUpdated instrument (.unnamed _) bestPrice totalSize) =>
    .event (.bookUpdated instrument unknownSide bestPrice totalSize)
  | record => record

@[simp] theorem field_self (name : String) (value : Json) (members : List (Bytes × Json)) :
    field name (.object (member name value :: members)) = some value := by
  simp [field, member]

theorem field_other {name other : String} (differs : ascii name ≠ ascii other) (value : Json)
    (members : List (Bytes × Json)) :
    field name (.object (member other value :: members)) = field name (.object members) := by
  have unequal : (ascii name == ascii other) = false := beq_eq_false_iff_ne.mpr differs
  simp [field, member, List.lookup_cons, unequal]

theorem mapM_map_some {α β γ : Type} {f : α → β} {g : β → Option γ} {h : α → γ}
    (each : ∀ a, g (f a) = some (h a)) (items : List α) :
    (items.map f).mapM g = some (items.map h) := by
  induction items with
  | nil => rfl
  | cons a items ih => simp [each, ih]

@[simp] theorem readUnsigned_numberJson (value : UInt64) :
    readUnsigned (numberJson value.toNat) = some value := by
  have numeral := (numeral_decimal value).fromChars
  simp [readUnsigned, numberJson, numeral]

@[simp] theorem readInstrument_numberJson (instrument : SymbolId) :
    readInstrument (numberJson instrument.value.toNat) = some instrument := by
  have wide := readUnsigned_numberJson instrument.value.toUInt64
  rw [UInt32.toNat_toUInt64] at wide
  simp [readInstrument, wide]

@[simp] theorem readPrice_numberJson (price : Price) :
    readPrice (numberJson price.value.toNat) = some price := by
  simp [readPrice, price.positive]

@[simp] theorem readBestPrice_priceJson (price : Option Price) :
    readBestPrice (priceJson price) = some price := by
  cases price with
  | none => rfl
  | some price =>
    change (readPrice (numberJson price.value.toNat)).map some = some (some price)
    rw [readPrice_numberJson]
    rfl

theorem readSide_sideToString (direction : Side) : readSide (.string (sideToString direction)) =
    some (match direction with | .unnamed _ => unknownSide | side => side) := by
  cases direction <;> rfl

@[simp] theorem readKey_keyJson (key : OrderKey) : readKey (keyJson key) = some key := by
  simp (disch := decide) [readKey, keyJson, field_other]

@[simp] theorem readLevel_levelJson (level : PriceLevelSnapshot) :
    readLevel (levelJson level) = some level := by
  simp (disch := decide) [readLevel, levelJson, field_other]

@[simp] theorem readLevels_levelJson (levels : List PriceLevelSnapshot) :
    readLevels (.array (levels.map levelJson)) = some levels := by
  rw [readLevels, mapM_map_some (h := id) readLevel_levelJson, List.map_id]

@[simp] theorem readSnapshot_snapshotJson (snapshot : Option OrderBookSnapshot) :
    readSnapshot (snapshotJson snapshot) = some snapshot := by
  cases snapshot with
  | none => rfl
  | some snapshot =>
    simp (disch := decide) [readSnapshot, snapshotJson, field_other]

theorem readRecord_typed {kind : String} {reader : Json → Option Record}
    (listed : recordReaders.lookup (ascii kind) = some reader) (members : List (Bytes × Json)) :
    readRecord (typed kind members) = reader (typed kind members) := by
  simp [readRecord, typed, readText, listed]

/-- A record is read back from its JSON object. -/
theorem readRecord_recordJson (record : Record) :
    readRecord (recordJson record) = some record.shown := by
  cases record with
  | snapshot snapshot =>
    refine (readRecord_typed rfl _).trans ?_
    simp (disch := decide) [readShown, typed, field_other, Record.shown]
  | event emitted =>
    cases emitted with
    | submitAccepted | updateAccepted | orderCancelled =>
      refine (readRecord_typed rfl _).trans ?_
      simp (disch := decide) [readKeyed, typed, field_other, Record.shown]
    | submitRejected | updateRejected | cancelRejected =>
      refine (readRecord_typed rfl _).trans ?_
      simp (disch := decide) [readRejected, typed, field_other, readText, Record.shown]
    | tradeExecuted =>
      refine (readRecord_typed rfl _).trans ?_
      simp (disch := decide) [readTrade, typed, field_other, Record.shown]
    | bookUpdated instrument direction bestPrice totalSize =>
      refine (readRecord_typed rfl _).trans ?_
      cases direction <;>
        simp (disch := decide) [readBookUpdate, typed, field_other, readSide_sideToString,
          Record.shown]

/-! ## Whole outputs -/

/-- The text of a record's line. -/
def lineOf (record : Record) : Bytes := printJson (recordJson record)

theorem printable_lineOf (record : Record) : Json.Printable (lineOf record) :=
  Json.printable_print spells_writeJsonChar (recordJson record)

theorem denotes_lineOf (record : Record) : Json.Denotes (lineOf record) (recordJson record) :=
  Json.denotes_print spells_writeJsonChar (recordJson record)

theorem recordJson_object (record : Record) : ∃ members, recordJson record = .object members := by
  cases record with
  | snapshot => exact ⟨_, rfl⟩
  | event emitted => cases emitted <;> exact ⟨_, rfl⟩

theorem writeRecords_eq (records : List Record) :
    writeRecords records = (records.map lineOf).flatMap (· ++ ascii "\n") := by
  rw [List.flatMap_map]
  exact List.flatMap_congr fun record _ => writeRecord_eq record

theorem lines_writeRecords (records : List Record) :
    lines (writeRecords records) = records.map lineOf := by
  induction records with
  | nil => rfl
  | cons record records ih =>
    have inside : 10 ∉ lineOf record := fun member =>
      absurd (printable_lineOf record 10 member) (by decide)
    have split : writeRecords (record :: records) =
        lineOf record ++ 10 :: writeRecords records := by
      rw [writeRecords, List.flatMap_cons, writeRecord_eq, List.append_assoc]
      rfl
    rw [split, lines_append inside, ih, List.map_cons]

/-- Reading an output gives the records it was written for. -/
theorem readRecords_writeRecords (records : List Record) :
    readRecords (writeRecords records) = some (records.map Record.shown) := by
  unfold readRecords
  rw [lines_writeRecords]
  refine mapM_map_some (fun record => ?_) records
  rw [Json.read_of_denotes (denotes_lineOf record)]
  exact readRecord_recordJson record

/-- A book update's side is one of the two. -/
def Record.Named : Record → Prop
  | .event (.bookUpdated _ (.unnamed _) _ _) => False
  | _ => True

theorem Record.Named.shown {record : Record} (named : record.Named) : record.shown = record := by
  cases record with
  | snapshot => rfl
  | event emitted =>
    cases emitted with
    | bookUpdated _ direction => cases direction <;> first | rfl | cases named
    | _ => rfl

theorem writeRecord_shown (record : Record) : writeRecord record.shown = writeRecord record := by
  cases record with
  | snapshot => rfl
  | event emitted =>
    cases emitted with
    | bookUpdated _ direction => cases direction <;> rfl
    | _ => rfl

theorem writeRecords_shown (records : List Record) :
    writeRecords (records.map Record.shown) = writeRecords records := by
  unfold writeRecords
  rw [List.flatMap_map]
  exact List.flatMap_congr fun record _ => writeRecord_shown record

/-- Every record is one line, which holds no control byte and is a JSON object; reading the lines
gives the records back, up to which unnamed side a book update had. -/
theorem json_lines_lossless (records : List Record) :
    ∃ texts : List Bytes, texts.length = records.length ∧
      writeRecords records = texts.flatMap (· ++ ascii "\n") ∧
      (∀ text ∈ texts, (∀ c ∈ text, 0x20 ≤ c) ∧ ∃ members, Json.Denotes text (.object members)) ∧
      readRecords (writeRecords records) = some (records.map Record.shown) ∧
      ((∀ record ∈ records, record.Named) → readRecords (writeRecords records) = some records) ∧
      ∀ others, writeRecords others = writeRecords records ↔
        others.map Record.shown = records.map Record.shown := by
  refine ⟨records.map lineOf, List.length_map .., writeRecords_eq records, ?_,
    readRecords_writeRecords records, ?_, ?_⟩
  · intro text member
    obtain ⟨record, -, rfl⟩ := List.mem_map.mp member
    obtain ⟨members, object⟩ := recordJson_object record
    refine ⟨printable_lineOf record, members, ?_⟩
    rw [← object]
    exact denotes_lineOf record
  · intro named
    rw [readRecords_writeRecords, List.map_congr_left fun record member =>
      (named record member).shown, List.map_id']
  · intro others
    constructor
    · intro same
      have read := readRecords_writeRecords others
      rw [same, readRecords_writeRecords] at read
      exact (Option.some.inj read).symm
    · intro same
      rw [← writeRecords_shown others, same, writeRecords_shown]

/-! ## The log of a run -/

theorem writeEvents_eq (events : List EmittedEvent) :
    writeEvents events = writeRecords (events.map .event) := by
  unfold writeEvents writeRecords
  rw [List.flatMap_map]
  rfl

/-- The record of an engine's event. -/
def recordOf (event : Event) : Record := .event (.ofEvent event)

theorem named_bookChange (instrument : SymbolId) (l : Ladder) (before after : List RestingOrder) :
    ∀ event ∈ Matching.bookChange instrument l before after, (recordOf event).Named := by
  rw [Matching.bookChange_eq]
  split_ifs
  · exact List.forall_mem_nil _
  · rw [List.forall_mem_singleton]
    cases l <;> exact trivial

theorem named_trades (a : Aggression) (instrument : SymbolId) (aggressor : OrderKey) :
    ∀ event ∈ a.trades instrument aggressor, (recordOf event).Named := by
  intro event member
  obtain ⟨fill, -, rfl⟩ := Aggression.mem_trades.mp member
  exact trivial

/-- A command emits updates of named sides only. -/
theorem named_of_step {m after : Market} {command : Command} {events : List Event}
    (step : m.Step command events after) : ∀ event ∈ events, (recordOf event).Named := by
  cases step with
  | refused refusal =>
    rw [List.forall_mem_singleton]
    cases refusal <;> exact trivial
  | ignored => exact List.forall_mem_nil _
  | submitted =>
    simp only [List.forall_mem_append, List.forall_mem_cons]
    exact ⟨⟨⟨trivial, named_trades _ _ _⟩, named_bookChange _ _ _ _⟩, named_bookChange _ _ _ _⟩
  | reduced => exact List.forall_mem_cons.mpr ⟨trivial, named_bookChange _ _ _ _⟩
  | replaced =>
    simp only [List.forall_mem_append, List.forall_mem_cons]
    exact ⟨⟨⟨trivial, named_trades _ _ _⟩, named_bookChange _ _ _ _⟩, named_bookChange _ _ _ _⟩
  | cancelled => exact List.forall_mem_cons.mpr ⟨trivial, named_bookChange _ _ _ _⟩

/-- The lines of a run's log are read back as its events. -/
theorem run_log_read_back (commands : List Command) :
    ∃ history, History.run commands = .ok history ∧
      readRecords (writeEvents (history.events.map .ofEvent)) =
        some (history.events.map recordOf) := by
  have runs := History.run_induct
    (P := fun history => ∀ event ∈ history.events, (recordOf event).Named)
    (List.forall_mem_nil _) ?_ commands
  · obtain ⟨history, ran, -, -, named⟩ := runs
    refine ⟨history, ran, ?_⟩
    rw [writeEvents_eq, readRecords_writeRecords, List.map_map, List.map_map]
    exact congrArg some (List.map_congr_left fun event member => (named event member).shown)
  · intro history command events after taken named
    rw [History.push_events]
    exact List.forall_mem_append.mpr ⟨named, named_of_step taken.step⟩

/-- Two sides without a name are written alike. -/
theorem unnamed_sides_alike :
    let update (direction : Side) : Record := .event (.bookUpdated ⟨1⟩ direction none 0)
    let second := update (.unnamed ⟨2, by decide⟩)
    let third := update (.unnamed ⟨3, by decide⟩)
    [second] ≠ [third] ∧ writeRecords [second] = writeRecords [third] :=
  ⟨by decide, rfl⟩

end MarketLab.Replay

import MarketLab.Collections.FirstSeen
import MarketLab.Collections.Pieces
import MarketLab.Replay.ScenarioParser

/-!
# The language of scenario files

What the lines of a scenario file say, apart from how they are read: a line is cut at its first
`#` and split between blanks, and what remains is nothing or one of five sentences.
-/
namespace MarketLab.Replay
open MarketLab.Collections MarketLab.Text
open MarketLab.Matching (Side SymbolId)

/-- A space, a tab or a carriage return. -/
def blank (c : UInt8) : Bool := (ascii " \t\r").contains c

/-- A line up to its comment. -/
def uncommented (line : Bytes) : Bytes := line.takeWhile (· != 35)

def tokens (line : Bytes) : List Bytes := pieces blank (uncommented line)

/-! ## Sentences -/

inductive Direction : Bytes → Side → Prop
  | buy : Direction (ascii "buy") .buy
  | sell : Direction (ascii "sell") .sell

inductive Sentence where
  | submitLimit (user clientOrder : UInt64) (name : Bytes) (direction : Side)
      (limitPrice size : PositiveUint64)
  | submitMarket (user clientOrder : UInt64) (name : Bytes) (direction : Side)
      (size : PositiveUint64)
  | updateLimit (user clientOrder : UInt64) (limitPrice size : PositiveUint64)
  | cancel (user clientOrder : UInt64)
  | snapshot (name : Bytes) (depth : Nat)

inductive Spells : List Bytes → Sentence → Prop
  | submitLimit {u c s p q : Bytes} {user clientOrder : UInt64} {direction : Side}
      {limitPrice size : PositiveUint64} (name : Bytes) (users : Numeral u user)
      (orders : Numeral c clientOrder) (side : Direction s direction)
      (prices : Numeral p limitPrice.val) (sizes : Numeral q size.val) :
      Spells [ascii "submit", ascii "limit", u, c, name, s, p, q]
        (.submitLimit user clientOrder name direction limitPrice size)
  | submitMarket {u c s q : Bytes} {user clientOrder : UInt64} {direction : Side}
      {size : PositiveUint64} (name : Bytes) (users : Numeral u user)
      (orders : Numeral c clientOrder) (side : Direction s direction) (sizes : Numeral q size.val) :
      Spells [ascii "submit", ascii "market", u, c, name, s, q]
        (.submitMarket user clientOrder name direction size)
  | updateLimit {u c p q : Bytes} {user clientOrder : UInt64} {limitPrice size : PositiveUint64}
      (users : Numeral u user) (orders : Numeral c clientOrder)
      (prices : Numeral p limitPrice.val) (sizes : Numeral q size.val) :
      Spells [ascii "update", ascii "limit", u, c, p, q]
        (.updateLimit user clientOrder limitPrice size)
  | cancel {u c : Bytes} {user clientOrder : UInt64} (users : Numeral u user)
      (orders : Numeral c clientOrder) :
      Spells [ascii "cancel", u, c] (.cancel user clientOrder)
  | snapshot {d : Bytes} {depth : UInt64} (name : Bytes) (depths : Numeral d depth) :
      Spells [ascii "snapshot", name, d] (.snapshot name depth.toNat)

namespace Sentence

def name : Sentence → Option Bytes
  | submitLimit _ _ name _ _ _ => some name
  | submitMarket _ _ name _ _ => some name
  | updateLimit _ _ _ _ => none
  | cancel _ _ => none
  | snapshot name _ => some name

/-- The command a sentence stands for when its name stands for `id`. -/
def command (id : SymbolId) : Sentence → ScenarioCommand
  | submitLimit user clientOrder _ direction limitPrice size => .submit {
      key := ⟨⟨user⟩, ⟨clientOrder⟩⟩
      instrument := id
      direction
      pricing := .limit (PositiveUint64.price limitPrice)
      size := PositiveUint64.quantity size }
  | submitMarket user clientOrder _ direction size => .submit {
      key := ⟨⟨user⟩, ⟨clientOrder⟩⟩
      instrument := id
      direction
      pricing := .market
      size := PositiveUint64.quantity size }
  | updateLimit user clientOrder limitPrice size => .update {
      key := ⟨⟨user⟩, ⟨clientOrder⟩⟩
      pricing := .limit (PositiveUint64.price limitPrice)
      size := PositiveUint64.quantity size }
  | cancel user clientOrder => .cancel { key := ⟨⟨user⟩, ⟨clientOrder⟩⟩ }
  | snapshot _ depth => .snapshot id depth

end Sentence

/-! ## Files -/

/-- A line that says nothing or one sentence. -/
def Conforms (line : Bytes) : Prop := tokens line = [] ∨ ∃ sentence, Spells (tokens line) sentence

/-- A sentence, with the number of its line and the text it was read from. -/
structure Reading where
  lineNumber : Nat
  text : Bytes
  sentence : Sentence

/-- What the lines behind the first `lineNumber` lines say, in order. -/
inductive Reads : Nat → List Bytes → List Reading → Prop
  | done (lineNumber : Nat) : Reads lineNumber [] []
  | nothing {lineNumber : Nat} {line : Bytes} {lines : List Bytes} {readings : List Reading}
      (empty : tokens line = []) (later : Reads (lineNumber + 1) lines readings) :
      Reads lineNumber (line :: lines) readings
  | sentence {lineNumber : Nat} {line : Bytes} {lines : List Bytes} {readings : List Reading}
      {sentence : Sentence} (spells : Spells (tokens line) sentence)
      (later : Reads (lineNumber + 1) lines readings) :
      Reads lineNumber (line :: lines)
        ({ lineNumber := lineNumber + 1, text := uncommented line, sentence } :: readings)

/-- An instrument name that a conforming line gives. -/
def Names (lines : List Bytes) (name : Bytes) : Prop :=
  ∃ line ∈ lines, ∃ sentence, Spells (tokens line) sentence ∧ sentence.name = some name

def namesOf (readings : List Reading) : List Bytes :=
  readings.filterMap fun reading => reading.sentence.name

/-- The first name seen is 1, the next 2, and so on. -/
def symbolOf (names : List Bytes) (sentence : Sentence) : SymbolId :=
  match sentence.name with
  | none => {}
  | some name => ⟨.ofNat (rank names name + 1)⟩

def stepOf (names : List Bytes) (reading : Reading) : ScenarioStep where
  lineNumber := reading.lineNumber
  text := reading.text
  command := reading.sentence.command (symbolOf names reading.sentence)

/-- The steps that the readings of a whole file stand for. -/
def stepsOf (readings : List Reading) : List ScenarioStep :=
  readings.map (stepOf (namesOf readings))

end MarketLab.Replay

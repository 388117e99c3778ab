import MarketLab.Collections.UnorderedMap
import MarketLab.Matching.Types
import MarketLab.Text.Bytes

/-!
# The scenario parser

`scenario_parser.hpp` and `scenario_parser.cpp`. A scenario file is text; every line gives one
command, or none when nothing but blanks stands before its comment.
-/
namespace MarketLab.Replay
open MarketLab.Collections MarketLab.Text
open MarketLab.Matching (CancelOrder Price Quantity Side SubmitOrder SymbolId UpdateOrder)

/-- What a load throws, with its `what()`. -/
inductive Failure where
  | runtimeError (what : Bytes)
  | overflowError (what : Bytes)
  deriving DecidableEq, Repr

inductive ScenarioCommand where
  | submit (order : SubmitOrder)
  | cancel (order : CancelOrder)
  | update (order : UpdateOrder)
  | snapshot (instrument : SymbolId) (depth : Nat)
  deriving DecidableEq, Repr

structure ScenarioStep where
  lineNumber : Nat
  text : Bytes
  command : ScenarioCommand
  deriving DecidableEq, Repr

/-- `std::format("line {}: …", line_number, …)`. -/
def lineError (lineNumber : Nat) (message : Bytes) : Failure :=
  .runtimeError (ascii s!"line {lineNumber}: " ++ message)

/-! ## Tokens -/

/-- What ends a token. -/
def delimiter (c : UInt8) : Bool := (ascii " \t\r\n").contains c

/-- Skips more kinds of white space in front of a token than end one. -/
def nextToken (line : Bytes) : Bytes × Bytes :=
  let line := line.dropWhile isspace
  match line.findIdx? delimiter with
  | none => (line, [])
  | some tokenEnd => (line.take tokenEnd, line.drop (tokenEnd + 1))

/-- A `std::string_view&` that tokens are taken from, in code that may throw. -/
abbrev Reader := StateT Bytes (Except Failure)

def readToken (field : String) (lineNumber : Nat) : Reader Bytes := do
  let token ← modifyGet nextToken
  if token.isEmpty then throw (lineError lineNumber (ascii s!"missing {field}"))
  else return token

def rejectExtraTokens (lineNumber : Nat) : Reader Unit := do
  let extra ← modifyGet nextToken
  if extra.isEmpty then return ()
  else throw (lineError lineNumber (ascii "unexpected token '" ++ extra ++ ascii "'"))

def removeComment (line : Bytes) : Bytes :=
  match line.findIdx? (· == 35) with
  | some comment => line.take comment
  | none => line

/-! ## Fields -/

def parseSide (lineNumber : Nat) (text : Bytes) : Except Failure Side :=
  if text = ascii "buy" then .ok .buy
  else if text = ascii "sell" then .ok .sell
  else .error (lineError lineNumber (ascii "expected side to be 'buy' or 'sell'"))

def parseUint64 (field : String) (lineNumber : Nat) (text : Bytes) : Except Failure UInt64 :=
  let refused := lineError lineNumber (ascii s!"expected unsigned integer for {field}")
  match fromChars text with
  | none => .error refused
  | some (value, position) => if position = text.length then .ok value else .error refused

/-- A value that the `price` and `quantity` constructors take without throwing. -/
abbrev PositiveUint64 := { value : UInt64 // value ≠ 0 }

def PositiveUint64.price (amount : PositiveUint64) : Price := ⟨amount.val, amount.property⟩

def PositiveUint64.quantity (amount : PositiveUint64) : Quantity := ⟨amount.val⟩

def parsePositiveUint64 (field : String) (lineNumber : Nat) (text : Bytes) :
    Except Failure PositiveUint64 := do
  let value ← parseUint64 field lineNumber text
  if positive : value ≠ 0 then return ⟨value, positive⟩
  else throw (lineError lineNumber (ascii s!"{field} must be positive"))

/-- `std::numeric_limits<std::size_t>::max()`. -/
def sizeMax : Nat := 2 ^ 64 - 1

def parseSize (field : String) (lineNumber : Nat) (text : Bytes) : Except Failure Nat := do
  let value ← parseUint64 field lineNumber text
  if sizeMax < value.toNat then
    throw (lineError lineNumber (ascii s!"{field} is too large for this platform"))
  else return value.toNat

/-! ## Instrument names -/

structure SymbolTable where
  ids : UnorderedMap Bytes SymbolId := .empty
  nextId : UInt32 := 1

/-- A name that is known keeps its id; a new one takes the next, unless that has wrapped. -/
def SymbolTable.intern (symbols : SymbolTable) (name : Bytes) :
    Except Failure (SymbolId × SymbolTable) :=
  match symbols.ids.find? name with
  | some found => .ok (found, symbols)
  | none =>
    if symbols.nextId = 0 then .error (.overflowError (ascii "scenario symbol IDs are exhausted"))
    else
      let id : SymbolId := ⟨symbols.nextId⟩
      .ok (id, { ids := symbols.ids.emplace name id, nextId := symbols.nextId + 1 })

/-! ## Commands -/

section Orders
variable (user clientOrder : UInt64)

def makeLimitOrder (instrument : SymbolId) (direction : Side)
    (limitPrice size : PositiveUint64) : SubmitOrder where
  key := ⟨⟨user⟩, ⟨clientOrder⟩⟩
  instrument
  direction
  pricing := .limit (PositiveUint64.price limitPrice)
  size := PositiveUint64.quantity size

def makeMarketOrder (instrument : SymbolId) (direction : Side)
    (size : PositiveUint64) : SubmitOrder where
  key := ⟨⟨user⟩, ⟨clientOrder⟩⟩
  instrument
  direction
  pricing := .market
  size := PositiveUint64.quantity size

def makeCancelOrder : CancelOrder where
  key := ⟨⟨user⟩, ⟨clientOrder⟩⟩

def makeLimitUpdate (limitPrice size : PositiveUint64) : UpdateOrder where
  key := ⟨⟨user⟩, ⟨clientOrder⟩⟩
  pricing := .limit (PositiveUint64.price limitPrice)
  size := PositiveUint64.quantity size

end Orders

section Commands
variable (lineNumber : Nat)

def parseSubmit (symbols : SymbolTable) : Reader (ScenarioCommand × SymbolTable) := do
  let pricing ← readToken "pricing" lineNumber
  let user ← parseUint64 "user" lineNumber (← readToken "user" lineNumber)
  let clientOrder ← parseUint64 "client_order" lineNumber (← readToken "client_order" lineNumber)
  let instrument ← readToken "instrument" lineNumber
  let direction ← parseSide lineNumber (← readToken "side" lineNumber)
  if pricing = ascii "limit" then
    let limitPrice ← parsePositiveUint64 "limit_price" lineNumber (← readToken "limit_price" lineNumber)
    let size ← parsePositiveUint64 "size" lineNumber (← readToken "size" lineNumber)
    rejectExtraTokens lineNumber
    let (id, symbols) ← symbols.intern instrument
    return (.submit (makeLimitOrder user clientOrder id direction limitPrice size), symbols)
  else if pricing = ascii "market" then
    let size ← parsePositiveUint64 "size" lineNumber (← readToken "size" lineNumber)
    rejectExtraTokens lineNumber
    let (id, symbols) ← symbols.intern instrument
    return (.submit (makeMarketOrder user clientOrder id direction size), symbols)
  else throw (lineError lineNumber (ascii "expected pricing to be 'limit' or 'market'"))

def parseCancel : Reader ScenarioCommand := do
  let user ← parseUint64 "user" lineNumber (← readToken "user" lineNumber)
  let clientOrder ← parseUint64 "client_order" lineNumber (← readToken "client_order" lineNumber)
  rejectExtraTokens lineNumber
  return .cancel (makeCancelOrder user clientOrder)

def parseUpdate : Reader ScenarioCommand := do
  let pricing ← readToken "pricing" lineNumber
  let user ← parseUint64 "user" lineNumber (← readToken "user" lineNumber)
  let clientOrder ← parseUint64 "client_order" lineNumber (← readToken "client_order" lineNumber)
  if pricing = ascii "limit" then
    let limitPrice ← parsePositiveUint64 "limit_price" lineNumber (← readToken "limit_price" lineNumber)
    let size ← parsePositiveUint64 "size" lineNumber (← readToken "size" lineNumber)
    rejectExtraTokens lineNumber
    return .update (makeLimitUpdate user clientOrder limitPrice size)
  else throw (lineError lineNumber (ascii "expected update pricing to be 'limit'"))

def parseSnapshot (symbols : SymbolTable) : Reader (ScenarioCommand × SymbolTable) := do
  let instrument ← readToken "instrument" lineNumber
  let depth ← parseSize "depth" lineNumber (← readToken "depth" lineNumber)
  rejectExtraTokens lineNumber
  let (id, symbols) ← symbols.intern instrument
  return (.snapshot id depth, symbols)

def parseCommand (symbols : SymbolTable) : Reader (ScenarioCommand × SymbolTable) := do
  let command ← readToken "command" lineNumber
  if command = ascii "submit" then parseSubmit lineNumber symbols
  else if command = ascii "update" then return (← parseUpdate lineNumber, symbols)
  else if command = ascii "cancel" then return (← parseCancel lineNumber, symbols)
  else if command = ascii "snapshot" then parseSnapshot lineNumber symbols
  else
    throw (lineError lineNumber
      (ascii "expected command to be 'submit', 'update', 'cancel', or 'snapshot'"))

end Commands

/-! ## Files -/

/-- The loop of `load`, behind `lineNumber` lines. -/
def loadLines (lineNumber : Nat) (symbols : SymbolTable) (steps : List ScenarioStep) :
    List Bytes → Except Failure (List ScenarioStep)
  | [] => .ok steps
  | line :: lines =>
    let commandText := removeComment line
    if (nextToken commandText).1.isEmpty then loadLines (lineNumber + 1) symbols steps lines
    else
      match (parseCommand (lineNumber + 1) symbols).run' commandText with
      | .error failure => .error failure
      | .ok (command, symbols) =>
        loadLines (lineNumber + 1) symbols
          (steps ++ [{ lineNumber := lineNumber + 1, text := commandText, command }]) lines

/-- `file` is the text at the path, if it can be opened. -/
def load (path : Bytes) (file : Option Bytes) : Except Failure (List ScenarioStep) :=
  match file with
  | none => .error (.runtimeError (ascii "failed to open scenario file: " ++ path))
  | some text => loadLines 0 {} [] (lines text)

end MarketLab.Replay

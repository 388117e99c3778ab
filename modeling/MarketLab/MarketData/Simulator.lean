import MarketLab.MarketData.Publisher
import MarketLab.Runtime.Client
import MarketLab.Text.Bytes

/-!
# The exchange feed simulator

`main.cpp` of `exchange_feed_simulator`, behind its command line. It is a client of a runner; what
leaves it is what it prints and what it hands to the socket of its publisher. The pauses between
bursts change nothing that is modelled, and the clock is what the summary says of it. Memory does
not run out, but a vector of events has a maximum size.
-/
namespace MarketLab.MarketData.Simulator
open MarketLab.Text
open MarketLab.Matching (CancelOrder Event Price Quantity SubmitOrder)
open MarketLab.Runtime (Body Raised Response)

def defaultGroup : Bytes := ascii "239.255.0.1"
def defaultPort : UInt16 := 30001
def defaultBurstSize : { size : UInt64 // size ≠ 0 } := ⟨64, by decide⟩

structure SimulatorOptions where
  group : Bytes := defaultGroup
  port : UInt16 := defaultPort
  messageCount : Option { count : UInt64 // count ≠ 0 } := none
  burstSize : { size : UInt64 // size ≠ 0 } := defaultBurstSize
  intervalMicroseconds : UInt64 := 0
  quiet : Bool := false
  deriving DecidableEq, Repr

inductive Emission where
  | text (text : Bytes)
  | send (send : Send)
  deriving DecidableEq

def Emission.send? : Emission → Option Send
  | .text _ => none
  | .send sent => some sent

/-- What is thrown in the block of `main`. -/
inductive Fault where
  | runner (raised : Raised)
  | engine (fault : Matching.Fault)
  | publisher (fault : PublishFault)
  /-- A vector was to grow past its maximum size. -/
  | lengthError

abbrev Simulation (α : Type) := Body Emission Fault α

/-- The clock's part of the summary. -/
structure Timing where
  elapsedMicroseconds : Bytes
  messagesPerSecond : Bytes

def makeLimitOrder (user clientOrder : UInt64) (direction : Matching.Side) (limitPrice : Price)
    (size : Quantity) : SubmitOrder where
  key := { user := ⟨user⟩, clientOrder := ⟨clientOrder⟩ }
  instrument := ⟨1⟩
  direction
  pricing := .limit limitPrice
  size

def print (text : Bytes) : Simulation Unit := .print [.text text] (.pure ())

/-- What `get()` yields. The future of a command is never set to a snapshot. -/
def emitted : Except Raised Response → Simulation (List Event)
  | .ok (.events events) => .pure events
  | .ok (.snapshot _) => .pure []
  | .ok (.exception fault) => .throw (.engine fault)
  | .error raised => .throw (.runner raised)

def submit (order : SubmitOrder) : Simulation (List Event) :=
  .ask (.command (.submit order)) emitted

def cancel (order : CancelOrder) : Simulation (List Event) :=
  .ask (.command (.cancel order)) emitted

/-- `first - last` as both summaries print it. -/
def sequenceRange (result : PublishResult) : Bytes :=
  decimal result.firstSequence.toNat ++ ascii "-" ++ decimal result.lastSequence.toNat

section Publisher
variable (endian : Endian) (network : Network)

/-- `publisher.publish(events)`: what it handed to the socket has left, also where it throws. -/
def publish (publisher : MulticastPublisher) (events : List Event) :
    Simulation (MulticastPublisher × PublishResult) :=
  let (after, outcome) := publisher.publish endian network events
  .print ((after.sends.drop publisher.sends.length).map .send)
    (match outcome with
      | .ok result => .pure (after, result)
      | .error fault => .throw (.publisher fault))

def publishEvents (publisher : MulticastPublisher) (events : List Event) :
    Simulation MulticastPublisher := do
  let (publisher, result) ← publish endian network publisher events
  if result.messagesPublished ≠ 0 then
    print (ascii "published messages=" ++ decimal result.messagesPublished ++
      ascii " sequences=" ++ sequenceRange result ++
      ascii " bytes=" ++ decimal result.bytesSent ++ ascii "\n")
  return publisher

/-!
## The load

`maximumEvents` is the `max_size()` of a vector of events, which the implementation chooses.
-/

variable (maximumEvents : Nat)

def loadPrice : Price := ⟨100, Price.hundred_ne_zero⟩

/-- `events.reserve(capacity)`. -/
def reserveEvents (capacity : Nat) : Simulation Unit :=
  if maximumEvents < capacity then .throw .lengthError else pure ()

/-- `events.insert` of what was emitted, at the end. -/
def insertEvents (events emitted : List Event) : Simulation (List Event) :=
  if maximumEvents < events.length + emitted.length then .throw .lengthError
  else pure (events ++ emitted)

/-- The inner loop of `publish_load`. -/
def submitBurst : Nat → Nat → List Event → Simulation (List Event)
  | _, 0, events => pure events
  | first, count + 1, events => do
    let emitted ← submit (makeLimitOrder 1 (.ofNat (first + 1)) .buy loadPrice ⟨1⟩)
    let events ← insertEvents maximumEvents events emitted
    submitBurst (first + 1) count events

/-- A burst added to the totals. -/
def addBurst (total result : PublishResult) : PublishResult where
  firstSequence :=
    if total.messagesPublished = 0 ∧ result.messagesPublished ≠ 0 then result.firstSequence
    else total.firstSequence
  messagesPublished := (total.messagesPublished + result.messagesPublished) % 2 ^ 64
  bytesSent := (total.bytesSent + result.bytesSent) % 2 ^ 64
  lastSequence := result.lastSequence

/-- The loop of `publish_load`, bounded by the messages: while its counter does not wrap, each of its
turns publishes one. -/
def publishBursts (messageCount burstSize : Nat) (quiet : Bool) :
    Nat → Nat → MulticastPublisher → PublishResult → Simulation PublishResult
  | 0, _, _, total => pure total
  | bound + 1, first, publisher, total =>
    if first < messageCount then do
      let count := min burstSize (messageCount - first)
      reserveEvents maximumEvents (count * 2 % 2 ^ 64)
      let events ← submitBurst maximumEvents first count []
      let (publisher, result) ← publish endian network publisher events
      let total := addBurst total result
      if !quiet then
        print (ascii "published burst messages=" ++ decimal result.messagesPublished ++
          ascii " sequences=" ++ sequenceRange result ++
          ascii " bytes=" ++ decimal result.bytesSent ++ ascii "\n")
      publishBursts messageCount burstSize quiet bound ((first + burstSize) % 2 ^ 64) publisher total
    else pure total

def publishLoad (options : SimulatorOptions) (messageCount : { count : UInt64 // count ≠ 0 }) :
    Simulation PublishResult :=
  publishBursts endian network maximumEvents messageCount.1.toNat options.burstSize.1.toNat options.quiet
    messageCount.1.toNat 0 {} {}

def summary (options : SimulatorOptions) (timing : Timing) (result : PublishResult) : Bytes :=
  ascii "publisher summary messages=" ++ decimal result.messagesPublished ++
  ascii " sequences=" ++ sequenceRange result ++
  ascii " bytes=" ++ decimal result.bytesSent ++
  ascii " elapsed_us=" ++ timing.elapsedMicroseconds ++
  ascii " messages_per_second=" ++ timing.messagesPerSecond ++
  ascii " burst_size=" ++ decimal options.burstSize.1.toNat ++
  ascii " interval_us=" ++ decimal options.intervalMicroseconds.toNat ++ ascii "\n"

/-! ## The process -/

/-- What `main` does without a message count. -/
def demonstrate : Simulation Unit := do
  let publisher ← publishEvents endian network {}
    (← submit (makeLimitOrder 1 1 .buy ⟨100, Price.hundred_ne_zero⟩ ⟨10⟩))
  let publisher ← publishEvents endian network publisher
    (← submit (makeLimitOrder 2 1 .sell ⟨101, Price.hundredOne_ne_zero⟩ ⟨8⟩))
  let _ ← publishEvents endian network publisher
    (← cancel { key := { user := ⟨1⟩, clientOrder := ⟨1⟩ } })

/-- What `main` does between `start` and `stop`. -/
def simulate (options : SimulatorOptions) (timing : Timing) : Simulation Unit :=
  match options.messageCount with
  | some messageCount => do
    let result ← publishLoad endian network maximumEvents options messageCount
    print (summary options timing result)
  | none => demonstrate endian network

end Publisher

def commandCapacity : Nat := 64

end MarketLab.MarketData.Simulator

import MarketLab.MarketData.Processor
import MarketLab.MarketData.Receiver

/-!
# The market data listener

`main.cpp` of `market_data_listener`, behind its command line. What the process meets in its loop
is the sequence of its occurrences; the clock is what the summary says of it. Its counters are
numbers that do not wrap around: no process receives 2^64 datagrams.
-/
namespace MarketLab.MarketData
open MarketLab.Text

def defaultGroup : Bytes := ascii "239.255.0.1"
def defaultPort : UInt16 := 30001
def defaultInterface : Bytes := ascii "0.0.0.0"
def maximumPendingPackets : Nat := 64
def maximumSequenceGap : UInt64 := 64

structure ListenerOptions where
  group : Bytes := defaultGroup
  port : UInt16 := defaultPort
  interfaceAddress : Bytes := defaultInterface
  stopAfter : Option { count : UInt64 // count ≠ 0 } := none
  quiet : Bool := false
  deriving DecidableEq, Repr

@[ext] structure ListenerCounters where
  datagrams : Nat := 0
  decoded : Nat := 0
  delivered : Nat := 0
  buffered : Nat := 0
  rejected : Nat := 0
  truncated : Nat := 0
  malformed : Nat := 0
  deriving DecidableEq, Repr

/-- What happens at a turn of the loop: its condition finds that a signal was handled, `receive`
yields a datagram, or it throws a `system_error`. -/
inductive Occurrence where
  | shutdownSignal
  | datagram (datagram : Datagram)
  | failed (interrupted signalReceived : Bool) (what : Bytes)
  deriving DecidableEq

structure Listener where
  receiver : MulticastReceiver := {}
  packetProcessor : Processor
  counters : ListenerCounters := {}
  receivedInvalidPacket : Bool := false
  /-- `std::cout` -/
  printed : Bytes := []
  /-- `std::cerr` -/
  errors : Bytes := []

/-- In the loop, behind it, or out of the block of `main`. -/
inductive Phase where
  | listening (listener : Listener)
  | left (listener : Listener)
  | threw (listener : Listener) (what : Bytes)

def Phase.listener : Phase → Listener
  | .listening listener => listener
  | .left listener => listener
  | .threw listener _ => listener

/-- The clock's part of the summary. -/
structure Timing where
  elapsedMicroseconds : Bytes
  messagesPerSecond : Bytes

structure Report where
  printed : Bytes
  errors : Bytes
  exitCode : Nat
  deriving DecidableEq, Repr

def sideName (value : Side) : Bytes := if value = .buy then ascii "buy" else ascii "sell"

/-- What `print_packet` prints. -/
def packetLine (decoded : Packet) : Bytes :=
  let update := decoded.payload
  ascii "received sequence=" ++ decimal decoded.sequence.toNat ++
  ascii " symbol_id=" ++ decimal update.instrument.value.toNat ++
  ascii " side=" ++ sideName update.direction ++
  ascii " best_price=" ++
    (match update.bestPrice with
      | some price => decimal price.toNat
      | none => ascii "none") ++
  ascii " aggregate_size=" ++ decimal update.aggregateSize.toNat ++ ascii "\n"

/-- What `print_processing_error` prints. -/
def processingError (result : SequenceResult) (sequence : UInt64) : Bytes :=
  match result with
  | .old => ascii "discarded old packet sequence=" ++ decimal sequence.toNat ++ ascii "\n"
  | .duplicate =>
    ascii "discarded duplicate pending packet sequence=" ++ decimal sequence.toNat ++ ascii "\n"
  | .gapLimitExceeded =>
    ascii "sequence gap limit exceeded at sequence=" ++ decimal sequence.toNat ++ ascii "\n"
  | .capacityExhausted =>
    ascii "sequence buffer capacity exhausted at sequence=" ++ decimal sequence.toNat ++ ascii "\n"
  | .ready => []
  | .buffered => []

def DatagramSender.text (sender : DatagramSender) : Bytes :=
  sender.address ++ ascii ":" ++ decimal sender.port.toNat

def listenerConfig : ProcessorConfig where
  sequenceLimits :=
    { maximumPendingValues := maximumPendingPackets, maximumSequenceGap := maximumSequenceGap }
  firstSequence := none

/-- The consumer of the loop. -/
def ListenerOptions.consume (options : ListenerOptions) : Consumer Empty Bytes :=
  fun printed value => (if options.quiet then printed else printed ++ packetLine value, none)

namespace Listener

/-- What is printed before the loop. -/
def banner (options : ListenerOptions) : Bytes :=
  ascii "listening group=" ++ options.group ++ ascii " port=" ++ decimal options.port.toNat ++
  ascii " interface=" ++ options.interfaceAddress ++ ascii "\n"

def start (options : ListenerOptions) : Listener where
  packetProcessor := .initial listenerConfig
  printed := banner options

/-- The body of the loop behind `receive`, up to the stop condition. -/
def handle (options : ListenerOptions) (listener : Listener) : MulticastReceiveResult → Listener
  | .truncated bytesRetained sender =>
    let counters := listener.counters
    { listener with
      counters := { counters with
        datagrams := counters.datagrams + 1
        truncated := counters.truncated + 1
        rejected := counters.rejected + 1 }
      errors := listener.errors ++ ascii "discarded truncated datagram from " ++ sender.text ++
        ascii " bytes_retained=" ++ decimal bytesRetained ++ ascii "\n"
      receivedInvalidPacket := true }
  | .malformed error sender =>
    let counters := listener.counters
    { listener with
      counters := { counters with
        datagrams := counters.datagrams + 1
        malformed := counters.malformed + 1
        rejected := counters.rejected + 1 }
      errors := listener.errors ++ ascii "discarded malformed packet from " ++ sender.text ++
        ascii ": " ++ error.toString ++ ascii "\n"
      receivedInvalidPacket := true }
  | .received value _ =>
    match listener.packetProcessor.process value options.consume listener.printed with
    | (_, _, .error thrown) => thrown.elim
    | (packetProcessor, printed, .ok processed) =>
      let counters := listener.counters
      let discarded := processed.ordering != .ready && processed.ordering != .buffered
      { listener with
        packetProcessor
        printed
        counters := { counters with
          datagrams := counters.datagrams + 1
          decoded := counters.decoded + 1
          delivered := counters.delivered + processed.packetsDelivered
          buffered := counters.buffered + if processed.ordering = .buffered then 1 else 0
          rejected := counters.rejected + if discarded then 1 else 0 }
        errors := listener.errors ++ processingError processed.ordering value.sequence
        receivedInvalidPacket := listener.receivedInvalidPacket || discarded }

/-- The condition behind a packet; a datagram that was discarded does not come to it. -/
def stops (options : ListenerOptions) (listener : Listener) : MulticastReceiveResult → Bool
  | .received .. => options.stopAfter.any fun count => count.1.toNat ≤ listener.counters.delivered
  | _ => false

/-- The datagram is received and handled. -/
def receive (endian : Endian) (options : ListenerOptions) (listener : Listener)
    (datagram : Datagram) : Listener :=
  let (receiver, result) := listener.receiver.receive endian datagram
  { listener with receiver }.handle options result

def turn (endian : Endian) (options : ListenerOptions) (listener : Listener) : Occurrence → Phase
  | .shutdownSignal => .left listener
  | .failed interrupted signalReceived what =>
    if signalReceived && interrupted then .left listener else .threw listener what
  | .datagram datagram =>
    let after := listener.receive endian options datagram
    if after.stops options (listener.receiver.receive endian datagram).2 then .left after
    else .listening after

end Listener

def Phase.next (endian : Endian) (options : ListenerOptions) : Phase → Occurrence → Phase
  | .listening listener, occurrence => listener.turn endian options occurrence
  | .left listener, _ => .left listener
  | .threw listener what, _ => .threw listener what

/-- The loop of `main`. -/
def listen (endian : Endian) (options : ListenerOptions) (occurrences : List Occurrence) : Phase :=
  occurrences.foldl (Phase.next endian options) (.listening (.start options))

namespace Listener

def gapError (listener : Listener) : Bytes :=
  ascii "unresolved sequence gap" ++
    (match listener.packetProcessor.nextSequence with
      | some next => ascii ": expected=" ++ decimal next.toNat
      | none => []) ++
  ascii " pending=" ++ decimal listener.packetProcessor.pendingSize ++ ascii "\n"

def summary (counters : ListenerCounters) (timing : Timing) : Bytes :=
  ascii "listener summary datagrams=" ++ decimal counters.datagrams ++
  ascii " decoded=" ++ decimal counters.decoded ++
  ascii " delivered=" ++ decimal counters.delivered ++
  ascii " buffered=" ++ decimal counters.buffered ++
  ascii " rejected=" ++ decimal counters.rejected ++
  ascii " truncated=" ++ decimal counters.truncated ++
  ascii " malformed=" ++ decimal counters.malformed ++
  ascii " elapsed_us=" ++ timing.elapsedMicroseconds ++
  ascii " messages_per_second=" ++ timing.messagesPerSecond ++ ascii "\n" ++
  ascii "listener stopped\n"

/-- What `main` does behind the loop. -/
def finish (listener : Listener) (timing : Timing) : Report :=
  let unresolved := listener.packetProcessor.pendingSize ≠ 0
  { printed := listener.printed ++ summary listener.counters timing
    errors := listener.errors ++ if unresolved then listener.gapError else []
    exitCode := if listener.receivedInvalidPacket || unresolved then 1 else 0 }

def usage : Bytes :=
  ascii "usage: obz_market_data_listener [group] [port] [interface] " ++
  ascii "[--stop-after packets] [--quiet]\n"

/-- What the handler of `main` reports. -/
def failure (printed errors what : Bytes) : Report where
  printed
  errors := errors ++ ascii "receiver error: " ++ what ++ ascii "\n" ++ usage
  exitCode := 1

end Listener

/-- The end of the process, if its loop is over. -/
def Phase.report (timing : Timing) : Phase → Option Report
  | .listening _ => none
  | .left listener => some (listener.finish timing)
  | .threw listener what => some (Listener.failure listener.printed listener.errors what)

end MarketLab.MarketData

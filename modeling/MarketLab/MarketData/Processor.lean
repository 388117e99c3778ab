import MarketLab.MarketData.Codec
import MarketLab.MarketData.SequencedBuffer

/-!
# The processor

`processor.hpp`. A consumer changes a state of its own and may throw; what was delivered
before a throw stays delivered.
-/
namespace MarketLab.MarketData
open MarketLab.Collections

structure ProcessorConfig where
  sequenceLimits : SequencedBufferLimits
  firstSequence : Option UInt64

structure ProcessingResult where
  ordering : SequenceResult
  packetsDelivered : Nat := 0
  deriving DecidableEq, Repr

structure Processor where
  packets : SequencedBuffer Packet

/-- The state after a packet, and what was thrown. -/
abbrev Consumer (ε σ : Type) := σ → Packet → σ × Option ε

namespace Processor
variable {ε σ : Type}

def initial (config : ProcessorConfig) : Processor where
  packets := { limits := config.sequenceLimits, nextSequence := config.firstSequence }

/-- `while (auto queued = packets_.pop_ready())`, bounded by the packets that are pending. -/
def drain (consume : Consumer ε σ) :
    Nat → SequencedBuffer Packet → σ → Nat → SequencedBuffer Packet × σ × Except ε Nat
  | 0, packets, state, delivered => (packets, state, .ok delivered)
  | bound + 1, packets, state, delivered =>
    match packets.popReady with
    | (packets, none) => (packets, state, .ok delivered)
    | (packets, some queued) =>
      match consume state queued with
      | (state, some thrown) => (packets, state, .error thrown)
      | (state, none) => drain consume bound packets state (delivered + 1)

def process (processor : Processor) (value : Packet) (consume : Consumer ε σ) (state : σ) :
    Processor × σ × Except ε ProcessingResult :=
  match processor.packets.push value.sequence fun _ => value with
  | (packets, ordering) =>
    if ordering ≠ .ready then ({ packets }, state, .ok { ordering })
    else
      match consume state value with
      | (state, some thrown) => ({ packets }, state, .error thrown)
      | (state, none) =>
        match drain consume packets.pendingSize packets state 1 with
        | (packets, state, .error thrown) => ({ packets }, state, .error thrown)
        | (packets, state, .ok packetsDelivered) =>
          ({ packets }, state, .ok { ordering, packetsDelivered })

def nextSequence (processor : Processor) : Option UInt64 := processor.packets.nextSequence

def pendingSize (processor : Processor) : Nat := processor.packets.pendingSize

end Processor
end MarketLab.MarketData

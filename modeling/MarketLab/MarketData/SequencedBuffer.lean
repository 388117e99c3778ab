import MarketLab.Collections.OrderedMap
import Mathlib.Data.List.Induction
import Mathlib.Data.UInt

/-!
# The sequenced buffer

`sequenced_buffer.hpp`. Its four regimes differ in one number, the position in the stream:
absent before the first value, the next sequence while running, and one past the last
sequence once the range is used up.
-/
namespace MarketLab.MarketData
open MarketLab.Collections

/-- The order of `std::less`. -/
instance sequenceOrder : IsStrictTotalOrder UInt64 (fun a b => a < b) where
  irrefl _ := UInt64.lt_irrefl _
  trans _ _ _ less later := UInt64.lt_trans less later
  trichotomous _ _ notLess notMore :=
    UInt64.le_antisymm (UInt64.not_lt.mp notMore) (UInt64.not_lt.mp notLess)

structure SequencedBufferLimits where
  maximumPendingValues : Nat
  maximumSequenceGap : UInt64

inductive SequenceResult where
  | ready
  | buffered
  | old
  | duplicate
  | gapLimitExceeded
  | capacityExhausted
  deriving DecidableEq, Repr

structure SequencedBuffer (α : Type) where
  limits : SequencedBufferLimits
  nextSequence : Option UInt64
  pending : OrderedMap (fun a b : UInt64 => a < b) α := .empty
  sequenceExhausted : Bool := false

/-- `std::numeric_limits<std::uint64_t>::max()`. -/
def maximumSequence : UInt64 := 0xffffffffffffffff

namespace SequencedBuffer
variable {α : Type}

def advanceAfter (buffer : SequencedBuffer α) (sequence : UInt64) : SequencedBuffer α :=
  if sequence = maximumSequence then
    { buffer with sequenceExhausted := true, nextSequence := none }
  else { buffer with nextSequence := some (sequence + 1) }

def push (buffer : SequencedBuffer α) (sequence : UInt64) (makeValue : Unit → α) :
    SequencedBuffer α × SequenceResult :=
  if buffer.sequenceExhausted then (buffer, .old)
  else
    match buffer.nextSequence with
    | none => (buffer.advanceAfter sequence, .ready)
    | some nextSequence =>
      if sequence < nextSequence then (buffer, .old)
      else if sequence = nextSequence then (buffer.advanceAfter sequence, .ready)
      else if buffer.pending.contains sequence then (buffer, .duplicate)
      else if buffer.limits.maximumSequenceGap < sequence - nextSequence then
        (buffer, .gapLimitExceeded)
      else if buffer.limits.maximumPendingValues ≤ buffer.pending.size then
        (buffer, .capacityExhausted)
      else ({ buffer with pending := buffer.pending.emplace sequence (makeValue ()) }, .buffered)

def popReady (buffer : SequencedBuffer α) : SequencedBuffer α × Option α :=
  if buffer.sequenceExhausted then (buffer, none)
  else
    match buffer.nextSequence, buffer.pending.first? with
    | some nextSequence, some (sequence, value) =>
      if sequence ≠ nextSequence then (buffer, none)
      else
        ({ buffer with pending := buffer.pending.eraseFirst }.advanceAfter sequence, some value)
    | _, _ => (buffer, none)

def pendingSize (buffer : SequencedBuffer α) : Nat := buffer.pending.size

/-! ## The position in the stream -/

/-- The sequence expected next, past the range once it is used up. -/
def position (buffer : SequencedBuffer α) : Option Nat :=
  if buffer.sequenceExhausted then some (2 ^ 64) else buffer.nextSequence.map UInt64.toNat

/-- The end of the range and an expected sequence exclude each other. -/
def Consistent (buffer : SequencedBuffer α) : Prop :=
  buffer.sequenceExhausted = true → buffer.nextSequence = none

theorem toNat_maximumSequence : maximumSequence.toNat = 2 ^ 64 - 1 := rfl

theorem position_running {buffer : SequencedBuffer α} {next : UInt64} (consistent : buffer.Consistent)
    (running : buffer.nextSequence = some next) : buffer.position = some next.toNat := by
  cases exhausted : buffer.sequenceExhausted with
  | true =>
    rw [consistent exhausted] at running
    cases running
  | false => simp [position, exhausted, running]

theorem position_lt {buffer : SequencedBuffer α} {place : Nat} (here : buffer.position = some place)
    (inside : place < 2 ^ 64) : ∃ next, buffer.nextSequence = some next ∧ next.toNat = place ∧
      buffer.sequenceExhausted = false := by
  cases exhausted : buffer.sequenceExhausted with
  | true =>
    rw [position, exhausted] at here
    exact absurd (Option.some.inj here) (Nat.ne_of_gt inside)
  | false =>
    rw [position, exhausted] at here
    obtain ⟨next, running, same⟩ := Option.map_eq_some_iff.mp here
    exact ⟨next, running, same, rfl⟩

@[simp] theorem advanceAfter_pending (buffer : SequencedBuffer α) (sequence : UInt64) :
    (buffer.advanceAfter sequence).pending = buffer.pending := by
  rw [advanceAfter]
  split <;> rfl

@[simp] theorem advanceAfter_limits (buffer : SequencedBuffer α) (sequence : UInt64) :
    (buffer.advanceAfter sequence).limits = buffer.limits := by
  rw [advanceAfter]
  split <;> rfl

theorem advanceAfter_position {buffer : SequencedBuffer α} (running : buffer.sequenceExhausted = false)
    (sequence : UInt64) :
    (buffer.advanceAfter sequence).position = some (sequence.toNat + 1) ∧
      (buffer.advanceAfter sequence).Consistent := by
  rw [advanceAfter]
  split
  next last =>
    rw [last]
    exact ⟨rfl, fun _ => rfl⟩
  next inside =>
    have fits : sequence.toNat < 2 ^ 64 - 1 := by
      have bounded := sequence.toNat_lt
      have differ : sequence.toNat ≠ 2 ^ 64 - 1 := fun same =>
        inside (UInt64.toNat_inj.mp (same.trans toNat_maximumSequence.symm))
      omega
    have next : (sequence + 1).toNat = sequence.toNat + 1 := by
      rw [UInt64.toNat_add, UInt64.toNat_one, Nat.mod_eq_of_lt (by omega)]
    refine ⟨?_, fun exhausted => ?_⟩
    · simp only [position, running, Bool.false_eq_true, ↓reduceIte, Option.map_some, next]
    · rw [running] at exhausted
      cases exhausted

/-! ## What a call can do -/

/-- A push into a buffer: the guards of each outcome and what it leaves behind. -/
inductive Pushed (buffer : SequencedBuffer α) (sequence : UInt64) (value : α) :
    SequencedBuffer α × SequenceResult → Prop
  | ready (running : buffer.sequenceExhausted = false)
      (expected : buffer.position = none ∨ buffer.position = some sequence.toNat) :
      Pushed buffer sequence value (buffer.advanceAfter sequence, .ready)
  | old (place : Nat) (here : buffer.position = some place) (behind : sequence.toNat < place) :
      Pushed buffer sequence value (buffer, .old)
  | duplicate (place : Nat) (here : buffer.position = some place) (ahead : place < sequence.toNat)
      (held : buffer.pending.contains sequence = true) :
      Pushed buffer sequence value (buffer, .duplicate)
  | gapLimitExceeded (place : Nat) (here : buffer.position = some place)
      (far : place + buffer.limits.maximumSequenceGap.toNat < sequence.toNat)
      (absent : buffer.pending.find? sequence = none) :
      Pushed buffer sequence value (buffer, .gapLimitExceeded)
  | capacityExhausted (place : Nat) (here : buffer.position = some place)
      (ahead : place < sequence.toNat)
      (near : sequence.toNat ≤ place + buffer.limits.maximumSequenceGap.toNat)
      (absent : buffer.pending.find? sequence = none)
      (full : buffer.limits.maximumPendingValues ≤ buffer.pendingSize) :
      Pushed buffer sequence value (buffer, .capacityExhausted)
  | buffered (place : Nat) (here : buffer.position = some place) (ahead : place < sequence.toNat)
      (near : sequence.toNat ≤ place + buffer.limits.maximumSequenceGap.toNat)
      (room : buffer.pendingSize < buffer.limits.maximumPendingValues)
      (absent : buffer.pending.find? sequence = none) :
      Pushed buffer sequence value
        ({ buffer with pending := buffer.pending.insertOrAssign sequence value }, .buffered)

theorem push_pushed {buffer : SequencedBuffer α} (consistent : buffer.Consistent) (sequence : UInt64)
    (makeValue : Unit → α) :
    Pushed buffer sequence (makeValue ()) (buffer.push sequence makeValue) := by
  rw [push]
  cases exhausted : buffer.sequenceExhausted with
  | true =>
    refine .old (2 ^ 64) ?_ sequence.toNat_lt
    rw [position, if_pos exhausted]
  | false =>
    cases running : buffer.nextSequence with
    | none =>
      refine .ready exhausted (.inl ?_)
      rw [position, running, exhausted]
      rfl
    | some next =>
      have here := position_running consistent running
      simp only [Bool.false_eq_true, ↓reduceIte]
      split
      next behind => exact .old next.toNat here (UInt64.lt_iff_toNat_lt.mp behind)
      next notBehind =>
        split
        next same => exact .ready exhausted (.inr (same ▸ here))
        next different =>
          have ahead : next < sequence :=
            UInt64.lt_of_le_of_ne (UInt64.not_lt.mp notBehind) (Ne.symm different)
          have gap := UInt64.toNat_sub_of_le _ _ (UInt64.le_of_lt ahead)
          rw [UInt64.lt_iff_toNat_lt] at ahead
          split
          next held => exact .duplicate next.toNat here ahead held
          next notHeld =>
            have absent := OrderedMap.contains_eq_false.mp (Bool.eq_false_iff.mpr notHeld)
            split
            next far =>
              rw [UInt64.lt_iff_toNat_lt, gap] at far
              exact .gapLimitExceeded next.toNat here (by omega) absent
            next near =>
              rw [UInt64.lt_iff_toNat_lt, gap] at near
              split
              next full => exact .capacityExhausted next.toNat here ahead (by omega) absent full
              next room =>
                rw [OrderedMap.emplace_of_absent _ absent]
                have held : Pushed buffer sequence (makeValue ()) _ :=
                  .buffered next.toNat here ahead (by omega) (Nat.not_le.mp room) absent
                rwa [running, exhausted] at held

/-- A pop of a buffer: nothing, or the first pending value when it is the expected one. -/
inductive Popped (buffer : SequencedBuffer α) : SequencedBuffer α × Option α → Prop
  | nothing (waiting : ∀ entry rest, buffer.pending.entries = entry :: rest →
      buffer.position ≠ some entry.1.toNat) : Popped buffer (buffer, none)
  | value (sequence : UInt64) (value : α) (rest : List (UInt64 × α))
      (first : buffer.pending.entries = (sequence, value) :: rest)
      (here : buffer.position = some sequence.toNat) (running : buffer.sequenceExhausted = false) :
      Popped buffer
        ({ buffer with pending := buffer.pending.eraseFirst }.advanceAfter sequence, some value)

theorem popReady_popped {buffer : SequencedBuffer α} (consistent : buffer.Consistent) :
    Popped buffer buffer.popReady := by
  rw [popReady]
  cases exhausted : buffer.sequenceExhausted with
  | true =>
    refine .nothing fun entry rest _ here => ?_
    rw [position, if_pos exhausted] at here
    exact absurd (Option.some.inj here) (Nat.ne_of_gt entry.1.toNat_lt)
  | false =>
    cases running : buffer.nextSequence with
    | none =>
      refine .nothing fun entry rest _ here => ?_
      rw [position, exhausted, running] at here
      cases here
    | some next =>
      have here := position_running consistent running
      cases entries : buffer.pending.entries with
      | nil =>
        have empty : buffer.pending.first? = none := by rw [OrderedMap.first?, entries]; rfl
        simp only [empty, Bool.false_eq_true, ↓reduceIte]
        exact .nothing fun entry rest first => by rw [entries] at first; cases first
      | cons entry rest =>
        have first : buffer.pending.first? = some entry := by rw [OrderedMap.first?, entries]; rfl
        simp only [first, Bool.false_eq_true, ↓reduceIte]
        split
        next different =>
          refine .nothing fun other others first same => different ?_
          obtain ⟨rfl, -⟩ := List.cons.inj (entries.symm.trans first)
          exact UInt64.toNat_inj.mp (Option.some.inj (same.symm.trans here))
        next same =>
          have expected : buffer.position = some entry.1.toNat := not_not.mp same ▸ here
          have popped := Popped.value entry.1 entry.2 rest entries expected exhausted
          rwa [running, exhausted] at popped

/-! ## Pending values lie ahead -/

/-- Nothing is held before a position is known or behind it. -/
structure Aligned (buffer : SequencedBuffer α) : Prop where
  consistent : buffer.Consistent
  ahead : ∀ entry ∈ buffer.pending.entries,
    ∃ place, buffer.position = some place ∧ place ≤ entry.1.toNat

theorem aligned_initial (limits : SequencedBufferLimits) (firstSequence : Option UInt64) :
    ({ limits, nextSequence := firstSequence } : SequencedBuffer α).Aligned where
  consistent exhausted := by cases exhausted
  ahead entry member := by cases member

/-- Past the expected sequence, what is held stays ahead unless it is that very sequence. -/
theorem Aligned.advanceAfter {buffer : SequencedBuffer α} {sequence : UInt64}
    (running : buffer.sequenceExhausted = false)
    (later : ∀ entry ∈ buffer.pending.entries, sequence.toNat < entry.1.toNat) :
    (buffer.advanceAfter sequence).Aligned := by
  obtain ⟨here, consistent⟩ := advanceAfter_position running sequence
  refine ⟨consistent, fun entry member => ⟨sequence.toNat + 1, here, ?_⟩⟩
  rw [advanceAfter_pending] at member
  exact later entry member

theorem Aligned.push {buffer : SequencedBuffer α} (aligned : buffer.Aligned) (sequence : UInt64)
    (makeValue : Unit → α) (unheld : buffer.nextSequence = some sequence →
      buffer.pending.contains sequence = false) : (buffer.push sequence makeValue).1.Aligned := by
  have pushed := push_pushed aligned.consistent sequence makeValue
  generalize buffer.push sequence makeValue = outcome at pushed ⊢
  cases pushed with
  | ready running expected =>
    refine .advanceAfter running fun entry member => ?_
    obtain ⟨place, here, ahead⟩ := aligned.ahead entry member
    rcases expected with unknown | expected
    · rw [unknown] at here
      cases here
    · obtain rfl := Option.some.inj (here.symm.trans expected)
      obtain ⟨next, started, same, -⟩ := position_lt expected sequence.toNat_lt
      obtain rfl := UInt64.toNat_inj.mp same
      have absent := OrderedMap.contains_eq_false.mp (unheld started)
      have differ : entry.1.toNat ≠ next.toNat := fun same =>
        OrderedMap.find?_eq_none.mp absent entry member (UInt64.toNat_inj.mp same)
      omega
  | old => exact aligned
  | duplicate => exact aligned
  | gapLimitExceeded => exact aligned
  | capacityExhausted => exact aligned
  | buffered place here ahead near room absent =>
    refine ⟨aligned.consistent, fun entry member => ?_⟩
    rcases OrderedMap.mem_insertOrAssign.mp member with rfl | ⟨-, old⟩
    · exact ⟨place, here, Nat.le_of_lt ahead⟩
    · exact aligned.ahead entry old

theorem Aligned.popReady {buffer : SequencedBuffer α} (aligned : buffer.Aligned) :
    buffer.popReady.1.Aligned := by
  have popped := popReady_popped aligned.consistent
  generalize buffer.popReady = outcome at popped ⊢
  cases popped with
  | nothing => exact aligned
  | value sequence value rest first here running =>
    refine .advanceAfter running fun entry member => ?_
    have sorted := buffer.pending.sorted
    rw [first, List.pairwise_cons] at sorted
    rw [OrderedMap.entries_eraseFirst, first] at member
    exact UInt64.lt_iff_toNat_lt.mp (sorted.1 entry member)

end SequencedBuffer
end MarketLab.MarketData

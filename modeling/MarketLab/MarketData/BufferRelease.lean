import MarketLab.MarketData.SequencedBuffer

/-!
# When a buffered value is released

A push looks at the expected sequence before it looks at the pending values, so it takes a
sequence that is both without removing the pending one. That one call is all that can
strand a value: in a run without it, every value whose gap has closed comes out in order.
-/
namespace MarketLab.MarketData
open MarketLab.Collections

inductive BufferCall (α : Type) where
  | push (sequence : UInt64) (makeValue : Unit → α)
  | popReady

namespace SequencedBuffer
variable {α : Type}

def call (buffer : SequencedBuffer α) : BufferCall α → SequencedBuffer α
  | .push sequence makeValue => (buffer.push sequence makeValue).1
  | .popReady => buffer.popReady.1

/-- The buffer after some calls on a fresh one. -/
def reached (limits : SequencedBufferLimits) (firstSequence : Option UInt64)
    (calls : List (BufferCall α)) : SequencedBuffer α :=
  calls.foldl call { limits, nextSequence := firstSequence }

/-- The buffer after a number of pops. -/
def popped (buffer : SequencedBuffer α) : Nat → SequencedBuffer α
  | 0 => buffer
  | times + 1 => buffer.popReady.1.popped times

/-- The guard `push` lacks: a sequence that is expected is not pending. -/
def Unheld (buffer : SequencedBuffer α) (sequence : UInt64) : Prop :=
  buffer.nextSequence = some sequence → buffer.pending.contains sequence = false

structure Unstranded (buffer : SequencedBuffer α) : Prop where
  ahead : ∀ entry ∈ buffer.pending.entries,
    ∃ next, buffer.nextSequence = some next ∧ next ≤ entry.1
  released : ∀ next value, buffer.nextSequence = some next →
    buffer.pending.find? next = some value → buffer.popReady.2 = some value
  /-- Behind a closed gap, pop by pop, every pending value comes out at its turn. -/
  drains : ∀ next last, buffer.nextSequence = some next →
    (∀ sequence, next ≤ sequence → sequence ≤ last → buffer.pending.contains sequence = true) →
    ∀ sequence, next ≤ sequence → sequence ≤ last →
      (buffer.popped (sequence.toNat - next.toNat)).popReady.2 = buffer.pending.find? sequence

/-! ## Popping an aligned buffer -/

theorem Aligned.ahead_of_next {buffer : SequencedBuffer α} (aligned : buffer.Aligned)
    {next : UInt64} (running : buffer.nextSequence = some next) :
    ∀ entry ∈ buffer.pending.entries, next ≤ entry.1 := by
  intro entry member
  obtain ⟨place, here, ahead⟩ := aligned.ahead entry member
  rw [position_running aligned.consistent running] at here
  obtain rfl := Option.some.inj here
  exact UInt64.le_iff_toNat_le.mpr ahead

theorem Aligned.popReady_expected {buffer : SequencedBuffer α} (aligned : buffer.Aligned)
    {next : UInt64} {value : α} (running : buffer.nextSequence = some next)
    (held : buffer.pending.find? next = some value) :
    ∃ rest, buffer.pending.entries = (next, value) :: rest ∧ buffer.popReady =
      ({ buffer with pending := buffer.pending.eraseFirst }.advanceAfter next, some value) := by
  have member := OrderedMap.find?_eq_some.mp held
  have here := position_running aligned.consistent running
  obtain ⟨entry, rest, first⟩ := List.exists_cons_of_ne_nil (List.ne_nil_of_mem member)
  -- The map iterates upwards from the expected sequence, so its entry comes first.
  have front : entry = (next, value) := by
    have sorted := buffer.pending.sorted
    rw [first, List.pairwise_cons] at sorted
    rw [first] at member
    rcases List.mem_cons.mp member with same | later
    · exact same.symm
    · have above := aligned.ahead_of_next running entry (first ▸ List.mem_cons_self)
      exact absurd (sorted.1 _ later) (UInt64.not_lt.mpr above)
  subst front
  have popped := popReady_popped aligned.consistent
  generalize buffer.popReady = outcome at popped ⊢
  cases popped with
  | nothing waiting => exact absurd here (waiting _ _ first)
  | value sequence found others firstToo =>
    obtain ⟨same, -⟩ := List.cons.inj (first.symm.trans firstToo)
    cases same
    exact ⟨rest, first, rfl⟩

theorem Aligned.drains {buffer : SequencedBuffer α} (aligned : buffer.Aligned) {next last : UInt64}
    (running : buffer.nextSequence = some next)
    (closed : ∀ sequence, next ≤ sequence → sequence ≤ last →
      buffer.pending.contains sequence = true) {sequence : UInt64} (reached : next ≤ sequence)
    (within : sequence ≤ last) :
    (buffer.popped (sequence.toNat - next.toNat)).popReady.2 = buffer.pending.find? sequence := by
  generalize count : sequence.toNat - next.toNat = times
  rw [UInt64.le_iff_toNat_le] at reached within
  obtain ⟨value, held⟩ := OrderedMap.contains_iff.mp
    (closed next (UInt64.le_refl next) (UInt64.le_iff_toNat_le.mpr (by omega)))
  induction times generalizing buffer next value with
  | zero =>
    obtain rfl : sequence = next := UInt64.toNat_inj.mp (by omega)
    obtain ⟨rest, -, popped⟩ := aligned.popReady_expected running held
    rw [held, SequencedBuffer.popped, popped]
  | succ times ih =>
    obtain ⟨rest, first, popped⟩ := aligned.popReady_expected running held
    have bounded := sequence.toNat_lt
    have active := (position_lt (position_running aligned.consistent running) next.toNat_lt)
    obtain ⟨-, -, -, unexhausted⟩ := active
    let erased := { buffer with pending := buffer.pending.eraseFirst }
    have moved := (advanceAfter_position (show erased.sequenceExhausted = false from unexhausted) next).1
    obtain ⟨following, runs, place, -⟩ := position_lt moved (by omega)
    have still : ∀ other, following ≤ other →
        buffer.pending.eraseFirst.find? other = buffer.pending.find? other := by
      intro other behind
      refine OrderedMap.find?_eraseFirst first ?_
      rintro rfl
      rw [UInt64.le_iff_toNat_le] at behind
      omega
    have after : buffer.popReady.1.pending = buffer.pending.eraseFirst := by
      rw [popped, advanceAfter_pending]
    have closed' : ∀ other, following ≤ other → other ≤ last →
        buffer.popReady.1.pending.contains other = true := by
      intro other behind inside
      rw [after, OrderedMap.contains, still other behind]
      refine closed other ?_ inside
      rw [UInt64.le_iff_toNat_le] at behind ⊢
      omega
    have reached' : following ≤ sequence := UInt64.le_iff_toNat_le.mpr (by omega)
    obtain ⟨value', held'⟩ := OrderedMap.contains_iff.mp
      (closed' following (UInt64.le_refl following) (UInt64.le_trans reached'
        (UInt64.le_iff_toNat_le.mpr within)))
    rw [SequencedBuffer.popped, ← still sequence reached', ← after]
    exact ih aligned.popReady (by rw [popped]; exact runs) closed'
      (UInt64.le_iff_toNat_le.mp reached') (by omega) value' held'

theorem Aligned.unstranded {buffer : SequencedBuffer α} (aligned : buffer.Aligned) :
    buffer.Unstranded where
  ahead entry member := by
    obtain ⟨place, here, ahead⟩ := aligned.ahead entry member
    have bounded := entry.1.toNat_lt
    obtain ⟨next, running, rfl, -⟩ := position_lt here (by omega)
    exact ⟨next, running, UInt64.le_iff_toNat_le.mpr ahead⟩
  released next value running held := by
    obtain ⟨rest, -, popped⟩ := aligned.popReady_expected running held
    rw [popped]
  drains next last running closed sequence := aligned.drains running closed

/-! ## Pushing a pending sequence -/

theorem push_expected {buffer : SequencedBuffer α} {sequence : UInt64}
    (running : buffer.nextSequence = some sequence) (makeValue : Unit → α) :
    (buffer.push sequence makeValue).2 ≠ .duplicate := by
  rw [push, running]
  split
  next => exact fun same => by cases same
  next =>
    simp only [UInt64.lt_irrefl, ↓reduceIte]
    exact fun same => by cases same

theorem Aligned.push_pending {buffer : SequencedBuffer α} (aligned : buffer.Aligned)
    {sequence : UInt64} (unheld : buffer.Unheld sequence)
    (held : buffer.pending.contains sequence = true) (makeValue : Unit → α) :
    (buffer.push sequence makeValue).2 = .duplicate := by
  obtain ⟨value, found⟩ := OrderedMap.contains_iff.mp held
  obtain ⟨place, here, ahead⟩ := aligned.ahead _ (OrderedMap.find?_eq_some.mp found)
  have pushed := push_pushed aligned.consistent sequence makeValue
  generalize buffer.push sequence makeValue = outcome at pushed ⊢
  cases pushed with
  | ready running expected =>
    rcases expected with unknown | expected
    · rw [unknown] at here
      cases here
    · obtain ⟨next, started, same, -⟩ := position_lt expected sequence.toNat_lt
      obtain rfl := UInt64.toNat_inj.mp same
      rw [unheld started] at held
      cases held
  | old place' here' behind =>
    obtain rfl := Option.some.inj (here.symm.trans here')
    exact absurd behind (Nat.not_lt.mpr ahead)
  | duplicate => rfl
  | gapLimitExceeded place' here' far absent => rw [found] at absent; cases absent
  | capacityExhausted place' here' ahead' near' absent full => rw [found] at absent; cases absent
  | buffered place' here' ahead' near room absent => rw [found] at absent; cases absent

/-! ## Runs -/

theorem reached_snoc (limits : SequencedBufferLimits) (firstSequence : Option UInt64)
    (calls : List (BufferCall α)) (made : BufferCall α) :
    reached limits firstSequence (calls ++ [made]) = (reached limits firstSequence calls).call made := by
  simp [reached]

/-- Runs without a push of a held expected sequence stay aligned. -/
theorem reached_aligned (limits : SequencedBufferLimits) (firstSequence : Option UInt64)
    (calls : List (BufferCall α))
    (unheld : ∀ made sequence makeValue left, calls = made ++ .push sequence makeValue :: left →
      (reached limits firstSequence made).Unheld sequence) :
    (reached limits firstSequence calls).Aligned := by
  induction calls using List.reverseRecOn with
  | nil => exact aligned_initial limits firstSequence
  | append_singleton calls last ih =>
    have aligned := ih fun made sequence makeValue left split =>
      unheld made sequence makeValue (left ++ [last]) (by rw [split]; simp)
    rw [reached_snoc]
    cases last with
    | push sequence makeValue =>
      exact aligned.push sequence makeValue (unheld calls sequence makeValue [] rfl)
    | popReady => exact aligned.popReady

/-- No state of the run strands a value, and no push in it of a pending sequence is anything
but a duplicate. -/
structure NeverStrands (limits : SequencedBufferLimits) (firstSequence : Option UInt64)
    (calls : List (BufferCall α)) : Prop where
  unstranded : ∀ made left, calls = made ++ left → (reached limits firstSequence made).Unstranded
  duplicate : ∀ made sequence makeValue left, calls = made ++ .push sequence makeValue :: left →
    (reached limits firstSequence made).pending.contains sequence = true →
    ((reached limits firstSequence made).push sequence makeValue).2 = .duplicate

/-- Runs in which no expected sequence is pushed while it is held, and no others. -/
theorem never_strands_iff (limits : SequencedBufferLimits) (firstSequence : Option UInt64)
    (calls : List (BufferCall α)) :
    NeverStrands limits firstSequence calls ↔
      ∀ made sequence makeValue left, calls = made ++ .push sequence makeValue :: left →
        (reached limits firstSequence made).Unheld sequence := by
  constructor
  · intro never made sequence makeValue left split running
    by_contra held
    exact push_expected running makeValue
      (never.duplicate made sequence makeValue left split (Bool.of_not_eq_false held))
  · intro unheld
    have aligned : ∀ made left, calls = made ++ left → (reached limits firstSequence made).Aligned := by
      intro made left split
      refine reached_aligned limits firstSequence made fun earlier sequence makeValue later within =>
        unheld earlier sequence makeValue (later ++ left) ?_
      rw [split, within, List.append_assoc, List.cons_append]
    refine ⟨fun made left split => (aligned made left split).unstranded, ?_⟩
    intro made sequence makeValue left split held
    exact (aligned made _ split).push_pending (unheld made sequence makeValue left split) held makeValue

/-- Expected 1: the push of 2 is held, the push of 1 is ready, and the push of 2 is ready too.
The held 2 is behind the expected 3 then, and no pop gets past it. -/
theorem pending_push_ready :
    let limits : SequencedBufferLimits := { maximumPendingValues := 4, maximumSequenceGap := 4 }
    let first : BufferCall Unit := .push 2 fun _ => ()
    let second : BufferCall Unit := .push 1 fun _ => ()
    let gapClosed := reached limits (some 1) [first, second]
    let stranded := reached limits (some 1) [first, second, first]
    gapClosed.pending.contains 2 = true ∧ (gapClosed.push 2 fun _ => ()).2 = .ready ∧
      stranded.nextSequence = some 3 ∧ stranded.pending.contains 2 = true ∧
      stranded.popReady.2 = none ∧ ¬NeverStrands limits (some 1) [first, second, first] := by
  intro limits first second gapClosed stranded
  refine ⟨by decide, by decide, by decide, by decide, by decide, fun never => ?_⟩
  have duplicate := never.duplicate [first, second] 2 (fun _ => ()) [] rfl (by decide)
  revert duplicate
  decide

end SequencedBuffer
end MarketLab.MarketData

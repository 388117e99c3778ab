import MarketLab.Matching.Runs

/-!
# What a step does to the order of a queue

Nothing compares priorities: orders are pushed behind their price and matched from the
front. A step leaves the orders of every queue as they were, but for those that go, or it
sets the priority of its command's own order and pushes it. Ranks handed out in increasing
order to the order a step pushes therefore stay increasing along every price.
-/
namespace MarketLab.Matching
open MarketLab.Collections

/-! ## What a step does to the order of a queue -/

/-- The command sets its key's priority: an accepted submit, or an accepted update that
moves the price or raises the size. -/
inductive Market.Sets (m : Market) : Command → Prop
  | submit {order : SubmitOrder} (valid : validateSubmit order = none)
      (inactive : ¬ m.Active order.key) (l : Ladder) (named : order.direction = l.side) :
      Sets m (.submit order)
  | update {order : UpdateOrder} (instrument : SymbolId) (l : Ladder) (resting : RestingOrder)
      (valid : validateUpdate order = none) (rests : resting ∈ m.queue instrument l)
      (named : resting.key = order.key)
      (moved : limitPrice order.pricing ≠ some resting.limitPrice ∨
        resting.openSize.value < order.size.value) :
      Sets m (.update order)

theorem Market.Refuses.not_sets {m : Market} {command : Command} {event : Event}
    (refusal : m.Refuses command event) : ¬ m.Sets command := by
  intro sets
  cases refusal with
  | submitInvalid invalid =>
    cases sets with
    | submit valid => simp [valid] at invalid
  | submitActive valid active =>
    cases sets with
    | submit _ inactive => exact inactive active
  | updateInvalid invalid =>
    cases sets with
    | update _ _ _ valid => simp [valid] at invalid
  | updateInactive valid inactive =>
    cases sets with
    | update instrument l resting _ rests named =>
      exact inactive ⟨instrument, l, resting, rests, named⟩
  | cancelInactive inactive => cases sets

/-- A step issues one sequence number, or none and then it sets no priority. -/
theorem Market.Step.nextSequence {m after : Market} {command : Command} {events : List Event}
    (step : m.Step command events after) :
    (after.nextSequence = m.nextSequence ∧ ¬ m.Sets command) ∨
      after.nextSequence = m.nextSequence.next := by
  cases step with
  | refused refusal => exact Or.inl ⟨rfl, refusal.not_sets⟩
  | ignored => exact Or.inr rfl
  | submitted => exact Or.inr rfl
  | reduced => exact Or.inr rfl
  | replaced => exact Or.inr rfl
  | cancelled => exact Or.inl ⟨rfl, (nomatch ·)⟩

/-- A queue after a step that sets priority: the old orders but for the command's own, and
possibly one of the command's, pushed behind its price. -/
def Pushed (m : Market) (l : Ladder) (key : OrderKey) (before after : List RestingOrder) : Prop :=
  ∃ kept : List RestingOrder, (kept.map identity).Sublist (before.map identity) ∧
    (∀ order ∈ kept, order.key ≠ key) ∧
    (after = kept ∨ ∃ order, order.key = key ∧ order.sequence = m.nextSequence ∧
      after = enqueue l order kept)

theorem aggress_rest_identity (l : Ladder) (incoming : IncomingOrder) (pricing : OrderPricing)
    (opposite : List RestingOrder) :
    ((aggress l incoming pricing opposite).outcome.rest.map identity).Sublist
      (opposite.map identity) :=
  List.IsSuffix.sublist
    ⟨_, (sweep_ident _ identity (fun order n => identity_resize order n) _ opposite).symm⟩

theorem aggress_pushed (m : Market) (l : Ladder) (key : OrderKey) (size : Quantity)
    (pricing : OrderPricing) (opposite own before : List RestingOrder)
    (kept : own.Sublist before) (others : ∀ order ∈ own, order.key ≠ key) :
    Pushed m l key before ((aggress l (m.incoming key l size) pricing opposite).own l own) := by
  refine ⟨own, kept.map identity, others, ?_⟩
  unfold Aggression.own
  cases rests : (aggress l (m.incoming key l size) pricing opposite).rests with
  | none => exact Or.inl rfl
  | some order =>
    obtain ⟨-, -, made⟩ := remainder_some rests
    exact Or.inr ⟨order, by rw [made]; rfl, by rw [made]; rfl, rfl⟩

/-- Both sides of an aggression's instrument, and every other instrument. -/
theorem advance_pushed {m : Market} {instrument : SymbolId} {l : Ladder} {key : OrderKey}
    {size : Quantity} {pricing : OrderPricing} {own : List RestingOrder}
    (kept : own.Sublist (m.queue instrument l)) (others : ∀ order ∈ own, order.key ≠ key)
    (elsewhere : ∀ other side, ¬ (other = instrument ∧ side = l) →
      ∀ order ∈ m.queue other side, order.key ≠ key) (other : SymbolId) (side : Ladder) :
    Pushed m side key (m.queue other side) ((m.advance instrument
      ((aggress l (m.incoming key l size) pricing (m.queue instrument l.opposite)).queues l
        own)).queue other side) := by
  rw [Market.queue_advance]
  split_ifs with here
  · subst here
    rcases Ladder.eq_or_eq_opposite l side with rfl | rfl
    · rw [Aggression.queues_self]
      exact aggress_pushed m side key size pricing _ own _ kept others
    · rw [Aggression.queues_opposite]
      have sub := aggress_rest_identity l (m.incoming key l size) pricing
        (m.queue other l.opposite)
      refine ⟨_, sub, ?_, Or.inl rfl⟩
      intro order member
      obtain ⟨old, was, same⟩ := List.mem_map.mp (sub.subset (List.mem_map_of_mem member))
      have sameKey : (identity old).key = (identity order).key := congrArg RestingOrder.key same
      change old.key = order.key at sameKey
      rw [← sameKey]
      exact elsewhere other l.opposite (by simp) old was
  · refine ⟨_, List.Sublist.refl _, ?_, Or.inl rfl⟩
    exact elsewhere other side fun same => here same.1

/-- A step leaves every queue in order, or sets its command's priority and pushes it. -/
theorem Market.Step.order {m after : Market} {command : Command} {events : List Event}
    (step : m.Step command events after) (sound : m.Sound) :
    (¬ m.Sets command ∧ ∀ instrument l,
      ((after.queue instrument l).map identity).Sublist ((m.queue instrument l).map identity)) ∨
    (m.Sets command ∧ ∀ instrument l,
      Pushed m l command.key (m.queue instrument l) (after.queue instrument l)) := by
  cases step with
  | refused refusal => exact Or.inl ⟨refusal.not_sets, fun _ _ => List.Sublist.refl _⟩
  | ignored valid inactive unnamed =>
    refine Or.inl ⟨?_, ?_⟩
    · intro sets
      cases sets with
      | submit _ _ l named => exact unnamed l named
    · intro other l
      rw [queue_advance]
      split_ifs with here
      · rw [here]
      · rfl
  | submitted l valid inactive named a aggression queues queuesAfter =>
    subst queuesAfter
    subst aggression
    have absent : ∀ other side, ∀ order ∈ m.queue other side, order.key ≠ _ :=
      fun other side order rests keyed => inactive ⟨other, side, order, rests, keyed⟩
    exact Or.inr ⟨.submit valid inactive l named, advance_pushed (List.Sublist.refl _)
      (absent _ _) fun other side _ => absent other side⟩
  | @reduced order instrument l resting valid rests named price smaller queue queueAfter =>
    refine Or.inl ⟨?_, ?_⟩
    · intro sets
      cases sets with
      | update other side same _ restsToo namedToo moved =>
        have keyed := named.trans namedToo.symm
        obtain ⟨rfl, rfl⟩ := sound.once _ _ _ _ resting rests same restsToo keyed
        have equal := key_unique (sound.keys instrument l) rests restsToo keyed
        subst equal
        rcases moved with other | larger
        · exact other price
        · exact absurd larger (UInt64.not_lt.mpr smaller)
    · intro other side
      rw [queue_advance]
      split_ifs with here
      · subst here
        rcases Ladder.eq_or_eq_opposite l side with rfl | rfl
        · have same : queue.map identity = (m.queue other side).map identity := by
            rw [queueAfter, List.map_map]
            refine List.map_congr_left fun order _ => ?_
            simp only [Function.comp_apply]
            split_ifs <;> rfl
          rw [Function.update_self, same]
        · rw [Function.update_of_ne l.opposite_ne]
      · rfl
  | @replaced order instrument l resting price valid rests named limit moved a aggression queues
      queuesAfter =>
    subst queuesAfter
    subst aggression
    have sets : m.Sets (.update order) := by
      refine .update instrument l resting valid rests named (moved.imp ?_ id)
      intro different
      rw [limit]
      exact fun same => different (Option.some_inj.mp same)
    refine Or.inr ⟨sets, advance_pushed (List.filter_sublist) ?_ ?_⟩
    · intro other member
      simpa [Command.key] using (List.mem_filter.mp member).2
    · intro other side away same member keyed
      obtain ⟨rfl, rfl⟩ := sound.once _ _ _ _ resting rests same member (named.trans keyed.symm)
      exact away ⟨rfl, rfl⟩
  | cancelled instrument l resting rests named queue queueAfter =>
    refine Or.inl ⟨(nomatch ·), ?_⟩
    intro other side
    rw [queue_setQueue]
    split_ifs with here
    · obtain ⟨rfl, rfl⟩ := here
      rw [queueAfter]
      exact (List.filter_sublist).map identity
    · rfl

/-! ## Ranks -/

/-- Along every price the ranks increase, and all are below the bound. -/
structure Ranked (rank : RestingOrder → Nat → Prop) (bound : Nat) (queue : List RestingOrder) :
    Prop where
  increasing : queue.Pairwise fun ahead behind => ahead.limitPrice = behind.limitPrice →
    ∃ i j, rank ahead i ∧ rank behind j ∧ i < j
  below : ∀ order ∈ queue, ∃ i, rank order i ∧ i < bound

namespace Ranked
variable {rank rank' : RestingOrder → Nat → Prop} {bound bound' : Nat}
  {queue kept : List RestingOrder}

theorem sublist (ranked : Ranked rank bound queue) (sub : kept.Sublist queue) :
    Ranked rank bound kept :=
  ⟨ranked.increasing.sublist sub, fun order member => ranked.below order (sub.subset member)⟩

theorem mono (ranked : Ranked rank bound queue) (grows : bound ≤ bound')
    (keeps : ∀ order ∈ queue, ∀ i, rank order i → rank' order i) : Ranked rank' bound' queue := by
  constructor
  · refine List.Pairwise.imp_of_mem ?_ ranked.increasing
    intro ahead behind member memberToo earlier same
    obtain ⟨i, j, first, second, less⟩ := earlier same
    exact ⟨i, j, keeps ahead member i first, keeps behind memberToo j second, less⟩
  · intro order member
    obtain ⟨i, ranked, less⟩ := ranked.below order member
    exact ⟨i, keeps order member i ranked, by omega⟩

/-- A rank above all others goes behind its price. -/
theorem enqueue (l : Ladder) (ranked : Ranked rank bound queue)
    (sorted : queue.Pairwise fun ahead behind => ¬ l.Before behind.limitPrice ahead.limitPrice)
    {order : RestingOrder} {i : Nat} (placed : rank order i) (above : bound ≤ i)
    (less : i < bound') : Ranked rank bound' (enqueue l order queue) := by
  constructor
  · unfold Matching.enqueue
    have increasing := ranked.increasing
    have below := ranked.below
    induction queue with
    | nil => simp
    | cons head rest ih =>
      rw [List.pairwise_cons] at sorted increasing
      simp only [List.forall_mem_cons] at below
      by_cases ahead : l.Before order.limitPrice head.limitPrice
      · rw [List.orderedInsert_cons, if_pos ahead, List.pairwise_cons]
        refine ⟨?_, List.pairwise_cons.mpr increasing⟩
        intro other member same
        rcases List.mem_cons.mp member with rfl | later
        · rw [same] at ahead
          exact absurd ahead (irrefl_of l.Before _)
        · rw [same] at ahead
          exact absurd ahead (sorted.1 other later)
      · rw [List.orderedInsert_cons, if_neg ahead, List.pairwise_cons]
        refine ⟨?_, ih ⟨increasing.2, below.2⟩ sorted.2 increasing.2 below.2⟩
        intro other member
        rcases (List.mem_orderedInsert _).mp member with rfl | later
        · intro _
          obtain ⟨j, first, small⟩ := below.1
          exact ⟨j, i, first, placed, by omega⟩
        · exact increasing.1 other later
  · intro other member
    rcases (List.mem_orderedInsert _).mp member with rfl | old
    · exact ⟨i, placed, less⟩
    · obtain ⟨j, ranked, small⟩ := ranked.below other old
      exact ⟨j, ranked, by omega⟩

end Ranked

theorem map_enqueue_identity (l : Ladder) (order : RestingOrder) (queue : List RestingOrder) :
    (enqueue l order queue).map identity = enqueue l (identity order) (queue.map identity) :=
  List.map_orderedInsert _ _ _ _ _ (fun _ _ => Iff.rfl) (fun _ _ => Iff.rfl)

/-- Ranks stay increasing through a step that keeps the ranks of other orders and hands the
order it places a rank above all. -/
theorem Market.Step.ranked {m after : Market} {command : Command} {events : List Event}
    (step : m.Step command events after) (sound : m.Sound) {rank rank' : RestingOrder → Nat → Prop}
    {bound bound' : Nat}
    (ranked : ∀ instrument l, Ranked rank bound ((m.queue instrument l).map identity))
    (grows : bound ≤ bound')
    (keeps : ∀ order i, (m.Sets command → order.key ≠ command.key) → rank order i → rank' order i)
    (places : m.Sets command → ∀ order : RestingOrder, order.key = command.key →
      order.sequence = m.nextSequence → ∃ i, rank' order i ∧ bound ≤ i ∧ i < bound') :
    ∀ instrument l, Ranked rank' bound' ((after.queue instrument l).map identity) := by
  intro instrument l
  rcases step.order sound with ⟨quiet, kept⟩ | ⟨sets, pushed⟩
  · refine ((ranked instrument l).sublist (kept instrument l)).mono grows ?_
    intro order _ i holds
    exact keeps order i (fun sets => absurd sets quiet) holds
  · obtain ⟨kept, sub, others, same | ⟨order, named, sequence, same⟩⟩ := pushed instrument l
    all_goals
      have otherKeys : ∀ order ∈ kept.map identity, order.key ≠ command.key := by
        intro order member
        obtain ⟨old, was, rfl⟩ := List.mem_map.mp member
        exact others old was
    · rw [same]
      refine ((ranked instrument l).sublist sub).mono grows ?_
      intro order member i holds
      exact keeps order i (fun _ => otherKeys order member) holds
    · rw [same, map_enqueue_identity]
      obtain ⟨i, placed, above, less⟩ := places sets (identity order) named sequence
      have oldRanks := ((ranked instrument l).sublist sub).mono (Nat.le_refl bound)
        (fun order member i holds => keeps order i (fun _ => otherKeys order member) holds)
      refine oldRanks.enqueue l ?_ placed above less
      have sorted := (List.pairwise_map (f := identity)
        (R := fun ahead behind : RestingOrder => ¬ l.Before behind.limitPrice ahead.limitPrice)).mpr
          (sound.sorted instrument l)
      exact sorted.sublist sub

end MarketLab.Matching

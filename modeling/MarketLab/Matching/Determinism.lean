import MarketLab.Matching.Runs

/-!
# The market is deterministic

What a command does to a sound market is settled by the market: it is refused or not, a key
names one resting order at most, and that order's price and size say which way an update goes.
A step shown by any means is therefore the step the engine takes.
-/
namespace MarketLab.Matching
namespace Market
variable {m : Market}

/-- A command that is refused does nothing else, and is refused for one reason. -/
theorem Refuses.only {command : Command} {event : Event} {events : List Event} {after : Market}
    (refusal : m.Refuses command event) (step : m.Step command events after) :
    events = [event] ∧ after = m := by
  have active : ∀ {key : OrderKey} {instrument : SymbolId} {l : Ladder} {resting : RestingOrder},
      resting ∈ m.queue instrument l → resting.key = key → m.Active key :=
    fun rests named => ⟨_, _, _, rests, named⟩
  cases step with
  | refused other => cases refusal <;> cases other <;> simp_all
  | ignored valid inactive unnamed => cases refusal <;> simp_all
  | submitted l valid inactive named a aggression queues queuesAfter =>
    cases refusal <;> simp_all
  | reduced instrument l resting valid rests named price smaller queue queueAfter =>
    have rested := active rests named
    cases refusal <;> simp_all
  | replaced instrument l resting price valid rests named limit moved a aggression queues
      queuesAfter =>
    have rested := active rests named
    cases refusal <;> simp_all
  | cancelled instrument l resting rests named queue queueAfter =>
    have rested := active rests named
    cases refusal
    simp_all

/-- A command has one effect. -/
theorem Step.deterministic (sound : m.Sound) {command : Command} {events other : List Event}
    {after reached : Market} (first : m.Step command events after)
    (second : m.Step command other reached) : events = other ∧ after = reached := by
  cases first with
  | refused refusal =>
    obtain ⟨answer, same⟩ := refusal.only second
    exact ⟨answer.symm, same.symm⟩
  | ignored valid inactive unnamed =>
    cases second with
    | refused refusal => exact refusal.only (.ignored valid inactive unnamed)
    | ignored => exact ⟨rfl, rfl⟩
    | submitted l _ _ named => exact absurd named (unnamed l)
  | submitted l valid inactive named a aggression queues queuesAfter =>
    cases second with
    | refused refusal =>
      exact refusal.only (.submitted l valid inactive named a aggression queues queuesAfter)
    | ignored _ _ unnamed => exact absurd named (unnamed l)
    | submitted side _ _ namedToo b aggressionToo queuesToo queuesAfterToo =>
      obtain rfl := Ladder.side_injective (named.symm.trans namedToo)
      rw [← aggression] at aggressionToo
      subst aggressionToo
      rw [← queuesAfter] at queuesAfterToo
      subst queuesAfterToo
      exact ⟨rfl, rfl⟩
  | reduced instrument l resting valid rests named price smaller queue queueAfter =>
    cases second with
    | refused refusal =>
      exact refusal.only
        (.reduced instrument l resting valid rests named price smaller queue queueAfter)
    | reduced otherInstrument side same _ restsToo namedToo _ _ queueToo queueAfterToo =>
      obtain ⟨rfl, rfl, rfl⟩ := sound.same_resting rests restsToo (named.trans namedToo.symm)
      rw [← queueAfter] at queueAfterToo
      subst queueAfterToo
      exact ⟨rfl, rfl⟩
    | replaced otherInstrument side same limitPrice _ restsToo namedToo limit moved =>
      obtain ⟨rfl, rfl, rfl⟩ := sound.same_resting rests restsToo (named.trans namedToo.symm)
      rw [price, Option.some_inj] at limit
      subst limit
      rcases moved with away | larger
      · exact absurd rfl away
      · exact absurd larger (UInt64.not_lt.mpr smaller)
  | replaced instrument l resting price valid rests named limit moved a aggression queues
      queuesAfter =>
    cases second with
    | refused refusal =>
      exact refusal.only (.replaced instrument l resting price valid rests named limit moved a
        aggression queues queuesAfter)
    | reduced otherInstrument side same _ restsToo namedToo priceToo smaller =>
      obtain ⟨rfl, rfl, rfl⟩ := sound.same_resting rests restsToo (named.trans namedToo.symm)
      rw [limit, Option.some_inj] at priceToo
      subst priceToo
      rcases moved with away | larger
      · exact absurd rfl away
      · exact absurd larger (UInt64.not_lt.mpr smaller)
    | replaced otherInstrument side same limitPrice _ restsToo namedToo _ _ b aggressionToo
        queuesToo queuesAfterToo =>
      obtain ⟨rfl, rfl, rfl⟩ := sound.same_resting rests restsToo (named.trans namedToo.symm)
      rw [← aggression] at aggressionToo
      subst aggressionToo
      rw [← queuesAfter] at queuesAfterToo
      subst queuesAfterToo
      exact ⟨rfl, rfl⟩
  | cancelled instrument l resting rests named queue queueAfter =>
    cases second with
    | refused refusal =>
      exact refusal.only (.cancelled instrument l resting rests named queue queueAfter)
    | cancelled otherInstrument side same restsToo namedToo queueToo queueAfterToo =>
      obtain ⟨rfl, rfl, rfl⟩ := sound.same_resting rests restsToo (named.trans namedToo.symm)
      rw [← queueAfter] at queueAfterToo
      subst queueAfterToo
      exact ⟨rfl, rfl⟩

end Market

/-- The step a sound engine takes is the step its market allows. -/
theorem Engine.apply_of_step {engine : Engine} (sound : engine.Sound) {command : Command}
    {events : List Event} {reached : Market}
    (step : Market.Step engine.market command events reached) :
    ∃ after, engine.apply command = .ok (after, events) ∧ after.Sound ∧ after.market = reached := by
  obtain ⟨after, other, applied, afterSound, taken⟩ := Engine.apply_step sound command
  obtain ⟨rfl, same⟩ := taken.deterministic sound.market step
  exact ⟨after, applied, afterSound, same⟩

end MarketLab.Matching

/-!
# Transition systems

The states a system reaches from a start by steps that all meet a condition. What holds at the
start and is kept by every such step holds in every state reached.
-/
namespace MarketLab.Control
variable {σ α : Type} (step : σ → α → Option σ) (meets : σ → α → Prop)

inductive Reachable (start : σ) : σ → Prop
  | start : Reachable start start
  | step {before after : σ} {action : α} (reached : Reachable start before)
      (met : meets before action) (taken : step before action = some after) :
      Reachable start after

variable {step meets} {start state : σ}

theorem Reachable.invariant (holds : σ → Prop) (initial : holds start)
    (keeps : ∀ before action after, meets before action → step before action = some after →
      holds before → holds after)
    (reached : Reachable step meets start state) : holds state := by
  induction reached with
  | start => exact initial
  | step _ met taken ih => exact keeps _ _ _ met taken ih

/-- Going on from a reached state by actions that meet the condition everywhere. -/
theorem Reachable.run {actions : List α} {final : σ} (every : ∀ s, ∀ action ∈ actions, meets s action)
    (reached : Reachable step meets start state) (ran : actions.foldlM step state = some final) :
    Reachable step meets start final := by
  induction actions generalizing state with
  | nil =>
    obtain rfl := Option.some.inj ran
    exact reached
  | cons action actions ih =>
    cases taken : step state action with
    | none => simp [taken] at ran
    | some next =>
      have met := every state action List.mem_cons_self
      refine ih (fun s later member => every s later (List.mem_cons_of_mem _ member))
        (.step reached met taken) ?_
      simpa [taken] using ran

/-- A run has no more steps than a measure that each of them lowers. -/
theorem length_le_measure {chosen : α → Prop} {holds : σ → Prop} {measure : σ → Nat}
    (lowers : ∀ before action after, chosen action → step before action = some after →
      holds before → holds after ∧ measure after < measure before)
    {actions : List α} {final : σ} (every : ∀ action ∈ actions, chosen action)
    (ran : actions.foldlM step state = some final) (initial : holds state) :
    actions.length + measure final ≤ measure state := by
  induction actions generalizing state with
  | nil =>
    obtain rfl := Option.some.inj ran
    exact Nat.le_of_eq (Nat.zero_add _)
  | cons action actions ih =>
    obtain ⟨here, later⟩ := List.forall_mem_cons.mp every
    cases taken : step state action with
    | none => simp [taken] at ran
    | some next =>
      obtain ⟨kept, less⟩ := lowers state action next here taken initial
      have continued : actions.foldlM step next = some final := by simpa [taken] using ran
      have rest := ih later continued kept
      rw [List.length_cons]
      omega

/-- A measure that some step can lower while it is positive can be brought to zero. -/
theorem Reachable.descend (holds : σ → Prop) (measure : σ → Nat)
    (progress : ∀ s, holds s → 0 < measure s → ∃ action next, meets s action ∧
      step s action = some next ∧ holds next ∧ measure next < measure s)
    (reached : Reachable step meets start state) (initial : holds state) :
    ∃ final, Reachable step meets start final ∧ holds final ∧ measure final = 0 := by
  induction bound : measure state using Nat.strongRecOn generalizing state with
  | ind n ih =>
    rcases Nat.eq_zero_or_pos n with zero | positive
    · exact ⟨state, reached, initial, bound.trans zero⟩
    · obtain ⟨action, next, met, taken, kept, less⟩ := progress state initial (bound ▸ positive)
      exact ih (measure next) (bound ▸ less) (.step reached met taken) kept rfl

end MarketLab.Control

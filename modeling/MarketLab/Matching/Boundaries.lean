import MarketLab.Matching.TopOfBook

/-!
# From one command boundary to a later one

What was logged for a side between two boundaries of a run tells its top at the later one:
the last update reports it, and without one it is what it was.
-/
namespace MarketLab.Matching
open MarketLab.Collections

/-- The engine at the boundary after some calls. -/
def stateAfter (calls : List Transition) : Engine := (calls.getLast?.map Transition.after).getD {}

/-- The events of some calls. -/
def eventsOf (calls : List Transition) : List Event := calls.flatMap Transition.events

@[simp] theorem stateAfter_snoc (calls : List Transition) (call : Transition) :
    stateAfter (calls ++ [call]) = call.after := by
  simp [stateAfter]

@[simp] theorem eventsOf_append (front back : List Transition) :
    eventsOf (front ++ back) = eventsOf front ++ eventsOf back := List.flatMap_append

/-- Each call starts where the one before it ended, and reports what it changed. -/
def Chained (calls : List Transition) : Prop :=
  ∀ earlier call later, calls = earlier ++ call :: later →
    call.before = stateAfter earlier ∧ call.ReportsChanges

theorem History.run_chained {commands : List Command} {history : History}
    (ran : run commands = .ok history) : Chained history.transitions := by
  obtain ⟨history', ran', -, -, -, calls⟩ := run_induct_calls
    (P := fun history => history.state = stateAfter history.transitions)
    (Q := fun earlier call => call.before = stateAfter earlier ∧ call.ReportsChanges)
    rfl (fun history command events after _ _ => by simp)
    (fun history command events after taken last =>
      ⟨last, taken.reportsChanges⟩) commands
  obtain rfl := Except.ok.inj (ran.symm.trans ran')
  exact calls

/-- The last update logged for a side since the earlier boundary, if any, reports its top. -/
theorem Chained.top_later {earlier further rest : List Transition}
    (chained : Chained (earlier ++ further ++ rest)) (instrument : SymbolId) (l : Ladder) :
    match (updatesOf instrument l.side (eventsOf further)).getLast? with
    | some event => event = updateOf instrument l ((stateAfter (earlier ++ further)).top instrument l)
    | none => (stateAfter (earlier ++ further)).top instrument l = (stateAfter earlier).top instrument l := by
  induction further using List.reverseRecOn generalizing rest with
  | nil =>
    rw [List.append_nil]
    rfl
  | append_singleton further call ih =>
    have split : earlier ++ (further ++ [call]) ++ rest = (earlier ++ further) ++ call :: rest := by simp
    obtain ⟨start, changes⟩ := chained _ _ _ split
    have before := ih (show Chained (earlier ++ further ++ call :: rest) from split ▸ chained)
    have logged := changes.logged instrument l
    rw [← List.append_assoc, stateAfter_snoc, eventsOf_append, updatesOf_append]
    have last : eventsOf [call] = call.events := List.append_nil _
    rw [last, logged]
    rw [← start] at before
    by_cases same : call.before.top instrument l = call.after.top instrument l
    · rw [if_pos same, List.append_nil]
      rwa [same] at before
    · rw [if_neg same, List.getLast?_append]
      rfl

end MarketLab.Matching

import Mathlib.Data.List.Forall2
import Mathlib.Data.List.Infix
import Mathlib.Order.Basic

/-!
# Bounded while loops

`while (guard) body` over an explicit state whose body may fail. The bound only
makes the definition structural: running out of it with the guard still true is
its own failure, and the total-correctness rule shows that a loop whose body
lowers a measure never gets there. `whileVisits` lists the states in which the
body is entered, for properties of the moments inside a loop. `LoopTrace` is the
loop itself, with no bound: a loop that returns has one, through those states.
-/
namespace MarketLab.Control
variable {ε σ : Type}

def whileLoop (exhausted : ε) (guard : σ → Bool) (body : σ → Except ε σ) :
    Nat → σ → Except ε σ
  | 0, s => if guard s then .error exhausted else .ok s
  | bound + 1, s =>
    if guard s then
      match body s with
      | .error e => .error e
      | .ok next => whileLoop exhausted guard body bound next
    else .ok s

/-- The states in which the body starts, in order. -/
def whileVisits (guard : σ → Bool) (body : σ → Except ε σ) : Nat → σ → List σ
  | 0, _ => []
  | bound + 1, s =>
    if guard s then
      s :: match body s with
        | .error _ => []
        | .ok next => whileVisits guard body bound next
    else []

section Rules
variable (exhausted : ε) {guard : σ → Bool} {body : σ → Except ε σ}
  (invariant : σ → Prop) (measure : σ → Nat)

/-- Total correctness: an invariant kept by a body that lowers the measure holds
at an exit the loop reaches within the measure. -/
theorem whileLoop_total
    (step : ∀ s, invariant s → guard s = true →
      ∃ next, body s = .ok next ∧ invariant next ∧ measure next < measure s)
    {bound : Nat} {s : σ} (start : invariant s) (enough : measure s ≤ bound) :
    ∃ final, whileLoop exhausted guard body bound s = .ok final ∧ invariant final ∧
      guard final = false := by
  induction bound generalizing s with
  | zero =>
    cases running : guard s with
    | false => exact ⟨s, by simp [whileLoop, running], start, running⟩
    | true =>
      obtain ⟨next, -, -, less⟩ := step s start running
      omega
  | succ bound ih =>
    cases running : guard s with
    | false => exact ⟨s, by simp [whileLoop, running], start, running⟩
    | true =>
      obtain ⟨next, ran, kept, less⟩ := step s start running
      obtain ⟨final, finished, holds, stopped⟩ := ih kept (by omega)
      exact ⟨final, by simp [whileLoop, running, ran, finished], holds, stopped⟩

/-- The invariant holds, and the guard is open, at every visited state. -/
theorem whileVisits_invariant
    (step : ∀ s next, invariant s → guard s = true → body s = .ok next → invariant next)
    {bound : Nat} {s : σ} (start : invariant s) :
    ∀ visited ∈ whileVisits guard body bound s, invariant visited ∧ guard visited = true := by
  induction bound generalizing s with
  | zero => simp [whileVisits]
  | succ bound ih =>
    intro visited member
    unfold whileVisits at member
    split at member
    next running =>
      rcases List.mem_cons.mp member with rfl | later
      · exact ⟨start, running⟩
      · cases ran : body s with
        | error e => simp [ran] at later
        | ok next =>
          simp only [ran] at later
          exact ih (step s next start running ran) visited later
    next => simp at member

end Rules

/-! ## Loops that write a log -/

section Log
variable {exhausted : ε} {guard : σ → Bool} {body : σ → Except ε σ} {α : Type} (log : σ → List α)
  (grows : ∀ s next, guard s = true → body s = .ok next → log s <+: log next)
include grows

theorem whileLoop_grows {bound : Nat} {s final : σ}
    (ran : whileLoop exhausted guard body bound s = .ok final) : log s <+: log final := by
  induction bound generalizing s with
  | zero =>
    unfold whileLoop at ran
    split at ran
    · cases ran
    · cases ran
      exact List.prefix_rfl
  | succ bound ih =>
    unfold whileLoop at ran
    split at ran
    next running =>
      cases entered : body s with
      | error e => simp [entered] at ran
      | ok next =>
        simp only [entered] at ran
        exact (grows s next running entered).trans (ih ran)
    next =>
      cases ran
      exact List.prefix_rfl

/-- An entry of the final log that was not there at the start was written by one visit:
the log before it had not passed the entry, the log after it contains it. -/
theorem whileVisits_log {bound : Nat} {s final : σ}
    (ran : whileLoop exhausted guard body bound s = .ok final) {front : List α} {entry : α}
    (before : log s <+: front) (within : front ++ [entry] <+: log final) :
    ∃ visited ∈ whileVisits guard body bound s, ∃ next, body visited = .ok next ∧
      log visited <+: front ∧ front ++ [entry] <+: log next := by
  have unwritten : ¬ front ++ [entry] <+: log s := by
    intro early
    have longer := (early.trans before).length_le
    simp only [List.length_append, List.length_singleton] at longer
    omega
  induction bound generalizing s with
  | zero =>
    unfold whileLoop at ran
    split at ran
    · cases ran
    · cases ran
      exact absurd within unwritten
  | succ bound ih =>
    unfold whileLoop at ran
    split at ran
    next running =>
      cases entered : body s with
      | error e => simp [entered] at ran
      | ok next =>
        simp only [entered] at ran
        have visits : whileVisits guard body (bound + 1) s =
            s :: whileVisits guard body bound next := by
          simp [whileVisits, running, entered]
        by_cases written : front ++ [entry] <+: log next
        · exact ⟨s, by simp [visits], next, entered, before, written⟩
        · -- Both are prefixes of the final log, so the next log has not passed the entry.
          have reached := whileLoop_grows log grows ran
          have short : log next <+: front := by
            refine List.prefix_of_prefix_length_le reached
              ((List.prefix_append front [entry]).trans within) ?_
            by_contra long
            refine written (List.prefix_of_prefix_length_le within reached ?_)
            simp only [List.length_append, List.length_singleton]
            omega
          obtain ⟨visited, member, rest⟩ := ih ran short written
          exact ⟨visited, by simp [visits, member], rest⟩
    next =>
      cases ran
      exact absurd within unwritten

end Log

/-! ## The loop without its bound -/

/-- A run of the loop to its exit, with the states its body started in. -/
inductive LoopTrace (guard : σ → Bool) (body : σ → Except ε σ) : σ → List σ → σ → Prop
  | done (s : σ) (stopped : guard s = false) : LoopTrace guard body s [] s
  | round (s next final : σ) (visits : List σ) (running : guard s = true)
      (ran : body s = .ok next) (rest : LoopTrace guard body next visits final) :
      LoopTrace guard body s (s :: visits) final

section Trace
variable {exhausted : ε} {guard : σ → Bool} {body : σ → Except ε σ}

theorem whileLoop_trace {bound : Nat} {s final : σ}
    (ran : whileLoop exhausted guard body bound s = .ok final) :
    LoopTrace guard body s (whileVisits guard body bound s) final := by
  induction bound generalizing s with
  | zero =>
    unfold whileLoop at ran
    split at ran
    · cases ran
    next stopped =>
      cases ran
      exact LoopTrace.done _ (Bool.of_not_eq_true stopped)
  | succ bound ih =>
    unfold whileLoop at ran
    unfold whileVisits
    split at ran
    next running =>
      cases entered : body s with
      | error e => simp [entered] at ran
      | ok next =>
        simp only [entered] at ran
        rw [if_pos running]
        exact LoopTrace.round s next final _ running entered (ih ran)
    next stopped =>
      cases ran
      rw [if_neg stopped]
      exact LoopTrace.done _ (Bool.of_not_eq_true stopped)

theorem LoopTrace.body_ran {s final : σ} {visits : List σ}
    (trace : LoopTrace guard body s visits final) :
    ∀ visited ∈ visits, ∃ next, body visited = .ok next := by
  induction trace with
  | done s stopped => simp
  | round s next final visits running ran rest ih =>
    rw [List.forall_mem_cons]
    exact ⟨⟨next, ran⟩, ih⟩

/-- A body that makes the steps `within` it emits one item for each of them. Where what is
pending before the body is what it emits and then what is pending after it, the whole loop
emits what was pending at its start, up to what is pending at the exit. -/
theorem LoopTrace.emits {α β : Type} {emitted : α → β → Prop} (invariant : σ → Prop)
    (within : σ → List α) (pending : σ → List β)
    (step : ∀ s next, invariant s → guard s = true → body s = .ok next →
      invariant next ∧ ∃ items, List.Forall₂ emitted (within s) items ∧
        pending s = items ++ pending next)
    {s final : σ} {visits : List σ} (trace : LoopTrace guard body s visits final)
    (start : invariant s) :
    invariant final ∧ guard final = false ∧
      ∃ items, List.Forall₂ emitted (visits.flatMap within) items ∧
        pending s = items ++ pending final := by
  induction trace with
  | done s stopped => exact ⟨start, stopped, [], List.Forall₂.nil, rfl⟩
  | round s next final visits running ran rest ih =>
    obtain ⟨kept, first, firstEmitted, before⟩ := step s next start running ran
    obtain ⟨holds, stopped, later, laterEmitted, after⟩ := ih kept
    refine ⟨holds, stopped, first ++ later, ?_, ?_⟩
    · rw [List.flatMap_cons]
      exact List.rel_append firstEmitted laterEmitted
    · rw [before, after, List.append_assoc]

end Trace
end MarketLab.Control

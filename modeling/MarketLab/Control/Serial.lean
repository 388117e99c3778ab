import Mathlib.Data.List.Infix

/-!
# Serving one request at a time

A machine answers a list of requests by serving them one after the other. What has been
answered of the requests accepted so far are the first answers to all of them, however many
requests are accepted later.
-/
namespace MarketLab.Control
variable {σ ρ β : Type} (serve : σ → ρ → σ × β)

/-- The state and the answers after some requests. -/
def serial : σ → List ρ → σ × List β
  | s, [] => (s, [])
  | s, request :: requests =>
    let next := serve s request
    let final := serial next.1 requests
    (final.1, next.2 :: final.2)

theorem serial_append (s : σ) (front back : List ρ) :
    serial serve s (front ++ back) =
      ((serial serve (serial serve s front).1 back).1,
        (serial serve s front).2 ++ (serial serve (serial serve s front).1 back).2) := by
  induction front generalizing s with
  | nil => rfl
  | cons request front ih => simp only [List.cons_append, serial, ih]

/-- A machine that sees requests through a map serves their images. -/
theorem serial_map {ρ' : Type} (serve' : σ → ρ' → σ × β) (f : ρ → ρ')
    (same : ∀ s request, serve s request = serve' s (f request)) (s : σ) (requests : List ρ) :
    serial serve s requests = serial serve' s (requests.map f) := by
  induction requests generalizing s with
  | nil => rfl
  | cons request requests ih => simp only [List.map_cons, serial, same, ih]

/-- What every request is answered in any state that meets an invariant. -/
theorem serial_induct (invariant : σ → Prop) (answered : β → Prop)
    (keeps : ∀ s request, invariant s →
      invariant (serve s request).1 ∧ answered (serve s request).2)
    {s : σ} (initial : invariant s) (requests : List ρ) :
    invariant (serial serve s requests).1 ∧ ∀ answer ∈ (serial serve s requests).2, answered answer := by
  induction requests generalizing s with
  | nil => exact ⟨initial, fun _ => (nomatch ·)⟩
  | cons request requests ih =>
    obtain ⟨kept, here⟩ := keeps s request initial
    obtain ⟨final, later⟩ := ih kept
    exact ⟨final, List.forall_mem_cons.mpr ⟨here, later⟩⟩

/-- A server that started in `s` and holds these answers and this state has served the first of
the accepted requests, in order. -/
structure Serves (s : σ) (accepted : List ρ) (answers : List (ρ × β)) (state : σ) : Prop where
  first : answers.map Prod.fst <+: accepted
  served : (state, answers.map Prod.snd) = serial serve s (answers.map Prod.fst)

namespace Serves
variable {serve} {s state : σ} {accepted : List ρ} {answers : List (ρ × β)}

theorem initial : Serves serve s [] [] s := ⟨List.prefix_refl _, rfl⟩

/-- Accepting another request changes no answer. -/
theorem accept (serves : Serves serve s accepted answers state) (request : ρ) :
    Serves serve s (accepted ++ [request]) answers state :=
  ⟨serves.first.trans (List.prefix_append _ _), serves.served⟩

/-- Serving the next request. -/
theorem answer (serves : Serves serve s accepted answers state) {request : ρ} {rest : List ρ}
    (next : accepted = answers.map Prod.fst ++ request :: rest) :
    Serves serve s accepted (answers ++ [(request, (serve state request).2)])
      (serve state request).1 where
  first := by
    rw [next, List.map_append]
    exact ⟨rest, by simp⟩
  served := by
    rw [List.map_append, List.map_append, List.map_singleton, List.map_singleton, serial_append,
      ← serves.served]
    rfl

/-- The answers are the first answers to everything accepted. -/
theorem answers_eq (serves : Serves serve s accepted answers state) :
    answers = (accepted.zip (serial serve s accepted).2).take answers.length := by
  obtain ⟨rest, split⟩ := serves.first
  have length : (answers.map Prod.fst).length = (answers.map Prod.snd).length := by simp
  have served := congrArg Prod.snd serves.served
  rw [← split, serial_append, List.zip_append (by rw [← served]; exact length), ← served]
  have whole : (answers.map Prod.fst).zip (answers.map Prod.snd) = answers := by
    rw [← List.unzip_fst, ← List.unzip_snd, List.zip_unzip]
  rw [whole, List.take_left]

/-- The state is that of serving the requests answered, and no others. -/
theorem state_eq (serves : Serves serve s accepted answers state) :
    state = (serial serve s (accepted.take answers.length)).1 := by
  obtain ⟨rest, split⟩ := serves.first
  have length : answers.length = (answers.map Prod.fst).length := (List.length_map _).symm
  have taken : accepted.take answers.length = answers.map Prod.fst := by
    rw [← split, length, List.take_left]
  rw [taken]
  exact congrArg Prod.fst serves.served

end Serves
end MarketLab.Control

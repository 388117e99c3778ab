/-!
# Programs that print and ask

A program prints, asks a server one request at a time and goes on with each answer, until it
returns or throws. Its outcome with a server that answers at once is what every way of running it
is compared with.
-/
namespace MarketLab.Control

inductive Program (ρ β ω ε α : Type) where
  | pure (value : α)
  | throw (thrown : ε)
  | print (text : List ω) (next : Program ρ β ω ε α)
  | ask (request : ρ) (next : β → Program ρ β ω ε α)

/-- The state the server is left in, what was printed and how the program ended. -/
structure Outcome (σ ω ε α : Type) where
  server : σ
  printed : List ω
  result : Except ε α

/-- The outcome of a program that has printed something before. -/
def Outcome.behind {σ ω ε α : Type} (outcome : Outcome σ ω ε α) (printed : List ω) :
    Outcome σ ω ε α :=
  { outcome with printed := printed ++ outcome.printed }

namespace Program
variable {ρ β ω ε α γ σ : Type}

def bind : Program ρ β ω ε α → (α → Program ρ β ω ε γ) → Program ρ β ω ε γ
  | .pure value, next => next value
  | .throw thrown, _ => .throw thrown
  | .print text rest, next => .print text (rest.bind next)
  | .ask request rest, next => .ask request fun answer => (rest answer).bind next

instance : Monad (Program ρ β ω ε) where
  pure := .pure
  bind := bind

variable (serve : σ → ρ → σ × β)

def outcome : σ → Program ρ β ω ε α → Outcome σ ω ε α
  | server, .pure value => { server, printed := [], result := .ok value }
  | server, .throw thrown => { server, printed := [], result := .error thrown }
  | server, .print text next => (outcome server next).behind text
  | server, .ask request next =>
    let answered := serve server request
    outcome answered.1 (next answered.2)

/-- The steps of a program whose requests take `each` steps. -/
def steps (each : Nat) : σ → Program ρ β ω ε α → Nat
  | _, .pure _ => 0
  | _, .throw _ => 0
  | server, .print _ next => steps each server next + 1
  | server, .ask request next =>
    let answered := serve server request
    steps each answered.1 (next answered.2) + each

/-- The second of two programs runs where the first one has returned. -/
theorem outcome_bind (server : σ) (first : Program ρ β ω ε α) (next : α → Program ρ β ω ε γ) :
    (first >>= next).outcome serve server =
      match first.outcome serve server with
      | { server, printed, result := .ok value } => ((next value).outcome serve server).behind printed
      | { server, printed, result := .error thrown } => { server, printed, result := .error thrown } := by
  change (first.bind next).outcome serve server = _
  induction first generalizing server with
  | pure value => rfl
  | throw thrown => rfl
  | print text rest ih =>
    rw [bind, outcome, ih, outcome, Outcome.behind]
    split
    next => simp only [Outcome.behind, List.append_assoc, *]
    next => simp only [Outcome.behind, *]
  | ask request rest ih => exact ih _ _

end Program
end MarketLab.Control

/-!
# Readers that recognise a language

A reader takes the tokens of its input one at a time and either returns or complains. It
recognises a language, a relation between lists of tokens and values, when on the tokens of a
value it returns what belongs to the value and on all others it complains. The rules follow the
way a reader is written, statement by statement.
-/
namespace MarketLab.Control
variable {σ ε τ α β γ : Type} (views : σ → List τ → Prop) (complaint : ε → Prop)

def Recognizes (body : StateT σ (Except ε) γ) (language : List τ → β → Prop)
    (out : β → Except ε γ) : Prop :=
  ∀ s tokens, views s tokens → (∀ b, language tokens b → body.run' s = out b) ∧
    ((∀ b, ¬ language tokens b) → ∃ e, body.run' s = .error e ∧ complaint e)

/-- Takes the next token, and complains when there is none. -/
structure TakesToken (take : StateT σ (Except ε) τ) : Prop where
  missing : ∀ s, views s [] → ∃ e, take.run s = .error e ∧ complaint e
  next : ∀ s token rest, views s (token :: rest) →
    ∃ after, take.run s = .ok (token, after) ∧ views after rest

/-- Returns when there is no token left, and complains when there is one. -/
structure MeetsEnd (finish : StateT σ (Except ε) Unit) : Prop where
  done : ∀ s, views s [] → ∃ after, finish.run s = .ok ((), after)
  extra : ∀ s token rest, views s (token :: rest) → ∃ e, finish.run s = .error e ∧ complaint e

/-- Decodes a token that is an item, and complains of any other. -/
def Decodes (item : τ → α → Prop) (decode : τ → Except ε α) : Prop :=
  ∀ token, (∀ a, item token a → decode token = .ok a) ∧
    ((∀ a, ¬ item token a) → ∃ e, decode token = .error e ∧ complaint e)

/-- The language of an item followed by what its value asks for. -/
def followed (item : τ → α → Prop) (rest : α → List τ → β → Prop) (tokens : List τ) (b : β) : Prop :=
  ∃ token tail a, tokens = token :: tail ∧ item token a ∧ rest a tail b

/-- The language of nothing more, with one value. -/
def ended (value : β) (tokens : List τ) (b : β) : Prop := tokens = [] ∧ b = value

section Run
variable {body : StateT σ (Except ε) α} {next : α → StateT σ (Except ε) γ} {s after : σ}

theorem run'_bind_ok {a : α} (ran : body.run s = .ok (a, after)) :
    (body >>= next).run' s = (next a).run' after := by
  rw [StateT.run'_eq, StateT.run_bind, ran]
  rfl

theorem run'_bind_error {e : ε} (ran : body.run s = .error e) :
    (body >>= next).run' s = .error e := by
  rw [StateT.run'_eq, StateT.run_bind, ran]
  rfl

theorem run_lift_ok {decoded : Except ε α} {a : α} (same : decoded = .ok a) :
    (liftM decoded : StateT σ (Except ε) α).run s = .ok (a, s) := by
  subst same
  rfl

theorem run_lift_error {decoded : Except ε α} {e : ε} (same : decoded = .error e) :
    (liftM decoded : StateT σ (Except ε) α).run s = .error e := by
  subst same
  rfl

end Run

variable {views complaint}

namespace Recognizes
variable {take : StateT σ (Except ε) τ} {close : StateT σ (Except ε) Unit}
  {next : α → StateT σ (Except ε) γ} {rest : α → List τ → β → Prop} {out : β → Except ε γ}

/-- A token that is decoded at once. -/
theorem item {item : τ → α → Prop} {decode : τ → Except ε α}
    (takes : TakesToken views complaint take) (decodes : Decodes complaint item decode)
    (continues : ∀ a, Recognizes views complaint (next a) (rest a) out) :
    Recognizes views complaint (do next (← decode (← take))) (followed item rest) out := by
  intro s tokens view
  cases tokens with
  | nil =>
    obtain ⟨e, ran, complains⟩ := takes.missing s view
    exact ⟨fun b ⟨_, _, _, same, _⟩ => (nomatch same), fun _ => ⟨e, run'_bind_error ran, complains⟩⟩
  | cons token tail =>
    obtain ⟨after, ran, remains⟩ := takes.next s token tail view
    rw [run'_bind_ok ran]
    obtain ⟨decoded, refused⟩ := decodes token
    refine ⟨fun b ⟨_, _, a, same, named, follows⟩ => ?_, fun outside => ?_⟩
    · obtain ⟨rfl, rfl⟩ := List.cons.inj same
      rw [run'_bind_ok (run_lift_ok (decoded a named))]
      exact (continues a after tail remains).1 b follows
    · by_cases named : ∃ a, item token a
      · obtain ⟨a, named⟩ := named
        rw [run'_bind_ok (run_lift_ok (decoded a named))]
        exact (continues a after tail remains).2 fun b follows =>
          outside b ⟨token, tail, a, rfl, named, follows⟩
      · obtain ⟨e, failed, complains⟩ := refused (not_exists.mp named)
        exact ⟨e, run'_bind_error (run_lift_error failed), complains⟩

/-- Any token. -/
theorem token {next : τ → StateT σ (Except ε) γ} {rest : τ → List τ → β → Prop}
    (takes : TakesToken views complaint take)
    (continues : ∀ token, Recognizes views complaint (next token) (rest token) out) :
    Recognizes views complaint (take >>= next) (followed Eq rest) out := by
  intro s tokens view
  cases tokens with
  | nil =>
    obtain ⟨e, ran, complains⟩ := takes.missing s view
    exact ⟨fun b ⟨_, _, _, same, _⟩ => (nomatch same), fun _ => ⟨e, run'_bind_error ran, complains⟩⟩
  | cons token tail =>
    obtain ⟨after, ran, remains⟩ := takes.next s token tail view
    rw [run'_bind_ok ran]
    refine ⟨fun b ⟨_, _, _, same, named, follows⟩ => ?_, fun outside => ?_⟩
    · obtain ⟨rfl, rfl⟩ := List.cons.inj same
      exact (continues token after tail remains).1 b (named ▸ follows)
    · exact (continues token after tail remains).2 fun b follows =>
        outside b ⟨token, tail, token, rfl, rfl, follows⟩

/-- The end of the input, and then a value. -/
theorem finish {last : StateT σ (Except ε) γ} (meets : MeetsEnd views complaint close) (value : β)
    (returns : ∀ s, last.run' s = out value) :
    Recognizes views complaint (do close; last) (ended value) out := by
  intro s tokens view
  cases tokens with
  | nil =>
    obtain ⟨after, ran⟩ := meets.done s view
    rw [run'_bind_ok ran, returns]
    exact ⟨fun b ⟨_, same⟩ => by rw [same], fun outside => absurd ⟨rfl, rfl⟩ (outside value)⟩
  | cons token tail =>
    obtain ⟨e, ran, complains⟩ := meets.extra s token tail view
    exact ⟨fun b ⟨ends, _⟩ => (nomatch ends), fun _ => ⟨e, run'_bind_error ran, complains⟩⟩

/-- A complaint recognises nothing. -/
theorem nothing {e : ε} (complains : complaint e) :
    Recognizes views complaint (throw e : StateT σ (Except ε) γ) (fun _ (_ : β) => False) out :=
  fun _ _ _ => ⟨fun _ => (nomatch ·), fun _ => ⟨e, rfl, complains⟩⟩

/-- A value that is made of the one returned. -/
theorem map {δ : Type} {body : StateT σ (Except ε) γ} {language : List τ → β → Prop}
    {out' : β → Except ε δ} (recognizes : Recognizes views complaint body language out) (f : γ → δ)
    (same : ∀ tokens b, language tokens b → (out b).map f = out' b) :
    Recognizes views complaint (do return f (← body)) language out' := by
  have mapped : ∀ s, (do return f (← body) : StateT σ (Except ε) δ).run' s = (body.run' s).map f := by
    intro s
    rw [StateT.run'_eq, StateT.run'_eq, StateT.run_bind]
    cases body.run s <;> rfl
  intro s tokens view
  obtain ⟨returned, refused⟩ := recognizes s tokens view
  rw [mapped]
  refine ⟨fun b inside => by rw [returned b inside, same tokens b inside], fun outside => ?_⟩
  obtain ⟨e, failed, complains⟩ := refused outside
  exact ⟨e, by rw [failed]; rfl, complains⟩

theorem congr {body : StateT σ (Except ε) γ} {language other : List τ → β → Prop}
    (recognizes : Recognizes views complaint body language out)
    (same : ∀ tokens b, language tokens b ↔ other tokens b) :
    Recognizes views complaint body other out := by
  have equal : language = other := funext fun tokens => funext fun b => propext (same tokens b)
  exact equal ▸ recognizes

end Recognizes
end MarketLab.Control

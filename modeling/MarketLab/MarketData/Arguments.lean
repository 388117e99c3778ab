import MarketLab.Control.Options
import MarketLab.Text.Bytes

/-!
# Arguments of the feed programs

The simulator and the listener read numbers out of whole arguments, and both take a group and a
port at the beginning of their positional arguments.
-/
namespace MarketLab.MarketData
open MarketLab.Control.Options MarketLab.Text

/-- A number that `from_chars` reads from a whole text into a type with this maximum; both
programs throw where it is none or not an allowed one. -/
def wholeInteger (maximum : Nat) (allowed : UInt64 → Prop) [DecidablePred allowed]
    (text invalid : Bytes) : Except Bytes { value : UInt64 // allowed value } :=
  match fromCharsUpTo maximum text with
  | none => .error invalid
  | some (value, length) =>
    if accepted : length = text.length ∧ allowed value then .ok ⟨value, accepted.2⟩
    else .error invalid

theorem wholeInteger_ok {maximum : Nat} {allowed : UInt64 → Prop} [DecidablePred allowed]
    {text : Bytes} (invalid : Bytes) {value : { value : UInt64 // allowed value }} :
    wholeInteger maximum allowed text invalid = .ok value ↔
      Numeral text value.1 ∧ value.1.toNat ≤ maximum := by
  rw [← fromCharsUpTo_whole]
  unfold wholeInteger
  cases fromCharsUpTo maximum text with
  | none => exact ⟨nofun, nofun⟩
  | some read =>
    obtain ⟨number, length⟩ := read
    simp only
    constructor
    · intro accepted
      split at accepted
      next whole =>
        obtain rfl := Except.ok.inj accepted
        exact congrArg (fun length => some (number, length)) whole.1
      next => cases accepted
    · intro same
      obtain ⟨rfl, rfl⟩ := Prod.mk.inj (Option.some.inj same)
      rw [dif_pos ⟨rfl, value.2⟩]

/-- Every value of the largest type is read from its numerals. -/
theorem wholeInteger_of_numeral {allowed : UInt64 → Prop} [DecidablePred allowed] {text : Bytes}
    (invalid : Bytes) {value : { value : UInt64 // allowed value }} (numeral : Numeral text value.1) :
    wholeInteger (2 ^ 64 - 1) allowed text invalid = .ok value :=
  (wholeInteger_ok invalid).mpr ⟨numeral, Nat.le_pred_of_lt value.1.toNat_lt⟩

/-- A decimal number from one to the largest port. -/
def IsPort (text : Bytes) : Prop :=
  ∃ value : { value : UInt64 // value ≠ 0 }, Numeral text value.1 ∧ value.1.toNat ≤ 65535

/-- The port a text denotes. -/
def portOf (text : Bytes) : UInt16 := .ofNat (Nat.ofDigits 10 (text.map digitValue).reverse)

theorem portOf_numeral {text : Bytes} {value : UInt64} (numeral : Numeral text value) :
    portOf text = .ofNat value.toNat := by
  rw [portOf, numeral.denotes]

/-- A positional argument is not like an option, and the second one is a port. -/
def PlaceAllowed (index : Nat) (text : Bytes) : Prop :=
  text.head? ≠ some 45 ∧ (index = 1 → IsPort text)

section Places
variable {σ : Type} {limit : Nat} {setPlace : σ → Bytes → Nat → σ} {state : σ} {text : Bytes}
  {take : Nat → Except Bytes (Placed σ)}

/-- What a program does with a text in its places: the second takes a port, the others take what
they are given, and behind them it throws. -/
structure TakesPlaces (limit : Nat) (setPlace : σ → Bytes → Nat → σ) (state : σ) (text : Bytes)
    (take : Nat → Except Bytes (Placed σ)) : Prop where
  more : 1 < limit
  port : ∀ after, take 1 = .ok after ↔
    IsPort text ∧ after = { state := setPlace state text 1, index := 2 }
  others : ∀ index < limit, index ≠ 1 →
    take index = .ok { state := setPlace state text index, index := index + 1 }
  beyond : ∀ index after, limit ≤ index → take index ≠ .ok after

theorem TakesPlaces.ok_iff (takes : TakesPlaces limit setPlace state text take)
    (plain : text.head? ≠ some 45) {index : Nat} {after : Placed σ} : take index = .ok after ↔
      (index < limit ∧ PlaceAllowed index text) ∧
        after = { state := setPlace state text index, index := index + 1 } := by
  rcases Nat.lt_or_ge index limit with inside | beyond
  case inr =>
    exact iff_of_false (takes.beyond index after beyond) fun allowed =>
      absurd allowed.1.1 (Nat.not_lt.mpr beyond)
  rw [and_iff_right inside, PlaceAllowed, and_iff_right plain]
  by_cases second : index = 1
  · subst second
    rw [takes.port, forall_prop_of_true rfl]
  · rw [takes.others index inside second, Except.ok.injEq, eq_comm]
    exact (and_iff_right fun same => absurd same second).symm

end Places

end MarketLab.MarketData

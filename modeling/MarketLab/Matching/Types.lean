import Mathlib.Data.UInt
import Mathlib.Order.Defs.Unbundled

/-!
# Matching vocabulary

`types.hpp`, `orders.hpp` and `events.hpp`. Fixed-width integers keep their
width, so every addition and subtraction wraps exactly as in the source.
-/
namespace MarketLab.Matching

/-- What leaves a call other than by returning: a thrown `std::invalid_argument`,
a use of an iterator whose element is gone, or a loop that outran its bound. -/
inductive Fault where
  | invalidArgument (what : String)
  | invalidIterator
  | boundExceeded
  deriving DecidableEq, Repr

structure SymbolId where
  value : UInt32 := 0
  deriving DecidableEq, Repr

structure UserId where
  value : UInt64 := 0
  deriving DecidableEq, Repr

structure ClientOrderId where
  value : UInt64 := 0
  deriving DecidableEq, Repr

/-- The constructor throws on zero and no code writes `value` afterwards. -/
structure Price where
  value : UInt64
  positive : value ≠ 0
  deriving DecidableEq, Repr

namespace Price

theorem value_injective {p q : Price} (h : p.value = q.value) : p = q := by
  cases p
  cases q
  cases h
  rfl

instance : LT Price := ⟨fun p q => p.value < q.value⟩
instance : LE Price := ⟨fun p q => p.value ≤ q.value⟩

instance (p q : Price) : Decidable (p < q) := inferInstanceAs (Decidable (p.value < q.value))
instance (p q : Price) : Decidable (p ≤ q) := inferInstanceAs (Decidable (p.value ≤ q.value))

theorem not_lt {p q : Price} : ¬ p < q ↔ q ≤ p := UInt64.not_lt

theorem lt_irrefl (p : Price) : ¬ p < p := UInt64.lt_irrefl _

theorem lt_trans {p q r : Price} (h : p < q) (h' : q < r) : p < r := UInt64.lt_trans h h'

theorem lt_trichotomy (p q : Price) : p < q ∨ p = q ∨ q < p := by
  by_cases less : p.value < q.value
  · exact Or.inl less
  · by_cases same : p.value = q.value
    · exact Or.inr (Or.inl (value_injective same))
    · exact Or.inr (Or.inr (UInt64.lt_of_le_of_ne (UInt64.not_lt.mp less) (Ne.symm same)))

/-! The prices of the demonstrations. -/

theorem hundred_ne_zero : (100 : UInt64) ≠ 0 := by decide
theorem hundredOne_ne_zero : (101 : UInt64) ≠ 0 := by decide

end Price

/-- The constructor throws on zero, but `value` is public and the matching loop
subtracts from it down to zero, so a held quantity can be zero. -/
structure Quantity where
  value : UInt64
  deriving DecidableEq, Repr

/-- `explicit quantity(std::uint64_t amount)`. -/
def Quantity.make (amount : UInt64) : Except Fault Quantity :=
  if amount = 0 then .error (.invalidArgument "quantity must be positive") else .ok ⟨amount⟩

structure SequenceNumber where
  value : UInt64 := 0
  deriving DecidableEq, Repr

/-- `operator++`, wrapping. -/
def SequenceNumber.next (s : SequenceNumber) : SequenceNumber := ⟨s.value + 1⟩

/-- An `enum class` object can hold any `int`; `unnamed` is every value that is
neither enumerator. -/
inductive Side where
  | buy
  | sell
  | unnamed (underlying : { code : Int32 // code ≠ 0 ∧ code ≠ 1 })
  deriving DecidableEq, Repr

structure OrderKey where
  user : UserId := {}
  clientOrder : ClientOrderId := {}
  deriving DecidableEq, Repr

inductive OrderPricing where
  | limit (limitPrice : Price)
  | market
  deriving DecidableEq, Repr

structure SubmitOrder where
  key : OrderKey
  instrument : SymbolId
  direction : Side
  pricing : OrderPricing
  size : Quantity
  deriving DecidableEq, Repr

structure CancelOrder where
  key : OrderKey
  deriving DecidableEq, Repr

structure UpdateOrder where
  key : OrderKey
  pricing : OrderPricing
  size : Quantity
  deriving DecidableEq, Repr

inductive Event where
  | submitAccepted (key : OrderKey)
  | submitRejected (key : OrderKey) (reason : String)
  | updateAccepted (key : OrderKey)
  | updateRejected (key : OrderKey) (reason : String)
  | cancelRejected (key : OrderKey) (reason : String)
  | orderCancelled (key : OrderKey)
  | tradeExecuted (aggressor resting : OrderKey) (instrument : SymbolId)
      (executionPrice : Price) (executedSize : Quantity)
  | bookUpdated (instrument : SymbolId) (direction : Side) (bestPrice : Option Price)
      (totalSize : UInt64)
  deriving DecidableEq, Repr

/-- Which of a book's two level maps a reference is bound to. -/
inductive Ladder where
  | bids
  | asks
  deriving DecidableEq, Repr

namespace Ladder

def side : Ladder → Side
  | bids => .buy
  | asks => .sell

def opposite : Ladder → Ladder
  | bids => asks
  | asks => bids

@[simp] theorem opposite_opposite (l : Ladder) : l.opposite.opposite = l := by cases l <;> rfl

@[simp] theorem opposite_ne (l : Ladder) : l.opposite ≠ l := by cases l <;> decide

theorem eq_or_eq_opposite (l m : Ladder) : m = l ∨ m = l.opposite := by
  cases l <;> cases m <;> simp [opposite]

theorem side_injective {l m : Ladder} (h : l.side = m.side) : l = m := by
  cases l <;> cases m <;> simp_all [side]

/-- The comparator of the map: `std::greater` for bids, `std::less` for asks. -/
def Before : Ladder → Price → Price → Prop
  | bids, p, q => q < p
  | asks, p, q => p < q

instance : (l : Ladder) → DecidableRel l.Before
  | bids => fun p q => inferInstanceAs (Decidable (q < p))
  | asks => fun p q => inferInstanceAs (Decidable (p < q))

instance (l : Ladder) : IsStrictTotalOrder Price l.Before where
  irrefl p := by cases l <;> exact Price.lt_irrefl p
  trans p q r h h' := by
    cases l
    · exact Price.lt_trans h' h
    · exact Price.lt_trans h h'
  trichotomous p q h h' := by
    cases l <;> rcases Price.lt_trichotomy p q with less | same | more <;>
      first | exact same | contradiction

end Ladder
end MarketLab.Matching

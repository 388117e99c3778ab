import Mathlib.Algebra.BigOperators.Group.List.Basic
import Mathlib.Data.UInt

/-!
# Wrapping sums

The 64-bit sum of a list of words against the exact sum of their values.
-/
namespace MarketLab.Collections

theorem toNat_sum (words : List UInt64) :
    words.sum.toNat = (words.map UInt64.toNat).sum % 2 ^ 64 := by
  induction words with
  | nil => rfl
  | cons word words ih =>
    rw [List.sum_cons, UInt64.toNat_add, ih, List.map_cons, List.sum_cons, Nat.add_mod_mod]

/-- A sum that fits is exact. -/
theorem toNat_sum_of_lt {words : List UInt64} (fits : (words.map UInt64.toNat).sum < 2 ^ 64) :
    words.sum.toNat = (words.map UInt64.toNat).sum := by
  rw [toNat_sum, Nat.mod_eq_of_lt fits]

end MarketLab.Collections

/-!
# Pieces between separators

The non-empty pieces into which separators cut a list, taken off its front one at a time.
-/
namespace MarketLab.Collections
variable {α : Type} {separator : α → Bool}

def pieces (separator : α → Bool) (xs : List α) : List (List α) :=
  (xs.splitOnP separator).filter (!·.isEmpty)

@[simp] theorem pieces_nil : pieces separator [] = [] := by simp [pieces]

theorem pieces_cons_separator {x : α} (separates : separator x = true) (xs : List α) :
    pieces separator (x :: xs) = pieces separator xs := by
  simp [pieces, List.splitOnP_cons_eq_if_modifyHead, separates]

theorem pieces_dropWhile (xs : List α) :
    pieces separator (xs.dropWhile separator) = pieces separator xs := by
  induction xs with
  | nil => rfl
  | cons x xs ih =>
    rw [List.dropWhile_cons]
    split
    next separates => rw [ih, pieces_cons_separator separates]
    next => rfl

/-- A piece that a separator ends. -/
theorem pieces_append_separator {piece xs : List α} {x : α} (nonempty : piece ≠ [])
    (within : ∀ y ∈ piece, separator y = false) (separates : separator x = true) :
    pieces separator (piece ++ x :: xs) = piece :: pieces separator xs := by
  rw [pieces, List.splitOnP_append_cons_of_forall_mem within x separates]
  simp [pieces, nonempty]

/-- The last piece. -/
theorem pieces_eq_singleton {piece : List α} (nonempty : piece ≠ [])
    (within : ∀ y ∈ piece, separator y = false) : pieces separator piece = [piece] := by
  simp [pieces, List.splitOnP_eq_singleton within, nonempty]

/-! ## Taking off the first piece -/

section First
variable {test : α → Bool} {xs : List α} (agree : ∀ x ∈ xs, test x = separator x)
include agree

theorem dropWhile_of_agree : xs.dropWhile test = xs.dropWhile separator := by
  induction xs with
  | nil => rfl
  | cons x xs ih =>
    obtain ⟨here, later⟩ := List.forall_mem_cons.mp agree
    rw [List.dropWhile_cons, List.dropWhile_cons, here, ih later]

theorem pieces_of_findIdx?_none (nonempty : xs ≠ []) (absent : xs.findIdx? test = none) :
    pieces separator xs = [xs] := by
  refine pieces_eq_singleton nonempty fun x member => ?_
  rw [← agree x member]
  exact List.findIdx?_eq_none_iff.mp absent x member

/-- Up to a first separator that is not in front. -/
theorem pieces_of_findIdx?_some {first : α} {rest : List α} (starts : xs = first :: rest)
    (inside : separator first = false) {i : Nat} (found : xs.findIdx? test = some i) :
    xs.take i ≠ [] ∧ pieces separator xs = xs.take i :: pieces separator (xs.drop (i + 1)) := by
  obtain ⟨bound, separates, before⟩ := List.findIdx?_eq_some_iff_getElem.mp found
  rw [agree _ (List.getElem_mem bound)] at separates
  have within : ∀ y ∈ xs.take i, separator y = false := by
    intro y member
    obtain ⟨j, less, rfl⟩ := List.mem_take_iff_getElem.mp member
    have still := before j (by omega)
    rw [agree _ (List.getElem_mem _)] at still
    exact Bool.eq_false_iff.mpr still
  have nonempty : xs.take i ≠ [] := by
    rintro empty
    rcases List.take_eq_nil_iff.mp empty with rfl | none
    · simp only [starts, List.getElem_cons_zero, inside] at separates
      cases separates
    · rw [starts] at none
      cases none
  refine ⟨nonempty, ?_⟩
  conv => lhs; rw [← List.take_append_drop i xs, List.drop_eq_getElem_cons bound]
  exact pieces_append_separator nonempty within separates

end First

end MarketLab.Collections

import Mathlib.Data.List.Nodup
import Mathlib.Algebra.Order.BigOperators.Group.List
import Mathlib.Tactic.Ring

/-!
# Greedy consumption of a queue

A quantity is spent on the items of a queue from the front, each taking all it
has room for, until the quantity is used up or an item is not accepted. The
result records what is left, the remaining queue (its front possibly reduced),
every fill in order, and the items filled completely.
-/
namespace MarketLab.Collections

/-- Items with a 64-bit size that can be overwritten. -/
class Sized (α : Type) where
  size : α → UInt64
  resize : α → UInt64 → α
  size_resize (a : α) (n : UInt64) : size (resize a n) = n
  resize_resize (a : α) (m n : UInt64) : resize (resize a m) n = resize a n

open Sized

attribute [simp] Sized.size_resize Sized.resize_resize

/-- All of an item but its size. -/
def identity {α : Type} [Sized α] (item : α) : α := resize item 0

@[simp] theorem identity_resize {α : Type} [Sized α] (item : α) (n : UInt64) :
    identity (resize item n) = identity item := resize_resize item n 0

structure Outcome (α : Type) where
  left : UInt64
  rest : List α
  fills : List (α × UInt64) := []
  filled : List α := []

section Sums
variable {α : Type}

/-- The exact sum executed on the selected items. -/
def totalExecuted (selects : α → Bool) (fills : List (α × UInt64)) : Nat :=
  (fills.map fun fill => if selects fill.1 then fill.2.toNat else 0).sum

@[simp] theorem totalExecuted_nil (selects : α → Bool) : totalExecuted selects [] = 0 := rfl

@[simp] theorem totalExecuted_cons (selects : α → Bool) (fill : α × UInt64)
    (fills : List (α × UInt64)) :
    totalExecuted selects (fill :: fills) =
      (if selects fill.1 then fill.2.toNat else 0) + totalExecuted selects fills := by
  simp [totalExecuted]

variable [Sized α]

/-- The exact sum of the sizes of the selected items. -/
def totalSize (selects : α → Bool) (items : List α) : Nat :=
  (items.map fun item => if selects item then (size item).toNat else 0).sum

@[simp] theorem totalSize_nil (selects : α → Bool) : totalSize selects [] = 0 := rfl

@[simp] theorem totalSize_cons (selects : α → Bool) (item : α) (items : List α) :
    totalSize selects (item :: items) =
      (if selects item then (size item).toNat else 0) + totalSize selects items := by
  simp [totalSize]

@[simp] theorem totalSize_append (selects : α → Bool) (front back : List α) :
    totalSize selects (front ++ back) = totalSize selects front + totalSize selects back := by
  simp [totalSize]

theorem totalSize_perm (selects : α → Bool) {items other : List α} (perm : items.Perm other) :
    totalSize selects items = totalSize selects other := (perm.map _).sum_eq

theorem totalSize_none {selects : α → Bool} {items : List α}
    (none_ : ∀ item ∈ items, selects item = false) : totalSize selects items = 0 := by
  induction items with
  | nil => rfl
  | cons item items ih =>
    simp only [List.forall_mem_cons] at none_
    simp [none_.1, ih none_.2]

/-- Dropping items that are not selected keeps the sum. -/
theorem totalSize_filter {selects keeps : α → Bool} {items : List α}
    (kept : ∀ item ∈ items, selects item = true → keeps item = true) :
    totalSize selects (items.filter keeps) = totalSize selects items := by
  induction items with
  | nil => rfl
  | cons item items ih =>
    simp only [List.forall_mem_cons] at kept
    by_cases stays : keeps item = true
    · simp [stays, ih kept.2]
    · have unselected : ¬ selects item = true := fun selected => stays (kept.1 selected)
      simp [stays, unselected, ih kept.2]

/-- A map that moves no selected size keeps the sum. -/
theorem totalSize_map {selects : α → Bool} {items : List α} {f : α → α}
    (selected : ∀ item ∈ items, selects (f item) = selects item)
    (sizes : ∀ item ∈ items, selects item = true → size (f item) = size item) :
    totalSize selects (items.map f) = totalSize selects items := by
  induction items with
  | nil => rfl
  | cons item items ih =>
    simp only [List.forall_mem_cons] at selected sizes
    rw [List.map_cons, totalSize_cons, totalSize_cons, selected.1, ih selected.2 sizes.2]
    by_cases chosen : selects item = true
    · rw [sizes.1 chosen]
    · simp [chosen]

theorem totalSize_eq_sum (selects : α → Bool) (items : List α) :
    totalSize selects items = ((items.filter selects).map fun item => (size item).toNat).sum := by
  induction items with
  | nil => rfl
  | cons item items ih =>
    rw [totalSize_cons, ih, List.filter_cons]
    split
    · rw [List.map_cons, List.sum_cons]
    · exact Nat.zero_add _

theorem totalSize_filter_le (selects keeps : α → Bool) (items : List α) :
    totalSize selects (items.filter keeps) ≤ totalSize selects items := by
  induction items with
  | nil => exact Nat.le_refl _
  | cons item items ih =>
    by_cases stays : keeps item = true
    · rw [List.filter_cons_of_pos stays, totalSize_cons, totalSize_cons]
      omega
    · rw [List.filter_cons_of_neg stays, totalSize_cons]
      omega

/-- A map that selects nothing new and enlarges nothing does not enlarge the sum. -/
theorem totalSize_map_le {selects : α → Bool} {items : List α} {f : α → α}
    (selected : ∀ item ∈ items, selects (f item) = selects item)
    (sizes : ∀ item ∈ items, size (f item) ≤ size item) :
    totalSize selects (items.map f) ≤ totalSize selects items := by
  induction items with
  | nil => exact Nat.le_refl _
  | cons item items ih =>
    simp only [List.forall_mem_cons] at selected sizes
    have rest := ih selected.2 sizes.2
    have head := UInt64.le_iff_toNat_le.mp sizes.1
    rw [List.map_cons, totalSize_cons, totalSize_cons, selected.1]
    split <;> omega

end Sums

section Sweep
variable {α β : Type} [Sized α]

def sweep (accepts : α → Bool) : UInt64 → List α → Outcome α
  | quantity, [] => { left := quantity, rest := [] }
  | quantity, item :: items =>
    if 0 < quantity ∧ accepts item = true then
      if size item ≤ quantity then
        let outcome := sweep accepts (quantity - size item) items
        { outcome with
          fills := (item, size item) :: outcome.fills, filled := item :: outcome.filled }
      else
        { left := 0, rest := resize item (size item - quantity) :: items,
          fills := [(item, quantity)] }
    else { left := quantity, rest := item :: items }

variable (accepts : α → Bool) (quantity : UInt64)

@[simp] theorem sweep_nil : sweep accepts quantity [] = { left := quantity, rest := [] } := rfl

theorem sweep_stop (items : List α)
    (h : quantity = 0 ∨ ∀ item ∈ items.head?, accepts item = false) :
    sweep accepts quantity items = { left := quantity, rest := items } := by
  cases items with
  | nil => rfl
  | cons item items =>
    have stopped : ¬ (0 < quantity ∧ accepts item = true) := by
      rcases h with rfl | rejected
      · simp
      · simp [rejected item (by simp)]
    simp only [sweep, if_neg stopped]

theorem sweep_fill (item : α) (items : List α) (positive : 0 < quantity)
    (accepted : accepts item = true) (fits : size item ≤ quantity) :
    sweep accepts quantity (item :: items) =
      { sweep accepts (quantity - size item) items with
        fills := (item, size item) :: (sweep accepts (quantity - size item) items).fills,
        filled := item :: (sweep accepts (quantity - size item) items).filled } := by
  simp only [sweep, positive, accepted, fits, and_self, ↓reduceIte]

theorem sweep_part (item : α) (items : List α) (positive : 0 < quantity)
    (accepted : accepts item = true) (larger : quantity < size item) :
    sweep accepts quantity (item :: items) =
      { left := 0, rest := resize item (size item - quantity) :: items,
        fills := [(item, quantity)] } := by
  have beyond : ¬ size item ≤ quantity := UInt64.not_le.mpr larger
  simp only [sweep, positive, accepted, beyond, and_self, ↓reduceIte]

/-- The three ways a sweep of a non-empty queue goes; every fact about sweeps is
proved along it. -/
theorem sweep_induct {motive : UInt64 → List α → Prop}
    (stop : ∀ quantity items,
      (quantity = 0 ∨ ∀ item ∈ items.head?, accepts item = false) → motive quantity items)
    (fill : ∀ quantity item items, 0 < quantity → accepts item = true → size item ≤ quantity →
      motive (quantity - size item) items → motive quantity (item :: items))
    (part : ∀ quantity item items, 0 < quantity → accepts item = true →
      quantity < size item → motive quantity (item :: items)) :
    ∀ quantity items, motive quantity items := by
  intro quantity items
  induction items generalizing quantity with
  | nil => exact stop quantity [] (Or.inr (by simp))
  | cons item items ih =>
    by_cases open_ : 0 < quantity ∧ accepts item = true
    · by_cases fits : size item ≤ quantity
      · exact fill quantity item items open_.1 open_.2 fits (ih _)
      · exact part quantity item items open_.1 open_.2 (UInt64.not_le.mp fits)
    · refine stop quantity (item :: items) ?_
      rcases not_and_or.mp open_ with zero | rejected
      · exact Or.inl (UInt64.le_zero_iff.mp (UInt64.not_lt.mp zero))
      · exact Or.inr (by simpa using rejected)

/-! ## What a sweep keeps -/

/-- A part of the item that resizing leaves alone is seen in the filled items and
then the remaining ones, exactly as it was. -/
theorem sweep_ident (ident : α → β) (resized : ∀ item n, ident (resize item n) = ident item) :
    ∀ quantity items,
      items.map ident = (sweep accepts quantity items).filled.map ident ++
        (sweep accepts quantity items).rest.map ident := by
  intro quantity items
  induction quantity, items using sweep_induct accepts with
  | stop quantity items h => simp [sweep_stop accepts quantity items h]
  | fill quantity item items positive accepted fits ih =>
    rw [sweep_fill accepts quantity item items positive accepted fits]
    simp [ih]
  | part quantity item items positive accepted larger =>
    rw [sweep_part accepts quantity item items positive accepted larger]
    simp [resized]

theorem sweep_filled_front :
    ∀ quantity items, (sweep accepts quantity items).filled <+: items := by
  intro quantity items
  induction quantity, items using sweep_induct accepts with
  | stop quantity items h => simp [sweep_stop accepts quantity items h]
  | fill quantity item items positive accepted fits ih =>
    rw [sweep_fill accepts quantity item items positive accepted fits]
    simpa using ih
  | part quantity item items positive accepted larger =>
    rw [sweep_part accepts quantity item items positive accepted larger]
    exact List.nil_prefix

theorem sweep_fills_front :
    ∀ quantity items, (sweep accepts quantity items).fills.map Prod.fst <+: items := by
  intro quantity items
  induction quantity, items using sweep_induct accepts with
  | stop quantity items h => simp [sweep_stop accepts quantity items h]
  | fill quantity item items positive accepted fits ih =>
    rw [sweep_fill accepts quantity item items positive accepted fits]
    simpa using ih
  | part quantity item items positive accepted larger =>
    rw [sweep_part accepts quantity item items positive accepted larger]
    simp

/-- The items filled are the first of the accepted ones. -/
theorem sweep_fills_accepted :
    ∀ quantity items,
      (sweep accepts quantity items).fills.map Prod.fst <+: items.filter accepts := by
  intro quantity items
  induction quantity, items using sweep_induct accepts with
  | stop quantity items h => simp [sweep_stop accepts quantity items h]
  | fill quantity item items positive accepted fits ih =>
    rw [sweep_fill accepts quantity item items positive accepted fits,
      List.filter_cons_of_pos accepted]
    simpa using ih
  | part quantity item items positive accepted larger =>
    rw [sweep_part accepts quantity item items positive accepted larger,
      List.filter_cons_of_pos accepted]
    simp

/-- Every fill but the last takes its whole item. -/
theorem sweep_fills_whole :
    ∀ quantity items, ∀ fill ∈ (sweep accepts quantity items).fills.dropLast,
      fill.2 = size fill.1 := by
  intro quantity items
  induction quantity, items using sweep_induct accepts with
  | stop quantity items h => simp [sweep_stop accepts quantity items h]
  | fill quantity item items positive accepted fits ih =>
    rw [sweep_fill accepts quantity item items positive accepted fits]
    intro fill member
    by_cases last : (sweep accepts (quantity - size item) items).fills = []
    · simp [last] at member
    · rw [List.dropLast_cons_of_ne_nil last] at member
      rcases List.mem_cons.mp member with rfl | later
      · rfl
      · exact ih fill later
  | part quantity item items positive accepted larger =>
    simp [sweep_part accepts quantity item items positive accepted larger]

/-- Whatever is traded with first is accepted and stands in front. -/
theorem sweep_fills_head (quantity : UInt64) (items : List α)
    (traded : (sweep accepts quantity items).fills ≠ []) :
    ∃ item rest, items = item :: rest ∧ accepts item = true := by
  cases items with
  | nil => exact absurd rfl traded
  | cons item rest =>
    refine ⟨item, rest, rfl, ?_⟩
    by_contra rejected
    rw [sweep_stop accepts quantity (item :: rest) (.inr (by simpa using rejected))] at traded
    exact traded rfl

/-- A sweep without a trade leaves every item where it is. -/
theorem sweep_idle (quantity : UInt64) (items : List α)
    (idle : (sweep accepts quantity items).fills = []) :
    (sweep accepts quantity items).rest = items := by
  induction quantity, items using sweep_induct accepts with
  | stop quantity items h => rw [sweep_stop accepts quantity items h]
  | fill quantity item items positive accepted fits ih =>
    rw [sweep_fill accepts quantity item items positive accepted fits] at idle
    cases idle
  | part quantity item items positive accepted larger =>
    rw [sweep_part accepts quantity item items positive accepted larger] at idle
    cases idle

/-- Items that a sweep does not trade with can be taken out of the queue, where what is accepted
stands in front. -/
theorem sweep_filter (keeps : α → Bool) (resized : ∀ item n, keeps (resize item n) = keeps item) :
    ∀ quantity items,
      items.Pairwise (fun ahead behind => accepts behind = true → accepts ahead = true) →
      (∀ fill ∈ (sweep accepts quantity items).fills, keeps fill.1 = true) →
      sweep accepts quantity (items.filter keeps) =
        { sweep accepts quantity items with
          rest := (sweep accepts quantity items).rest.filter keeps } := by
  intro quantity items
  induction quantity, items using sweep_induct accepts with
  | stop quantity items h =>
    intro sorted _
    rw [sweep_stop accepts quantity items h, sweep_stop]
    refine h.imp_right fun rejected item head => ?_
    have member := List.mem_of_mem_filter (List.mem_of_mem_head? head)
    cases items with
    | nil => cases member
    | cons front items =>
      rcases List.mem_cons.mp member with rfl | behind
      · exact rejected item rfl
      · by_contra accepted
        have ahead := (List.pairwise_cons.mp sorted).1 item behind (Bool.not_eq_false _ ▸ accepted)
        rw [rejected front rfl] at ahead
        cases ahead
  | fill quantity item items positive accepted fits ih =>
    intro sorted traded
    rw [sweep_fill accepts quantity item items positive accepted fits] at traded ⊢
    obtain ⟨here, later⟩ := List.forall_mem_cons.mp traded
    rw [List.filter_cons_of_pos here, sweep_fill accepts quantity item _ positive accepted fits,
      ih sorted.of_cons later]
  | part quantity item items positive accepted larger =>
    intro _ traded
    rw [sweep_part accepts quantity item items positive accepted larger] at traded ⊢
    have here := traded (item, quantity) (List.mem_singleton_self _)
    have whole : keeps (resize item (size item - quantity)) = true := (resized item _).trans here
    rw [List.filter_cons_of_pos here, sweep_part accepts quantity item _ positive accepted larger,
      List.filter_cons_of_pos whole]

/-- What stops a sweep with quantity left over is an empty queue or a rejected front. -/
theorem sweep_left :
    ∀ quantity items, 0 < (sweep accepts quantity items).left →
      ∀ item ∈ (sweep accepts quantity items).rest.head?, accepts item = false := by
  intro quantity items
  induction quantity, items using sweep_induct accepts with
  | stop quantity items h =>
    rw [sweep_stop accepts quantity items h]
    intro positive
    rcases h with rfl | rejected
    · exact absurd positive (by simp)
    · exact rejected
  | fill quantity item items positive accepted fits ih =>
    rw [sweep_fill accepts quantity item items positive accepted fits]
    exact ih
  | part quantity item items positive accepted larger =>
    rw [sweep_part accepts quantity item items positive accepted larger]
    intro impossible
    exact absurd impossible (by simp)

/-- Where acceptance only ever ends along the queue, the sweep leaves what exceeds the
accepted sizes. -/
theorem sweep_left_exact :
    ∀ quantity items,
      items.Pairwise (fun ahead behind => accepts behind = true → accepts ahead = true) →
      (sweep accepts quantity items).left.toNat = quantity.toNat - totalSize accepts items := by
  intro quantity items
  induction quantity, items using sweep_induct accepts with
  | stop quantity items h =>
    intro ends
    rw [sweep_stop accepts quantity items h]
    rcases h with rfl | rejected
    · exact (Nat.zero_sub _).symm
    · cases items with
      | nil => rfl
      | cons item items =>
        have front : accepts item = false := rejected item rfl
        have nothing : totalSize accepts (item :: items) = 0 := by
          refine totalSize_none fun other member => ?_
          rcases List.mem_cons.mp member with rfl | later
          · exact front
          · by_contra accepted
            have earlier := (List.pairwise_cons.mp ends).1 other later (Bool.of_not_eq_false accepted)
            rw [front] at earlier
            cases earlier
        rw [nothing, Nat.sub_zero]
  | fill quantity item items positive accepted fits ih =>
    intro ends
    rw [sweep_fill accepts quantity item items positive accepted fits]
    have split := UInt64.toNat_sub_of_le quantity (size item) fits
    rw [totalSize_cons, if_pos accepted]
    simp only [ih (List.pairwise_cons.mp ends).2, split]
    omega
  | part quantity item items positive accepted larger =>
    intro ends
    rw [sweep_part accepts quantity item items positive accepted larger]
    have bound := UInt64.lt_iff_toNat_lt.mp larger
    rw [totalSize_cons, if_pos accepted]
    change 0 = _
    omega

/-- The incoming quantity is executed or left. -/
theorem sweep_quantity :
    ∀ quantity items,
      quantity.toNat = (sweep accepts quantity items).left.toNat +
        totalExecuted (fun _ => true) (sweep accepts quantity items).fills := by
  intro quantity items
  induction quantity, items using sweep_induct accepts with
  | stop quantity items h => simp [sweep_stop accepts quantity items h]
  | fill quantity item items positive accepted fits ih =>
    rw [sweep_fill accepts quantity item items positive accepted fits]
    have split := UInt64.toNat_sub_of_le quantity (size item) fits
    have bound := UInt64.le_iff_toNat_le.mp fits
    simp only [totalExecuted_cons, ↓reduceIte]
    omega
  | part quantity item items positive accepted larger =>
    rw [sweep_part accepts quantity item items positive accepted larger]
    simp

/-- Whatever resizing cannot change selects, the selected sizes are executed or remain. -/
theorem sweep_conserves (selects : α → Bool)
    (resized : ∀ item n, selects (resize item n) = selects item) :
    ∀ quantity items,
      totalSize selects items =
        totalExecuted selects (sweep accepts quantity items).fills +
          totalSize selects (sweep accepts quantity items).rest := by
  intro quantity items
  induction quantity, items using sweep_induct accepts with
  | stop quantity items h => simp [sweep_stop accepts quantity items h]
  | fill quantity item items positive accepted fits ih =>
    rw [sweep_fill accepts quantity item items positive accepted fits]
    simp only [totalSize_cons, totalExecuted_cons]
    omega
  | part quantity item items positive accepted larger =>
    rw [sweep_part accepts quantity item items positive accepted larger]
    have split := UInt64.toNat_sub_of_le (size item) quantity (UInt64.le_of_lt larger)
    have bound := UInt64.lt_iff_toNat_lt.mp larger
    simp only [totalSize_cons, totalExecuted_cons, totalExecuted_nil, resized, size_resize]
    split_ifs <;> omega

/-- A map that respects sizes and acceptance carries a sweep to a sweep. -/
theorem sweep_map [Sized β] (accepts' : β → Bool) (f : α → β)
    (sizes : ∀ item, size (f item) = size item)
    (resizes : ∀ item n, f (resize item n) = resize (f item) n)
    (agrees : ∀ item, accepts' (f item) = accepts item) :
    ∀ quantity items,
      sweep accepts' quantity (items.map f) =
        { left := (sweep accepts quantity items).left
          rest := (sweep accepts quantity items).rest.map f
          fills := (sweep accepts quantity items).fills.map fun fill => (f fill.1, fill.2)
          filled := (sweep accepts quantity items).filled.map f } := by
  intro quantity items
  induction quantity, items using sweep_induct accepts with
  | stop quantity items h =>
    have stopped : quantity = 0 ∨ ∀ item ∈ (items.map f).head?, accepts' item = false := by
      refine h.imp id fun rejected => ?_
      cases items with
      | nil => simp
      | cons item items => simpa [agrees] using rejected item (by simp)
    rw [sweep_stop accepts quantity items h, sweep_stop accepts' quantity _ stopped]
    rfl
  | fill quantity item items positive accepted fits ih =>
    rw [sweep_fill accepts quantity item items positive accepted fits, List.map_cons,
      sweep_fill accepts' quantity (f item) _ positive (by rw [agrees, accepted])
        (by rw [sizes]; exact fits), sizes, ih]
    rfl
  | part quantity item items positive accepted larger =>
    rw [sweep_part accepts quantity item items positive accepted larger, List.map_cons,
      sweep_part accepts' quantity (f item) _ positive (by rw [agrees, accepted])
        (by rw [sizes]; exact larger), sizes]
    simp [resizes]

end Sweep
end MarketLab.Collections

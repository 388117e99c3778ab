import MarketLab.Collections.Greedy

/-!
# What a sweep must produce

The outcome of a sweep in terms of the exact quantity ahead of each accepted item: the item
takes what of the quantity the ones ahead leave, up to its size. Nothing here steps through the
queue.
-/
namespace MarketLab.Collections
open Sized

/-- Acceptance only ever ends along the queue. -/
def Ends {α : Type} (accepts : α → Bool) (items : List α) : Prop :=
  items.Pairwise fun ahead behind => accepts behind = true → accepts ahead = true

theorem Ends.rejected {α : Type} {accepts : α → Bool} {items : List α} (ends : Ends accepts items)
    (front : ∀ item ∈ items.head?, accepts item = false) : items.filter accepts = [] := by
  rw [List.filter_eq_nil_iff]
  cases items with
  | nil => exact fun _ member => nomatch member
  | cons item items =>
    have first : accepts item = false := front item rfl
    intro other member
    rcases List.mem_cons.mp member with rfl | later
    · rw [first]
      exact Bool.false_ne_true
    · intro accepted
      have earlier := (List.pairwise_cons.mp ends).1 other later accepted
      rw [first] at earlier
      cases earlier

variable {α : Type} [Sized α]

/-- Each item with the exact quantity in front of it. -/
def withAhead : Nat → List α → List (α × Nat)
  | _, [] => []
  | ahead, item :: items => (item, ahead) :: withAhead (ahead + (size item).toNat) items

theorem withAhead_le {ahead : Nat} {items : List α} :
    ∀ entry ∈ withAhead ahead items, ahead ≤ entry.2 := by
  induction items generalizing ahead with
  | nil => exact fun _ member => nomatch member
  | cons item items ih =>
    intro entry member
    rcases List.mem_cons.mp member with rfl | later
    · exact Nat.le_refl _
    · have behind := ih entry later
      omega

/-- The accepted items that the quantity reaches, each with what it takes. -/
def reached (total : Nat) (entries : List (α × Nat)) : List (α × Nat) :=
  (entries.filter fun entry => entry.2 < total).map fun entry =>
    (entry.1, min (size entry.1).toNat (total - entry.2))

/-- The accepted items that the quantity covers. -/
def covered (total : Nat) (entries : List (α × Nat)) : List α :=
  (entries.filter fun entry => entry.2 + (size entry.1).toNat ≤ total).map Prod.fst

theorem reached_nil (total ahead : Nat) (used : total ≤ ahead) (items : List α) :
    reached total (withAhead ahead items) = [] := by
  rw [reached, List.map_eq_nil_iff, List.filter_eq_nil_iff]
  intro entry member
  have behind := withAhead_le entry member
  simp only [decide_eq_true_eq]
  omega

theorem covered_nil (total ahead : Nat) (used : total ≤ ahead) {items : List α}
    (positive : ∀ item ∈ items, 0 < size item) : covered total (withAhead ahead items) = [] := by
  induction items generalizing ahead with
  | nil => rfl
  | cons item items ih =>
    obtain ⟨first, rest⟩ := List.forall_mem_cons.mp positive
    have sized := UInt64.lt_iff_toNat_lt.mp first
    have beyond : ¬ ahead + (size item).toNat ≤ total := by
      rw [UInt64.toNat_zero] at sized
      omega
    have later := ih (ahead + (size item).toNat) (by omega) rest
    rw [covered, withAhead, List.filter_cons_of_neg (by simpa using beyond)]
    exact later

section Reference
variable (accepts : α → Bool)

/-- The fills are what the accepted items take of the quantity, in order. -/
theorem sweep_fills_reached :
    ∀ quantity items, Ends accepts items → ∀ ahead : Nat,
      (sweep accepts quantity items).fills.map (fun fill => (fill.1, fill.2.toNat)) =
        reached (ahead + quantity.toNat) (withAhead ahead (items.filter accepts)) := by
  intro quantity items
  induction quantity, items using sweep_induct accepts with
  | stop quantity items h =>
    intro ends ahead
    rw [sweep_stop accepts quantity items h]
    rcases h with rfl | front
    · exact (reached_nil _ _ (Nat.le_refl _) _).symm
    · rw [ends.rejected front]
      rfl
  | fill quantity item items positive accepted fits ih =>
    intro ends ahead
    have more := UInt64.lt_iff_toNat_lt.mp positive
    have bound := UInt64.le_iff_toNat_le.mp fits
    have split := UInt64.toNat_sub_of_le quantity (size item) fits
    have rest := ih (List.pairwise_cons.mp ends).2 (ahead + (size item).toNat)
    rw [UInt64.toNat_zero] at more
    have total : ahead + (size item).toNat + (quantity - size item).toNat =
        ahead + quantity.toNat := by omega
    have taken : min (size item).toNat (ahead + quantity.toNat - ahead) = (size item).toNat := by
      omega
    rw [total] at rest
    rw [sweep_fill accepts quantity item items positive accepted fits,
      List.filter_cons_of_pos accepted, List.map_cons, rest, reached, reached, withAhead,
      List.filter_cons_of_pos (by simpa using more), List.map_cons, taken]
  | part quantity item items positive accepted larger =>
    intro ends ahead
    have more := UInt64.lt_iff_toNat_lt.mp positive
    have bound := UInt64.lt_iff_toNat_lt.mp larger
    rw [UInt64.toNat_zero] at more
    have taken : min (size item).toNat (ahead + quantity.toNat - ahead) = quantity.toNat := by
      omega
    have none_ := reached_nil (ahead + quantity.toNat) (ahead + (size item).toNat) (by omega)
      (items.filter accepts)
    rw [reached] at none_
    rw [sweep_part accepts quantity item items positive accepted larger,
      List.filter_cons_of_pos accepted, reached, withAhead,
      List.filter_cons_of_pos (by simpa using more), List.map_cons, List.map_cons, none_, taken]
    rfl

/-- The filled items are those the quantity covers, in order. -/
theorem sweep_filled_covered :
    ∀ quantity items, Ends accepts items → (∀ item ∈ items, 0 < size item) → ∀ ahead : Nat,
      (sweep accepts quantity items).filled =
        covered (ahead + quantity.toNat) (withAhead ahead (items.filter accepts)) := by
  intro quantity items
  induction quantity, items using sweep_induct accepts with
  | stop quantity items h =>
    intro ends sizes ahead
    rw [sweep_stop accepts quantity items h]
    rcases h with rfl | front
    · exact (covered_nil _ _ (Nat.le_refl _) fun item member =>
        sizes item (List.mem_of_mem_filter member)).symm
    · rw [ends.rejected front]
      rfl
  | fill quantity item items positive accepted fits ih =>
    intro ends sizes ahead
    have bound := UInt64.le_iff_toNat_le.mp fits
    have split := UInt64.toNat_sub_of_le quantity (size item) fits
    have rest := ih (List.pairwise_cons.mp ends).2 (List.forall_mem_cons.mp sizes).2
      (ahead + (size item).toNat)
    have total : ahead + (size item).toNat + (quantity - size item).toNat =
        ahead + quantity.toNat := by omega
    rw [total] at rest
    have here : ahead + (size item).toNat ≤ ahead + quantity.toNat := by omega
    rw [sweep_fill accepts quantity item items positive accepted fits,
      List.filter_cons_of_pos accepted, rest, covered, covered, withAhead,
      List.filter_cons_of_pos (by simpa using here), List.map_cons]
  | part quantity item items positive accepted larger =>
    intro ends sizes ahead
    have bound := UInt64.lt_iff_toNat_lt.mp larger
    have beyond : ¬ ahead + (size item).toNat ≤ ahead + quantity.toNat := by omega
    have none_ : covered (ahead + quantity.toNat)
        (withAhead (ahead + (size item).toNat) (items.filter accepts)) = [] :=
      covered_nil _ _ (by omega) fun other member =>
        (List.forall_mem_cons.mp sizes).2 other (List.mem_of_mem_filter member)
    rw [covered] at none_
    rw [sweep_part accepts quantity item items positive accepted larger,
      List.filter_cons_of_pos accepted, covered, withAhead,
      List.filter_cons_of_neg (by simpa using beyond), none_]

/-- The queue is the filled items and the others; the others stay, but that the first of them
may be cut by what the filled ones left of the quantity. -/
theorem sweep_others :
    ∀ quantity items, ∃ others, items = (sweep accepts quantity items).filled ++ others ∧
      ((sweep accepts quantity items).rest = others ∨
        ∃ item tail executed, others = item :: tail ∧ 0 < executed ∧ executed < size item ∧
          executed.toNat + totalSize (fun _ => true) (sweep accepts quantity items).filled =
            quantity.toNat ∧
          (sweep accepts quantity items).rest = resize item (size item - executed) :: tail) := by
  intro quantity items
  induction quantity, items using sweep_induct accepts with
  | stop quantity items h =>
    rw [sweep_stop accepts quantity items h]
    exact ⟨items, rfl, Or.inl rfl⟩
  | fill quantity item items positive accepted fits ih =>
    have split := UInt64.toNat_sub_of_le quantity (size item) fits
    have bound := UInt64.le_iff_toNat_le.mp fits
    rw [sweep_fill accepts quantity item items positive accepted fits]
    obtain ⟨others, whole, untouched | ⟨next, tail, executed, first, some_, less, total, cut⟩⟩ := ih
    · exact ⟨others, congrArg (item :: ·) whole, Or.inl untouched⟩
    · refine ⟨others, congrArg (item :: ·) whole, Or.inr ⟨next, tail, executed, first, some_, less, ?_,
        cut⟩⟩
      rw [totalSize_cons, if_pos rfl]
      omega
  | part quantity item items positive accepted larger =>
    rw [sweep_part accepts quantity item items positive accepted larger]
    exact ⟨item :: items, rfl, Or.inr ⟨item, items, quantity, rfl, positive, larger, rfl, rfl⟩⟩

end Reference
end MarketLab.Collections

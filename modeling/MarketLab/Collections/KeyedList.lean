import Mathlib.Data.List.Nodup

/-!
# Lists with distinct keys

Editing the one element of a given key in a list whose keys are distinct.
-/
namespace MarketLab.Collections
variable {α κ : Type} {key : α → κ}

theorem key_unique {l : List α} (nodup : (l.map key).Nodup) {a b : α} (ha : a ∈ l) (hb : b ∈ l)
    (same : key a = key b) : a = b := List.inj_on_of_nodup_map nodup ha hb same

theorem keys_around {front back : List α} {a : α} (nodup : ((front ++ a :: back).map key).Nodup) :
    (∀ b ∈ front, key b ≠ key a) ∧ ∀ b ∈ back, key b ≠ key a := by
  simp only [List.map_append, List.map_cons, List.nodup_append, List.nodup_cons] at nodup
  constructor
  · intro b member
    exact nodup.2.2 _ (List.mem_map_of_mem member) _ List.mem_cons_self
  · intro b member same
    exact nodup.2.1.1 (same ▸ List.mem_map_of_mem member)

variable [DecidableEq κ]

theorem filter_key_ne {front back : List α} {a : α}
    (nodup : ((front ++ a :: back).map key).Nodup) :
    (front ++ a :: back).filter (fun b => key b ≠ key a) = front ++ back := by
  obtain ⟨before, after⟩ := keys_around nodup
  rw [List.filter_append, List.filter_cons_of_neg (by simp),
    List.filter_eq_self.mpr (by simpa using before), List.filter_eq_self.mpr (by simpa using after)]

theorem map_key_eq {front back : List α} {a : α} (nodup : ((front ++ a :: back).map key).Nodup)
    (f : α → α) :
    (front ++ a :: back).map (fun b => if key b = key a then f b else b) =
      front ++ f a :: back := by
  obtain ⟨before, after⟩ := keys_around nodup
  have keep : ∀ part : List α, (∀ b ∈ part, key b ≠ key a) →
      part.map (fun b => if key b = key a then f b else b) = part := by
    intro part different
    refine (List.map_congr_left fun b member => ?_).trans (List.map_id part)
    simp [different b member]
  rw [List.map_append, List.map_cons, keep front before, keep back after, if_pos rfl]

end MarketLab.Collections

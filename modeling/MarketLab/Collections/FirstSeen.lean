import Mathlib.Data.List.Induction
import Mathlib.Data.List.Nodup

/-!
# First-seen order

The place of a value among the distinct values of a list, in the order in which they first occur.
-/
namespace MarketLab.Collections
variable {α : Type} [BEq α] [LawfulBEq α]

/-- How many distinct values come first. -/
def rank {α : Type} [BEq α] (seen : List α) (value : α) : Nat := seen.eraseDups.idxOf value

theorem eraseDups_append_singleton (seen : List α) (value : α) :
    (seen ++ [value]).eraseDups =
      if value ∈ seen then seen.eraseDups else seen.eraseDups ++ [value] := by
  rw [List.eraseDups_append]
  split_ifs with known
  · simp [List.removeAll, known]
  · simp [List.removeAll, known, List.eraseDups_cons]

theorem nodup_eraseDups (seen : List α) : seen.eraseDups.Nodup := by
  induction seen using List.reverseRecOn with
  | nil => exact List.nodup_nil
  | append_singleton seen value ih =>
    rw [eraseDups_append_singleton]
    split_ifs with known
    · exact ih
    · exact List.nodup_append'.mpr ⟨ih, List.nodup_singleton value, by simpa using known⟩

theorem length_eraseDups_append_le (front back : List α) :
    front.eraseDups.length ≤ (front ++ back).eraseDups.length := by
  rw [List.eraseDups_append, List.length_append]
  exact Nat.le_add_right _ _

theorem rank_append {front : List α} {value : α} (known : value ∈ front) (back : List α) :
    rank (front ++ back) value = rank front value := by
  rw [rank, List.eraseDups_append, List.idxOf_append_of_mem (List.mem_eraseDups.mpr known)]
  rfl

theorem rank_append_new {seen : List α} {value : α} (new : value ∉ seen) :
    rank (seen ++ [value]) value = seen.eraseDups.length := by
  rw [rank, eraseDups_append_singleton, if_neg new, List.idxOf_append_of_notMem (by simpa using new)]
  simp

theorem rank_lt {seen : List α} {value : α} (known : value ∈ seen) :
    rank seen value < seen.eraseDups.length :=
  List.idxOf_lt_length_of_mem (List.mem_eraseDups.mpr known)

theorem rank_inj {seen : List α} {value other : α} (known : value ∈ seen) :
    rank seen value = rank seen other ↔ value = other :=
  List.idxOf_inj (List.mem_eraseDups.mpr known)

/-! ## Renaming -/

section Renaming
variable {β : Type} [BEq β] [LawfulBEq β] {rename : α → β} {seen : List α}
  (apart : ∀ a ∈ seen, ∀ b ∈ seen, rename a = rename b → a = b)
include apart

/-- Where no two values are renamed alike, the distinct ones are the renamed distinct ones. -/
theorem eraseDups_map : (seen.map rename).eraseDups = seen.eraseDups.map rename := by
  induction seen using List.reverseRecOn with
  | nil => rfl
  | append_singleton seen value ih =>
    have before := ih fun a first b second =>
      apart a (List.mem_append_left _ first) b (List.mem_append_left _ second)
    have known : rename value ∈ seen.map rename ↔ value ∈ seen := by
      refine ⟨fun member => ?_, List.mem_map_of_mem⟩
      obtain ⟨other, inside, same⟩ := List.mem_map.mp member
      have equal := apart other (List.mem_append_left _ inside) value (by simp) same
      exact equal ▸ inside
    rw [List.map_append, List.map_singleton, eraseDups_append_singleton,
      eraseDups_append_singleton, before]
    by_cases inside : value ∈ seen
    · rw [if_pos (known.mpr inside), if_pos inside]
    · rw [if_neg (inside ∘ known.mp), if_neg inside, List.map_append, List.map_singleton]

/-- Renaming keeps first-seen ranks. -/
theorem rank_map {value : α} (known : value ∈ seen) :
    rank (seen.map rename) (rename value) = rank seen value := by
  have distinct := eraseDups_map apart ▸ nodup_eraseDups (seen.map rename)
  have place := rank_lt known
  have bound : rank seen value < (seen.eraseDups.map rename).length := by rwa [List.length_map]
  have here : seen.eraseDups[rank seen value] = value := List.getElem_idxOf place
  have there : (seen.eraseDups.map rename)[rank seen value] = rename value := by
    rw [List.getElem_map, here]
  rw [rank, eraseDups_map apart, ← there, distinct.idxOf_getElem]

end Renaming
end MarketLab.Collections

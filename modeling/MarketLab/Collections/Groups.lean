import Mathlib.Data.List.Dedup
import Mathlib.Data.List.Sort

/-!
# Groups of a list by key

The items of each key, under the distinct keys. Where the items of a key stand together the
groups come in the order of the list, one run after the other; sorted by key they do not depend
on the order of the list.
-/
namespace MarketLab.Collections
variable {α β κ τ : Type} [DecidableEq κ] [DecidableEq τ]

def groups (key : α → κ) (items : List α) : List (κ × List α) :=
  (items.map key).dedup.map fun k => (k, items.filter fun item => key item = k)

@[simp] theorem groups_nil (key : α → κ) : groups key [] = [] := rfl

/-- A key repeated in front of other keys is kept once. -/
theorem dedup_run {k : κ} {run rest : List κ} (same : ∀ other ∈ run, other = k) (some_ : run ≠ [])
    (absent : k ∉ rest) : (run ++ rest).dedup = k :: rest.dedup := by
  induction run with
  | nil => exact absurd rfl some_
  | cons first run ih =>
    obtain ⟨rfl, later⟩ := List.forall_mem_cons.mp same
    cases run with
    | nil => exact List.dedup_cons_of_notMem absent
    | cons second run =>
      have again : first ∈ (second :: run) ++ rest := by
        simp [(List.forall_mem_cons.mp later).1]
      rw [List.cons_append, List.dedup_cons_of_mem again]
      exact ih later (List.cons_ne_nil _ _)

/-- A run of one key in front is the first group. -/
theorem groups_run {key : α → κ} {k : κ} {run rest : List α} (same : ∀ item ∈ run, key item = k)
    (some_ : run ≠ []) (absent : ∀ item ∈ rest, key item ≠ k) :
    groups key (run ++ rest) = (k, run) :: groups key rest := by
  have keys : ((run ++ rest).map key).dedup = k :: (rest.map key).dedup := by
    rw [List.map_append]
    refine dedup_run ?_ (by simpa using some_) ?_
    · intro other member
      obtain ⟨item, inside, rfl⟩ := List.mem_map.mp member
      exact same item inside
    · intro member
      obtain ⟨item, inside, taken⟩ := List.mem_map.mp member
      exact absent item inside taken
  have first : (run ++ rest).filter (fun item => key item = k) = run := by
    rw [List.filter_append, List.filter_eq_self.mpr (by simpa using same),
      List.filter_eq_nil_iff.mpr (by simpa using absent), List.append_nil]
  rw [groups, keys, List.map_cons, first, groups]
  refine congrArg _ (List.map_congr_left fun other member => ?_)
  have later : other ≠ k := by
    rintro rfl
    obtain ⟨item, inside, taken⟩ := List.mem_map.mp (List.mem_dedup.mp member)
    exact absent item inside taken
  rw [List.filter_append, List.filter_eq_nil_iff.mpr, List.nil_append]
  intro item inside
  simpa [same item inside] using Ne.symm later

/-- A map of the items that maps their keys one to one maps the groups. -/
theorem groups_map {key : α → κ} {key' : β → τ} {f : α → β} {g : κ → τ}
    (injective : Function.Injective g) (keys : ∀ item, key' (f item) = g (key item))
    (items : List α) :
    groups key' (items.map f) = (groups key items).map fun group => (g group.1, group.2.map f) := by
  have mapped : (items.map f).map key' = (items.map key).map g := by
    rw [List.map_map, List.map_map]
    exact List.map_congr_left fun item _ => keys item
  rw [groups, mapped, List.dedup_map_of_injective injective, groups, List.map_map, List.map_map]
  refine List.map_congr_left fun k _ => ?_
  have filtered : (items.map f).filter (fun item => key' item = g k) =
      (items.filter fun item => key item = k).map f := by
    rw [List.filter_map]
    refine congrArg _ (List.filter_congr fun item _ => ?_)
    simp [keys, injective.eq_iff]
  simp only [Function.comp_apply, filtered]

/-! ## Sorted groups -/

section Sorted
variable {lt : κ → κ → Prop} [DecidableRel lt]

/-- The groups with the least key in front. -/
def sortedGroups (lt : κ → κ → Prop) [DecidableRel lt] (key : α → κ) (items : List α) :
    List (κ × List α) :=
  ((items.map key).dedup.insertionSort fun a b => ¬ lt b a).map fun k =>
    (k, items.filter fun item => key item = k)

/-- Items that stand sorted by key already are grouped as they stand. -/
theorem sortedGroups_of_sorted {key : α → κ} {items : List α}
    (sorted : items.Pairwise fun ahead behind => ¬ lt (key behind) (key ahead)) :
    sortedGroups lt key items = groups key items := by
  have keys : (items.map key).dedup.Pairwise fun a b => ¬ lt b a :=
    (List.pairwise_map.mpr sorted).sublist (List.dedup_sublist _)
  rw [sortedGroups, keys.insertionSort_eq, groups]

variable [IsStrictTotalOrder κ lt]

/-- Not to come behind is to come in front or to be the same. -/
theorem not_behind_iff {a b : κ} : ¬ lt b a ↔ lt a b ∨ a = b := by
  constructor
  · intro ahead
    by_contra other
    rw [not_or] at other
    exact other.2 (Std.Trichotomous.trichotomous a b other.1 ahead)
  · rintro (before | rfl)
    · exact asymm_of lt before
    · exact irrefl_of lt a

local instance instTotalNotBehind : Std.Total fun a b : κ => ¬ lt b a where
  total a b := by
    by_cases before : lt b a
    · exact .inr (asymm_of lt before)
    · exact .inl before

local instance instTransNotBehind : IsTrans κ fun a b => ¬ lt b a where
  trans a b c first second := by
    rw [not_behind_iff] at first second ⊢
    rcases first with before | rfl
    · rcases second with later | rfl
      · exact .inl (trans_of lt before later)
      · exact .inl before
    · exact second

local instance instAntisymmNotBehind : Std.Antisymm fun a b : κ => ¬ lt b a where
  antisymm a b first second := by
    rcases not_behind_iff.mp first with before | same
    · exact absurd before second
    · exact same

theorem sortedGroups_sorted (key : α → κ) (items : List α) :
    (sortedGroups lt key items).Pairwise fun a b => lt a.1 b.1 := by
  rw [sortedGroups, List.pairwise_map]
  have distinct : ((items.map key).dedup.insertionSort fun a b => ¬ lt b a).Nodup :=
    (List.perm_insertionSort _ _).nodup_iff.mpr (List.nodup_dedup _)
  refine List.Pairwise.imp₂ ?_ distinct (List.pairwise_insertionSort _ _)
  intro a b differs ahead
  exact (not_behind_iff.mp ahead).resolve_right differs

/-- What is read off each group in any order of its items is read off in any order of all. -/
theorem sortedGroups_perm {key : α → κ} {items others : List α} (perm : items.Perm others)
    {f : κ × List α → β}
    (insensitive : ∀ k group other, group.Perm other → f (k, group) = f (k, other)) :
    (sortedGroups lt key items).map f = (sortedGroups lt key others).map f := by
  have keys : (items.map key).dedup.insertionSort (fun a b => ¬ lt b a) =
      (others.map key).dedup.insertionSort fun a b => ¬ lt b a := by
    have same : (items.map key).dedup.Perm (others.map key).dedup := (perm.map key).dedup
    refine List.Perm.eq_of_pairwise' (List.pairwise_insertionSort _ _)
      (List.pairwise_insertionSort _ _) ?_
    exact (List.perm_insertionSort _ _).trans (same.trans (List.perm_insertionSort _ _).symm)
  rw [sortedGroups, sortedGroups, keys, List.map_map, List.map_map]
  refine List.map_congr_left fun k _ => ?_
  exact insensitive k _ _ (perm.filter _)

end Sorted

end MarketLab.Collections

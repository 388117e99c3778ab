import Mathlib.Logic.Function.Basic

/-!
# Unordered maps

A hash map that is only ever searched and edited by key, or iterated to edit all values
alike: its state is its lookup function, and two maps with the same lookups are equal.
-/
namespace MarketLab.Collections

@[ext] structure UnorderedMap (κ α : Type) where
  find? : κ → Option α

namespace UnorderedMap
variable {κ α : Type}

def empty : UnorderedMap κ α := ⟨fun _ => none⟩

@[simp] theorem find?_empty (key : κ) : (empty : UnorderedMap κ α).find? key = none := rfl

def contains (m : UnorderedMap κ α) (key : κ) : Bool := (m.find? key).isSome

/-- A loop over all entries that edits each value the same way. -/
def mapValues (m : UnorderedMap κ α) (f : α → α) : UnorderedMap κ α :=
  ⟨fun key => (m.find? key).map f⟩

variable [DecidableEq κ]

def insertOrAssign (m : UnorderedMap κ α) (key : κ) (value : α) : UnorderedMap κ α :=
  ⟨Function.update m.find? key (some value)⟩

/-- `emplace`: a present key keeps its value. -/
def emplace (m : UnorderedMap κ α) (key : κ) (value : α) : UnorderedMap κ α :=
  match m.find? key with
  | some _ => m
  | none => m.insertOrAssign key value

def erase (m : UnorderedMap κ α) (key : κ) : UnorderedMap κ α :=
  ⟨Function.update m.find? key none⟩

theorem find?_insertOrAssign (m : UnorderedMap κ α) (key other : κ) (value : α) :
    (m.insertOrAssign key value).find? other =
      if other = key then some value else m.find? other :=
  Function.update_apply ..

@[simp] theorem find?_insertOrAssign_self (m : UnorderedMap κ α) (key : κ) (value : α) :
    (m.insertOrAssign key value).find? key = some value := by
  simp [find?_insertOrAssign]

theorem find?_insertOrAssign_ne (m : UnorderedMap κ α) {key other : κ} (value : α)
    (different : other ≠ key) : (m.insertOrAssign key value).find? other = m.find? other := by
  simp [find?_insertOrAssign, different]

/-- The second of two assignments to a key stays. -/
theorem insertOrAssign_twice (m : UnorderedMap κ α) (key : κ) (first second : α) :
    (m.insertOrAssign key first).insertOrAssign key second = m.insertOrAssign key second :=
  UnorderedMap.ext (Function.update_idem ..)

/-- Assigning what is there changes nothing. -/
theorem insertOrAssign_same {m : UnorderedMap κ α} {key : κ} {value : α}
    (found : m.find? key = some value) : m.insertOrAssign key value = m := by
  refine UnorderedMap.ext ?_
  rw [insertOrAssign, ← found, Function.update_eq_self]

theorem find?_erase (m : UnorderedMap κ α) (key other : κ) :
    (m.erase key).find? other = if other = key then none else m.find? other :=
  Function.update_apply ..

theorem emplace_of_absent {m : UnorderedMap κ α} {key : κ} (value : α)
    (absent : m.find? key = none) : m.emplace key value = m.insertOrAssign key value := by
  simp [emplace, absent]

/-- Erasing a list of keys, one after the other. -/
theorem find?_foldl_erase (m : UnorderedMap κ α) (keys : List κ) (other : κ) :
    (keys.foldl erase m).find? other = if other ∈ keys then none else m.find? other := by
  induction keys generalizing m with
  | nil => simp
  | cons head rest ih =>
    rw [List.foldl_cons, ih, find?_erase]
    by_cases same : other = head <;> simp [same]

end UnorderedMap
end MarketLab.Collections

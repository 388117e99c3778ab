import Mathlib.Data.List.Nodup

/-!
# Linked lists with stable iterators

A list of nodes, each at an address that never changes while the node lives, as
in `std::list`. An iterator is the address of its node. Addresses are never
reused, so an iterator to an erased node finds nothing.
-/
namespace MarketLab.Collections

structure Node (α : Type) where
  address : Nat
  value : α
  deriving DecidableEq, Repr

abbrev LinkedList (α : Type) := List (Node α)

namespace LinkedList
variable {α : Type}

def values (l : LinkedList α) : List α := l.map Node.value

def addresses (l : LinkedList α) : List Nat := l.map Node.address

/-- What the iterator refers to, if its node is still in the list. -/
def deref? (l : LinkedList α) (iterator : Nat) : Option α :=
  (l.find? fun node => node.address = iterator).map Node.value

def eraseNode (l : LinkedList α) (iterator : Nat) : LinkedList α :=
  l.filter fun node => node.address ≠ iterator

/-- A write through the iterator. -/
def modifyNode (l : LinkedList α) (iterator : Nat) (f : α → α) : LinkedList α :=
  l.map fun node => if node.address = iterator then { node with value := f node.value } else node

@[simp] theorem values_append (l r : LinkedList α) : values (l ++ r) = values l ++ values r :=
  List.map_append

@[simp] theorem values_cons (node : Node α) (l : LinkedList α) :
    values (node :: l) = node.value :: values l := rfl

@[simp] theorem values_nil : values ([] : LinkedList α) = [] := rfl

@[simp] theorem values_eq_nil {l : LinkedList α} : values l = [] ↔ l = [] := List.map_eq_nil_iff

/-- With distinct addresses a node is reached through its own address. -/
theorem deref?_of_mem {l : LinkedList α} {node : Node α} (nodup : (addresses l).Nodup)
    (h : node ∈ l) : l.deref? node.address = some node.value := by
  cases found : l.find? fun other => other.address = node.address with
  | none => exact absurd (List.find?_eq_none.mp found node h) (by simp)
  | some other =>
    have same : other.address = node.address := by simpa using List.find?_some found
    have := List.inj_on_of_nodup_map nodup (List.mem_of_find?_eq_some found) h same
    simp [deref?, found, this]

/-- Erasing a node drops its value and keeps the others in order. -/
theorem split_of_mem {l : LinkedList α} {node : Node α} (nodup : (addresses l).Nodup)
    (h : node ∈ l) :
    ∃ front back, l = front ++ node :: back ∧ l.eraseNode node.address = front ++ back ∧
      ∀ f, l.modifyNode node.address f = front ++ { node with value := f node.value } :: back := by
  obtain ⟨front, back, rfl⟩ := List.append_of_mem h
  simp only [addresses, List.map_append, List.map_cons, List.nodup_append, List.nodup_cons] at nodup
  have front_ne : ∀ other ∈ front, other.address ≠ node.address := fun other member same =>
    nodup.2.2 _ (List.mem_map_of_mem member) _ List.mem_cons_self same
  have back_ne : ∀ other ∈ back, other.address ≠ node.address := fun other member same =>
    nodup.2.1.1 (same ▸ List.mem_map_of_mem member)
  refine ⟨front, back, rfl, ?_, fun f => ?_⟩
  · rw [eraseNode, List.filter_append, List.filter_cons_of_neg (by simp),
      List.filter_eq_self.mpr (by simpa using front_ne),
      List.filter_eq_self.mpr (by simpa using back_ne)]
  · have same : ∀ part : List (Node α), (∀ other ∈ part, other.address ≠ node.address) →
        part.map (fun other => if other.address = node.address then
          { other with value := f other.value } else other) = part := by
      intro part different
      refine (List.map_congr_left fun other member => ?_).trans (List.map_id part)
      simp [different other member]
    rw [modifyNode, List.map_append, List.map_cons, same front front_ne, same back back_ne]
    simp

end LinkedList
end MarketLab.Collections

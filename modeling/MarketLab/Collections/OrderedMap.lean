import Mathlib.Data.List.Nodup
import Mathlib.Order.Defs.Unbundled

/-!
# Ordered maps

An associative container that iterates in the order of its comparator, as
`std::map<K, V, Compare>` does. The entries are kept in iteration order and the
structure carries the proof, so an unordered map cannot be built. The two split
lemmas say what an assignment does to the entry list; every other fact about
the contents of a map follows from them by list reasoning.
-/
namespace MarketLab.Collections

/-- The map from `κ` to `α` ordered by `lt`, as its entries in iteration order. -/
structure OrderedMap {κ : Type} (lt : κ → κ → Prop) (α : Type) where
  entries : List (κ × α)
  sorted : entries.Pairwise fun a b => lt a.1 b.1

namespace OrderedMap
variable {κ α : Type} {lt : κ → κ → Prop}

@[ext] theorem ext {m n : OrderedMap lt α} (h : m.entries = n.entries) : m = n := by
  cases m
  cases n
  cases h
  rfl

def empty : OrderedMap lt α := ⟨[], .nil⟩

instance : Inhabited (OrderedMap lt α) := ⟨empty⟩

@[simp] theorem entries_empty : (empty : OrderedMap lt α).entries = [] := rfl

def size (m : OrderedMap lt α) : Nat := m.entries.length

/-- The entry `begin()` points to, if the map is not empty. -/
def first? (m : OrderedMap lt α) : Option (κ × α) := m.entries.head?

/-- `erase(begin())`. -/
def eraseFirst (m : OrderedMap lt α) : OrderedMap lt α :=
  ⟨m.entries.tail, m.sorted.sublist (List.tail_sublist _)⟩

@[simp] theorem entries_eraseFirst (m : OrderedMap lt α) :
    m.eraseFirst.entries = m.entries.tail := rfl

section Keys
variable [DecidableEq κ]

def find? (m : OrderedMap lt α) (key : κ) : Option α :=
  (m.entries.find? fun entry => entry.1 = key).map Prod.snd

def contains (m : OrderedMap lt α) (key : κ) : Bool := (m.find? key).isSome

def erase (m : OrderedMap lt α) (key : κ) : OrderedMap lt α :=
  ⟨m.entries.filter fun entry => entry.1 ≠ key, m.sorted.filter _⟩

theorem entries_erase (m : OrderedMap lt α) (key : κ) :
    (m.erase key).entries = m.entries.filter fun entry => entry.1 ≠ key := rfl

theorem mem_entries_of_find? {m : OrderedMap lt α} {key : κ} {value : α}
    (h : m.find? key = some value) : (key, value) ∈ m.entries := by
  simp only [find?, Option.map_eq_some_iff] at h
  obtain ⟨⟨k, v⟩, found, rfl⟩ := h
  have hk : k = key := by simpa using List.find?_some found
  subst hk
  exact List.mem_of_find?_eq_some found

theorem find?_eq_none {m : OrderedMap lt α} {key : κ} :
    m.find? key = none ↔ ∀ entry ∈ m.entries, entry.1 ≠ key := by
  simp [find?]

theorem contains_iff {m : OrderedMap lt α} {key : κ} :
    m.contains key = true ↔ ∃ value, m.find? key = some value := by
  simp [contains, Option.isSome_iff_exists]

theorem contains_eq_false {m : OrderedMap lt α} {key : κ} :
    m.contains key = false ↔ m.find? key = none := by
  simp [contains]

theorem find?_eraseFirst {m : OrderedMap lt α} {key : κ} {value : α} {rest : List (κ × α)}
    (first : m.entries = (key, value) :: rest) {other : κ} (different : other ≠ key) :
    m.eraseFirst.find? other = m.find? other := by
  simp [find?, first, Ne.symm different]

/-- The entries before and after the one `find` returns. -/
theorem split_of_find? {m : OrderedMap lt α} {key : κ} {value : α}
    (found : m.find? key = some value) :
    ∃ front back, m.entries = front ++ (key, value) :: back ∧
      (∀ entry ∈ front, lt entry.1 key) ∧ (∀ entry ∈ back, lt key entry.1) := by
  obtain ⟨front, back, split⟩ := List.append_of_mem (mem_entries_of_find? found)
  refine ⟨front, back, split, ?_, ?_⟩
  · intro entry member
    have sorted := m.sorted
    rw [split, List.pairwise_append] at sorted
    exact sorted.2.2 entry member _ List.mem_cons_self
  · intro entry member
    have sorted := m.sorted
    rw [split, List.pairwise_append, List.pairwise_cons] at sorted
    exact sorted.2.1.1 entry member

end Keys

section Strict
variable [IsStrictTotalOrder κ lt]

theorem keys_nodup (m : OrderedMap lt α) : (m.entries.map Prod.fst).Nodup := by
  refine List.pairwise_map.mpr (m.sorted.imp ?_)
  intro a b before same
  rw [same] at before
  exact irrefl_of lt _ before

/-- A key has at most one entry. -/
theorem entry_unique {m : OrderedMap lt α} {key : κ} {v w : α}
    (hv : (key, v) ∈ m.entries) (hw : (key, w) ∈ m.entries) : v = w := by
  have same := List.inj_on_of_nodup_map m.keys_nodup hv hw rfl
  exact congrArg Prod.snd same

variable [DecidableEq κ]

theorem find?_eq_some {m : OrderedMap lt α} {key : κ} {value : α} :
    m.find? key = some value ↔ (key, value) ∈ m.entries := by
  constructor
  · exact mem_entries_of_find?
  · intro member
    cases found : m.find? key with
    | none => exact absurd rfl (find?_eq_none.mp found _ member)
    | some other => rw [entry_unique (mem_entries_of_find? found) member]

theorem entries_erase_split {m : OrderedMap lt α} {key : κ} {value : α}
    {front back : List (κ × α)} (split : m.entries = front ++ (key, value) :: back) :
    (m.erase key).entries = front ++ back := by
  have nodup := m.keys_nodup
  rw [split, List.map_append, List.map_cons, List.nodup_append, List.nodup_cons] at nodup
  have keep : ∀ part : List (κ × α), key ∉ part.map Prod.fst →
      part.filter (fun entry => entry.1 ≠ key) = part := by
    intro part absent
    rw [List.filter_eq_self]
    intro entry member
    simp only [ne_eq, decide_eq_true_eq]
    rintro rfl
    exact absent (List.mem_map_of_mem member)
  rw [entries_erase, split, List.filter_append, List.filter_cons_of_neg (by simp),
    keep front (fun member => nodup.2.2 key member key (by simp) rfl), keep back nodup.2.1.1]

end Strict

section Assign
variable [DecidableRel lt]

/-- Sorted position of `key`; an equivalent key is overwritten. -/
def assignEntries (lt : κ → κ → Prop) [DecidableRel lt] (key : κ) (value : α) :
    List (κ × α) → List (κ × α)
  | [] => [(key, value)]
  | (k, v) :: rest =>
    if lt key k then (key, value) :: (k, v) :: rest
    else if lt k key then (k, v) :: assignEntries lt key value rest
    else (key, value) :: rest

theorem fst_mem_assignEntries {key : κ} {value : α} {l : List (κ × α)} {entry : κ × α}
    (member : entry ∈ assignEntries lt key value l) : entry = (key, value) ∨ entry ∈ l := by
  induction l with
  | nil => exact Or.inl (by simpa [assignEntries] using member)
  | cons head rest ih =>
    obtain ⟨k, v⟩ := head
    unfold assignEntries at member
    split at member
    · exact List.mem_cons.mp member
    · split at member
      · rcases List.mem_cons.mp member with rfl | later
        · exact Or.inr (by simp)
        · exact (ih later).imp id (List.mem_cons_of_mem _)
      · rcases List.mem_cons.mp member with rfl | later
        · exact Or.inl rfl
        · exact Or.inr (List.mem_cons_of_mem _ later)

variable [IsStrictTotalOrder κ lt]

theorem assignEntries_sorted (key : κ) (value : α) {l : List (κ × α)}
    (sorted : l.Pairwise fun a b => lt a.1 b.1) :
    (assignEntries lt key value l).Pairwise fun a b => lt a.1 b.1 := by
  induction l with
  | nil => simp [assignEntries]
  | cons head rest ih =>
    obtain ⟨k, v⟩ := head
    obtain ⟨below, restSorted⟩ := List.pairwise_cons.mp sorted
    unfold assignEntries
    split
    next before =>
      refine List.pairwise_cons.mpr ⟨?_, sorted⟩
      intro entry member
      rcases List.mem_cons.mp member with rfl | later
      · exact before
      · exact trans_of lt before (below entry later)
    next notBefore =>
      split
      next after =>
        refine List.pairwise_cons.mpr ⟨?_, ih restSorted⟩
        intro entry member
        rcases fst_mem_assignEntries member with rfl | later
        · exact after
        · exact below entry later
      next notAfter =>
        have same : k = key := (trichotomous_of lt k key).elim (absurd · notAfter)
          (fun h => h.elim id (absurd · notBefore))
        subst same
        exact List.pairwise_cons.mpr ⟨below, restSorted⟩

/-- `insert_or_assign`, and what a write through `operator[]` leaves behind. -/
def insertOrAssign (m : OrderedMap lt α) (key : κ) (value : α) : OrderedMap lt α :=
  ⟨assignEntries lt key value m.entries, assignEntries_sorted key value m.sorted⟩

/-- `emplace`: a present key keeps its value. -/
def emplace [DecidableEq κ] (m : OrderedMap lt α) (key : κ) (value : α) : OrderedMap lt α :=
  match m.find? key with
  | some _ => m
  | none => m.insertOrAssign key value

theorem emplace_of_absent [DecidableEq κ] {m : OrderedMap lt α} {key : κ} (value : α)
    (absent : m.find? key = none) : m.emplace key value = m.insertOrAssign key value := by
  simp [emplace, absent]

theorem assignEntries_split_found (key : κ) (value old : α) (front back : List (κ × α))
    (below : ∀ entry ∈ front, lt entry.1 key) :
    assignEntries lt key value (front ++ (key, old) :: back) =
      front ++ (key, value) :: back := by
  induction front with
  | nil => simp [assignEntries, irrefl_of lt key]
  | cons head rest ih =>
    have before : lt head.1 key := below head (by simp)
    have notAfter : ¬ lt key head.1 := asymm_of lt before
    simp only [List.cons_append, assignEntries, notAfter, before, ↓reduceIte]
    rw [ih fun entry member => below entry (by simp [member])]

/-- An assignment to a present key rewrites its value in place. -/
theorem insertOrAssign_split_found {m : OrderedMap lt α} {key : κ} {old : α}
    {front back : List (κ × α)} (value : α) (split : m.entries = front ++ (key, old) :: back) :
    (m.insertOrAssign key value).entries = front ++ (key, value) :: back := by
  have sorted := m.sorted
  rw [split, List.pairwise_append] at sorted
  have below : ∀ entry ∈ front, lt entry.1 key :=
    fun entry member => sorted.2.2 entry member _ List.mem_cons_self
  simp only [insertOrAssign, split]
  exact assignEntries_split_found key value old front back below

theorem assignEntries_split_new (key : κ) (value : α) {l : List (κ × α)}
    (sorted : l.Pairwise fun a b => lt a.1 b.1) (absent : ∀ entry ∈ l, entry.1 ≠ key) :
    ∃ front back, l = front ++ back ∧
      assignEntries lt key value l = front ++ (key, value) :: back ∧
      (∀ entry ∈ front, lt entry.1 key) ∧ (∀ entry ∈ back, lt key entry.1) := by
  induction l with
  | nil => exact ⟨[], [], rfl, rfl, by simp, by simp⟩
  | cons head rest ih =>
    obtain ⟨k, v⟩ := head
    obtain ⟨below, restSorted⟩ := List.pairwise_cons.mp sorted
    unfold assignEntries
    by_cases before : lt key k
    · refine ⟨[], (k, v) :: rest, rfl, by simp [before], by simp, ?_⟩
      intro entry member
      rcases List.mem_cons.mp member with rfl | later
      · exact before
      · exact trans_of lt before (below entry later)
    · have after : lt k key := (trichotomous_of lt k key).elim id
        (fun h => h.elim (absurd · (absent (k, v) (by simp))) (absurd · before))
      obtain ⟨front, back, whole, assigned, hfront, hback⟩ :=
        ih restSorted fun entry member => absent entry (by simp [member])
      refine ⟨(k, v) :: front, back, by simp [whole], by simp [before, after, assigned], ?_, hback⟩
      intro entry member
      rcases List.mem_cons.mp member with rfl | later
      · exact after
      · exact hfront entry later

/-- An assignment to an absent key inserts it at its sorted position. -/
theorem insertOrAssign_split_new [DecidableEq κ] {m : OrderedMap lt α} {key : κ} (value : α)
    (absent : m.find? key = none) :
    ∃ front back, m.entries = front ++ back ∧
      (m.insertOrAssign key value).entries = front ++ (key, value) :: back ∧
      (∀ entry ∈ front, lt entry.1 key) ∧ (∀ entry ∈ back, lt key entry.1) :=
  assignEntries_split_new key value m.sorted (find?_eq_none.mp absent)

theorem mem_insertOrAssign [DecidableEq κ] {m : OrderedMap lt α} {key : κ} {value : α}
    {entry : κ × α} :
    entry ∈ (m.insertOrAssign key value).entries ↔
      entry = (key, value) ∨ (entry.1 ≠ key ∧ entry ∈ m.entries) := by
  cases found : m.find? key with
  | none =>
    obtain ⟨front, back, whole, assigned, -, -⟩ := insertOrAssign_split_new value found
    have absent : entry ∈ m.entries → entry.1 ≠ key := find?_eq_none.mp found entry
    rw [assigned]
    rw [whole] at absent ⊢
    simp only [List.mem_append, List.mem_cons] at absent ⊢
    tauto
  | some old =>
    obtain ⟨front, back, split, below, above⟩ := split_of_find? found
    rw [insertOrAssign_split_found value split, split]
    have ne_of_front : entry ∈ front → entry.1 ≠ key := by
      rintro member same
      exact irrefl_of lt key (same ▸ below entry member)
    have ne_of_back : entry ∈ back → entry.1 ≠ key := by
      rintro member same
      exact irrefl_of lt key (same ▸ above entry member)
    have here : entry = (key, old) → entry.1 = key := by rintro rfl; rfl
    simp only [List.mem_append, List.mem_cons]
    tauto

@[simp] theorem find?_insertOrAssign [DecidableEq κ] (m : OrderedMap lt α) (key other : κ)
    (value : α) :
    (m.insertOrAssign key value).find? other =
      if other = key then some value else m.find? other := by
  split
  next same =>
    subst same
    rw [find?_eq_some, mem_insertOrAssign]
    exact Or.inl rfl
  next different =>
    cases found : m.find? other with
    | none =>
      rw [find?_eq_none] at found ⊢
      intro entry member
      rcases mem_insertOrAssign.mp member with rfl | ⟨-, old⟩
      · exact Ne.symm different
      · exact found entry old
    | some current =>
      rw [find?_eq_some] at found ⊢
      exact mem_insertOrAssign.mpr (Or.inr ⟨different, found⟩)

end Assign
end OrderedMap
end MarketLab.Collections

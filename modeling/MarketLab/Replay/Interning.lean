import MarketLab.Collections.FirstSeen
import MarketLab.Replay.ScenarioParser

/-!
# Interning names

A symbol table gives every name its first-seen rank, as long as IDs last: the counter that wraps
to zero after the last of them refuses every name that comes later.
-/
namespace MarketLab.Replay
open MarketLab.Collections MarketLab.Text
open MarketLab.Matching (SymbolId)

/-- Every value of 32 bits but zero. -/
def idLimit : Nat := 2 ^ 32 - 1

/-- The ID of the name with this rank. -/
def idAt (place : Nat) : SymbolId := ⟨.ofNat (place + 1)⟩

theorem idAt_toNat {place : Nat} (left : place < idLimit) : (idAt place).value.toNat = place + 1 := by
  have fits : place + 1 < 2 ^ 32 := by
    unfold idLimit at left
    omega
  exact UInt32.toNat_ofNat_of_lt' fits

theorem idAt_inj {place other : Nat} (left : place < idLimit) (also : other < idLimit) :
    idAt place = idAt other ↔ place = other := by
  constructor
  · intro same
    have values := congrArg (·.value.toNat) same
    simp only [idAt_toNat left, idAt_toNat also] at values
    omega
  · exact congrArg idAt

def idsExhausted : Failure := .overflowError (ascii "scenario symbol IDs are exhausted")

/-! ## The table after any calls -/

/-- A table that was asked for these names, in this order. -/
structure Interned (symbols : SymbolTable) (names : List Bytes) : Prop where
  ids : ∀ name, symbols.ids.find? name =
    if name ∈ names ∧ rank names name < idLimit then some (idAt (rank names name)) else none
  next : symbols.nextId = .ofNat (min names.eraseDups.length idLimit + 1)

namespace Interned
variable {symbols : SymbolTable} {names : List Bytes}

theorem initial : Interned {} [] where
  ids _ := rfl
  next := rfl

/-- The counter is zero when the last ID is gone, and never before. -/
theorem nextId_eq_zero (interned : Interned symbols names) :
    symbols.nextId = 0 ↔ idLimit ≤ names.eraseDups.length := by
  rw [interned.next]
  constructor
  · intro wrapped
    by_contra left
    have value := congrArg UInt32.toNat wrapped
    rw [Nat.min_eq_left (Nat.le_of_not_le left), UInt32.toNat_ofNat_of_lt'] at value
    · cases value
    · unfold idLimit at left
      change _ < 2 ^ 32
      omega
  · intro gone
    rw [Nat.min_eq_right gone]
    rfl

/-- A name that is known adds nothing. -/
theorem again (interned : Interned symbols names) {name : Bytes} (known : name ∈ names) :
    Interned symbols (names ++ [name]) where
  ids other := by
    rw [interned.ids other]
    by_cases also : other ∈ names
    · simp [also, rank_append also]
    · have differs : other ≠ name := fun same => also (same ▸ known)
      simp [also, differs]
  next := by rw [interned.next, eraseDups_append_singleton, if_pos known]

theorem intern_known (interned : Interned symbols names) {name : Bytes} (known : name ∈ names)
    (left : rank names name < idLimit) :
    symbols.intern name = .ok (idAt (rank names name), symbols) := by
  have found := (interned.ids name).trans (if_pos ⟨known, left⟩)
  simp only [SymbolTable.intern, found]

/-- A name that has no ID takes the next one. -/
theorem intern_new (interned : Interned symbols names) {name : Bytes} (new : name ∉ names)
    (left : names.eraseDups.length < idLimit) :
    ∃ after, symbols.intern name = .ok (idAt names.eraseDups.length, after) ∧
      Interned after (names ++ [name]) := by
  have absent := (interned.ids name).trans (if_neg fun ⟨known, _⟩ => new known)
  have unwrapped : symbols.nextId ≠ 0 := by
    rw [Ne, interned.nextId_eq_zero]
    omega
  have next : symbols.nextId = .ofNat (names.eraseDups.length + 1) := by
    rw [interned.next, Nat.min_eq_left left.le]
  refine ⟨{ ids := symbols.ids.emplace name ⟨symbols.nextId⟩, nextId := symbols.nextId + 1 }, ?_, ?_⟩
  · simp only [SymbolTable.intern, absent, if_neg unwrapped]
    rw [next]
    rfl
  constructor
  · intro other
    simp only [UnorderedMap.emplace, absent, UnorderedMap.find?_insertOrAssign, interned.ids other]
    by_cases same : other = name
    · subst same
      simp [next, idAt, rank_append_new new, left]
    · by_cases also : other ∈ names
      · simp [same, also, rank_append also]
      · simp [same, also]
  · rw [next, eraseDups_append_singleton, if_neg new, List.length_append, List.length_singleton,
      Nat.min_eq_left (by omega)]
    simp [UInt32.ofNat_add]

/-- With no ID left, a name that has none is refused. -/
theorem intern_exhausted (interned : Interned symbols names)
    (gone : idLimit ≤ names.eraseDups.length) {name : Bytes}
    (without : name ∈ names → idLimit ≤ rank names name) :
    symbols.intern name = .error idsExhausted ∧ Interned symbols (names ++ [name]) := by
  have absent := (interned.ids name).trans (if_neg fun ⟨known, left⟩ => by have := without known; omega)
  have wrapped := interned.nextId_eq_zero.mpr gone
  refine ⟨?_, ?_⟩
  · simp only [SymbolTable.intern, absent, wrapped]
    rfl
  by_cases known : name ∈ names
  · exact interned.again known
  constructor
  · intro other
    rw [interned.ids other]
    by_cases same : other = name
    · subst same
      simp [known, rank_append_new known, gone]
    · by_cases also : other ∈ names
      · simp [also, rank_append also]
      · simp [same, also]
  · rw [interned.next, eraseDups_append_singleton, if_neg known, List.length_append,
      List.length_singleton, Nat.min_eq_right gone, Nat.min_eq_right (by omega)]

/-- One call: the ID of the name's rank while there are IDs, a refusal afterwards. -/
theorem intern (interned : Interned symbols names) (name : Bytes) :
    (rank (names ++ [name]) name < idLimit ∧ ∃ after,
      symbols.intern name = .ok (idAt (rank (names ++ [name]) name), after) ∧
      Interned after (names ++ [name])) ∨
    (idLimit ≤ rank (names ++ [name]) name ∧
      symbols.intern name = .error idsExhausted ∧ Interned symbols (names ++ [name])) := by
  by_cases known : name ∈ names
  · rw [rank_append known]
    rcases Nat.lt_or_ge (rank names name) idLimit with left | gone
    · exact .inl ⟨left, symbols, interned.intern_known known left, interned.again known⟩
    · exact .inr ⟨gone, interned.intern_exhausted (gone.trans (rank_lt known).le) fun _ => gone⟩
  · rw [rank_append_new known]
    rcases Nat.lt_or_ge names.eraseDups.length idLimit with left | gone
    · exact .inl ⟨left, interned.intern_new known left⟩
    · exact .inr ⟨gone, interned.intern_exhausted gone fun other => absurd other known⟩

end Interned

/-! ## Calls on a fresh table -/

/-- The call with the table as its state, in the order of the source: what was written before a
throw would stay written. -/
def SymbolTable.internInPlace (name : Bytes) : ExceptT Failure (StateM SymbolTable) SymbolId := do
  if let some found := (← get).ids.find? name then return found
  if (← get).nextId = 0 then throw (.overflowError (ascii "scenario symbol IDs are exhausted"))
  let id : SymbolId := ⟨(← get).nextId⟩
  modify fun symbols => { symbols with ids := symbols.ids.emplace name id }
  modify fun symbols => { symbols with nextId := symbols.nextId + 1 }
  return id

theorem run_get_bind {σ ε α : Type} (next : σ → ExceptT ε (StateM σ) α) (s : σ) :
    (get >>= next).run.run s = (next s).run.run s := rfl

/-- A call returns what `intern` returns; when it throws, nothing has been written yet. -/
theorem internInPlace_eq (symbols : SymbolTable) (name : Bytes) :
    (SymbolTable.internInPlace name).run.run symbols =
      match symbols.intern name with
      | .ok (id, after) => (.ok id, after)
      | .error failure => (.error failure, symbols) := by
  obtain ⟨ids, nextId⟩ := symbols
  unfold SymbolTable.internInPlace SymbolTable.intern
  rw [run_get_bind]
  simp only
  cases ids.find? name with
  | some found => rfl
  | none =>
    simp only
    rw [run_get_bind]
    by_cases wrapped : nextId = 0
    · rw [if_pos wrapped, if_pos wrapped]
      rfl
    · rw [if_neg wrapped, if_neg wrapped]
      rfl

/-- A table, and what the calls on it returned or threw. -/
structure Interning where
  symbols : SymbolTable := {}
  returned : List (Except Failure SymbolId) := []

def Interning.call (interning : Interning) (name : Bytes) : Interning :=
  let completed := (SymbolTable.internInPlace name).run.run interning.symbols
  { symbols := completed.2, returned := interning.returned ++ [completed.1] }

theorem Interning.call_ok {interning : Interning} {name : Bytes} {id : SymbolId}
    {after : SymbolTable} (ok : interning.symbols.intern name = .ok (id, after)) :
    interning.call name = { symbols := after, returned := interning.returned ++ [.ok id] } := by
  rw [call, internInPlace_eq, ok]

theorem Interning.call_error {interning : Interning} {name : Bytes} {failure : Failure}
    (error : interning.symbols.intern name = .error failure) :
    interning.call name =
      { interning with returned := interning.returned ++ [.error failure] } := by
  rw [call, internInPlace_eq, error]

def internAll (names : List Bytes) : Interning := names.foldl Interning.call {}

/-- The IDs handed out, in the order of the calls. -/
def issued (returned : List (Except Failure SymbolId)) : List SymbolId :=
  returned.filterMap Except.toOption

/-- What a call for the name with this rank returns. -/
def replyAt (place : Nat) : Except Failure SymbolId :=
  if place < idLimit then .ok (idAt place) else .error idsExhausted

theorem internAll_append (names : List Bytes) (name : Bytes) :
    internAll (names ++ [name]) = (internAll names).call name := by
  simp [internAll]

theorem internAll_interned (names : List Bytes) :
    Interned (internAll names).symbols names ∧
      (internAll names).returned = names.map fun name => replyAt (rank names name) := by
  induction names using List.reverseRecOn with
  | nil => exact ⟨.initial, rfl⟩
  | append_singleton names name ih =>
    obtain ⟨interned, returned⟩ := ih
    have earlier : (names.map fun other => replyAt (rank names other)) =
        names.map fun other => replyAt (rank (names ++ [name]) other) :=
      List.map_congr_left fun other known => by rw [rank_append known]
    rw [internAll_append, List.map_append, ← earlier, ← returned]
    rcases interned.intern name with ⟨left, after, taken, kept⟩ | ⟨gone, refused, kept⟩
    · rw [Interning.call_ok taken]
      exact ⟨kept, by simp [replyAt, left]⟩
    · rw [Interning.call_error refused]
      exact ⟨kept, by simp [replyAt, gone]⟩

/-! ## What the calls return -/

section Returned
variable (names : List Bytes)

theorem returned_ok {i : Nat} {id : SymbolId} :
    (internAll names).returned[i]? = some (.ok id) ↔
      ∃ name, names[i]? = some name ∧ rank names name < idLimit ∧ id = idAt (rank names name) := by
  rw [(internAll_interned names).2, List.getElem?_map, Option.map_eq_some_iff]
  refine exists_congr fun name => and_congr_right fun _ => ?_
  unfold replyAt
  split
  next left => simp [left, eq_comm]
  next gone => simp [gone]

theorem issued_append (name : Bytes) :
    issued (internAll (names ++ [name])).returned =
      issued (internAll names).returned ++
        if rank (names ++ [name]) name < idLimit then [idAt (rank (names ++ [name]) name)]
        else [] := by
  rw [(internAll_interned _).2, (internAll_interned names).2, issued, issued, List.map_append,
    List.filterMap_append]
  congr 1
  · refine congrArg _ (List.map_congr_left fun other known => ?_)
    rw [rank_append known]
  · rcases Nat.lt_or_ge (rank (names ++ [name]) name) idLimit with left | gone
    · simp [replyAt, left, Except.toOption]
    · simp [replyAt, Nat.not_lt.mpr gone, Except.toOption]

/-- The distinct IDs handed out, in first-seen order. -/
theorem issued_eraseDups :
    (issued (internAll names).returned).eraseDups =
      (List.range (min names.eraseDups.length idLimit)).map idAt := by
  induction names using List.reverseRecOn with
  | nil => rfl
  | append_singleton names name ih =>
    have issuedBefore : ∀ place, place < idLimit →
        (idAt place ∈ issued (internAll names).returned ↔ place < names.eraseDups.length) := by
      intro place left
      rw [← List.mem_eraseDups, ih, List.mem_map]
      constructor
      · rintro ⟨other, within, same⟩
        rw [List.mem_range] at within
        have := (idAt_inj (by omega) left).mp same
        omega
      · intro within
        exact ⟨place, List.mem_range.mpr (by omega), rfl⟩
    rw [issued_append, eraseDups_append_singleton]
    by_cases known : name ∈ names
    · rw [rank_append known, if_pos known, ← ih]
      split
      next left =>
        rw [eraseDups_append_singleton, if_pos ((issuedBefore _ left).mpr (rank_lt known))]
      next => rw [List.append_nil]
    · rw [rank_append_new known, if_neg known, List.length_append, List.length_singleton]
      split
      next left =>
        have new := mt (issuedBefore _ left).mp (lt_irrefl _)
        rw [eraseDups_append_singleton, if_neg new, ih, Nat.min_eq_left left.le,
          Nat.min_eq_left (by omega), List.range_succ, List.map_append]
        rfl
      next gone =>
        rw [List.append_nil, ih, Nat.min_eq_right (by omega), Nat.min_eq_right (by omega)]

end Returned

/-- Whatever the calls on a fresh table: two that succeed return one ID exactly when they name one
instrument, the IDs are 1, 2, … in first-seen order, and when all of them are gone every name
without one is refused and leaves the table as it is, while a name that has one keeps it. -/
theorem interning_is_injective (names : List Bytes) :
    (∀ (i j : Nat) (id other : SymbolId), (internAll names).returned[i]? = some (.ok id) →
      (internAll names).returned[j]? = some (.ok other) → (id = other ↔ names[i]? = names[j]?)) ∧
    ((issued (internAll names).returned).eraseDups.map (·.value.toNat) =
      List.range' 1 (min names.eraseDups.length (2 ^ 32 - 1))) ∧
    (∀ id ∈ issued (internAll names).returned, id.value ≠ 0) ∧
    (∀ name, 2 ^ 32 - 1 ≤ names.eraseDups.length →
      (∀ (i : Nat) (id : SymbolId), names[i]? = some name →
        (internAll names).returned[i]? ≠ some (.ok id)) →
      (internAll names).symbols.intern name =
        .error (.overflowError (ascii "scenario symbol IDs are exhausted")) ∧
      (internAll (names ++ [name])).symbols = (internAll names).symbols) ∧
    ∀ (i : Nat) (name : Bytes) (id : SymbolId), names[i]? = some name →
      (internAll names).returned[i]? = some (.ok id) →
      (internAll names).symbols.intern name = .ok (id, (internAll names).symbols) := by
  obtain ⟨interned, -⟩ := internAll_interned names
  have range : (issued (internAll names).returned).eraseDups.map (·.value.toNat) =
      List.range' 1 (min names.eraseDups.length idLimit) := by
    rw [issued_eraseDups, List.map_map, List.range'_eq_map_range]
    apply List.map_congr_left
    intro place within
    rw [List.mem_range] at within
    rw [Function.comp_apply, idAt_toNat (by omega), Nat.add_comm]
  refine ⟨?_, range, ?_, ?_, ?_⟩
  · intro i j id other first second
    obtain ⟨name, named, left, rfl⟩ := (returned_ok names).mp first
    obtain ⟨name', named', left', rfl⟩ := (returned_ok names).mp second
    rw [idAt_inj left left', rank_inj (List.mem_of_getElem? named), named, named', Option.some_inj]
  · intro id handed zero
    have within : id.value.toNat ∈ List.range' 1 (min names.eraseDups.length idLimit) := by
      rw [← range]
      exact List.mem_map.mpr ⟨id, List.mem_eraseDups.mpr handed, rfl⟩
    rw [zero, List.mem_range'_1] at within
    exact absurd within.1 (by decide)
  · intro name gone unanswered
    have without : name ∈ names → idLimit ≤ rank names name := by
      intro known
      by_contra left
      obtain ⟨i, named⟩ := List.mem_iff_getElem?.mp known
      exact unanswered i _ named ((returned_ok names).mpr ⟨name, named, by omega, rfl⟩)
    obtain ⟨refused, -⟩ := interned.intern_exhausted gone without
    refine ⟨refused, ?_⟩
    rw [internAll_append, Interning.call_error refused]
  · intro i name id named answered
    obtain ⟨known, same, left, rfl⟩ := (returned_ok names).mp answered
    rw [named] at same
    cases same
    exact interned.intern_known (List.mem_of_getElem? named) left

end MarketLab.Replay

import Mathlib.Data.List.Induction
import MarketLab.MarketData.TopOfBookView

/-!
# The view against its log of calls

What a view says of an instrument follows from the calls made on it alone: the last snapshot of
the instrument with the updates accepted since, as long as no invalidation came after it.
-/
namespace MarketLab.MarketData
open MarketLab.Collections

inductive ViewCall where
  | establish (snapshot : TopOfBookSnapshot)
  | apply (sequence : UInt64) (update : BookUpdate)
  | invalidate
  deriving DecidableEq, Repr

/-- A call for another instrument; an invalidation is for all. -/
def ViewCall.Elsewhere (instrument : SymbolId) : ViewCall → Prop
  | .establish snapshot => snapshot.instrument ≠ instrument
  | .apply _ update => update.instrument ≠ instrument
  | .invalidate => False

/-- A snapshot of the instrument. -/
def ViewCall.Establishes (instrument : SymbolId) : ViewCall → Prop
  | .establish snapshot => snapshot.instrument = instrument
  | _ => False

def TopOfBookView.call (view : TopOfBookView) : ViewCall → TopOfBookView
  | .establish snapshot => view.establish snapshot
  | .apply sequence update => view.apply sequence update
  | .invalidate => view.invalidate

/-- A fresh view after some calls. -/
def TopOfBookView.after (calls : List ViewCall) : TopOfBookView := calls.foldl call {}

/-! ## The reference -/

/-- The instrument's last snapshot and the calls since, none of which invalidates. -/
structure Standing (calls : List ViewCall) (instrument : SymbolId) (snapshot : TopOfBookSnapshot)
    (since : List ViewCall) : Prop where
  split : ∃ earlier, calls = earlier ++ .establish snapshot :: since
  named : snapshot.instrument = instrument
  last : ∀ call ∈ since, ¬call.Establishes instrument
  valid : .invalidate ∉ since

abbrev SequencedUpdate := UInt64 × BookUpdate

namespace TopOfBookSnapshot

/-- The largest of the snapshot's reference and some sequences after it. -/
def highest (snapshot : TopOfBookSnapshot) (accepted : List SequencedUpdate) : UInt64 :=
  (accepted.map Prod.fst).foldl max snapshot.referenceSequence

/-- An update of the instrument is accepted when it is above all of them. -/
def accept (snapshot : TopOfBookSnapshot) (accepted : List SequencedUpdate) :
    ViewCall → List SequencedUpdate
  | .apply sequence update =>
    if update.instrument = snapshot.instrument ∧ snapshot.highest accepted < sequence then
      accepted ++ [(sequence, update)]
    else accepted
  | _ => accepted

def accepted (snapshot : TopOfBookSnapshot) (since : List ViewCall) : List SequencedUpdate :=
  since.foldl snapshot.accept []

/-- The level of the last of the updates on one side, none if it has no price, or what there was. -/
def lastLevel (accepted : List SequencedUpdate) (onSide : Side → Bool)
    (before : Option TopOfBookLevel) : Option TopOfBookLevel :=
  match (accepted.filter fun update => onSide update.2.direction).getLast? with
  | some (_, update) =>
    match update.bestPrice with
    | some price => some { price, aggregateSize := update.aggregateSize }
    | none => none
  | none => before

/-- The snapshot with accepted updates on it; every direction but `buy` is the ask side. -/
def updated (snapshot : TopOfBookSnapshot) (accepted : List SequencedUpdate) : TopOfBookSnapshot where
  instrument := snapshot.instrument
  referenceSequence := snapshot.highest accepted
  bestBid := lastLevel accepted (· == .buy) snapshot.bestBid
  bestAsk := lastLevel accepted (· != .buy) snapshot.bestAsk

variable {snapshot : TopOfBookSnapshot} {accepted : List SequencedUpdate}

theorem highest_snoc (snapshot : TopOfBookSnapshot) (accepted : List SequencedUpdate)
    (sequence : UInt64) (update : BookUpdate) :
    snapshot.highest (accepted ++ [(sequence, update)]) = max (snapshot.highest accepted) sequence := by
  simp [highest]

theorem lastLevel_snoc (accepted : List SequencedUpdate) (onSide : Side → Bool)
    (before : Option TopOfBookLevel) (sequence : UInt64) (update : BookUpdate) :
    lastLevel (accepted ++ [(sequence, update)]) onSide before =
      if onSide update.direction then update.level else lastLevel accepted onSide before := by
  unfold lastLevel
  rw [List.filter_append, List.filter_cons]
  split_ifs with here
  · rw [List.filter_nil, List.getLast?_concat, BookUpdate.level]
    cases price : update.bestPrice <;> simp [price]
  · rw [List.filter_nil, List.append_nil]

/-- One more accepted update overwrites its side. -/
theorem overwrite_updated {sequence : UInt64} (later : snapshot.highest accepted < sequence)
    (update : BookUpdate) : (snapshot.updated accepted).overwrite sequence update =
      snapshot.updated (accepted ++ [(sequence, update)]) := by
  have above : max (snapshot.highest accepted) sequence = sequence :=
    if_pos (UInt64.le_of_lt later)
  rw [overwrite]
  split_ifs with bid <;> simp [updated, highest_snoc, lastLevel_snoc, above, bid]

theorem accepted_snoc (snapshot : TopOfBookSnapshot) (since : List ViewCall) (call : ViewCall) :
    snapshot.accepted (since ++ [call]) = snapshot.accept (snapshot.accepted since) call :=
  List.foldl_concat ..

end TopOfBookSnapshot

section Standing
variable {calls since : List ViewCall} {instrument : SymbolId} {snapshot : TopOfBookSnapshot}
  {call : ViewCall}

/-- A snapshot just established. -/
theorem standing_establish (calls : List ViewCall) (snapshot : TopOfBookSnapshot) :
    Standing (calls ++ [.establish snapshot]) snapshot.instrument snapshot [] where
  split := ⟨calls, rfl⟩
  named := rfl
  last call member := by cases member
  valid := List.not_mem_nil

theorem Standing.snoc (standing : Standing calls instrument snapshot since)
    (quiet : ¬call.Establishes instrument) (valid : call ≠ .invalidate) :
    Standing (calls ++ [call]) instrument snapshot (since ++ [call]) where
  split := by
    obtain ⟨earlier, rfl⟩ := standing.split
    exact ⟨earlier, by simp⟩
  named := standing.named
  last other member := by
    rcases List.mem_append.mp member with old | new
    · exact standing.last other old
    · rwa [List.mem_singleton.mp new]
  valid member := by
    rcases List.mem_append.mp member with old | new
    · exact standing.valid old
    · exact valid (List.mem_singleton.mp new).symm

/-- What stands after a call stood before it, or the call established it. -/
theorem Standing.of_snoc (standing : Standing (calls ++ [call]) instrument snapshot since) :
    (since = [] ∧ call = .establish snapshot ∧ snapshot.instrument = instrument) ∨
      ∃ before, since = before ++ [call] ∧ ¬call.Establishes instrument ∧ call ≠ .invalidate ∧
        Standing calls instrument snapshot before := by
  obtain ⟨⟨earlier, split⟩, named, last, valid⟩ := standing
  rcases List.eq_nil_or_concat since with rfl | ⟨before, end_, rfl⟩
  · obtain ⟨-, same⟩ := List.append_inj' split rfl
    exact .inl ⟨rfl, (List.cons.inj same).1, named⟩
  · rw [List.concat_eq_append] at split last valid ⊢
    rw [← List.cons_append, ← List.append_assoc] at split
    obtain ⟨whole, same⟩ := List.append_inj' split rfl
    obtain rfl := (List.cons.inj same).1
    refine .inr ⟨before, rfl, last call (by simp), fun invalidates => ?_, ⟨⟨earlier, whole⟩, named, ?_, ?_⟩⟩
    · exact valid (by simp [invalidates])
    · exact fun other member => last other (List.mem_append_left _ member)
    · exact fun member => valid (List.mem_append_left _ member)

/-- A call that is no snapshot of the instrument leaves it as established as it was. -/
theorem never_snoc (quiet : ¬call.Establishes instrument) :
    (∀ other ∈ calls ++ [call], ¬other.Establishes instrument) ↔
      ∀ other ∈ calls, ¬other.Establishes instrument := by
  rw [List.forall_mem_append, List.forall_mem_singleton]
  exact and_iff_left quiet

end Standing

/-! ## One call -/

namespace TopOfBookView

theorem after_snoc (calls : List ViewCall) (call : ViewCall) :
    after (calls ++ [call]) = (after calls).call call := List.foldl_concat ..

variable {view : TopOfBookView} {instrument : SymbolId}

/-- A call for another instrument leaves all there is on this one. -/
theorem call_elsewhere {call : ViewCall} (elsewhere : call.Elsewhere instrument) :
    (view.call call).books.find? instrument = view.books.find? instrument ∧
      (view.call call).streamStale = view.streamStale := by
  cases call with
  | establish snapshot => exact ⟨UnorderedMap.find?_insertOrAssign_ne _ _ (Ne.symm elsewhere), rfl⟩
  | apply sequence update =>
    simp only [call, apply]
    cases view.books.find? update.instrument with
    | none => exact ⟨rfl, rfl⟩
    | some book =>
      simp only
      split
      · exact ⟨rfl, rfl⟩
      · exact ⟨UnorderedMap.find?_insertOrAssign_ne _ _ (Ne.symm elsewhere), rfl⟩
  | invalidate => exact elsewhere.elim

theorem get_elsewhere {call : ViewCall} (elsewhere : call.Elsewhere instrument) :
    (view.call call).get instrument = view.get instrument := by
  rw [get, get, (call_elsewhere elsewhere).1]

theorem state_elsewhere {call : ViewCall} (elsewhere : call.Elsewhere instrument) :
    (view.call call).state instrument = view.state instrument := by
  rw [state, state, (call_elsewhere elsewhere).1, (call_elsewhere elsewhere).2]

/-- Nothing applies to an instrument that is not current. -/
theorem apply_of_get_none {update : BookUpdate} (none_ : view.get update.instrument = none)
    (sequence : UInt64) : view.apply sequence update = view := by
  rw [apply]
  rw [get] at none_
  cases found : view.books.find? update.instrument with
  | none => rfl
  | some book =>
    simp only [found] at none_ ⊢
    split at none_
    next stale => exact if_pos (.inl stale)
    next => cases none_

/-- An update that is already covered changes nothing. -/
theorem apply_of_covered {update : BookUpdate} {snapshot : TopOfBookSnapshot}
    (held : view.get update.instrument = some snapshot) {sequence : UInt64}
    (covered : sequence ≤ snapshot.referenceSequence) : view.apply sequence update = view := by
  obtain ⟨-, found⟩ := get_current held
  rw [apply, found]
  exact if_pos (.inr covered)

theorem state_current_iff (view : TopOfBookView) (instrument : SymbolId) :
    view.state instrument = .current ↔ ∃ snapshot, view.get instrument = some snapshot := by
  rw [state, get]
  cases view.books.find? instrument with
  | none =>
    simp only [reduceCtorEq, exists_false, iff_false]
    split <;> exact fun same => by cases same
  | some book => by_cases current : book.state = .current <;> simp [current]

/-! ## All calls -/

/-- What stands is exposed, with the updates accepted since. -/
theorem get_of_standing {calls since : List ViewCall} {snapshot : TopOfBookSnapshot}
    (standing : Standing calls instrument snapshot since) :
    (after calls).get instrument = some (snapshot.updated (snapshot.accepted since)) := by
  induction calls using List.reverseRecOn generalizing since with
  | nil =>
    obtain ⟨earlier, split⟩ := standing.split
    cases earlier <;> cases split
  | append_singleton calls call ih =>
    rw [after_snoc]
    rcases standing.of_snoc with ⟨rfl, rfl, rfl⟩ | ⟨before, rfl, quiet, valid, stood⟩
    · exact get_establish _ snapshot
    · have held := ih stood
      rw [TopOfBookSnapshot.accepted_snoc]
      cases call with
      | establish other =>
        have elsewhere : (ViewCall.establish other).Elsewhere instrument := quiet
        exact (get_elsewhere elsewhere).trans held
      | invalidate => exact absurd rfl valid
      | apply sequence update =>
        obtain rfl := standing.named
        by_cases own : update.instrument = snapshot.instrument
        · rw [← own] at held ⊢
          by_cases later : snapshot.highest (snapshot.accepted before) < sequence
          · rw [TopOfBookSnapshot.accept, if_pos ⟨own, later⟩,
              ← TopOfBookSnapshot.overwrite_updated later]
            exact get_apply held later
          · rw [TopOfBookSnapshot.accept, if_neg fun both => later both.2, call,
              apply_of_covered held (UInt64.not_lt.mp later)]
            exact held
        · have elsewhere : (ViewCall.apply sequence update).Elsewhere snapshot.instrument := own
          rw [TopOfBookSnapshot.accept, if_neg fun both => own both.1]
          exact (get_elsewhere elsewhere).trans held

/-- What is exposed stands. -/
theorem standing_of_get {calls : List ViewCall} {value : TopOfBookSnapshot}
    (held : (after calls).get instrument = some value) :
    ∃ snapshot since, Standing calls instrument snapshot since := by
  induction calls using List.reverseRecOn generalizing value with
  | nil => cases held
  | append_singleton calls call ih =>
    rw [after_snoc] at held
    cases call with
    | establish snapshot =>
      by_cases own : snapshot.instrument = instrument
      · subst own
        exact ⟨snapshot, [], standing_establish calls snapshot⟩
      · have elsewhere : (ViewCall.establish snapshot).Elsewhere instrument := own
        rw [get_elsewhere elsewhere] at held
        obtain ⟨before, since, standing⟩ := ih held
        exact ⟨before, _, standing.snoc own (by simp)⟩
    | apply sequence update =>
      cases stood : (after calls).get instrument with
      | some old =>
        obtain ⟨before, since, standing⟩ := ih stood
        exact ⟨before, _, standing.snoc id (by simp)⟩
      | none =>
        by_cases own : update.instrument = instrument
        · subst own
          rw [call, apply_of_get_none stood, stood] at held
          cases held
        · have elsewhere : (ViewCall.apply sequence update).Elsewhere instrument := own
          rw [get_elsewhere elsewhere, stood] at held
          cases held
    | invalidate =>
      rw [call, get_invalidate] at held
      cases held

/-- The state stored for an instrument, if there is one. -/
def stored (view : TopOfBookView) (instrument : SymbolId) : Option TopOfBookState :=
  (view.books.find? instrument).map Book.state

/-- An update changes no state. -/
theorem stored_apply (view : TopOfBookView) (sequence : UInt64) (update : BookUpdate) :
    (view.apply sequence update).stored instrument = view.stored instrument ∧
      (view.apply sequence update).streamStale = view.streamStale := by
  rw [stored, stored, apply]
  cases found : view.books.find? update.instrument with
  | none => exact ⟨rfl, rfl⟩
  | some book =>
    simp only
    split
    · exact ⟨rfl, rfl⟩
    · rw [UnorderedMap.find?_insertOrAssign]
      refine ⟨?_, rfl⟩
      split
      next own =>
        rw [own, found]
        simp only [Option.map_some]
        split <;> rfl
      next => rfl

/-- What the stored state of an instrument says of the calls. -/
structure Logged (calls : List ViewCall) (instrument : SymbolId) (view : TopOfBookView) : Prop where
  unknown : view.stored instrument = none ↔ ∀ call ∈ calls, ¬call.Establishes instrument
  stale : view.streamStale = true ↔ .invalidate ∈ calls
  decided : view.stored instrument ≠ some .awaitingSnapshot

theorem Logged.step {calls : List ViewCall} (logged : Logged calls instrument view)
    (call : ViewCall) : Logged (calls ++ [call]) instrument (view.call call) := by
  obtain ⟨unknown, stale, decided⟩ := logged
  cases call with
  | establish snapshot =>
    by_cases own : snapshot.instrument = instrument
    · have found : (view.call (.establish snapshot)).stored instrument = some .current := by
        rw [stored, ← own, call, establish, UnorderedMap.find?_insertOrAssign_self]
        rfl
      refine ⟨?_, by simpa [call, establish] using stale, by rw [found]; decide⟩
      rw [found]
      simp [ViewCall.Establishes, own]
    · have elsewhere : (ViewCall.establish snapshot).Elsewhere instrument := own
      obtain ⟨kept, still⟩ : (view.call (.establish snapshot)).books.find? instrument =
          view.books.find? instrument ∧
          (view.call (.establish snapshot)).streamStale = view.streamStale := call_elsewhere elsewhere
      have same : (view.call (.establish snapshot)).stored instrument = view.stored instrument := by
        rw [stored, kept, stored]
      have quiet : ¬(ViewCall.establish snapshot).Establishes instrument := own
      exact ⟨by rw [same, unknown, never_snoc quiet], by rw [still, stale]; simp, by rwa [same]⟩
  | apply sequence update =>
    obtain ⟨kept, still⟩ : (view.apply sequence update).stored instrument = view.stored instrument ∧
        (view.apply sequence update).streamStale = view.streamStale := stored_apply view sequence update
    exact ⟨by rw [call, kept, unknown, never_snoc id], by rw [call, still, stale]; simp,
      by rwa [call, kept]⟩
  | invalidate =>
    have all : (view.call .invalidate).stored instrument =
        (view.stored instrument).map fun _ => .stale := by
      rw [stored, stored, call, invalidate, UnorderedMap.mapValues, Option.map_map, Option.map_map]
      rfl
    refine ⟨by rw [all, Option.map_eq_none_iff, unknown, never_snoc id], by simp [call, invalidate], ?_⟩
    rw [all]
    cases view.stored instrument <;> simp

theorem logged_after (calls : List ViewCall) (instrument : SymbolId) :
    Logged calls instrument (after calls) := by
  induction calls using List.reverseRecOn with
  | nil => exact ⟨by simp [after, stored], by simp [after], by simp [after, stored]⟩
  | append_singleton calls call ih =>
    rw [after_snoc]
    exact ih.step call

theorem state_of_stored (view : TopOfBookView) (instrument : SymbolId) :
    view.state instrument = match view.stored instrument with
      | some state => state
      | none => if view.streamStale then .stale else .awaitingSnapshot := by
  rw [state, stored]
  cases view.books.find? instrument <;> rfl

/-- An instrument awaits its first snapshot as long as nothing was invalidated. -/
theorem Logged.awaiting {calls : List ViewCall} (logged : Logged calls instrument view) :
    view.state instrument = .awaitingSnapshot ↔
      (∀ call ∈ calls, ¬call.Establishes instrument) ∧ .invalidate ∉ calls := by
  rw [state_of_stored, ← logged.unknown, ← logged.stale]
  cases held : view.stored instrument with
  | none => cases view.streamStale <;> simp
  | some state =>
    have decided := logged.decided
    rw [held] at decided
    simpa using fun same => decided (congrArg some same)

/-- A call that an instrument's state and value do not depend on: a covered update of it, or a
call for another instrument other than an invalidation. -/
def Covers (view : TopOfBookView) (instrument : SymbolId) : ViewCall → Prop
  | .establish snapshot => snapshot.instrument ≠ instrument
  | .apply sequence update => update.instrument = instrument →
    ∀ snapshot, view.get instrument = some snapshot → sequence ≤ snapshot.referenceSequence
  | .invalidate => False

theorem Covers.unchanged {call : ViewCall} (covers : view.Covers instrument call) :
    (view.call call).get instrument = view.get instrument ∧
      (view.call call).state instrument = view.state instrument := by
  cases call with
  | establish snapshot =>
    have elsewhere : (ViewCall.establish snapshot).Elsewhere instrument := covers
    exact ⟨get_elsewhere elsewhere, state_elsewhere elsewhere⟩
  | apply sequence update =>
    by_cases own : update.instrument = instrument
    · have same : view.apply sequence update = view := by
        subst own
        cases held : view.get update.instrument with
        | none => exact apply_of_get_none held sequence
        | some snapshot => exact apply_of_covered held (covers rfl snapshot held)
      rw [call, same]
      exact ⟨rfl, rfl⟩
    · have elsewhere : (ViewCall.apply sequence update).Elsewhere instrument := own
      exact ⟨get_elsewhere elsewhere, state_elsewhere elsewhere⟩
  | invalidate => exact covers.elim

theorem covers_unchanged {more : List ViewCall}
    (covers : ∀ call ∈ more, view.Covers instrument call) :
    (more.foldl call view).get instrument = view.get instrument ∧
      (more.foldl call view).state instrument = view.state instrument := by
  induction more generalizing view with
  | nil => exact ⟨rfl, rfl⟩
  | cons first more ih =>
    obtain ⟨here, later⟩ := List.forall_mem_cons.mp covers
    obtain ⟨got, state⟩ := here.unchanged
    have still : ∀ other ∈ more, (view.call first).Covers instrument other := by
      intro other member
      have covered := later other member
      cases other with
      | establish snapshot => exact covered
      | apply sequence update =>
        intro own snapshot held
        exact covered own snapshot (got ▸ held)
      | invalidate => exact covered
    obtain ⟨gotLater, stateLater⟩ := ih still
    exact ⟨gotLater.trans got, stateLater.trans state⟩

end TopOfBookView

/-- For every instrument the view is what its calls make of it. -/
theorem view_equals_reference (calls : List ViewCall) (instrument : SymbolId) :
    let view := TopOfBookView.after calls
    let unknown := (∀ call ∈ calls, ¬call.Establishes instrument) ∧ .invalidate ∉ calls
    (∀ value, view.get instrument = some value ↔ ∃ snapshot since,
      Standing calls instrument snapshot since ∧
        value = snapshot.updated (snapshot.accepted since)) ∧
    (view.state instrument = .current ↔ ∃ snapshot since, Standing calls instrument snapshot since) ∧
    (view.state instrument = .awaitingSnapshot ↔ unknown) ∧
    (view.state instrument = .stale ↔
      (¬∃ snapshot since, Standing calls instrument snapshot since) ∧ ¬unknown) ∧
    ∀ more, (∀ call ∈ more, view.Covers instrument call) →
      (TopOfBookView.after (calls ++ more)).get instrument = view.get instrument ∧
        (TopOfBookView.after (calls ++ more)).state instrument = view.state instrument := by
  intro view unknown
  have current : view.state instrument = .current ↔
      ∃ snapshot since, Standing calls instrument snapshot since := by
    rw [TopOfBookView.state_current_iff]
    constructor
    · rintro ⟨value, held⟩
      exact TopOfBookView.standing_of_get held
    · rintro ⟨snapshot, since, standing⟩
      exact ⟨_, TopOfBookView.get_of_standing standing⟩
  have awaiting : view.state instrument = .awaitingSnapshot ↔ unknown :=
    (TopOfBookView.logged_after calls instrument).awaiting
  refine ⟨fun value => ⟨fun held => ?_, ?_⟩, current, awaiting, ?_, fun more covers => ?_⟩
  · obtain ⟨snapshot, since, standing⟩ := TopOfBookView.standing_of_get held
    have stands := TopOfBookView.get_of_standing standing
    exact ⟨snapshot, since, standing, Option.some.inj (held.symm.trans stands)⟩
  · rintro ⟨snapshot, since, standing, rfl⟩
    exact TopOfBookView.get_of_standing standing
  · rw [← current, ← awaiting]
    cases view.state instrument <;> simp
  · rw [TopOfBookView.after, List.foldl_append]
    exact TopOfBookView.covers_unchanged covers

/-- An update whose direction is neither `buy` nor `sell` is accepted and sets the best ask, although
no accepted update is of the sell side and the snapshot has no ask. -/
theorem unnamed_direction_sets_ask :
    let snapshot : TopOfBookSnapshot :=
      { instrument := ⟨1⟩, referenceSequence := 5, bestBid := none, bestAsk := none }
    let update : BookUpdate :=
      { instrument := ⟨1⟩, direction := .unnamed ⟨2, by decide⟩, bestPrice := some 10
        aggregateSize := 3 }
    let accepted := snapshot.accepted [.apply 6 update]
    accepted = [(6, update)] ∧ Standing [.establish snapshot, .apply 6 update] ⟨1⟩ snapshot
      [.apply 6 update] ∧
    (TopOfBookView.after [.establish snapshot, .apply 6 update]).get ⟨1⟩ =
      some { snapshot with referenceSequence := 6, bestAsk := some ⟨10, 3⟩ } ∧
    (TopOfBookView.after [.establish snapshot, .apply 6 update]).get ⟨1⟩ ≠
      some
        { snapshot with
          referenceSequence := snapshot.highest accepted
          bestBid := TopOfBookSnapshot.lastLevel accepted (· == .buy) snapshot.bestBid
          bestAsk := TopOfBookSnapshot.lastLevel accepted (· == .sell) snapshot.bestAsk } := by
  intro snapshot update accepted
  refine ⟨by decide, ?_, by decide, by decide⟩
  exact (standing_establish [] snapshot).snoc id (by decide)

end MarketLab.MarketData

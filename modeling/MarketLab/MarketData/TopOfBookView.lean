import MarketLab.Collections.UnorderedMap
import MarketLab.MarketData.Codec

/-!
# The top-of-book view

`top_of_book.hpp`, `top_of_book_view.hpp` and `top_of_book_view.cpp`.
-/
namespace MarketLab.MarketData
open MarketLab.Collections

structure TopOfBookLevel where
  price : UInt64
  aggregateSize : UInt64
  deriving DecidableEq, Repr

structure TopOfBookSnapshot where
  instrument : SymbolId
  referenceSequence : UInt64
  bestBid : Option TopOfBookLevel
  bestAsk : Option TopOfBookLevel
  deriving DecidableEq, Repr

inductive TopOfBookState where
  | awaitingSnapshot
  | current
  | stale
  deriving DecidableEq, Repr

namespace TopOfBookView

structure Book where
  state : TopOfBookState := .awaitingSnapshot
  lastSequence : UInt64 := 0
  bestBid : Option TopOfBookLevel := none
  bestAsk : Option TopOfBookLevel := none
  deriving DecidableEq, Repr

end TopOfBookView

structure TopOfBookView where
  books : UnorderedMap SymbolId TopOfBookView.Book := .empty
  streamStale : Bool := false

/-- The level an update reports. -/
def BookUpdate.level (update : BookUpdate) : Option TopOfBookLevel :=
  update.bestPrice.map fun price => { price, aggregateSize := update.aggregateSize }

namespace TopOfBookView

def establish (view : TopOfBookView) (snapshot : TopOfBookSnapshot) : TopOfBookView :=
  { view with
    books := view.books.insertOrAssign snapshot.instrument
      { state := .current, lastSequence := snapshot.referenceSequence, bestBid := snapshot.bestBid,
        bestAsk := snapshot.bestAsk } }

def invalidate (view : TopOfBookView) : TopOfBookView :=
  { books := view.books.mapValues fun value => { value with state := .stale }, streamStale := true }

def state (view : TopOfBookView) (instrument : SymbolId) : TopOfBookState :=
  match view.books.find? instrument with
  | some book => book.state
  | none => if view.streamStale then .stale else .awaitingSnapshot

def get (view : TopOfBookView) (instrument : SymbolId) : Option TopOfBookSnapshot :=
  match view.books.find? instrument with
  | none => none
  | some book =>
    if book.state ≠ .current then none
    else some { instrument, referenceSequence := book.lastSequence, bestBid := book.bestBid,
                bestAsk := book.bestAsk }

def apply (view : TopOfBookView) (sequence : UInt64) (update : BookUpdate) : TopOfBookView :=
  match view.books.find? update.instrument with
  | none => view
  | some book =>
    if book.state ≠ .current ∨ sequence ≤ book.lastSequence then view
    else
      let book := if update.direction = .buy then { book with bestBid := update.level }
        else { book with bestAsk := update.level }
      { view with books := view.books.insertOrAssign update.instrument
                    { book with lastSequence := sequence } }

end TopOfBookView

/-! ## What a snapshot becomes -/

/-- A snapshot with one side overwritten by an update of its instrument. -/
def TopOfBookSnapshot.overwrite (snapshot : TopOfBookSnapshot) (sequence : UInt64)
    (update : BookUpdate) : TopOfBookSnapshot :=
  if update.direction = .buy then
    { snapshot with referenceSequence := sequence, bestBid := update.level }
  else { snapshot with referenceSequence := sequence, bestAsk := update.level }

namespace TopOfBookView
variable {view : TopOfBookView}

theorem get_establish (view : TopOfBookView) (snapshot : TopOfBookSnapshot) :
    (view.establish snapshot).get snapshot.instrument = some snapshot := by
  simp [get, establish]

theorem get_current {instrument : SymbolId} {snapshot : TopOfBookSnapshot}
    (held : view.get instrument = some snapshot) : snapshot.instrument = instrument ∧
      view.books.find? instrument = some
        { state := .current, lastSequence := snapshot.referenceSequence, bestBid := snapshot.bestBid,
          bestAsk := snapshot.bestAsk } := by
  rw [get] at held
  cases found : view.books.find? instrument with
  | none => rw [found] at held; cases held
  | some book =>
    simp only [found] at held
    split at held
    next => cases held
    next current =>
      cases held
      obtain ⟨state, lastSequence, bestBid, bestAsk⟩ := book
      obtain rfl := not_not.mp current
      exact ⟨rfl, rfl⟩

/-- A later update of the instrument overwrites its side. -/
theorem get_apply {update : BookUpdate} {snapshot : TopOfBookSnapshot}
    (held : view.get update.instrument = some snapshot) {sequence : UInt64}
    (later : snapshot.referenceSequence < sequence) :
    (view.apply sequence update).get update.instrument = some (snapshot.overwrite sequence update) := by
  obtain ⟨same, found⟩ := get_current held
  have fresh : ¬sequence ≤ snapshot.referenceSequence := UInt64.not_le.mpr later
  rw [apply, found]
  simp only [ne_eq, not_true_eq_false, false_or, if_neg fresh]
  by_cases bid : update.direction = .buy
  · simp [get, TopOfBookSnapshot.overwrite, bid, ← same]
  · simp [get, TopOfBookSnapshot.overwrite, bid, ← same]

/-- An update leaves the other instruments alone. -/
theorem get_apply_other {instrument : SymbolId} {update : BookUpdate}
    (other : update.instrument ≠ instrument) (sequence : UInt64) :
    (view.apply sequence update).get instrument = view.get instrument := by
  rw [apply]
  cases view.books.find? update.instrument with
  | none => rfl
  | some book =>
    simp only
    split
    next => rfl
    next =>
      rw [get, get]
      simp only
      rw [UnorderedMap.find?_insertOrAssign_ne _ _ (Ne.symm other)]

/-- An invalidated view exposes nothing. -/
theorem get_invalidate (view : TopOfBookView) (instrument : SymbolId) :
    view.invalidate.get instrument = none := by
  cases found : view.books.find? instrument <;> simp [get, invalidate, UnorderedMap.mapValues, found]

end TopOfBookView
end MarketLab.MarketData

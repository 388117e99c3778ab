import MarketLab.Matching.IndexConsistency

/-!
# Quantity conservation

What is open for a key is what its last accepted command asked for, less what has been
traded since. The account is kept from commands and events alone (`audit`); one step of
the market moves the open size of every key exactly as the account says.
-/
namespace MarketLab.Matching
open MarketLab.Collections

/-! ## The account of a key, from the log -/

/-- The executed size of a trade that names the key, as aggressor or as resting. -/
def executedIn (key : OrderKey) : Event → Nat
  | .tradeExecuted aggressor resting _ _ executedSize =>
    if aggressor = key ∨ resting = key then executedSize.value.toNat else 0
  | _ => 0

def executed (key : OrderKey) (events : List Event) : Nat := (events.map (executedIn key)).sum

/-- An accepted submit or update of the key. -/
def accepts (key : OrderKey) (events : List Event) : Bool :=
  .submitAccepted key ∈ events ∨ .updateAccepted key ∈ events

def Command.size : Command → Nat
  | .submit order => order.size.value.toNat
  | .update order => order.size.value.toNat
  | .cancel _ => 0

def Command.isMarketSubmit : Command → Bool
  | .submit order => order.pricing = .market
  | _ => false

/-- A call as the outside sees it. -/
abbrev Record := Command × List Event

/-- One call's effect on the open size of a key; `none` when it trades more than is open. -/
def auditCall (key : OrderKey) (remaining : Nat) (call : Record) : Option Nat :=
  let traded := executed key call.2
  if accepts key call.2 then
    if traded ≤ call.1.size then
      some (if call.1.isMarketSubmit then 0 else call.1.size - traded)
    else none
  else if traded ≤ remaining then
    some (if .orderCancelled key ∈ call.2 then 0 else remaining - traded)
  else none

/-- The open size of a key after a log, zero for a key that does not rest. -/
def audit (key : OrderKey) (log : List Record) : Option Nat := log.foldlM (auditCall key) 0

def History.log (history : History) : List Record :=
  history.transitions.map fun call => (call.command, call.events)

@[simp] theorem executed_nil (key : OrderKey) : executed key [] = 0 := rfl

@[simp] theorem executed_cons (key : OrderKey) (event : Event) (events : List Event) :
    executed key (event :: events) = executedIn key event + executed key events := by
  simp [executed]

@[simp] theorem executed_append (key : OrderKey) (front back : List Event) :
    executed key (front ++ back) = executed key front + executed key back := by
  simp [executed]

@[simp] theorem executed_bookChange (key : OrderKey) (instrument : SymbolId) (l : Ladder)
    (before after : List RestingOrder) : executed key (bookChange instrument l before after) = 0 := by
  rw [bookChange_eq]
  split_ifs <;> rfl

/-- The aggressor is named by every trade of its command, a resting key by its own fills. -/
theorem executed_trades (key : OrderKey) (a : Aggression) (instrument : SymbolId)
    (aggressor : OrderKey) :
    executed key (a.trades instrument aggressor) =
      if key = aggressor then totalExecuted (fun _ => true) a.outcome.fills
      else totalExecuted (fun order => order.key = key) a.outcome.fills := by
  unfold Aggression.trades executed totalExecuted
  rw [List.map_map]
  split_ifs with same
  · subst same
    simp [Function.comp_def, executedIn]
  · simp [Function.comp_def, executedIn, Ne.symm same]

/-- An account that closes was never overdrawn, and after the last accepted command it is
that command's size less the trades since, unless that command was a market submit or a
cancel came after. -/
theorem audit_since_accepted {key : OrderKey} {earlier later : List Record} {call : Record}
    {remaining : Nat} (accepted : accepts key call.2 = true)
    (last : ∀ other ∈ later, accepts key other.2 = false)
    (closed : audit key (earlier ++ call :: later) = some remaining) :
    executed key ((call :: later).flatMap Prod.snd) ≤ call.1.size ∧
      remaining = if call.1.isMarketSubmit ∨ .orderCancelled key ∈ later.flatMap Prod.snd then 0
        else call.1.size - executed key ((call :: later).flatMap Prod.snd) := by
  induction later using List.reverseRecOn generalizing remaining with
  | nil =>
    simp only [audit, List.foldlM_append, List.foldlM_cons, List.foldlM_nil, bind_pure,
      Option.bind_eq_bind, Option.bind_eq_some_iff] at closed
    obtain ⟨before, -, closed⟩ := closed
    simp only [auditCall, accepted, ↓reduceIte, Option.ite_none_right_eq_some, Option.some_inj]
      at closed
    simpa using And.intro closed.1 closed.2.symm
  | append_singleton later next ih =>
    simp only [List.forall_mem_append, List.forall_mem_singleton] at last
    have regroup : earlier ++ call :: (later ++ [next]) = (earlier ++ call :: later) ++ [next] := by
      simp
    rw [regroup, audit, List.foldlM_append, Option.bind_eq_bind, Option.bind_eq_some_iff] at closed
    obtain ⟨before, closedBefore, closed⟩ := closed
    obtain ⟨within, open_⟩ := ih last.1 closedBefore
    simp only [List.foldlM_cons, List.foldlM_nil, bind_pure, auditCall, last.2,
      Bool.false_eq_true, ↓reduceIte, Option.ite_none_right_eq_some, Option.some_inj] at closed
    obtain ⟨covered, rfl⟩ := closed
    simp only [List.flatMap_cons, List.flatMap_append, executed_append, List.flatMap_nil,
      List.append_nil, List.mem_append] at within open_ ⊢
    by_cases market : call.1.isMarketSubmit = true
    · simp only [market, true_or, ↓reduceIte] at open_ ⊢
      subst open_
      refine ⟨by omega, ?_⟩
      split_ifs <;> omega
    · by_cases cancelled : .orderCancelled key ∈ later.flatMap Prod.snd
      · simp only [cancelled, true_or, or_true, ↓reduceIte] at open_ ⊢
        subst open_
        refine ⟨by omega, ?_⟩
        split_ifs <;> omega
      · simp only [market, cancelled, Bool.false_eq_true, false_or, or_self, ↓reduceIte] at open_ ⊢
        subst open_
        refine ⟨by omega, ?_⟩
        split_ifs <;> omega

/-! ## What is open for a key -/

namespace Market
variable {m : Market} {key : OrderKey}

/-- The exact size open for a key in one queue. -/
def sizeAt (m : Market) (key : OrderKey) (instrument : SymbolId) (l : Ladder) : Nat :=
  totalSize (fun order => order.key = key) (m.queue instrument l)

/-- Nothing is open for the key except, perhaps, in this queue. -/
def OnlyAt (m : Market) (key : OrderKey) (instrument : SymbolId) (l : Ladder) : Prop :=
  ∀ other side, ¬ (other = instrument ∧ side = l) → m.sizeAt key other side = 0

/-- The key has this much open, all in one place. -/
def Holds (m : Market) (key : OrderKey) (open_ : Nat) : Prop :=
  ∃ instrument l, m.sizeAt key instrument l = open_ ∧ m.OnlyAt key instrument l

theorem sizeAt_absent {instrument : SymbolId} {l : Ladder}
    (absent : ∀ order ∈ m.queue instrument l, order.key ≠ key) :
    m.sizeAt key instrument l = 0 := totalSize_none (by simpa using absent)

theorem sizeAt_inactive (inactive : ¬ m.Active key) (instrument : SymbolId) (l : Ladder) :
    m.sizeAt key instrument l = 0 := by
  apply sizeAt_absent
  intro order rests keyed
  exact inactive ⟨instrument, l, order, rests, keyed⟩

theorem onlyAt_inactive (inactive : ¬ m.Active key) (instrument : SymbolId) (l : Ladder) :
    m.OnlyAt key instrument l := fun other side _ => sizeAt_inactive inactive other side

theorem Sound.sizeAt (sound : m.Sound) {instrument : SymbolId} {l : Ladder} {order : RestingOrder}
    (rests : order ∈ m.queue instrument l) :
    m.sizeAt order.key instrument l = order.openSize.value.toNat := by
  have keys := sound.keys instrument l
  obtain ⟨front, back, split⟩ := List.append_of_mem rests
  rw [split] at keys
  obtain ⟨ahead, behind⟩ := keys_around keys
  have frontNone : totalSize (fun other : RestingOrder => other.key = order.key) front = 0 :=
    totalSize_none (by simpa using ahead)
  have backNone : totalSize (fun other : RestingOrder => other.key = order.key) back = 0 :=
    totalSize_none (by simpa using behind)
  rw [Market.sizeAt, split, totalSize_append, totalSize_cons, frontNone, backNone]
  simp [Sized.size]

theorem Sound.onlyAt (sound : m.Sound) {instrument : SymbolId} {l : Ladder} {order : RestingOrder}
    (rests : order ∈ m.queue instrument l) : m.OnlyAt order.key instrument l := by
  intro other side elsewhere
  apply sizeAt_absent
  intro same restsToo keyed
  obtain ⟨rfl, rfl⟩ := sound.once _ _ _ _ order rests same restsToo keyed.symm
  exact elsewhere ⟨rfl, rfl⟩

/-- An order's key has exactly its open size. -/
theorem Holds.size (sound : m.Sound) {open_ : Nat} (holds : m.Holds key open_)
    {instrument : SymbolId} {l : Ladder} {order : RestingOrder}
    (rests : order ∈ m.queue instrument l) (keyed : order.key = key) :
    order.openSize.value.toNat = open_ := by
  subst keyed
  obtain ⟨place, side, total, only⟩ := holds
  have here := sound.sizeAt rests
  have positive := UInt64.lt_iff_toNat_lt.mp (sound.positive _ _ order rests)
  by_cases same : instrument = place ∧ l = side
  · obtain ⟨rfl, rfl⟩ := same
    omega
  · have nothing := only instrument l same
    simp only [UInt64.toNat_zero] at positive
    omega

theorem Holds.active_iff (sound : m.Sound) {open_ : Nat} (holds : m.Holds key open_) :
    m.Active key ↔ 0 < open_ := by
  constructor
  · intro active
    obtain ⟨instrument, l, order, rests, keyed⟩ := active
    rw [← holds.size sound rests keyed]
    exact UInt64.lt_iff_toNat_lt.mp (sound.positive _ _ order rests)
  · intro positive
    obtain ⟨instrument, l, total, -⟩ := holds
    by_contra inactive
    have nothing := sizeAt_inactive inactive instrument l
    omega

theorem sizeAt_advance (m : Market) (key : OrderKey) (instrument other : SymbolId)
    (queues : Queues) (l : Ladder) :
    (m.advance instrument queues).sizeAt key other l =
      if other = instrument then totalSize (fun order => order.key = key) (queues l)
      else m.sizeAt key other l := by
  simp only [sizeAt, queue_advance]
  split_ifs <;> rfl

/-- Replacing one instrument's queues by queues with the same sizes moves nothing. -/
theorem Holds.advance_same {open_ : Nat} (holds : m.Holds key open_) {instrument : SymbolId}
    {queues : Queues}
    (same : ∀ l, totalSize (fun order => order.key = key) (queues l) = m.sizeAt key instrument l) :
    (m.advance instrument queues).Holds key open_ := by
  obtain ⟨place, side, total, only⟩ := holds
  have unchanged : ∀ other l, (m.advance instrument queues).sizeAt key other l =
      m.sizeAt key other l := by
    intro other l
    rw [sizeAt_advance]
    split_ifs with here
    · rw [same, here]
    · rfl
  exact ⟨place, side, by rw [unchanged, total], fun other l elsewhere => by
    rw [unchanged, only other l elsewhere]⟩

/-- So does replacing one queue by one with the same size. -/
theorem sizeAt_update {instrument : SymbolId} {l : Ladder} {queue : List RestingOrder}
    (same : totalSize (fun order => order.key = key) queue = m.sizeAt key instrument l)
    (side : Ladder) :
    totalSize (fun order => order.key = key)
      (Function.update (m.queue instrument) l queue side) = m.sizeAt key instrument side := by
  rcases Ladder.eq_or_eq_opposite l side with rfl | rfl
  · rw [Function.update_self]
    exact same
  · rw [Function.update_of_ne l.opposite_ne]
    rfl

end Market

/-! ## What an aggression moves -/

section Aggression
variable {l : Ladder} {incoming : IncomingOrder} {pricing : OrderPricing}
  {opposite : List RestingOrder} {a : Aggression}
  (aggression : a = aggress l incoming pricing opposite)
include aggression

/-- The remainder rests when the order has a limit. -/
theorem own_size (key : OrderKey) (own : List RestingOrder) :
    totalSize (fun order => order.key = key) (a.own l own) =
      totalSize (fun order => order.key = key) own +
        if key = incoming.key ∧ pricing ≠ .market then a.outcome.left.toNat else 0 := by
  have rests : a.rests = remainder incoming pricing a.outcome.left := by
    rw [aggression]
    rfl
  unfold Aggression.own
  cases placed : a.rests with
  | none =>
    rw [rests] at placed
    cases pricing with
    | market => simp
    | limit price =>
      have nothing : a.outcome.left = 0 := by
        simpa [remainder, limitPrice, UInt64.pos_iff_ne_zero] using placed
      simp [nothing]
  | some order =>
    rw [rests] at placed
    obtain ⟨priced, -, made⟩ := remainder_some placed
    have inserted : totalSize (fun order => order.key = key) (enqueue l order own) =
        totalSize (fun order => order.key = key) (order :: own) :=
      totalSize_perm _ (List.perm_orderedInsert _ order own)
    rw [inserted, totalSize_cons, priced, made]
    by_cases same : key = incoming.key
    · subst same
      simp [Sized.size, Nat.add_comm]
    · simp [same, Ne.symm same]

/-- The trades of the aggressor's own key take what is not left. -/
theorem aggressor_executed (instrument : SymbolId) :
    incoming.openSize.value.toNat =
      a.outcome.left.toNat + executed incoming.key (a.trades instrument incoming.key) := by
  rw [executed_trades, if_pos rfl, aggression]
  exact sweep_quantity _ _ _

/-- A resting key loses in the opposite queue exactly what its trades executed. -/
theorem resting_executed (instrument : SymbolId) {key : OrderKey} (other : key ≠ incoming.key) :
    totalSize (fun order => order.key = key) opposite =
      executed key (a.trades instrument incoming.key) +
        totalSize (fun order => order.key = key) a.outcome.rest := by
  rw [executed_trades, if_neg other, aggression]
  exact sweep_conserves _ (fun order : RestingOrder => decide (order.key = key))
    (fun _ _ => rfl) _ _

end Aggression

/-! ## One step of the market, one entry of the account -/

section Advance
variable {m : Market} {l : Ladder} {incoming : IncomingOrder} {pricing : OrderPricing}
  {instrument : SymbolId} {own : List RestingOrder} {a : Aggression}
  (aggression : a = aggress l incoming pricing (m.queue instrument l.opposite))
include aggression

/-- The aggressor ends with what the trades left of its size, or with nothing. -/
theorem aggressor_holds (cleared : totalSize (fun order => order.key = incoming.key) own = 0)
    (only : m.OnlyAt incoming.key instrument l) :
    executed incoming.key (a.trades instrument incoming.key) ≤ incoming.openSize.value.toNat ∧
      (m.advance instrument (a.queues l own)).Holds incoming.key
        (if pricing = .market then 0 else incoming.openSize.value.toNat -
          executed incoming.key (a.trades instrument incoming.key)) := by
  have quantity := aggressor_executed aggression instrument
  have oppositeNone : m.sizeAt incoming.key instrument l.opposite = 0 :=
    only instrument l.opposite (by simp)
  have restNone : totalSize (fun order => order.key = incoming.key) a.outcome.rest = 0 := by
    have suffix := sweep_conserves (fun resting : RestingOrder =>
      l.canCross pricing resting.limitPrice) (fun order : RestingOrder =>
        decide (order.key = incoming.key)) (fun _ _ => rfl) incoming.openSize.value
        (m.queue instrument l.opposite)
    rw [aggression]
    unfold Market.sizeAt at oppositeNone
    simp only [aggress] at suffix ⊢
    omega
  refine ⟨by omega, instrument, l, ?_, ?_⟩
  · rw [Market.sizeAt_advance, if_pos rfl, Aggression.queues_self,
      own_size aggression incoming.key own, cleared]
    by_cases market : pricing = .market
    · simp [market]
    · simp only [market, ne_eq, not_false_eq_true, and_self, ↓reduceIte]
      omega
  · intro other side elsewhere
    rw [Market.sizeAt_advance]
    split_ifs with here
    · subst here
      rcases Ladder.eq_or_eq_opposite l side with rfl | rfl
      · exact absurd ⟨rfl, rfl⟩ elsewhere
      · rw [Aggression.queues_opposite, restNone]
    · exact only other side elsewhere

/-- Another key loses what its trades executed. -/
theorem bystander_holds {key : OrderKey} (other : key ≠ incoming.key)
    (kept : totalSize (fun order => order.key = key) own = m.sizeAt key instrument l)
    {open_ : Nat} (holds : m.Holds key open_) :
    executed key (a.trades instrument incoming.key) ≤ open_ ∧
      (m.advance instrument (a.queues l own)).Holds key
        (open_ - executed key (a.trades instrument incoming.key)) := by
  have conserved := resting_executed aggression instrument other
  change m.sizeAt key instrument l.opposite = _ at conserved
  have ownSame : totalSize (fun order => order.key = key) (a.own l own) =
      m.sizeAt key instrument l := by
    rw [own_size aggression key own, kept]
    simp [other]
  obtain ⟨place, side, total, only⟩ := holds
  have after : ∀ i s, (m.advance instrument (a.queues l own)).sizeAt key i s =
      if i = instrument ∧ s = l.opposite then
        m.sizeAt key i s - executed key (a.trades instrument incoming.key)
      else m.sizeAt key i s := by
    intro i s
    rw [Market.sizeAt_advance]
    by_cases here : i = instrument
    · subst here
      rcases Ladder.eq_or_eq_opposite l s with rfl | rfl
      · simp [ownSame, Ne.symm s.opposite_ne]
      · simp only [↓reduceIte, Aggression.queues_opposite, and_self]
        omega
    · simp [here]
  by_cases met : place = instrument ∧ side = l.opposite
  · obtain ⟨rfl, rfl⟩ := met
    refine ⟨by omega, place, l.opposite, ?_, ?_⟩
    · rw [after, if_pos ⟨rfl, rfl⟩, total]
    · intro i s elsewhere
      rw [after, if_neg elsewhere, only i s elsewhere]
  · have none_ : m.sizeAt key instrument l.opposite = 0 := by
      apply only
      intro same
      exact met ⟨same.1.symm, same.2.symm⟩
    have untraded : executed key (a.trades instrument incoming.key) = 0 := by omega
    rw [untraded, Nat.sub_zero]
    refine ⟨Nat.zero_le _, place, side, ?_, ?_⟩
    · rw [after, if_neg met, total]
    · intro i s elsewhere
      rw [after, untraded]
      split_ifs
      · rw [only i s elsewhere]
      · exact only i s elsewhere

end Advance

/-- The account's entry for an accepted command. -/
theorem auditCall_accepted {key : OrderKey} {open_ : Nat} {command : Command} {events : List Event}
    (accepted : accepts key events = true) (within : executed key events ≤ command.size) :
    auditCall key open_ (command, events) =
      some (if command.isMarketSubmit then 0 else command.size - executed key events) := by
  simp [auditCall, accepted, within]

/-- The account's entry for a call that accepts nothing of the key. -/
theorem auditCall_other {key : OrderKey} {open_ : Nat} {command : Command} {events : List Event}
    (unaccepted : accepts key events = false) (within : executed key events ≤ open_) :
    auditCall key open_ (command, events) =
      some (if .orderCancelled key ∈ events then 0 else open_ - executed key events) := by
  simp [auditCall, unaccepted, within]

/-- Taking one key off a queue leaves what another holds there. -/
theorem sizeAt_without {m : Market} {key other : OrderKey} (differs : key ≠ other)
    {instrument : SymbolId} {l : Ladder} :
    totalSize (fun order : RestingOrder => order.key = key)
        ((m.queue instrument l).filter fun order => order.key ≠ other) =
      m.sizeAt key instrument l := by
  apply totalSize_filter
  intro order _ selected
  simpa [of_decide_eq_true selected] using differs

/-- Every step moves what a key holds as the account does. -/
theorem Market.Step.audited {m after : Market} {command : Command} {events : List Event}
    (step : m.Step command events after) (sound : m.Sound) (afterSound : after.Sound)
    {key : OrderKey} {open_ : Nat} (holds : m.Holds key open_) :
    ∃ remaining, auditCall key open_ (command, events) = some remaining ∧
      after.Holds key remaining := by
  cases step with
  | @refused _ event refusal =>
    have quiet : auditCall key open_ (command, [event]) = some open_ := by
      cases refusal <;> simp [auditCall, accepts, executed, executedIn]
    exact ⟨open_, quiet, holds⟩
  | @ignored order valid inactive unnamed =>
    exact ⟨open_, by simp [auditCall, accepts], holds.advance_same fun _ => rfl⟩
  | @submitted order l valid inactive named a aggression queues queuesAfter =>
    subst queuesAfter
    by_cases same : key = order.key
    · subst same
      obtain ⟨within, result⟩ := aggressor_holds aggression
        (sizeAt_inactive inactive order.instrument l) (onlyAt_inactive inactive order.instrument l)
      refine ⟨_, auditCall_accepted (by simp [accepts]) ?_, ?_⟩
      · simpa [executedIn, Command.size] using within
      · simpa [executedIn, Command.size, Command.isMarketSubmit] using result
    · have kept : totalSize (fun other : RestingOrder => other.key = key)
          (m.queue order.instrument l) = m.sizeAt key order.instrument l := rfl
      obtain ⟨within, result⟩ := bystander_holds aggression same kept holds
      refine ⟨_, auditCall_other ?_ ?_, ?_⟩
      · simp [accepts, updateOf, same]
      · simpa [executedIn] using within
      · simpa [executedIn, updateOf] using result
  | @reduced order instrument l resting valid rests named price smaller queue queueAfter =>
    by_cases same : key = order.key
    · subst same
      have resized : ({ resting with openSize := order.size } : RestingOrder) ∈
          (m.advance instrument (Function.update (m.queue instrument) l queue)).queue
            instrument l := by
        rw [Market.queue_advance, if_pos rfl, Function.update_self, queueAfter]
        exact List.mem_map.mpr ⟨resting, rests, by simp [named]⟩
      have here := afterSound.sizeAt resized
      have only := afterSound.onlyAt resized
      simp only [named] at here only
      refine ⟨order.size.value.toNat, ?_, instrument, l, here, only⟩
      rw [auditCall_accepted (by simp [accepts]) (by simp [executedIn])]
      simp [executedIn, Command.size, Command.isMarketSubmit]
    · refine ⟨open_, ?_, holds.advance_same ?_⟩
      · rw [auditCall_other (by simp [accepts, updateOf, same]) (by simp [executedIn])]
        simp [executedIn, updateOf]
      · apply Market.sizeAt_update
        rw [queueAfter]
        refine totalSize_map ?_ ?_
        · intro other _
          split_ifs <;> rfl
        · intro other _ selected
          have different : other.key ≠ order.key := by
            simpa [of_decide_eq_true selected] using same
          rw [if_neg different]
  | @replaced order instrument l resting price valid rests named limit moved a aggression queues
      queuesAfter =>
    subst queuesAfter
    by_cases same : key = order.key
    · subst same
      have only := sound.onlyAt rests
      rw [named] at only
      have cleared : totalSize (fun other : RestingOrder => other.key = order.key)
          ((m.queue instrument l).filter fun other => other.key ≠ order.key) = 0 :=
        totalSize_none (by simp)
      obtain ⟨within, result⟩ := aggressor_holds aggression cleared only
      have priced : order.pricing ≠ .market := by
        intro market
        simp [market, limitPrice] at limit
      refine ⟨_, auditCall_accepted (by simp [accepts]) ?_, ?_⟩
      · simpa [executedIn, Command.size] using within
      · simpa [executedIn, Command.size, Command.isMarketSubmit, priced] using result
    · obtain ⟨within, result⟩ := bystander_holds aggression same (sizeAt_without same) holds
      refine ⟨_, auditCall_other ?_ ?_, ?_⟩
      · simp [accepts, updateOf, same]
      · simpa [executedIn] using within
      · simpa [executedIn, updateOf] using result
  | @cancelled order instrument l resting rests named queue queueAfter =>
    by_cases same : key = order.key
    · subst same
      have only := sound.onlyAt rests
      rw [named] at only
      refine ⟨0, ?_, instrument, l, ?_, ?_⟩
      · rw [auditCall_other (by simp [accepts, updateOf]) (by simp [executedIn])]
        simp
      · rw [Market.sizeAt, Market.queue_setQueue, if_pos ⟨rfl, rfl⟩, queueAfter]
        exact totalSize_none (by simp)
      · intro other side elsewhere
        rw [Market.sizeAt, Market.queue_setQueue, if_neg elsewhere]
        exact only other side elsewhere
    · refine ⟨open_, ?_, Market.Holds.advance_same (m := m) holds ?_⟩
      · rw [auditCall_other (by simp [accepts, updateOf]) (by simp [executedIn])]
        simp [executedIn, updateOf, same]
      · apply Market.sizeAt_update
        rw [queueAfter]
        exact sizeAt_without same

/-- Only a command of the key itself is accepted for it. -/
theorem Market.Step.accepts_key {m after : Market} {command : Command} {events : List Event}
    (step : m.Step command events after) {key : OrderKey}
    (accepted : accepts key events = true) : command.key = key := by
  cases step with
  | refused refusal => cases refusal <;> simp [accepts] at accepted
  | ignored valid inactive unnamed => simp [accepts] at accepted
  | submitted l valid inactive named a aggression queues queuesAfter =>
    simpa [accepts, updateOf, eq_comm, Command.key] using accepted
  | reduced instrument l resting valid rests named price smaller queue queueAfter =>
    simpa [accepts, updateOf, eq_comm, Command.key] using accepted
  | replaced instrument l resting price valid rests named limit moved a aggression queues
      queuesAfter =>
    simpa [accepts, updateOf, eq_comm, Command.key] using accepted
  | cancelled instrument l resting rests named queue queueAfter =>
    simp [accepts, updateOf] at accepted

/-- Every account closes, at what its key holds. -/
theorem audit_run (commands : List Command) :
    ∃ history, History.run commands = .ok history ∧ history.state.Sound ∧
      (∀ key, ∃ open_, audit key history.log = some open_ ∧
        history.state.market.Holds key open_) ∧
      ∀ key, ∀ call ∈ history.log, accepts key call.2 = true → call.1.key = key := by
  obtain ⟨history, ran, sound, -, closes, keyed⟩ := History.run_induct
    (P := fun history => (∀ key, ∃ open_, audit key history.log = some open_ ∧
        history.state.market.Holds key open_) ∧
      ∀ key, ∀ call ∈ history.log, accepts key call.2 = true → call.1.key = key)
    (by
      refine ⟨?_, by simp [History.log]⟩
      intro key
      refine ⟨0, rfl, {}, .bids, ?_, ?_⟩ <;> simp [Market.OnlyAt, Market.sizeAt, Market.queue,
        Engine.market])
    (by
      intro history command events after taken held
      obtain ⟨closes, keyed⟩ := held
      have longer : (history.push command events after).log =
          history.log ++ [(command, events)] := by
        simp [History.log]
      rw [longer]
      constructor
      · intro key
        obtain ⟨open_, closed, holds⟩ := closes key
        obtain ⟨remaining, entered, left⟩ :=
          taken.step.audited taken.sound.market taken.afterSound.market holds
        refine ⟨remaining, ?_, left⟩
        unfold audit at closed ⊢
        rw [List.foldlM_append, closed]
        simp [entered]
      · intro key call member accepted
        rcases List.mem_append.mp member with old | new
        · exact keyed key call old accepted
        · rw [List.mem_singleton.mp new] at accepted ⊢
          exact taken.step.accepts_key accepted) commands
  exact ⟨history, ran, sound, closes, keyed⟩

/-- The key is in the index exactly when something is open, and every order resting under it
is open for exactly that much. -/
def Engine.OpenFor (engine : Engine) (key : OrderKey) (open_ : Nat) : Prop :=
  ((∃ activeOrder, engine.activeOrders.find? key = some activeOrder) ↔ 0 < open_) ∧
    ∀ instrument l price node, engine.RestsAt instrument l price node → node.value.key = key →
      node.value.openSize.value.toNat = open_

theorem Engine.Sound.openFor {engine : Engine} (sound : engine.Sound) {key : OrderKey}
    {open_ : Nat} (holds : engine.market.Holds key open_) : engine.OpenFor key open_ := by
  constructor
  · rw [← sound.active]
    exact holds.active_iff sound.market
  · intro instrument l price node rests keyed
    obtain ⟨book, found, inside⟩ := rests.node
    exact holds.size sound.market (Engine.queue_of_node found inside) keyed

/-- From its last accepted command on, a key's trades never exceed the command's size; the
key is active exactly while something of it is left, it was no market submit and no cancel
came after; and what is left is its open size. The log alone yields the open size of every
key, none for a key never accepted. -/
theorem quantity_conserved (commands : List Command) :
    ∃ history, History.run commands = .ok history ∧
      (∀ key earlier call later, history.log = earlier ++ call :: later →
        accepts key call.2 = true → (∀ other ∈ later, accepts key other.2 = false) →
          call.1.key = key ∧
          executed key ((call :: later).flatMap Prod.snd) ≤ call.1.size ∧
          ((∃ activeOrder, history.state.activeOrders.find? key = some activeOrder) ↔
            executed key ((call :: later).flatMap Prod.snd) < call.1.size ∧
              call.1.isMarketSubmit = false ∧ .orderCancelled key ∉ later.flatMap Prod.snd) ∧
          ∀ instrument l price node, history.state.RestsAt instrument l price node →
            node.value.key = key → node.value.openSize.value.toNat =
              call.1.size - executed key ((call :: later).flatMap Prod.snd)) ∧
      ∀ key, ∃ open_, audit key history.log = some open_ ∧ history.state.OpenFor key open_ := by
  obtain ⟨history, ran, sound, closes, keyed⟩ := audit_run commands
  refine ⟨history, ran, ?_, ?_⟩
  · intro key earlier call later split accepted last
    obtain ⟨open_, closed, holds⟩ := closes key
    have ownCommand := keyed key call (by simp [split]) accepted
    rw [split] at closed
    obtain ⟨within, left⟩ := audit_since_accepted accepted last closed
    obtain ⟨active, sizes⟩ := sound.openFor holds
    refine ⟨ownCommand, within, ?_, ?_⟩
    · rw [active, left]
      by_cases market : call.1.isMarketSubmit = true
      · simp [market]
      · by_cases cancelled : .orderCancelled key ∈ later.flatMap Prod.snd
        · simp [cancelled]
        · simp only [market, cancelled, Bool.false_eq_true, or_self, ↓reduceIte,
            not_false_eq_true, and_true]
          omega
    · intro instrument l price node rests named
      have size := sizes instrument l price node rests named
      have positive := (active.mp ⟨_, named ▸ sound.order_indexed rests⟩)
      rw [left] at size positive
      split_ifs at size positive with ended
      · omega
      · exact size
  · intro key
    obtain ⟨open_, closed, holds⟩ := closes key
    exact ⟨open_, closed, sound.openFor holds⟩

end MarketLab.Matching

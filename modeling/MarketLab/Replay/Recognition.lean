import MarketLab.Replay.Tokens

/-!
# Which lines the parser accepts

The parser recognises a language written the way its functions read: each reads the next field
of its command. That language is the five sentences of the grammar.
-/
namespace MarketLab.Replay
open MarketLab.Control MarketLab.Text

/-- The result of a sentence, whose name is interned last. -/
def Sentence.enact (symbols : SymbolTable) (sentence : Sentence) :
    Except Failure (ScenarioCommand × SymbolTable) :=
  match sentence.name with
  | none => .ok (sentence.command {}, symbols)
  | some name => (symbols.intern name).map fun interned => (sentence.command interned.1, interned.2)

def PositiveNumeral (text : Bytes) (value : PositiveUint64) : Prop := Numeral text value.val

def Size (text : Bytes) (size : Nat) : Prop := ∃ value, Numeral text value ∧ size = value.toNat

abbrev Language := List Bytes → Sentence → Prop

/-! ## What each function reads -/

def submits : Language :=
  followed Eq fun pricing => followed Numeral fun user => followed Numeral fun clientOrder =>
  followed Eq fun name => followed Direction fun direction =>
    if pricing = ascii "limit" then
      followed PositiveNumeral fun limitPrice => followed PositiveNumeral fun size =>
        ended (.submitLimit user clientOrder name direction limitPrice size)
    else if pricing = ascii "market" then
      followed PositiveNumeral fun size =>
        ended (.submitMarket user clientOrder name direction size)
    else fun _ _ => False

def cancels : Language :=
  followed Numeral fun user => followed Numeral fun clientOrder => ended (.cancel user clientOrder)

def updates : Language :=
  followed Eq fun pricing => followed Numeral fun user => followed Numeral fun clientOrder =>
    if pricing = ascii "limit" then
      followed PositiveNumeral fun limitPrice => followed PositiveNumeral fun size =>
        ended (.updateLimit user clientOrder limitPrice size)
    else fun _ _ => False

def snapshots : Language :=
  followed Eq fun name => followed Size fun depth => ended (.snapshot name depth)

def sentences : Language :=
  followed Eq fun command =>
    if command = ascii "submit" then submits
    else if command = ascii "update" then updates
    else if command = ascii "cancel" then cancels
    else if command = ascii "snapshot" then snapshots
    else fun _ _ => False

section Functions
variable (lineNumber : Nat) (symbols : SymbolTable)

theorem parseSubmit_recognizes :
    Recognizes Holds (Complaint lineNumber) (parseSubmit lineNumber symbols) submits
      (Sentence.enact symbols) := by
  refine .token (readToken_takes lineNumber _) fun pricing => ?_
  refine .item (readToken_takes lineNumber _) (parseUint64_decodes lineNumber _) fun user => ?_
  refine .item (readToken_takes lineNumber _) (parseUint64_decodes lineNumber _) fun clientOrder => ?_
  refine .token (readToken_takes lineNumber _) fun name => ?_
  refine .item (readToken_takes lineNumber _) (parseSide_decodes lineNumber) fun direction => ?_
  split_ifs with limit market
  · refine .item (readToken_takes lineNumber _) (parsePositiveUint64_decodes lineNumber _)
      fun limitPrice => ?_
    refine .item (readToken_takes lineNumber _) (parsePositiveUint64_decodes lineNumber _)
      fun size => ?_
    refine .finish (rejectExtraTokens_meets lineNumber) _ fun line => ?_
    simp only [Sentence.enact, Sentence.name]
    cases symbols.intern name <;> rfl
  · refine .item (readToken_takes lineNumber _) (parsePositiveUint64_decodes lineNumber _)
      fun size => ?_
    refine .finish (rejectExtraTokens_meets lineNumber) _ fun line => ?_
    simp only [Sentence.enact, Sentence.name]
    cases symbols.intern name <;> rfl
  · exact .nothing ⟨_, rfl⟩

theorem parseCancel_recognizes :
    Recognizes Holds (Complaint lineNumber) (parseCancel lineNumber) cancels
      fun sentence => .ok (sentence.command {}) := by
  refine .item (readToken_takes lineNumber _) (parseUint64_decodes lineNumber _) fun user => ?_
  refine .item (readToken_takes lineNumber _) (parseUint64_decodes lineNumber _) fun clientOrder => ?_
  exact .finish (rejectExtraTokens_meets lineNumber) _ fun line => rfl

theorem parseUpdate_recognizes :
    Recognizes Holds (Complaint lineNumber) (parseUpdate lineNumber) updates
      fun sentence => .ok (sentence.command {}) := by
  refine .token (readToken_takes lineNumber _) fun pricing => ?_
  refine .item (readToken_takes lineNumber _) (parseUint64_decodes lineNumber _) fun user => ?_
  refine .item (readToken_takes lineNumber _) (parseUint64_decodes lineNumber _) fun clientOrder => ?_
  split_ifs with limit
  · refine .item (readToken_takes lineNumber _) (parsePositiveUint64_decodes lineNumber _)
      fun limitPrice => ?_
    refine .item (readToken_takes lineNumber _) (parsePositiveUint64_decodes lineNumber _)
      fun size => ?_
    exact .finish (rejectExtraTokens_meets lineNumber) _ fun line => rfl
  · exact .nothing ⟨_, rfl⟩

theorem parseSnapshot_recognizes :
    Recognizes Holds (Complaint lineNumber) (parseSnapshot lineNumber symbols) snapshots
      (Sentence.enact symbols) := by
  refine .token (readToken_takes lineNumber _) fun name => ?_
  refine .item (readToken_takes lineNumber _) (parseSize_decodes lineNumber _) fun depth => ?_
  refine .finish (rejectExtraTokens_meets lineNumber) _ fun line => ?_
  simp only [Sentence.enact, Sentence.name]
  cases symbols.intern name <;> rfl

/-- No cancel names an instrument. -/
theorem cancels_name {tokens : List Bytes} {sentence : Sentence} (spells : cancels tokens sentence) :
    sentence.name = none := by
  obtain ⟨_, _, _, _, _, _, _, _, _, _, _, rfl⟩ := spells
  rfl

theorem updates_name {tokens : List Bytes} {sentence : Sentence} (spells : updates tokens sentence) :
    sentence.name = none := by
  obtain ⟨pricing, _, _, _, rfl, _, _, _, _, _, _, _, _, _, _, spells⟩ := spells
  split_ifs at spells
  · obtain ⟨_, _, _, _, _, _, _, _, _, _, _, rfl⟩ := spells
    rfl
  · cases spells

theorem parseCommand_recognizes :
    Recognizes Holds (Complaint lineNumber) (parseCommand lineNumber symbols) sentences
      (Sentence.enact symbols) := by
  refine .token (readToken_takes lineNumber _) fun command => ?_
  split_ifs with submit update cancel snapshot
  · exact parseSubmit_recognizes lineNumber symbols
  · refine (parseUpdate_recognizes lineNumber).map (·, symbols) fun tokens sentence spells => ?_
    rw [Sentence.enact, updates_name spells]
    rfl
  · refine (parseCancel_recognizes lineNumber).map (·, symbols) fun tokens sentence spells => ?_
    rw [Sentence.enact, cancels_name spells]
    rfl
  · exact parseSnapshot_recognizes lineNumber symbols
  · exact .nothing ⟨_, rfl⟩

end Functions

/-! ## The five sentences -/

theorem spells_of_submits {tail : List Bytes} {sentence : Sentence} (spells : submits tail sentence) :
    Spells (ascii "submit" :: tail) sentence := by
  obtain ⟨pricing, _, _, rfl, rfl, u, _, user, rfl, users, c, _, clientOrder, rfl, orders, spells⟩ :=
    spells
  obtain ⟨name, _, _, rfl, rfl, s, _, direction, rfl, side, spells⟩ := spells
  split_ifs at spells with limit market
  · obtain ⟨p, _, limitPrice, rfl, prices, q, _, size, rfl, sizes, rfl, rfl⟩ := spells
    rw [limit]
    exact .submitLimit name users orders side prices sizes
  · obtain ⟨q, _, size, rfl, sizes, rfl, rfl⟩ := spells
    rw [market]
    exact .submitMarket name users orders side sizes
  · cases spells

theorem spells_of_updates {tail : List Bytes} {sentence : Sentence} (spells : updates tail sentence) :
    Spells (ascii "update" :: tail) sentence := by
  obtain ⟨pricing, _, _, rfl, rfl, u, _, user, rfl, users, c, _, clientOrder, rfl, orders, spells⟩ :=
    spells
  split_ifs at spells with limit
  · obtain ⟨p, _, limitPrice, rfl, prices, q, _, size, rfl, sizes, rfl, rfl⟩ := spells
    rw [limit]
    exact .updateLimit users orders prices sizes
  · cases spells

theorem spells_of_cancels {tail : List Bytes} {sentence : Sentence} (spells : cancels tail sentence) :
    Spells (ascii "cancel" :: tail) sentence := by
  obtain ⟨u, _, user, rfl, users, c, _, clientOrder, rfl, orders, rfl, rfl⟩ := spells
  exact .cancel users orders

theorem spells_of_snapshots {tail : List Bytes} {sentence : Sentence}
    (spells : snapshots tail sentence) : Spells (ascii "snapshot" :: tail) sentence := by
  obtain ⟨name, _, _, rfl, rfl, d, _, _, rfl, ⟨depth, depths, rfl⟩, rfl, rfl⟩ := spells
  exact .snapshot name depths

theorem sentences_iff (tokens : List Bytes) (sentence : Sentence) :
    sentences tokens sentence ↔ Spells tokens sentence := by
  constructor
  · rintro ⟨command, tail, _, rfl, rfl, spells⟩
    split_ifs at spells with submit update cancel snapshot
    · exact submit ▸ spells_of_submits spells
    · exact update ▸ spells_of_updates spells
    · exact cancel ▸ spells_of_cancels spells
    · exact snapshot ▸ spells_of_snapshots spells
    · cases spells
  · intro spells
    cases spells with
    | submitLimit name users orders side prices sizes =>
      refine ⟨_, _, _, rfl, rfl, ?_⟩
      beta_reduce
      rw [if_pos rfl]
      refine ⟨_, _, _, rfl, rfl, _, _, _, rfl, users, _, _, _, rfl, orders, _, _, _, rfl, rfl,
        _, _, _, rfl, side, ?_⟩
      beta_reduce
      rw [if_pos rfl]
      exact ⟨_, _, _, rfl, prices, _, _, _, rfl, sizes, rfl, rfl⟩
    | submitMarket name users orders side sizes =>
      refine ⟨_, _, _, rfl, rfl, ?_⟩
      beta_reduce
      rw [if_pos rfl]
      refine ⟨_, _, _, rfl, rfl, _, _, _, rfl, users, _, _, _, rfl, orders, _, _, _, rfl, rfl,
        _, _, _, rfl, side, ?_⟩
      beta_reduce
      rw [if_neg (by decide), if_pos rfl]
      exact ⟨_, _, _, rfl, sizes, rfl, rfl⟩
    | updateLimit users orders prices sizes =>
      refine ⟨_, _, _, rfl, rfl, ?_⟩
      beta_reduce
      rw [if_neg (by decide), if_pos rfl]
      refine ⟨_, _, _, rfl, rfl, _, _, _, rfl, users, _, _, _, rfl, orders, ?_⟩
      beta_reduce
      rw [if_pos rfl]
      exact ⟨_, _, _, rfl, prices, _, _, _, rfl, sizes, rfl, rfl⟩
    | cancel users orders =>
      refine ⟨_, _, _, rfl, rfl, ?_⟩
      beta_reduce
      rw [if_neg (by decide), if_neg (by decide), if_pos rfl]
      exact ⟨_, _, _, rfl, users, _, _, _, rfl, orders, rfl, rfl⟩
    | snapshot name depths =>
      refine ⟨_, _, _, rfl, rfl, ?_⟩
      beta_reduce
      rw [if_neg (by decide), if_neg (by decide), if_neg (by decide), if_pos rfl]
      exact ⟨_, _, _, rfl, rfl, _, _, _, rfl, ⟨_, depths, rfl⟩, rfl, rfl⟩

/-- On the tokens of a sentence the parser enacts it; on others it complains. -/
theorem parseCommand_spells (lineNumber : Nat) (symbols : SymbolTable) :
    Recognizes Holds (Complaint lineNumber) (parseCommand lineNumber symbols) Spells
      (Sentence.enact symbols) :=
  (parseCommand_recognizes lineNumber symbols).congr sentences_iff

end MarketLab.Replay

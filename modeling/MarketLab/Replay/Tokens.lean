import MarketLab.Control.Recognizer
import MarketLab.Replay.Grammar

/-!
# Tokens and fields

On a line without the bytes that are white space and end no token, the tokens are the pieces
between blanks. Each reader of the parser takes the next of them or complains with its line.
-/
namespace MarketLab.Replay
open MarketLab.Collections MarketLab.Control MarketLab.Text
open MarketLab.Matching (Side)

/-- Neither a line feed nor a vertical tab nor a form feed. -/
def plain (c : UInt8) : Prop := c ≠ 10 ∧ c ≠ 11 ∧ c ≠ 12

theorem blank_of_plain {c : UInt8} (ordinary : plain c) :
    isspace c = blank c ∧ delimiter c = blank c := by
  have blanks : ascii " \t\r" = [32, 9, 13] := by decide
  have delimiters : ascii " \t\r\n" = [32, 9, 13, 10] := by decide
  obtain ⟨lineFeed, verticalTab, formFeed⟩ := ordinary
  simp only [isspace, blank, delimiter, blanks, delimiters]
  grind

/-- What is left of a line and the tokens on it. -/
structure Holds (line : Bytes) (tokens : List Bytes) : Prop where
  ordinary : ∀ c ∈ line, plain c
  tokens : pieces blank line = tokens

/-- An exception that names the line. -/
def Complaint (lineNumber : Nat) (failure : Failure) : Prop :=
  ∃ message, failure = lineError lineNumber message

/-- The next token is the first piece, and nothing is left when there is none. -/
theorem nextToken_pieces {line : Bytes} (ordinary : ∀ c ∈ line, plain c) :
    (nextToken line = ([], []) ∧ pieces blank line = []) ∨
      ∃ token after, nextToken line = (token, after) ∧ token ≠ [] ∧ (∀ c ∈ after, plain c) ∧
        pieces blank line = token :: pieces blank after := by
  have skips : line.dropWhile isspace = line.dropWhile blank :=
    dropWhile_of_agree fun c member => (blank_of_plain (ordinary c member)).1
  have within : ∀ c ∈ line.dropWhile blank, plain c := fun c member =>
    ordinary c ((List.dropWhile_suffix blank).mem member)
  have ends : ∀ c ∈ line.dropWhile blank, delimiter c = blank c := fun c member =>
    (blank_of_plain (within c member)).2
  rw [← pieces_dropWhile line]
  unfold nextToken
  rw [skips]
  cases stripped : line.dropWhile blank with
  | nil => exact .inl ⟨rfl, pieces_nil⟩
  | cons first rest =>
    rw [stripped] at within ends
    have inside : blank first = false := by
      have head := List.head?_dropWhile_not blank line
      rwa [stripped] at head
    cases found : (first :: rest).findIdx? delimiter with
    | none =>
      have only := pieces_of_findIdx?_none ends (List.cons_ne_nil _ _) found
      refine .inr ⟨first :: rest, [], ?_, List.cons_ne_nil _ _, fun _ => (nomatch ·), ?_⟩
      · simp only [found]
      · rw [only, pieces_nil]
    | some i =>
      obtain ⟨nonempty, split⟩ := pieces_of_findIdx?_some ends rfl inside found
      refine .inr ⟨_, _, ?_, nonempty, ?_, split⟩
      · simp only [found]
      · exact fun c member => within c (List.mem_of_mem_drop member)

theorem nextToken_of_nil {line : Bytes} (holds : Holds line []) : nextToken line = ([], []) := by
  rcases nextToken_pieces holds.ordinary with ⟨taken, -⟩ | ⟨token, after, -, -, -, split⟩
  · exact taken
  · rw [holds.tokens] at split
    cases split

theorem nextToken_of_cons {line token : Bytes} {rest : List Bytes}
    (holds : Holds line (token :: rest)) :
    token ≠ [] ∧ ∃ after, nextToken line = (token, after) ∧ Holds after rest := by
  rcases nextToken_pieces holds.ordinary with ⟨-, none⟩ | ⟨first, after, taken, some, kept, split⟩
  · rw [holds.tokens] at none
    cases none
  · rw [holds.tokens] at split
    obtain ⟨rfl, rest⟩ := List.cons.inj split
    exact ⟨some, after, taken, kept, rest.symm⟩

/-! ## Readers -/

section Readers
variable (lineNumber : Nat)

theorem readToken_takes (field : String) :
    TakesToken Holds (Complaint lineNumber) (readToken field lineNumber) where
  missing line holds := by
    refine ⟨_, ?_, ascii s!"missing {field}", rfl⟩
    simp only [readToken, StateT.run_bind, StateT.run_modifyGet, nextToken_of_nil holds]
    rfl
  next line token rest holds := by
    obtain ⟨nonempty, after, taken, remains⟩ := nextToken_of_cons holds
    refine ⟨after, ?_, remains⟩
    simp [readToken, taken, nonempty]
    rfl

theorem rejectExtraTokens_meets :
    MeetsEnd Holds (Complaint lineNumber) (rejectExtraTokens lineNumber) where
  done line holds := by
    refine ⟨[], ?_⟩
    simp [rejectExtraTokens, nextToken_of_nil holds]
    rfl
  extra line token rest holds := by
    obtain ⟨nonempty, after, taken, -⟩ := nextToken_of_cons holds
    refine ⟨_, ?_, ascii "unexpected token '" ++ token ++ ascii "'", rfl⟩
    simp [rejectExtraTokens, taken, nonempty]
    rfl

/-! ## Fields -/

theorem parseUint64_decodes (field : String) :
    Decodes (Complaint lineNumber) Numeral (parseUint64 field lineNumber) := by
  intro text
  refine ⟨fun value numeral => ?_, fun outside => ?_⟩
  · simp [parseUint64, numeral.fromChars]
  · refine ⟨_, ?_, ascii s!"expected unsigned integer for {field}", rfl⟩
    unfold parseUint64
    split
    next => rfl
    next value position read =>
      have short : position ≠ text.length := by
        rintro rfl
        exact outside value (numeral_of_fromChars read)
      rw [if_neg short]

theorem parsePositiveUint64_decodes (field : String) :
    Decodes (Complaint lineNumber) (fun text (value : PositiveUint64) => Numeral text value.val)
      (parsePositiveUint64 field lineNumber) := by
  intro text
  obtain ⟨decoded, refused⟩ := parseUint64_decodes lineNumber field text
  refine ⟨fun value numeral => ?_, fun outside => ?_⟩
  · rw [parsePositiveUint64, decoded value.val numeral]
    exact dif_pos value.property
  · by_cases named : ∃ value, Numeral text value
    · obtain ⟨value, numeral⟩ := named
      have zero : value = 0 := by_contra fun positive => outside ⟨value, positive⟩ numeral
      refine ⟨_, ?_, ascii s!"{field} must be positive", rfl⟩
      rw [parsePositiveUint64, decoded value numeral]
      exact dif_neg fun positive => positive zero
    · obtain ⟨failure, failed, complains⟩ := refused (not_exists.mp named)
      refine ⟨failure, ?_, complains⟩
      rw [parsePositiveUint64, failed]
      rfl

/-- Every number of 64 bits is a size. -/
theorem parseSize_decodes (field : String) :
    Decodes (Complaint lineNumber) (fun text depth => ∃ value, Numeral text value ∧ depth = value.toNat)
      (parseSize field lineNumber) := by
  intro text
  obtain ⟨decoded, refused⟩ := parseUint64_decodes lineNumber field text
  refine ⟨fun depth ⟨value, numeral, same⟩ => ?_, fun outside => ?_⟩
  · have fits : ¬ sizeMax < value.toNat := by
      have := value.toNat_lt
      unfold sizeMax
      omega
    rw [parseSize, decoded value numeral, same]
    exact if_neg fits
  · obtain ⟨failure, failed, complains⟩ := refused fun value numeral =>
      outside value.toNat ⟨value, numeral, rfl⟩
    refine ⟨failure, ?_, complains⟩
    rw [parseSize, failed]
    rfl

theorem parseSide_decodes : Decodes (Complaint lineNumber) Direction (parseSide lineNumber) := by
  intro text
  refine ⟨fun side named => ?_, fun outside => ?_⟩
  · cases named with
    | buy => exact if_pos rfl
    | sell => rw [parseSide, if_neg (by decide), if_pos rfl]
  · refine ⟨_, ?_, ascii "expected side to be 'buy' or 'sell'", rfl⟩
    have notBuy : text ≠ ascii "buy" := by
      rintro rfl
      exact outside _ .buy
    have notSell : text ≠ ascii "sell" := by
      rintro rfl
      exact outside _ .sell
    rw [parseSide, if_neg notBuy, if_neg notSell]

end Readers
end MarketLab.Replay

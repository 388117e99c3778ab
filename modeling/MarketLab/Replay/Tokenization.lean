import MarketLab.Collections.Scanning
import MarketLab.Replay.ScenarioParser

/-!
# All tokens of a line

`next_token` skips every kind of white space in front of a token, but a vertical tab or a form feed
does not end one. Its tokens are therefore the runs between white space only on the lines in which
neither of the two directly follows anything else than white space.
-/
namespace MarketLab.Replay
open MarketLab.Collections MarketLab.Text

/-- The tokens of at most so many calls, up to the first that returns none. -/
def takeTokens : Nat → Bytes → List Bytes
  | 0, _ => []
  | calls + 1, line =>
    let (token, after) := nextToken line
    if token.isEmpty then [] else token :: takeTokens calls after

/-- The tokens of the calls up to the first that returns none. A call that returns one takes a byte
off the line, so that many calls get there. -/
def nextTokens (line : Bytes) : List Bytes := takeTokens (line.length + 1) line

/-- White space that ends no token. -/
theorem isspace_iff (c : UInt8) : isspace c = true ↔ delimiter c = true ∨ c = 11 ∨ c = 12 := by
  have delimiters : ascii " \t\r\n" = [32, 9, 13, 10] := by decide
  simp only [isspace, delimiter, delimiters, Bool.or_eq_true, Bool.and_eq_true, beq_iff_eq,
    decide_eq_true_eq, List.contains_iff_mem, List.mem_cons, List.not_mem_nil, or_false,
    UInt8.le_iff_toNat_le, ← UInt8.toNat_inj, UInt8.reduceToNat]
  omega

theorem isspace_of_delimiter (c : UInt8) (ends : delimiter c = true) : isspace c = true :=
  (isspace_iff c).mpr (.inl ends)

theorem delimiter_false {c : UInt8} (begins : isspace c = false) : delimiter c = false := by
  by_contra ends
  rw [isspace_of_delimiter c (by simpa using ends)] at begins
  cases begins

/-- One call takes the first token of the scanner, or finds nothing but white space. -/
theorem nextToken_scan (line : Bytes) :
    ((nextToken line).1 = [] ∧ (∀ c ∈ line, isspace c = true) ∧
      scan isspace delimiter [] line = []) ∨
    ((nextToken line).1 ≠ [] ∧ (¬ ∀ c ∈ line, isspace c = true) ∧
      (nextToken line).2.length < line.length ∧
      scan isspace delimiter [] line =
        (nextToken line).1 :: scan isspace delimiter [] (nextToken line).2) := by
  have shorter := (List.dropWhile_suffix isspace (l := line)).length_le
  rw [← scan_dropWhile line]
  unfold nextToken
  cases stripped : line.dropWhile isspace with
  | nil =>
    left
    refine ⟨rfl, List.dropWhile_eq_nil_iff.mp stripped, rfl⟩
  | cons first rest =>
    right
    have begins : isspace first = false := by
      have head := List.head?_dropWhile_not isspace line
      rwa [stripped] at head
    have some : ¬ ∀ c ∈ line, isspace c = true := by
      intro every
      have within : first ∈ line := (List.dropWhile_suffix isspace).mem (by rw [stripped]; simp)
      rw [every first within] at begins
      cases begins
    rw [stripped, List.length_cons] at shorter
    rw [scan_start begins, scan_open (List.cons_ne_nil _ _)]
    simp only [List.findIdx?_cons, delimiter_false begins]
    cases rest.findIdx? delimiter with
    | none =>
      refine ⟨List.cons_ne_nil _ _, some, ?_, rfl⟩
      change 0 < line.length
      omega
    | some i =>
      refine ⟨List.cons_ne_nil _ _, some, ?_, rfl⟩
      change (rest.drop (i + 1)).length < line.length
      rw [List.length_drop]
      omega

theorem takeTokens_eq_scan {calls : Nat} {line : Bytes} (enough : line.length < calls) :
    takeTokens calls line = scan isspace delimiter [] line := by
  induction calls generalizing line with
  | zero => omega
  | succ calls ih =>
    rcases nextToken_scan line with ⟨empty, -, nothing⟩ | ⟨nonempty, -, shorter, taken⟩
    · simp [takeTokens, empty, nothing]
    · rw [taken, ← ih (by omega)]
      simp [takeTokens, nonempty]

theorem nextTokens_eq_scan (line : Bytes) : nextTokens line = scan isspace delimiter [] line :=
  takeTokens_eq_scan (Nat.lt_succ_self _)

/-- The tokens of a line are its runs of other bytes than white space exactly when no vertical tab
and no form feed directly follows such a byte; a token is empty exactly when nothing but white
space is left; and one white space byte for another leaves the tokens as they are exactly when
both end a token or what is in front does not end inside one. -/
theorem tokens_are_runs_iff (line : Bytes) :
    (nextTokens line = pieces isspace line ↔
      line.IsChain fun c next => isspace c = false → next ≠ 11 ∧ next ≠ 12) ∧
    ((nextToken line).1 = [] ↔ ∀ c ∈ line, isspace c = true) ∧
    ∀ front c d back, line = front ++ c :: back → isspace c = true → isspace d = true →
      (nextTokens (front ++ d :: back) = nextTokens line ↔
        c = d ∨ (delimiter c = true ∧ delimiter d = true) ∨
        ¬ ∃ before first glued, front = before ++ first :: glued ∧ isspace first = false ∧
          ∀ other ∈ glued, delimiter other = false) := by
  have glues : ∀ c : UInt8, (isspace c = true → delimiter c = true) ↔ c ≠ 11 ∧ c ≠ 12 := by
    intro c
    constructor
    · intro ends
      constructor
      · rintro rfl
        exact absurd (ends rfl) (by decide)
      · rintro rfl
        exact absurd (ends rfl) (by decide)
    · rintro ⟨verticalTab, formFeed⟩ skipped
      rcases (isspace_iff c).mp skipped with ends | rfl | rfl
      · exact ends
      · exact absurd rfl verticalTab
      · exact absurd rfl formFeed
  refine ⟨?_, ?_, ?_⟩
  · rw [nextTokens_eq_scan, scan_eq_pieces_iff isspace_of_delimiter, Separated]
    simp only [glues]
  · rcases nextToken_scan line with ⟨empty, blank, -⟩ | ⟨nonempty, some, -⟩
    · exact iff_of_true empty blank
    · exact iff_of_false nonempty some
  · rintro front c d back rfl skipsC skipsD
    rw [nextTokens_eq_scan, nextTokens_eq_scan, eq_comm,
      scan_replace_iff isspace_of_delimiter skipsC skipsD]
    rfl

/-- A vertical tab between two letters. -/
theorem vertical_tab_inside_token :
    nextTokens [97, 11, 98] = [[97, 11, 98]] ∧ nextTokens [97, 32, 98] = [[97], [98]] ∧
      nextTokens [97, 11, 98] ≠ pieces isspace [97, 11, 98] := by
  decide

end MarketLab.Replay

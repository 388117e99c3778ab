import MarketLab.Replay.Interning
import MarketLab.Replay.Recognition

/-!
# Loading a scenario

On lines that conform the loop of `load` appends their steps, with the first-seen rank of a name
as its symbol; the first line that does not ends it with a complaint.
-/
namespace MarketLab.Replay
open MarketLab.Collections MarketLab.Control MarketLab.Text
open MarketLab.Matching (SymbolId)

theorem removeComment_eq (line : Bytes) : removeComment line = uncommented line := by
  have cut : uncommented line = line.take (line.findIdx (· == 35)) := by
    rw [uncommented, List.takeWhile_eq_take_findIdx_not]
    simp [bne]
  rw [cut, removeComment]
  split
  next comment found => rw [(List.findIdx?_eq_some_iff_findIdx_eq.mp found).2]
  next absent =>
    rw [List.findIdx_eq_length.mpr (List.findIdx?_eq_none_iff.mp absent), List.take_length]

theorem uncommented_holds {line : Bytes} (ordinary : ∀ c ∈ line, plain c) :
    Holds (uncommented line) (tokens line) where
  ordinary c member := ordinary c ((List.takeWhile_prefix _).mem member)
  tokens := rfl

/-! ## Instrument names -/

variable {symbols : SymbolTable} {names : List Bytes}

/-- There is an ID for a name as long as the distinct names do not outnumber the IDs. -/
theorem Interned.intern_few (interned : Interned symbols names) (name : Bytes)
    (few : (names ++ [name]).eraseDups.length < 2 ^ 32) :
    ∃ after, symbols.intern name = .ok (idAt (rank (names ++ [name]) name), after) ∧
      Interned after (names ++ [name]) := by
  have within : rank (names ++ [name]) name < (names ++ [name]).eraseDups.length :=
    rank_lt (List.mem_append_right _ List.mem_cons_self)
  rcases interned.intern name with ⟨-, taken⟩ | ⟨gone, -⟩
  · exact taken
  · unfold idLimit at gone
    omega

theorem Interned.enact (interned : Interned symbols names) (sentence : Sentence)
    (few : (names ++ sentence.name.toList).eraseDups.length < 2 ^ 32) :
    ∃ after, sentence.enact symbols =
        .ok (sentence.command (symbolOf (names ++ sentence.name.toList) sentence), after) ∧
      Interned after (names ++ sentence.name.toList) := by
  cases named : sentence.name with
  | none =>
    refine ⟨symbols, ?_, by simpa [named] using interned⟩
    simp only [Sentence.enact, symbolOf, named]
  | some name =>
    rw [named] at few
    obtain ⟨after, taken, kept⟩ := interned.intern_few name few
    refine ⟨after, ?_, kept⟩
    simp only [Sentence.enact, symbolOf, named, taken]
    rfl

/-- Names that come later change no symbol. -/
theorem symbolOf_append {front : List Bytes} {sentence : Sentence}
    (known : ∀ name, sentence.name = some name → name ∈ front) (back : List Bytes) :
    symbolOf (front ++ back) sentence = symbolOf front sentence := by
  unfold symbolOf
  cases named : sentence.name with
  | none => rfl
  | some name => simp only [rank_append (known name named)]

theorem namesOf_cons (reading : Reading) (readings : List Reading) :
    namesOf (reading :: readings) = reading.sentence.name.toList ++ namesOf readings := by
  unfold namesOf
  rw [List.filterMap_cons]
  cases reading.sentence.name <;> rfl

/-! ## Lines -/

section Lines
variable {line : Bytes} (ordinary : ∀ c ∈ line, plain c) (lineNumber : Nat) (symbols : SymbolTable)
  (steps : List ScenarioStep) (lines : List Bytes)
include ordinary

theorem loadLines_nothing (empty : tokens line = []) :
    loadLines lineNumber symbols steps (line :: lines) =
      loadLines (lineNumber + 1) symbols steps lines := by
  have holds := uncommented_holds ordinary
  rw [empty] at holds
  simp only [loadLines, removeComment_eq, nextToken_of_nil holds]
  rfl

theorem nextToken_nonempty (some : tokens line ≠ []) :
    (nextToken (uncommented line)).1.isEmpty = false := by
  have holds := uncommented_holds ordinary
  cases split : tokens line with
  | nil => exact absurd split some
  | cons token rest =>
    rw [split] at holds
    obtain ⟨nonempty, after, taken, -⟩ := nextToken_of_cons holds
    simpa [taken] using nonempty

theorem loadLines_sentence {sentence : Sentence} (spells : Spells (tokens line) sentence)
    {command : ScenarioCommand} {after : SymbolTable}
    (enacted : sentence.enact symbols = .ok (command, after)) :
    loadLines lineNumber symbols steps (line :: lines) = loadLines (lineNumber + 1) after
      (steps ++ [{ lineNumber := lineNumber + 1, text := uncommented line, command }]) lines := by
  have some : tokens line ≠ [] := by
    intro empty
    rw [empty] at spells
    cases spells
  have parsed := (parseCommand_spells (lineNumber + 1) symbols _ _ (uncommented_holds ordinary)).1
    sentence spells
  simp only [loadLines, removeComment_eq, nextToken_nonempty ordinary some, parsed, enacted]
  rfl

theorem loadLines_complains (refused : ¬ Conforms line) :
    ∃ message, loadLines lineNumber symbols steps (line :: lines) =
      .error (lineError (lineNumber + 1) message) := by
  obtain ⟨some, outside⟩ := not_or.mp refused
  obtain ⟨_, failed, message, rfl⟩ :=
    (parseCommand_spells (lineNumber + 1) symbols _ _ (uncommented_holds ordinary)).2
      (not_exists.mp outside)
  refine ⟨message, ?_⟩
  simp only [loadLines, removeComment_eq, nextToken_nonempty ordinary some, failed]
  rfl

end Lines

/-! ## Files -/

/-- The loop behind lines that conform. -/
theorem loadLines_reads {lineNumber : Nat} {front : List Bytes} {readings : List Reading}
    (reads : Reads lineNumber front readings) (ordinary : ∀ line ∈ front, ∀ c ∈ line, plain c)
    (interned : Interned symbols names)
    (few : (names ++ namesOf readings).eraseDups.length < 2 ^ 32) (steps : List ScenarioStep)
    (back : List Bytes) :
    ∃ after, Interned after (names ++ namesOf readings) ∧
      loadLines lineNumber symbols steps (front ++ back) =
        loadLines (lineNumber + front.length) after
          (steps ++ readings.map (stepOf (names ++ namesOf readings))) back := by
  induction reads generalizing symbols names steps with
  | done lineNumber =>
    refine ⟨symbols, ?_, ?_⟩
    · simpa [namesOf] using interned
    · simp
  | @nothing lineNumber line lines readings empty later ih =>
    obtain ⟨here, rest⟩ := List.forall_mem_cons.mp ordinary
    obtain ⟨after, kept, loaded⟩ := ih rest interned few steps
    refine ⟨after, kept, ?_⟩
    rw [List.cons_append, loadLines_nothing here lineNumber _ _ _ empty, loaded, List.length_cons]
    congr 1
    omega
  | @sentence lineNumber line lines readings sentence spells later ih =>
    obtain ⟨here, rest⟩ := List.forall_mem_cons.mp ordinary
    rw [namesOf_cons, ← List.append_assoc] at few ⊢
    have fewer := (length_eraseDups_append_le _ _).trans_lt few
    obtain ⟨next, enacted, kept⟩ := interned.enact sentence fewer
    obtain ⟨after, final, loaded⟩ := ih rest kept few
      (steps ++ [{ lineNumber := lineNumber + 1, text := uncommented line, command := _ }])
    refine ⟨after, final, ?_⟩
    have stable : symbolOf (names ++ sentence.name.toList ++ namesOf readings) sentence =
        symbolOf (names ++ sentence.name.toList) sentence :=
      symbolOf_append (fun name named => List.mem_append_right _ (by simp [named])) _
    rw [List.cons_append, loadLines_sentence here lineNumber _ _ _ spells enacted, loaded,
      List.length_cons, List.append_assoc, List.map_cons, stepOf, stable]
    congr 1
    omega

theorem exists_reads {lines : List Bytes} (conform : ∀ line ∈ lines, Conforms line)
    (lineNumber : Nat) : ∃ readings, Reads lineNumber lines readings := by
  induction lines generalizing lineNumber with
  | nil => exact ⟨[], .done lineNumber⟩
  | cons line lines ih =>
    obtain ⟨here, later⟩ := List.forall_mem_cons.mp conform
    obtain ⟨readings, reads⟩ := ih later (lineNumber + 1)
    rcases here with empty | ⟨sentence, spells⟩
    · exact ⟨readings, .nothing empty reads⟩
    · exact ⟨_, .sentence spells reads⟩

theorem Reads.named {lineNumber : Nat} {lines : List Bytes} {readings : List Reading}
    (reads : Reads lineNumber lines readings) : ∀ name ∈ namesOf readings, Names lines name := by
  induction reads with
  | done lineNumber => exact fun _ => (nomatch ·)
  | nothing empty later ih =>
    intro name member
    obtain ⟨line, within, rest⟩ := ih name member
    exact ⟨line, List.mem_cons_of_mem _ within, rest⟩
  | sentence spells later ih =>
    intro name member
    rw [namesOf_cons] at member
    rcases List.mem_append.mp member with here | there
    · exact ⟨_, List.mem_cons_self, _, spells, Option.mem_toList.mp here⟩
    · obtain ⟨line, within, rest⟩ := ih name there
      exact ⟨line, List.mem_cons_of_mem _ within, rest⟩

/-- Every complaint starts with its line. -/
theorem line_tag (lineNumber : Nat) (message : Bytes) :
    ascii s!"line {lineNumber}:" <+: ascii s!"line {lineNumber}: " ++ message := by
  have cut : ascii s!"line {lineNumber}: " = ascii s!"line {lineNumber}:" ++ ascii " " := by
    have last : toString ": " = toString ":" ++ " " := by decide
    rw [← ascii_append, last, String.append_assoc, String.append_assoc, String.append_assoc]
  rw [cut, List.append_assoc]
  exact List.prefix_append _ _

/-- The first of the lines that do not conform. -/
theorem exists_first_refused {lines : List Bytes} (refused : ¬ ∀ line ∈ lines, Conforms line) :
    ∃ front line back, lines = front ++ line :: back ∧ (∀ earlier ∈ front, Conforms earlier) ∧
      ¬ Conforms line := by
  induction lines with
  | nil => exact absurd (fun _ => (nomatch ·)) refused
  | cons line lines ih =>
    by_cases here : Conforms line
    · obtain ⟨front, other, back, split, before, outside⟩ :=
        ih fun rest => refused (List.forall_mem_cons.mpr ⟨here, rest⟩)
      exact ⟨line :: front, other, back, by rw [split]; rfl,
        List.forall_mem_cons.mpr ⟨here, before⟩, outside⟩
    · exact ⟨[], line, lines, rfl, fun _ => (nomatch ·), here⟩

section Load
variable (path : Bytes) {text : Bytes} (ordinary : ∀ c ∈ text, c ≠ 11 ∧ c ≠ 12)
  (few : ∀ names : List Bytes, names.Nodup → (∀ name ∈ names, Names (lines text) name) →
    names.length < 2 ^ 32)
include ordinary

theorem plain_of_lines : ∀ line ∈ lines text, ∀ c ∈ line, plain c := fun _ read c member =>
  ⟨fun newline => newline_notMem_lines read (newline ▸ member),
    ordinary c (mem_of_mem_lines read member)⟩

include few

/-- The loop of `load` behind the front lines of a file. -/
theorem load_front {front back : List Bytes} {readings : List Reading}
    (split : lines text = front ++ back) (reads : Reads 0 front readings) :
    ∃ after, load path (some text) =
      loadLines front.length after (stepsOf readings) back := by
  have within : ∀ name ∈ namesOf readings, Names (lines text) name := by
    intro name member
    obtain ⟨line, read, rest⟩ := reads.named name member
    exact ⟨line, split ▸ List.mem_append_left _ read, rest⟩
  have fewer : (namesOf readings).eraseDups.length < 2 ^ 32 :=
    few _ (nodup_eraseDups _) fun name member => within name (List.mem_eraseDups.mp member)
  have lineByLine : ∀ line ∈ front, ∀ c ∈ line, plain c := fun line member =>
    plain_of_lines ordinary line (split ▸ List.mem_append_left _ member)
  obtain ⟨after, -, loaded⟩ := loadLines_reads reads lineByLine .initial (by simpa using fewer) [] back
  refine ⟨after, ?_⟩
  rw [load, split, loaded]
  simp [stepsOf]

theorem load_reads {readings : List Reading} (reads : Reads 0 (lines text) readings) :
    load path (some text) = .ok (stepsOf readings) := by
  obtain ⟨after, loaded⟩ := load_front path ordinary few (List.append_nil _).symm reads
  exact loaded

theorem load_refused {front back : List Bytes} {line : Bytes}
    (split : lines text = front ++ line :: back) (before : ∀ earlier ∈ front, Conforms earlier)
    (outside : ¬ Conforms line) :
    ∃ message, load path (some text) = .error (lineError (front.length + 1) message) := by
  obtain ⟨readings, reads⟩ := exists_reads before 0
  obtain ⟨after, loaded⟩ := load_front path ordinary few split reads
  rw [loaded]
  refine loadLines_complains (plain_of_lines ordinary line ?_) _ _ _ _ outside
  simp [split]

end Load

/-- A text is loaded exactly when every line says nothing or is one of the five sentences; then
its steps are those its lines say, and otherwise the error names the first line that is not. -/
theorem scenario_parser_accepts_its_grammar (path text : Bytes)
    (ordinary : ∀ c ∈ text, c ≠ 11 ∧ c ≠ 12)
    (few : ∀ names : List Bytes, names.Nodup → (∀ name ∈ names, Names (lines text) name) →
      names.length < 2 ^ 32) :
    ((∃ steps, load path (some text) = .ok steps) ↔ ∀ line ∈ lines text, Conforms line) ∧
    (∀ steps, load path (some text) = .ok steps →
      ∃ readings, Reads 0 (lines text) readings ∧ steps = stepsOf readings) ∧
    ∀ front line back, lines text = front ++ line :: back →
      (∀ earlier ∈ front, Conforms earlier) → ¬ Conforms line →
      ∃ message, load path (some text) = .error (.runtimeError message) ∧
        ascii s!"line {front.length + 1}:" <+: message := by
  have conforming : ∀ steps, load path (some text) = .ok steps → ∀ line ∈ lines text, Conforms line := by
    intro steps loaded
    by_contra refused
    obtain ⟨front, line, back, split, before, outside⟩ := exists_first_refused refused
    obtain ⟨message, failed⟩ := load_refused path ordinary few split before outside
    rw [loaded] at failed
    cases failed
  refine ⟨⟨fun ⟨steps, loaded⟩ => conforming steps loaded, fun conform => ?_⟩,
    fun steps loaded => ?_, fun front line back split before outside => ?_⟩
  · obtain ⟨readings, reads⟩ := exists_reads conform 0
    exact ⟨_, load_reads path ordinary few reads⟩
  · obtain ⟨readings, reads⟩ := exists_reads (conforming steps loaded) 0
    rw [load_reads path ordinary few reads] at loaded
    exact ⟨readings, reads, (Except.ok.inj loaded).symm⟩
  · obtain ⟨message, failed⟩ := load_refused path ordinary few split before outside
    exact ⟨_, failed, line_tag _ message⟩

/-- A sentence on the first line and an unknown command on the second. -/
theorem scenario_parser_accepts_its_grammar_up_to_second_line :
    ∃ message, load (ascii "scenario.txt") (some (ascii "cancel 1 10\nreplace\n")) =
      .error (.runtimeError message) ∧ ascii "line 2:" <+: message := by
  have first : tokens (ascii "cancel 1 10") = [ascii "cancel", ascii "1", ascii "10"] := by decide
  have second : tokens (ascii "replace") = [ascii "replace"] := by decide
  have split : lines (ascii "cancel 1 10\nreplace\n") = [ascii "cancel 1 10", ascii "replace"] := by
    decide
  have unknown : ∀ sentence, ¬ Spells (tokens (ascii "replace")) sentence := by
    intro sentence spells
    rw [second] at spells
    obtain ⟨_, _, _, same, rfl, spells⟩ := (sentences_iff _ _).mpr spells
    rw [← (List.cons.inj same).1, if_neg (by decide), if_neg (by decide), if_neg (by decide),
      if_neg (by decide)] at spells
    exact spells
  have conforms : ∀ earlier ∈ [ascii "cancel 1 10"], Conforms earlier := by
    intro earlier member
    obtain rfl := List.mem_singleton.mp member
    have one : Numeral (ascii "1") 1 := ⟨by decide, List.all_eq_true.mp rfl, rfl⟩
    have ten : Numeral (ascii "10") 10 := ⟨by decide, List.all_eq_true.mp rfl, rfl⟩
    refine .inr ⟨.cancel 1 10, ?_⟩
    rw [first]
    exact .cancel one ten
  have nameless : ∀ name, ¬ Names (lines (ascii "cancel 1 10\nreplace\n")) name := by
    rintro name ⟨line, read, sentence, spells, named⟩
    rw [split] at read
    rcases List.mem_pair.mp read with rfl | rfl
    · rw [first] at spells
      obtain ⟨_, _, _, same, rfl, spells⟩ := (sentences_iff _ _).mpr spells
      rw [← (List.cons.inj same).1, if_neg (by decide), if_neg (by decide), if_pos rfl] at spells
      rw [cancels_name spells] at named
      cases named
    · exact unknown sentence spells
  have few : ∀ names : List Bytes, names.Nodup →
      (∀ name ∈ names, Names (lines (ascii "cancel 1 10\nreplace\n")) name) →
      names.length < 2 ^ 32 := by
    intro names _ within
    cases names with
    | nil => decide
    | cons name names => exact absurd (within name List.mem_cons_self) (nameless name)
  have every : (ascii "cancel 1 10\nreplace\n").all (fun c => decide (c ≠ 11 ∧ c ≠ 12)) = true := rfl
  have ordinary : ∀ c ∈ ascii "cancel 1 10\nreplace\n", c ≠ 11 ∧ c ≠ 12 := fun c member =>
    of_decide_eq_true (List.all_eq_true.mp every c member)
  have parsed := scenario_parser_accepts_its_grammar (ascii "scenario.txt")
    (ascii "cancel 1 10\nreplace\n") ordinary few
  exact parsed.2.2 [ascii "cancel 1 10"] (ascii "replace") [] split conforms
    (not_or.mpr ⟨by decide, not_exists.mpr unknown⟩)

end MarketLab.Replay

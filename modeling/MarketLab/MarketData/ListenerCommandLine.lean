import MarketLab.MarketData.Arguments
import MarketLab.MarketData.Listener

/-!
# The command line of the listener

`parse_options` and `main` of `market_data_listener`. An option may stand anywhere between the
positional arguments, and the last `--stop-after` counts.
-/
namespace MarketLab.MarketData.Listener
open MarketLab.Control MarketLab.Control.Options MarketLab.Text

/-- `parse_positive_integer` for a type with this maximum. -/
def parsePositiveInteger (maximum : Nat) (text name : Bytes) :
    Except Bytes { value : UInt64 // value ≠ 0 } :=
  wholeInteger maximum (· ≠ 0) text (name ++ ascii " must be a positive integer")

/-- The options so far, with `positional_index`. -/
abbrev Parsing := Placed ListenerOptions

def stopAfterName : Bytes := ascii "--stop-after"

def applyArgument (parsing : Parsing) : Item Bytes → Except Bytes Parsing
  | .valued _ value =>
    match parsePositiveInteger (2 ^ 64 - 1) value (ascii "stop-after packet count") with
    | .error what => .error what
    | .ok count => .ok { parsing with state := { parsing.state with stopAfter := some count } }
  | .single argument =>
    if argument = ascii "--quiet" then
      .ok { parsing with state := { parsing.state with quiet := true } }
    else if argument.head? = some 45 then .error (ascii "unknown option: " ++ argument)
    else
      match parsing.index with
      | 0 => .ok { state := { parsing.state with group := argument }, index := 1 }
      | 1 =>
        match parsePositiveInteger 65535 argument (ascii "port") with
        | .error what => .error what
        | .ok port => .ok { state := { parsing.state with port := .ofNat port.1.toNat }, index := 2 }
      | 2 => .ok { state := { parsing.state with interfaceAddress := argument }, index := 3 }
      | _ => .error (ascii "too many positional arguments")

/-- The loop over `argv`. -/
def commandLine : Options Bytes Bytes Parsing where
  takesValue name := name = stopAfterName
  missing name := name ++ ascii " requires a value"
  apply := applyArgument

def parseOptions (arguments : List Bytes) : Except Bytes ListenerOptions :=
  (commandLine.parse { state := {} } arguments).map Placed.state

/-- What the process leaves, unless its loop goes on. Opening installs the handlers of the signals,
binds the socket and joins the group. -/
def main (endian : Endian) (arguments : List Bytes) (opened : ListenerOptions → Except Bytes Unit)
    (occurrences : List Occurrence) (timing : Timing) : Option Report :=
  match parseOptions arguments with
  | .error what => some (failure [] [] what)
  | .ok options =>
    match opened options with
    | .error what => some (failure [] [] what)
    | .ok () => (listen endian options occurrences).report timing

/-! ## Arguments -/

inductive Flag where
  | stopAfter (text : Bytes) (count : { count : UInt64 // count ≠ 0 })
  | quiet
  deriving DecidableEq

abbrev Argument := Word Flag Bytes

def Flag.item : Flag → Item Bytes
  | .stopAfter text _ => .valued stopAfterName text
  | .quiet => .single (ascii "--quiet")

def item : Argument → Item Bytes
  | .flag flag => flag.item
  | .positional text => .single text

def Flag.Allowed : Flag → Prop
  | .stopAfter text count => Numeral text count.1
  | .quiet => True

def setFlag (options : ListenerOptions) : Flag → ListenerOptions
  | .stopAfter _ count => { options with stopAfter := some count }
  | .quiet => { options with quiet := true }

def setPlace (options : ListenerOptions) (text : Bytes) : Nat → ListenerOptions
  | 0 => { options with group := text }
  | 1 => { options with port := portOf text }
  | _ => { options with interfaceAddress := text }

theorem quiet_word : (ascii "--quiet").head? = some 45 ∧ ascii "--quiet" ≠ stopAfterName ∧
    stopAfterName.head? = some 45 := by decide

section Reads

abbrev Allows (parsing : Parsing) : Argument → Prop := parsing.Allows Flag.Allowed PlaceAllowed 3
abbrev set : Parsing → Argument → Parsing := Placed.with setFlag setPlace

/-- A text in a positional place. -/
theorem takesPlaces (options : ListenerOptions) {text : Bytes} (plain : text.head? ≠ some 45) :
    TakesPlaces 3 setPlace options text fun index =>
      applyArgument { state := options, index } (.single text) := by
  have word : text ≠ ascii "--quiet" := fun same => plain (same ▸ quiet_word.1)
  simp only [applyArgument, if_neg word, if_neg plain]
  refine ⟨by omega, fun after => ⟨fun placed => ?_, ?_⟩, fun index inside other => ?_,
    fun index after beyond placed => ?_⟩
  · cases read : parsePositiveInteger 65535 text (ascii "port") with
    | error what =>
      rw [read] at placed
      cases placed
    | ok port =>
      rw [read] at placed
      obtain ⟨numeral, bounded⟩ := (wholeInteger_ok _).mp read
      rw [setPlace, portOf_numeral numeral]
      exact ⟨⟨port, numeral, bounded⟩, (Except.ok.inj placed).symm⟩
  · rintro ⟨⟨value, numeral, bounded⟩, rfl⟩
    have read : parsePositiveInteger 65535 text (ascii "port") = .ok value :=
      (wholeInteger_ok _).mpr ⟨numeral, bounded⟩
    rw [read, setPlace, portOf_numeral numeral]
    rfl
  · obtain rfl | rfl : index = 0 ∨ index = 2 := by omega
    · rfl
    · rfl
  · obtain ⟨index, rfl⟩ := Nat.exists_eq_add_of_le' beyond
    cases placed

theorem commandLine_reads : commandLine.Reads item Allows set where
  proper {parsing argument} allowed := by
    cases argument with
    | flag flag =>
      cases flag with
      | stopAfter text count => exact decide_eq_true (Eq.refl stopAfterName)
      | quiet => exact decide_eq_false quiet_word.2.1
    | positional text =>
      refine decide_eq_false fun same => allowed.2.1 ?_
      rw [same]
      exact quiet_word.2.2
  applied {parsing written after} proper := by
    change applyArgument parsing written = .ok after ↔ _
    constructor
    · intro applied
      cases written with
      | valued name value =>
        obtain rfl : name = stopAfterName := of_decide_eq_true proper
        simp only [applyArgument] at applied
        split at applied
        next => cases applied
        next count read =>
          exact ⟨.flag (.stopAfter value count), rfl, ((wholeInteger_ok _).mp read).1,
            (Except.ok.inj applied).symm⟩
      | single text =>
        by_cases quiet : text = ascii "--quiet"
        · subst quiet
          exact ⟨.flag .quiet, rfl, trivial, (Except.ok.inj applied).symm⟩
        · by_cases option : text.head? = some 45
          · simp only [applyArgument, if_neg quiet, if_pos option] at applied
            cases applied
          · obtain ⟨allowed, rfl⟩ := ((takesPlaces _ option).ok_iff option).mp applied
            exact ⟨.positional text, rfl, allowed, rfl⟩
    · rintro ⟨argument, rfl, allowed, rfl⟩
      cases argument with
      | flag flag =>
        cases flag with
        | stopAfter text count =>
          have read : parsePositiveInteger (2 ^ 64 - 1) text (ascii "stop-after packet count") =
              .ok count := wholeInteger_of_numeral _ allowed
          simp only [item, Flag.item, applyArgument, read]
          rfl
        | quiet => rfl
      | positional text => exact ((takesPlaces _ allowed.2.1).ok_iff allowed.2.1).mpr ⟨allowed, rfl⟩

end Reads

/-! ## Command lines -/

def Flag.count? : Flag → Option { count : UInt64 // count ≠ 0 }
  | .stopAfter _ count => some count
  | .quiet => none

/-- The options that some arguments choose: the last count, and the positional arguments in
their places. -/
def chosen (given : List Argument) : ListenerOptions where
  group := (positionals given)[0]?.getD defaultGroup
  port := ((positionals given)[1]?.map portOf).getD defaultPort
  interfaceAddress := (positionals given)[2]?.getD defaultInterface
  stopAfter := ((flags given).filterMap Flag.count?).getLast?
  quiet := (flags given).contains .quiet

theorem foldl_set {given : List Argument} (few : (positionals given).length ≤ 3) :
    given.foldl set { state := {} } =
      { state := chosen given, index := (positionals given).length } := by
  induction given using List.reverseRecOn with
  | nil => rfl
  | append_singleton given argument ih =>
    have texts := positionals_snoc given argument
    have options := flags_snoc given argument
    rw [texts, List.length_append] at few
    rw [List.foldl_concat, ih (by omega)]
    simp only [chosen, set, Placed.with, texts, options]
    cases argument with
    | flag flag => cases flag <;> simp [setFlag, Word.text?, Word.flag?, Flag.count?]
    | positional text =>
      rw [Word.text?, Option.toList_some] at few
      simp only [Word.text?, Word.flag?, Option.toList_some, Option.toList_none, List.append_nil]
      clear texts options ih
      generalize positionals given = placed at few ⊢
      rcases placed with _ | ⟨group, _ | ⟨port, _ | ⟨interfaceAddress, rest⟩⟩⟩
      · rfl
      · rfl
      · rfl
      · simp only [List.length_cons, List.length_nil] at few
        omega

/-- A command line is accepted exactly when it is written by options in any places with positive
counts and by at most three positional arguments, none like an option and the second one a port;
the options are then those the arguments choose. -/
theorem listener_accepts_its_grammar (arguments : List Bytes) (options : ListenerOptions) :
    parseOptions arguments = .ok options ↔
      ∃ given : List Argument, arguments = given.flatMap (fun argument => (item argument).words) ∧
        Acceptable Flag.Allowed PlaceAllowed 3 given ∧ options = chosen given := by
  unfold parseOptions
  rw [commandLine_reads.positional_ok]
  apply exists_congr
  intro given
  apply and_congr_right
  intro _
  apply and_congr_right
  intro acceptable
  rw [foldl_set acceptable.few]

end MarketLab.MarketData.Listener

import MarketLab.MarketData.Arguments
import MarketLab.MarketData.Simulator

/-!
# The command line of the simulator

`parse_options` and `main` of `exchange_feed_simulator`. Numbers are read into a type with a
maximum; a port is read into a larger one first.
-/
namespace MarketLab.MarketData.Simulator
open MarketLab.Control MarketLab.Control.Options MarketLab.Text

/-- `parse_integer` for a type with this maximum. -/
def parseInteger (maximum : Nat) (text name : Bytes) (allowZero : Bool) :
    Except Bytes { value : UInt64 // allowZero = true ∨ value ≠ 0 } :=
  wholeInteger maximum (fun value => allowZero = true ∨ value ≠ 0) text
    (name ++ if allowZero then ascii " must be a non-negative integer"
      else ascii " must be a positive integer")

def parsePort (text : Bytes) : Except Bytes UInt16 :=
  match parseInteger (2 ^ 32 - 1) text (ascii "port") false with
  | .error what => .error what
  | .ok value =>
    if value.1.toNat > 65535 then .error (ascii "port must be an integer from 1 to 65535")
    else .ok (.ofNat value.1.toNat)

def messagesName : Bytes := ascii "--messages"
def burstSizeName : Bytes := ascii "--burst-size"
def intervalName : Bytes := ascii "--interval-us"

abbrev Parsing := Placed SimulatorOptions

/-- The branches of the options with a value. -/
def applyValued (options : SimulatorOptions) (name value : Bytes) :
    Except Bytes SimulatorOptions :=
  if name = messagesName then
    match parseInteger (2 ^ 64 - 1) value (ascii "message count") false with
    | .error what => .error what
    | .ok count => .ok { options with messageCount := some ⟨count.1, count.2.resolve_left nofun⟩ }
  else if name = burstSizeName then
    match parseInteger (2 ^ 64 - 1) value (ascii "burst size") false with
    | .error what => .error what
    | .ok size => .ok { options with burstSize := ⟨size.1, size.2.resolve_left nofun⟩ }
  else
    match parseInteger (2 ^ 64 - 1) value (ascii "interval") true with
    | .error what => .error what
    | .ok interval => .ok { options with intervalMicroseconds := interval.1 }

def applyArgument (parsing : Parsing) : Item Bytes → Except Bytes Parsing
  | .valued name value =>
    match applyValued parsing.state name value with
    | .error what => .error what
    | .ok options => .ok { parsing with state := options }
  | .single argument =>
    if argument = ascii "--quiet" then
      .ok { parsing with state := { parsing.state with quiet := true } }
    else if argument.head? = some 45 then .error (ascii "unknown option: " ++ argument)
    else
      match parsing.index with
      | 0 => .ok { state := { parsing.state with group := argument }, index := 1 }
      | 1 =>
        match parsePort argument with
        | .error what => .error what
        | .ok port => .ok { state := { parsing.state with port }, index := 2 }
      | _ => .error (ascii "too many positional arguments")

/-- The loop over `argv`. -/
def commandLine : Options Bytes Bytes Parsing where
  takesValue name := name = messagesName ∨ name = burstSizeName ∨ name = intervalName
  missing name := name ++ ascii " requires a value"
  apply := applyArgument

def parseOptions (arguments : List Bytes) : Except Bytes SimulatorOptions :=
  (commandLine.parse { state := {} } arguments).map Placed.state

/-! ## Arguments -/

inductive Flag where
  | messages (text : Bytes) (count : { count : UInt64 // count ≠ 0 })
  | burstSize (text : Bytes) (size : { size : UInt64 // size ≠ 0 })
  | interval (text : Bytes) (microseconds : UInt64)
  | quiet
  deriving DecidableEq

abbrev Argument := Word Flag Bytes

def Flag.item : Flag → Item Bytes
  | .messages text _ => .valued messagesName text
  | .burstSize text _ => .valued burstSizeName text
  | .interval text _ => .valued intervalName text
  | .quiet => .single (ascii "--quiet")

def item : Argument → Item Bytes
  | .flag flag => flag.item
  | .positional text => .single text

def Flag.Allowed : Flag → Prop
  | .messages text count => Numeral text count.1
  | .burstSize text size => Numeral text size.1
  | .interval text microseconds => Numeral text microseconds
  | .quiet => True

def setFlag (options : SimulatorOptions) : Flag → SimulatorOptions
  | .messages _ count => { options with messageCount := some count }
  | .burstSize _ size => { options with burstSize := size }
  | .interval _ microseconds => { options with intervalMicroseconds := microseconds }
  | .quiet => { options with quiet := true }

def setPlace (options : SimulatorOptions) (text : Bytes) : Nat → SimulatorOptions
  | 0 => { options with group := text }
  | _ => { options with port := portOf text }

/-- Reading a port into a larger type first accepts the same texts. -/
theorem parsePort_ok {text : Bytes} {port : UInt16} :
    parsePort text = .ok port ↔ IsPort text ∧ port = portOf text := by
  unfold parsePort
  constructor
  · intro parsed
    cases read : parseInteger (2 ^ 32 - 1) text (ascii "port") false with
    | error what =>
      rw [read] at parsed
      cases parsed
    | ok value =>
      rw [read] at parsed
      simp only at parsed
      split at parsed
      next => cases parsed
      next within =>
        have numeral := ((wholeInteger_ok _).mp read).1
        rw [portOf_numeral numeral]
        exact ⟨⟨⟨value.1, value.2.resolve_left nofun⟩, numeral, Nat.not_lt.mp within⟩,
          (Except.ok.inj parsed).symm⟩
  · rintro ⟨⟨⟨value, nonzero⟩, numeral, within⟩, rfl⟩
    have read : parseInteger (2 ^ 32 - 1) text (ascii "port") false = .ok ⟨value, .inr nonzero⟩ :=
      (wholeInteger_ok _).mpr ⟨numeral, Nat.le_trans within (by decide)⟩
    rw [read, portOf_numeral numeral]
    exact if_neg (Nat.not_lt.mpr within)

theorem option_words :
    (ascii "--quiet").head? = some 45 ∧ commandLine.takesValue (ascii "--quiet") = false ∧
    burstSizeName ≠ messagesName ∧ intervalName ≠ messagesName ∧ intervalName ≠ burstSizeName := by
  decide

theorem takesValue_names : ∀ name ∈ [messagesName, burstSizeName, intervalName],
    commandLine.takesValue name = true ∧ name.head? = some 45 := by decide

theorem proper_flag (flag : Flag) : commandLine.Proper flag.item := by
  cases flag with
  | messages => exact (takesValue_names _ (by simp)).1
  | burstSize => exact (takesValue_names _ (by simp)).1
  | interval => exact (takesValue_names _ (by simp)).1
  | quiet => exact option_words.2.1

theorem head_of_takesValue {name : Bytes} (takes : commandLine.takesValue name = true) :
    name.head? = some 45 := by
  have named : name ∈ [messagesName, burstSizeName, intervalName] := by
    simpa [commandLine] using takes
  exact (takesValue_names name named).2

section Reads

abbrev Allows (parsing : Parsing) : Argument → Prop := parsing.Allows Flag.Allowed PlaceAllowed 2
abbrev set : Parsing → Argument → Parsing := Placed.with setFlag setPlace

theorem applyValued_ok {options after : SimulatorOptions} {name value : Bytes}
    (takes : commandLine.takesValue name = true) : applyValued options name value = .ok after ↔
      ∃ flag : Flag, flag.item = .valued name value ∧ flag.Allowed ∧ after = setFlag options flag := by
  obtain ⟨-, -, burstSize, interval, intervalToo⟩ := option_words
  constructor
  · intro applied
    unfold applyValued at applied
    split at applied
    next messages =>
      split at applied
      next => cases applied
      next count read =>
        exact ⟨.messages value ⟨count.1, count.2.resolve_left nofun⟩, by rw [messages, Flag.item],
          ((wholeInteger_ok _).mp read).1, (Except.ok.inj applied).symm⟩
    next notMessages =>
      split at applied
      next burstSize =>
        split at applied
        next => cases applied
        next size read =>
          exact ⟨.burstSize value ⟨size.1, size.2.resolve_left nofun⟩, by rw [burstSize, Flag.item],
            ((wholeInteger_ok _).mp read).1, (Except.ok.inj applied).symm⟩
      next notBurstSize =>
        have named : name = intervalName :=
          ((of_decide_eq_true takes).resolve_left notMessages).resolve_left notBurstSize
        split at applied
        next => cases applied
        next microseconds read =>
          exact ⟨.interval value microseconds.1, by rw [named, Flag.item],
            ((wholeInteger_ok _).mp read).1, (Except.ok.inj applied).symm⟩
  · rintro ⟨flag, written, allowed, rfl⟩
    unfold applyValued
    cases flag with
    | messages text count =>
      obtain ⟨rfl, rfl⟩ := Item.valued.inj written
      have read : parseInteger (2 ^ 64 - 1) text (ascii "message count") false =
          .ok ⟨count.1, .inr count.2⟩ := wholeInteger_of_numeral _ allowed
      rw [if_pos rfl, read]
      rfl
    | burstSize text size =>
      obtain ⟨rfl, rfl⟩ := Item.valued.inj written
      have read : parseInteger (2 ^ 64 - 1) text (ascii "burst size") false =
          .ok ⟨size.1, .inr size.2⟩ := wholeInteger_of_numeral _ allowed
      rw [if_neg burstSize, if_pos rfl, read]
      rfl
    | interval text microseconds =>
      obtain ⟨rfl, rfl⟩ := Item.valued.inj written
      have read : parseInteger (2 ^ 64 - 1) text (ascii "interval") true =
          .ok ⟨microseconds, .inl rfl⟩ := wholeInteger_of_numeral _ allowed
      rw [if_neg interval, if_neg intervalToo, read]
      rfl
    | quiet => cases written

/-- A text in a positional place. -/
theorem takesPlaces (options : SimulatorOptions) {text : Bytes} (plain : text.head? ≠ some 45) :
    TakesPlaces 2 setPlace options text fun index =>
      applyArgument { state := options, index } (.single text) := by
  have word : text ≠ ascii "--quiet" := fun same => plain (same ▸ option_words.1)
  simp only [applyArgument, if_neg word, if_neg plain]
  refine ⟨by omega, fun after => ⟨fun placed => ?_, ?_⟩, fun index inside other => ?_,
    fun index after beyond placed => ?_⟩
  · cases read : parsePort text with
    | error what =>
      rw [read] at placed
      cases placed
    | ok port =>
      rw [read] at placed
      obtain ⟨isPort, rfl⟩ := parsePort_ok.mp read
      exact ⟨isPort, (Except.ok.inj placed).symm⟩
  · rintro ⟨isPort, rfl⟩
    rw [parsePort_ok.mpr ⟨isPort, rfl⟩]
    rfl
  · obtain rfl : index = 0 := by omega
    rfl
  · obtain ⟨index, rfl⟩ := Nat.exists_eq_add_of_le' beyond
    cases placed

theorem commandLine_reads : commandLine.Reads item Allows set where
  proper {parsing argument} allowed := by
    cases argument with
    | flag flag => exact proper_flag flag
    | positional text =>
      exact Bool.eq_false_iff.mpr fun takes => allowed.2.1 (head_of_takesValue takes)
  applied {parsing written after} proper := by
    change applyArgument parsing written = .ok after ↔ _
    constructor
    · intro applied
      cases written with
      | valued name value =>
        simp only [applyArgument] at applied
        split at applied
        next => cases applied
        next options read =>
          obtain ⟨flag, written, allowed, rfl⟩ := (applyValued_ok proper).mp read
          exact ⟨.flag flag, written.symm, allowed, (Except.ok.inj applied).symm⟩
      | single text =>
        by_cases quiet : text = ascii "--quiet"
        · subst quiet
          exact ⟨.flag .quiet, rfl, trivial, (Except.ok.inj applied).symm⟩
        · by_cases option : text.head? = some 45
          · simp only [applyArgument, if_neg quiet, if_pos option] at applied
            cases applied
          · obtain ⟨allowed, rfl⟩ := ((takesPlaces _ option).ok_iff option).mp applied
            exact ⟨.positional text, rfl, allowed, rfl⟩
    · rintro ⟨argument, rfl, allowed, rfl⟩
      cases argument with
      | positional text => exact ((takesPlaces _ allowed.2.1).ok_iff allowed.2.1).mpr ⟨allowed, rfl⟩
      | flag flag =>
        cases written : flag.item with
        | single argument =>
          cases flag with
          | quiet => rfl
          | _ => cases written
        | valued name value =>
          rw [item, written] at proper ⊢
          have read : applyValued parsing.state name value = .ok (setFlag parsing.state flag) :=
            (applyValued_ok proper).mpr ⟨flag, written, allowed, rfl⟩
          simp only [applyArgument, read]
          rfl

end Reads

/-! ## Command lines -/

def Flag.messages? : Flag → Option { count : UInt64 // count ≠ 0 }
  | .messages _ count => some count
  | _ => none

def Flag.burstSize? : Flag → Option { size : UInt64 // size ≠ 0 }
  | .burstSize _ size => some size
  | _ => none

def Flag.interval? : Flag → Option UInt64
  | .interval _ microseconds => some microseconds
  | _ => none

/-- The options that some arguments choose: of each option the last value, and the positional
arguments in their places. -/
def chosen (given : List Argument) : SimulatorOptions where
  group := (positionals given)[0]?.getD defaultGroup
  port := ((positionals given)[1]?.map portOf).getD defaultPort
  messageCount := ((flags given).filterMap Flag.messages?).getLast?
  burstSize := ((flags given).filterMap Flag.burstSize?).getLast?.getD defaultBurstSize
  intervalMicroseconds := ((flags given).filterMap Flag.interval?).getLast?.getD 0
  quiet := (flags given).contains .quiet

theorem foldl_set {given : List Argument} (few : (positionals given).length ≤ 2) :
    given.foldl set { state := {} } =
      { state := chosen given, index := (positionals given).length } := by
  induction given using List.reverseRecOn with
  | nil => rfl
  | append_singleton given argument ih =>
    have texts := positionals_snoc given argument
    have options := flags_snoc given argument
    rw [texts, List.length_append] at few
    rw [List.foldl_concat, ih (by omega)]
    simp only [chosen, set, Placed.with, texts, options]
    cases argument with
    | flag flag =>
      cases flag <;>
        simp [setFlag, Word.text?, Word.flag?, Flag.messages?, Flag.burstSize?, Flag.interval?]
    | positional text =>
      rw [Word.text?, Option.toList_some] at few
      simp only [Word.text?, Word.flag?, Option.toList_some, Option.toList_none, List.append_nil]
      clear texts options ih
      generalize positionals given = placed at few ⊢
      rcases placed with _ | ⟨group, _ | ⟨port, rest⟩⟩
      · rfl
      · rfl
      · simp only [List.length_cons, List.length_nil] at few
        omega

/-- A command line is accepted exactly when it is written by options in any places, with positive
counts and any interval, and by at most two positional arguments, none like an option and the
second one a port; the options are then those the arguments choose. -/
theorem simulator_accepts_its_grammar (arguments : List Bytes) (options : SimulatorOptions) :
    parseOptions arguments = .ok options ↔
      ∃ given : List Argument, arguments = given.flatMap (fun argument => (item argument).words) ∧
        Acceptable Flag.Allowed PlaceAllowed 2 given ∧ options = chosen given := by
  unfold parseOptions
  rw [commandLine_reads.positional_ok]
  apply exists_congr
  intro given
  apply and_congr_right
  intro _
  apply and_congr_right
  intro acceptable
  rw [foldl_set acceptable.few]

end MarketLab.MarketData.Simulator

import MarketLab.Text.Json

/-!
# Reading JSON

A reader by recursive descent. It reads every text of the grammar as the value that the text
denotes, so no text denotes two values.
-/
namespace MarketLab.Text.Json

def skip (text : Bytes) : Bytes := text.dropWhile whitespace

def readCharacters : Bytes → Option (Bytes × Bytes)
  | [] => none
  | c :: text =>
    if c = quote then some ([], text)
    else if c = backslash then
      match text with
      | [] => none
      | letter :: text =>
        if letter = 117 then
          match text with
          | a :: b :: c :: d :: text => do
            let unit ← codeUnit [a, b, c, d]
            let (contents, rest) ← readCharacters text
            return (utf8 unit ++ contents, rest)
          | _ => none
        else do
          let c ← escaped letter
          let (contents, rest) ← readCharacters text
          return (c :: contents, rest)
    else if c < 32 then none
    else do
      let (contents, rest) ← readCharacters text
      return (c :: contents, rest)

/-- What follows a mark behind white space. -/
def expect (mark : UInt8) (text : Bytes) : Option Bytes :=
  match skip text with
  | [] => none
  | c :: rest => if c = mark then some rest else none

def readName (text : Bytes) : Option (Bytes × Bytes) := do
  let (name, text) ← readCharacters (← expect quote text)
  return (name, ← expect colon text)

def numericByte (c : UInt8) : Bool := c ∈ letters numeric

/-- The longest run of the bytes that numbers are made of. -/
def readNumber (text : Bytes) : Option (Json × Bytes) :=
  if valid : text.takeWhile numericByte ∈ numeric.matches' then
    some (.number ⟨_, valid⟩, text.dropWhile numericByte)
  else none

def readLiteral (literal : Bytes) (value : Json) (text : Bytes) : Option (Json × Bytes) :=
  if literal.isPrefixOf text then some (value, text.drop literal.length) else none

mutual

def readValue : Nat → Bytes → Option (Json × Bytes)
  | 0, _ => none
  | _, [] => none
  | fuel + 1, c :: text =>
    if c = quote then do
      let (contents, rest) ← readCharacters text
      return (.string contents, rest)
    else if c = openArray then
      match expect closeArray text with
      | some rest => some (.array [], rest)
      | none => do
        let (items, rest) ← readElements fuel text
        return (.array items, rest)
    else if c = openObject then
      match expect closeObject text with
      | some rest => some (.object [], rest)
      | none => do
        let (members, rest) ← readMembers fuel text
        return (.object members, rest)
    else if c = 110 then readLiteral (ascii "null") .null (c :: text)
    else if c = 116 then readLiteral (ascii "true") (.boolean true) (c :: text)
    else if c = 102 then readLiteral (ascii "false") (.boolean false) (c :: text)
    else readNumber (c :: text)

def readElements : Nat → Bytes → Option (List Json × Bytes)
  | 0, _ => none
  | fuel + 1, text => do
    let (item, text) ← readValue fuel (skip text)
    match expect closeArray text with
    | some rest => return ([item], rest)
    | none =>
      let (items, rest) ← readElements fuel (← expect comma text)
      return (item :: items, rest)

def readMembers : Nat → Bytes → Option (List (Bytes × Json) × Bytes)
  | 0, _ => none
  | fuel + 1, text => do
    let (name, text) ← readName text
    let (value, text) ← readValue fuel (skip text)
    match expect closeObject text with
    | some rest => return ([(name, value)], rest)
    | none =>
      let (members, rest) ← readMembers fuel (← expect comma text)
      return ((name, value) :: members, rest)

end

/-- The value of a text with white space around it and nothing else. -/
def read (text : Bytes) : Option Json := do
  let (value, rest) ← readValue (2 * text.length) (skip text)
  if skip rest = [] then return value else none

/-! ## Strings -/

theorem Characters.reads {text contents rest : Bytes} (characters : Characters text contents rest) :
    readCharacters text = some (contents, rest) := by
  induction characters with
  | closed =>
    unfold readCharacters
    exact if_pos rfl
  | plain printable notQuote notBackslash more ih =>
    unfold readCharacters
    rw [if_neg notQuote, if_neg notBackslash, if_neg (UInt8.not_lt.mpr printable), ih]
    rfl
  | @letter letter c text contents rest stands more ih =>
    have other : letter ≠ 117 := by
      rintro rfl
      cases stands
    unfold readCharacters
    rw [if_neg (by decide), if_pos rfl]
    dsimp only
    rw [if_neg other, stands, ih]
    rfl
  | unit stands more ih =>
    unfold readCharacters
    rw [if_neg (by decide), if_pos rfl]
    dsimp only
    rw [if_pos rfl, stands, ih]
    rfl

theorem Characters.shorter {text contents rest : Bytes}
    (characters : Characters text contents rest) : rest.length < text.length := by
  induction characters with
  | closed => simp
  | plain _ _ _ _ ih => simp only [List.length_cons]; omega
  | letter _ _ ih => simp only [List.length_cons]; omega
  | unit _ _ ih => simp only [List.length_cons]; omega

/-! ## White space and numbers -/

theorem skip_of_spaces {text rest : Bytes} (spaces : Spaces text rest)
    (stops : Stops whitespace rest) : skip text = rest := by
  obtain ⟨run, all, rfl⟩ := spaces
  exact dropWhile_append_of_stops all stops

theorem expect_self {mark : UInt8} {text rest : Bytes} (spaces : Spaces text (mark :: rest))
    (visible : whitespace mark = false) : expect mark text = some rest := by
  unfold expect
  rw [skip_of_spaces spaces (stops_cons.mpr visible)]
  exact if_pos rfl

theorem expect_other {mark c : UInt8} {text rest : Bytes} (spaces : Spaces text (c :: rest))
    (visible : whitespace c = false) (other : c ≠ mark) : expect mark text = none := by
  unfold expect
  rw [skip_of_spaces spaces (stops_cons.mpr visible)]
  exact if_neg other

theorem Spaces.length_le {text rest : Bytes} (spaces : Spaces text rest) :
    rest.length ≤ text.length := by
  obtain ⟨run, -, rfl⟩ := spaces
  simp

theorem Name.reads {text name rest : Bytes} (named : Name text name rest) :
    readName text = some (name, rest) := by
  obtain ⟨before, characters, after⟩ := named
  have opened := expect_self before (by decide)
  have colon := expect_self after (by decide)
  simp [readName, opened, characters.reads, colon]

theorem Name.shorter {text name rest : Bytes} (named : Name text name rest) :
    rest.length < text.length := by
  obtain ⟨before, characters, after⟩ := named
  have front := before.length_le
  have inside := characters.shorter
  have back := after.length_le
  simp only [List.length_cons] at front back
  omega

theorem readNumber_append (spelling : Number) {rest : Bytes} (stops : Stops numericByte rest) :
    readNumber (spelling.1 ++ rest) = some (.number spelling, rest) := by
  have all : ∀ c ∈ spelling.1, numericByte c := fun c member =>
    decide_eq_true (mem_letters spelling.2 c member)
  have run := takeWhile_append_of_stops all stops
  have behind := dropWhile_append_of_stops all stops
  simp [readNumber, run, behind, spelling.2]

/-! ## Values -/

theorem spelling_ne_nil (spelling : Number) : spelling.1 ≠ [] := by
  intro empty
  have matched := spelling.2
  rw [empty] at matched
  exact absurd matched (by decide)

/-- How a value starts. -/
theorem Value.starts {text rest : Bytes} {value : Json} (inside : Value text value rest) :
    ∃ c more, text = c :: more ∧ whitespace c = false ∧ c ≠ closeArray := by
  cases inside with
  | null => exact ⟨_, _, rfl, by decide, by decide⟩
  | yes => exact ⟨_, _, rfl, by decide, by decide⟩
  | no => exact ⟨_, _, rfl, by decide, by decide⟩
  | number spelling =>
    have marks : ∀ c ∈ letters numeric, whitespace c = false ∧ c ≠ closeArray :=
      forall_mem_of_all (by decide)
    obtain ⟨c, more, spelled⟩ := List.exists_cons_of_ne_nil (spelling_ne_nil spelling)
    have first := mem_letters spelling.2 c (by rw [spelled]; exact List.mem_cons_self)
    rw [spelled]
    exact ⟨c, more ++ rest, rfl, marks c first⟩
  | string => exact ⟨_, _, rfl, by decide, by decide⟩
  | emptyArray => exact ⟨_, _, rfl, by decide, by decide⟩
  | array => exact ⟨_, _, rfl, by decide, by decide⟩
  | emptyObject => exact ⟨_, _, rfl, by decide, by decide⟩
  | object => exact ⟨_, _, rfl, by decide, by decide⟩

theorem length_lt_append {front rest : Bytes} (nonempty : front ≠ []) :
    rest.length < (front ++ rest).length := by
  have positive := List.length_pos_of_ne_nil nonempty
  rw [List.length_append]
  omega

mutual

theorem Value.shorter {text rest : Bytes} {value : Json} (inside : Value text value rest) :
    rest.length < text.length := by
  match inside with
  | .null | .yes | .no => exact length_lt_append (by decide)
  | .number spelling => exact length_lt_append (spelling_ne_nil spelling)
  | .string characters =>
    have shorter := characters.shorter
    rw [List.length_cons]
    omega
  | .emptyArray spaces | .emptyObject spaces =>
    have shorter := spaces.length_le
    simp only [List.length_cons] at shorter ⊢
    omega
  | .array elements =>
    have shorter := elements.shorter
    rw [List.length_cons]
    omega
  | .object listed =>
    have shorter := listed.shorter
    rw [List.length_cons]
    omega

theorem Element.shorter {text rest : Bytes} {value : Json} (element : Element text value rest) :
    rest.length < text.length := by
  match element with
  | .mk before inside after =>
    have front := before.length_le
    have shorter := inside.shorter
    have back := after.length_le
    omega

theorem Elements.shorter {text rest : Bytes} {items : List Json}
    (elements : Elements text items rest) : rest.length < text.length := by
  match elements with
  | .last element =>
    have shorter := element.shorter
    rw [List.length_cons] at shorter
    omega
  | .more element others =>
    have shorter := element.shorter
    have later := others.shorter
    rw [List.length_cons] at shorter
    omega

theorem Members.shorter {text rest : Bytes} {members : List (Bytes × Json)}
    (listed : Members text members rest) : rest.length < text.length := by
  match listed with
  | .last named element =>
    have front := named.shorter
    have shorter := element.shorter
    rw [List.length_cons] at shorter
    omega
  | .more named element others =>
    have front := named.shorter
    have shorter := element.shorter
    have later := others.shorter
    rw [List.length_cons] at shorter
    omega

end

theorem readLiteral_append (literal : Bytes) (value : Json) (rest : Bytes) :
    readLiteral literal value (literal ++ rest) = some (value, rest) := by
  simp [readLiteral]

/-- Behind a value stands what no number goes on with. -/
theorem stops_of_spaces {back rest : Bytes} (spaces : Spaces back rest)
    (stops : Stops numericByte rest) : Stops numericByte back := by
  have blanks : ∀ c ∈ ascii " \t\n\r", numericByte c = false :=
    forall_mem_of_all (by decide)
  obtain ⟨run, all, rfl⟩ := spaces
  cases run with
  | nil => exact stops
  | cons c run =>
    intro first head
    obtain rfl := Option.some.inj head
    exact blanks c (of_decide_eq_true (all c List.mem_cons_self))

theorem Elements.starts {text rest : Bytes} {items : List Json}
    (elements : Elements text items rest) : expect closeArray text = none := by
  have unclosed : ∀ {item behind}, Element text item behind → expect closeArray text = none := by
    rintro item behind ⟨before, inside, -⟩
    obtain ⟨c, more, rfl, visible, other⟩ := inside.starts
    exact expect_other before visible other
  cases elements with
  | last element => exact unclosed element
  | more element _ => exact unclosed element

theorem Members.starts {text rest : Bytes} {members : List (Bytes × Json)}
    (listed : Members text members rest) : expect closeObject text = none := by
  have unclosed : ∀ {name behind}, Name text name behind → expect closeObject text = none := by
    rintro name behind ⟨before, -, -⟩
    exact expect_other before (by decide) (by decide)
  cases listed with
  | last named _ => exact unclosed named
  | more named _ _ => exact unclosed named

theorem opening_marks : openArray ≠ quote ∧ openObject ≠ quote ∧ openObject ≠ openArray := by decide

/-- With fuel for each byte the readers read what the grammar derives. -/
structure Fueled (fuel : Nat) : Prop where
  value : ∀ {text value rest}, Value text value rest → Stops numericByte rest →
    2 * text.length ≤ fuel → readValue fuel text = some (value, rest)
  elements : ∀ {text items rest}, Elements text items rest → 2 * text.length + 1 ≤ fuel →
    readElements fuel text = some (items, rest)
  members : ∀ {text members rest}, Members text members rest → 2 * text.length + 1 ≤ fuel →
    readMembers fuel text = some (members, rest)

namespace Fueled
variable {fuel : Nat} {text rest : Bytes}

theorem zero : Fueled 0 where
  value inside _ enough := by
    have shorter := inside.shorter
    omega
  elements _ enough := by omega
  members _ enough := by omega

theorem element (fueled : Fueled fuel) {item : Json} (element : Element text item rest)
    (stops : Stops numericByte rest) (enough : 2 * text.length ≤ fuel) :
    ∃ back, readValue fuel (skip text) = some (item, back) ∧ Spaces back rest := by
  obtain ⟨before, inside, after⟩ := element
  obtain ⟨c, more, rfl, visible, -⟩ := inside.starts
  have front := before.length_le
  refine ⟨_, ?_, after⟩
  rw [skip_of_spaces before (stops_cons.mpr visible)]
  exact fueled.value inside (stops_of_spaces after stops) (by omega)

theorem readValue_number (spelling : Number) (stops : Stops numericByte rest) :
    readValue (fuel + 1) (spelling.1 ++ rest) = some (.number spelling, rest) := by
  have marks : ∀ c ∈ letters numeric, c ≠ quote ∧ c ≠ openArray ∧ c ≠ openObject ∧ c ≠ 110 ∧
      c ≠ 116 ∧ c ≠ 102 := forall_mem_of_all (by decide)
  have whole := readNumber_append spelling stops
  obtain ⟨c, more, spelled⟩ := List.exists_cons_of_ne_nil (spelling_ne_nil spelling)
  have first := marks c (mem_letters spelling.2 c (by rw [spelled]; exact List.mem_cons_self))
  rw [spelled, List.cons_append] at whole ⊢
  simp [readValue, first, whole]

theorem value_succ (fueled : Fueled fuel) {value : Json} (inside : Value text value rest)
    (stops : Stops numericByte rest) (enough : 2 * text.length ≤ fuel + 1) :
    readValue (fuel + 1) text = some (value, rest) := by
  cases inside with
  | null => exact readLiteral_append (ascii "null") .null _
  | yes => exact readLiteral_append (ascii "true") (.boolean true) _
  | no => exact readLiteral_append (ascii "false") (.boolean false) _
  | number spelling => exact readValue_number spelling stops
  | string characters => simp [readValue, characters.reads]
  | emptyArray spaces =>
    have closed := expect_self spaces (by decide)
    simp [readValue, opening_marks, closed]
  | array listed =>
    rw [List.length_cons] at enough
    simp [readValue, opening_marks, listed.starts, fueled.elements listed (by omega)]
  | emptyObject spaces =>
    have closed := expect_self spaces (by decide)
    simp [readValue, opening_marks, closed]
  | object listed =>
    rw [List.length_cons] at enough
    simp [readValue, opening_marks, listed.starts, fueled.members listed (by omega)]

theorem elements_succ (fueled : Fueled fuel) {items : List Json}
    (listed : Elements text items rest) (enough : 2 * text.length + 1 ≤ fuel + 1) :
    readElements (fuel + 1) text = some (items, rest) := by
  cases listed with
  | last only =>
    obtain ⟨back, itemRead, spaces⟩ :=
      fueled.element only (stops_cons.mpr (by decide)) (by omega)
    have closed := expect_self spaces (by decide)
    simp [readElements, itemRead, closed]
  | more first others =>
    obtain ⟨back, itemRead, spaces⟩ :=
      fueled.element first (stops_cons.mpr (by decide)) (by omega)
    have shorter := first.shorter
    rw [List.length_cons] at shorter
    have unclosed : expect closeArray back = none := expect_other spaces (by decide) (by decide)
    have separated := expect_self spaces (by decide)
    simp [readElements, itemRead, unclosed, separated, fueled.elements others (by omega)]

theorem members_succ (fueled : Fueled fuel) {members : List (Bytes × Json)}
    (listed : Members text members rest) (enough : 2 * text.length + 1 ≤ fuel + 1) :
    readMembers (fuel + 1) text = some (members, rest) := by
  cases listed with
  | last named only =>
    have shorter := named.shorter
    obtain ⟨back, itemRead, spaces⟩ :=
      fueled.element only (stops_cons.mpr (by decide)) (by omega)
    have closed := expect_self spaces (by decide)
    simp [readMembers, named.reads, itemRead, closed]
  | more named first others =>
    have shorter := named.shorter
    have later := first.shorter
    rw [List.length_cons] at later
    obtain ⟨back, itemRead, spaces⟩ :=
      fueled.element first (stops_cons.mpr (by decide)) (by omega)
    have unclosed : expect closeObject back = none := expect_other spaces (by decide) (by decide)
    have separated := expect_self spaces (by decide)
    simp [readMembers, named.reads, itemRead, unclosed, separated, fueled.members others (by omega)]

end Fueled

theorem fueled (fuel : Nat) : Fueled fuel := by
  induction fuel with
  | zero => exact .zero
  | succ fuel ih => exact ⟨ih.value_succ, ih.elements_succ, ih.members_succ⟩

/-- A text of the grammar is read as the value it denotes. -/
theorem read_of_denotes {text : Bytes} {value : Json} (denotes : Denotes text value) :
    read text = some value := by
  obtain ⟨before, inside, after⟩ := denotes
  obtain ⟨c, more, rfl, visible, -⟩ := inside.starts
  have front := before.length_le
  have nothing : Stops numericByte [] := fun _ => (nomatch ·)
  have inner := (fueled _).value inside (stops_of_spaces after nothing)
    (Nat.mul_le_mul_left 2 front)
  have ended := skip_of_spaces after fun _ => (nomatch ·)
  unfold read
  rw [skip_of_spaces before (stops_cons.mpr visible), inner]
  simp [ended]

end MarketLab.Text.Json

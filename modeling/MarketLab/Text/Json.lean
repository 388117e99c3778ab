import MarketLab.Text.Bytes
import Mathlib.Computability.RegularExpressions
import Mathlib.Data.Nat.Digits.Lemmas

/-!
# JSON

The JSON grammar over bytes, and a printer without white space. String contents are bytes, an
escaped code unit stands for its UTF-8 bytes, and a number is kept as it is spelled. A rule relates
a text to the value of the phrase it starts with and to what follows the phrase.
-/
namespace MarketLab.Text

/-! ## Regular expressions -/

/-- The elements that a regular expression names. -/
def letters {α : Type} : RegularExpression α → List α
  | .zero => []
  | .epsilon => []
  | .char a => [a]
  | .plus p q => letters p ++ letters q
  | .comp p q => letters p ++ letters q
  | .star p => letters p

theorem mem_letters {α : Type} {expression : RegularExpression α} {word : List α}
    (matched : word ∈ expression.matches') : ∀ a ∈ word, a ∈ letters expression := by
  induction expression generalizing word with
  | zero => cases matched
  | epsilon =>
    cases matched
    exact fun _ => (nomatch ·)
  | char a =>
    cases matched
    exact fun _ => id
  | plus p q left right =>
    intro a member
    rw [letters, List.mem_append]
    exact matched.imp (left · a member) (right · a member)
  | comp p q left right =>
    obtain ⟨front, first, back, second, rfl⟩ := Language.mem_mul.mp matched
    intro a member
    rw [letters, List.mem_append]
    exact (List.mem_append.mp member).imp (left first a) (right second a)
  | star p each =>
    obtain ⟨words, rfl, all⟩ := Language.mem_kstar.mp matched
    intro a member
    obtain ⟨part, among, inside⟩ := List.mem_flatten.mp member
    exact each (all part among) a inside

/-- One of some bytes. -/
def oneOf (cs : Bytes) : RegularExpression UInt8 :=
  (cs.map RegularExpression.char).foldr (· + ·) 0

theorem mem_oneOf {cs : Bytes} {c : UInt8} (member : c ∈ cs) : [c] ∈ (oneOf cs).matches' := by
  induction cs with
  | nil => cases member
  | cons first rest ih =>
    rw [oneOf, List.map_cons, List.foldr_cons, RegularExpression.matches'_add, Language.mem_add]
    rcases List.mem_cons.mp member with rfl | later
    · exact .inl rfl
    · exact .inr (ih later)

theorem mem_star_of_forall {p : RegularExpression UInt8} {text : Bytes}
    (all : ∀ c ∈ text, [c] ∈ p.matches') : text ∈ p.star.matches' := by
  rw [RegularExpression.matches'_star, Language.mem_kstar]
  refine ⟨text.map fun c => [c], ?_, ?_⟩
  · exact (List.flatMap_singleton' text).symm
  · intro word member
    obtain ⟨c, inside, rfl⟩ := List.mem_map.mp member
    exact all c inside

namespace Json

/-! ## Numbers -/

def digit : RegularExpression UInt8 := oneOf (ascii "0123456789")

def optional (p : RegularExpression UInt8) : RegularExpression UInt8 := 1 + p

def integer : RegularExpression UInt8 :=
  oneOf (ascii "0") + oneOf (ascii "123456789") * digit.star

/-- A sign, an integer without leading zeros, a fraction and an exponent. -/
def numeric : RegularExpression UInt8 :=
  optional (oneOf (ascii "-")) * integer * optional (oneOf (ascii ".") * (digit * digit.star)) *
    optional (oneOf (ascii "eE") * optional (oneOf (ascii "+-")) * (digit * digit.star))

/-- The spelling of a number. -/
abbrev Number := { text : Bytes // text ∈ numeric.matches' }

theorem decimal_mem_integer (n : Nat) : decimal n ∈ integer.matches' := by
  have figures : ∀ figure < 10, 48 + .ofNat figure ∈ ascii "0123456789" := by decide
  have leading : ∀ figure < 10, figure ≠ 0 → 48 + .ofNat figure ∈ ascii "123456789" := by decide
  unfold decimal integer
  split
  next zero => exact .inl (mem_oneOf (by decide))
  next positive =>
    have nonempty : Nat.digits 10 n ≠ [] := Nat.digits_ne_nil_iff_ne_zero.mpr positive
    have lead := Nat.getLast_digit_ne_zero 10 positive
    have split := List.dropLast_append_getLast nonempty
    generalize (Nat.digits 10 n).getLast nonempty = first at lead split
    generalize (Nat.digits 10 n).dropLast = others at split
    have small : ∀ figure ∈ others ++ [first], figure < 10 := by
      rw [split]
      exact fun _ => Nat.digits_lt_base (by decide)
    rw [← split, List.reverse_append, List.map_append]
    refine .inr (Language.append_mem_mul (mem_oneOf (leading _ (small _ ?_) lead)) ?_)
    · exact List.mem_append_right _ List.mem_cons_self
    · apply mem_star_of_forall
      intro c member
      obtain ⟨figure, inside, rfl⟩ := List.mem_map.mp member
      apply mem_oneOf
      exact figures _ (small _ (List.mem_append_left _ (List.mem_reverse.mp inside)))

theorem decimal_mem_numeric (n : Nat) : decimal n ∈ numeric.matches' := by
  have absent : ∀ p, ([] : Bytes) ∈ (optional p).matches' := fun p => Or.inl rfl
  unfold numeric
  rw [← List.append_nil (decimal n), ← List.append_nil (decimal n ++ []),
    ← List.nil_append (decimal n)]
  refine Language.append_mem_mul (Language.append_mem_mul (Language.append_mem_mul ?_ ?_) ?_) ?_
  · exact absent _
  · exact decimal_mem_integer n
  · exact absent _
  · exact absent _

/-! ## Strings -/

abbrev quote : UInt8 := 34
abbrev backslash : UInt8 := 92

/-- The byte that a letter behind a backslash stands for. -/
def escaped (letter : UInt8) : Option UInt8 :=
  ((ascii "\"\\/bfnrt").zip [34, 92, 47, 8, 12, 10, 13, 9]).lookup letter

def hexValue (c : UInt8) : Option Nat :=
  if isdigit c then some (digitValue c)
  else if 97 ≤ c && c ≤ 102 then some (c.toNat - 87)
  else if 65 ≤ c && c ≤ 70 then some (c.toNat - 55)
  else none

def codeUnit (hex : Bytes) : Option Nat :=
  hex.foldlM (fun unit c => (hexValue c).map (16 * unit + ·)) 0

def utf8 (unit : Nat) : Bytes :=
  if unit < 0x80 then [.ofNat unit]
  else if unit < 0x800 then [.ofNat (0xC0 + unit / 0x40), .ofNat (0x80 + unit % 0x40)]
  else [.ofNat (0xE0 + unit / 0x1000), .ofNat (0x80 + unit / 0x40 % 0x40),
    .ofNat (0x80 + unit % 0x40)]

/-- The characters of a string up to its closing quote. -/
inductive Characters : Bytes → Bytes → Bytes → Prop
  | closed {rest : Bytes} : Characters (quote :: rest) [] rest
  | plain {c : UInt8} {text contents rest : Bytes} (printable : 32 ≤ c) (notQuote : c ≠ quote)
      (notBackslash : c ≠ backslash) (more : Characters text contents rest) :
      Characters (c :: text) (c :: contents) rest
  | letter {letter c : UInt8} {text contents rest : Bytes} (stands : escaped letter = some c)
      (more : Characters text contents rest) :
      Characters (backslash :: letter :: text) (c :: contents) rest
  | unit {a b c d : UInt8} {unit : Nat} {text contents rest : Bytes}
      (stands : codeUnit [a, b, c, d] = some unit) (more : Characters text contents rest) :
      Characters (backslash :: 117 :: a :: b :: c :: d :: text) (utf8 unit ++ contents) rest

end Json

/-! ## Values -/

inductive Json where
  | null
  | boolean (value : Bool)
  | number (spelling : Json.Number)
  | string (contents : Bytes)
  | array (items : List Json)
  | object (members : List (Bytes × Json))

namespace Json

abbrev comma : UInt8 := 44
abbrev colon : UInt8 := 58
abbrev openArray : UInt8 := 91
abbrev closeArray : UInt8 := 93
abbrev openObject : UInt8 := 123
abbrev closeObject : UInt8 := 125

def whitespace (c : UInt8) : Bool := c ∈ ascii " \t\n\r"

def Spaces (text rest : Bytes) : Prop := ∃ run, (∀ c ∈ run, whitespace c) ∧ text = run ++ rest

/-- The name of a member and the colon behind it. -/
inductive Name : Bytes → Bytes → Bytes → Prop
  | mk {text front name back rest : Bytes} (before : Spaces text (quote :: front))
      (characters : Characters front name back) (after : Spaces back (colon :: rest)) :
      Name text name rest

mutual

inductive Value : Bytes → Json → Bytes → Prop
  | null {rest : Bytes} : Value (ascii "null" ++ rest) .null rest
  | yes {rest : Bytes} : Value (ascii "true" ++ rest) (.boolean true) rest
  | no {rest : Bytes} : Value (ascii "false" ++ rest) (.boolean false) rest
  | number {rest : Bytes} (spelling : Number) :
      Value (spelling.1 ++ rest) (.number spelling) rest
  | string {text contents rest : Bytes} (characters : Characters text contents rest) :
      Value (quote :: text) (.string contents) rest
  | emptyArray {text rest : Bytes} (spaces : Spaces text (closeArray :: rest)) :
      Value (openArray :: text) (.array []) rest
  | array {text rest : Bytes} {items : List Json} (elements : Elements text items rest) :
      Value (openArray :: text) (.array items) rest
  | emptyObject {text rest : Bytes} (spaces : Spaces text (closeObject :: rest)) :
      Value (openObject :: text) (.object []) rest
  | object {text rest : Bytes} {members : List (Bytes × Json)}
      (listed : Members text members rest) : Value (openObject :: text) (.object members) rest

/-- A value with white space around it. -/
inductive Element : Bytes → Json → Bytes → Prop
  | mk {text front back rest : Bytes} {value : Json} (before : Spaces text front)
      (inside : Value front value back) (after : Spaces back rest) : Element text value rest

/-- The items of an array up to its closing bracket. -/
inductive Elements : Bytes → List Json → Bytes → Prop
  | last {text rest : Bytes} {item : Json} (element : Element text item (closeArray :: rest)) :
      Elements text [item] rest
  | more {text between rest : Bytes} {item : Json} {items : List Json}
      (element : Element text item (comma :: between)) (others : Elements between items rest) :
      Elements text (item :: items) rest

/-- The members of an object up to its closing brace. -/
inductive Members : Bytes → List (Bytes × Json) → Bytes → Prop
  | last {text front name rest : Bytes} {value : Json} (named : Name text name front)
      (element : Element front value (closeObject :: rest)) : Members text [(name, value)] rest
  | more {text front name between rest : Bytes} {value : Json} {members : List (Bytes × Json)}
      (named : Name text name front) (element : Element front value (comma :: between))
      (others : Members between members rest) : Members text ((name, value) :: members) rest

end

/-- A JSON text and the value it denotes. -/
def Denotes (text : Bytes) (value : Json) : Prop := Element text value []

/-! ## Printing -/

/-- A spelling of single bytes inside strings, without control bytes. -/
structure Spells (spell : UInt8 → Bytes) : Prop where
  character : ∀ c {text contents rest}, Characters text contents rest →
    Characters (spell c ++ text) (c :: contents) rest
  printable : ∀ c, ∀ b ∈ spell c, 32 ≤ b

section Print
variable (spell : UInt8 → Bytes)

def quoted (contents : Bytes) : Bytes := quote :: contents.flatMap spell ++ [quote]

mutual

/-- A value without white space. -/
def print : Json → Bytes
  | .null => ascii "null"
  | .boolean true => ascii "true"
  | .boolean false => ascii "false"
  | .number spelling => spelling.1
  | .string contents => quoted spell contents
  | .array [] => [openArray, closeArray]
  | .array (item :: items) => openArray :: print item ++ printItems items ++ [closeArray]
  | .object [] => [openObject, closeObject]
  | .object ((name, value) :: members) =>
    openObject :: quoted spell name ++ colon :: print value ++ printMembers members ++ [closeObject]

/-- The items behind the first. -/
def printItems : List Json → Bytes
  | [] => []
  | item :: items => comma :: print item ++ printItems items

/-- The members behind the first. -/
def printMembers : List (Bytes × Json) → Bytes
  | [] => []
  | (name, value) :: members =>
    comma :: quoted spell name ++ colon :: print value ++ printMembers members

end

end Print

theorem Spaces.refl (text : Bytes) : Spaces text text := ⟨[], List.forall_mem_nil _, rfl⟩

section Printed
variable {spell : UInt8 → Bytes}

theorem characters_quoted (spells : Spells spell) (contents rest : Bytes) :
    Characters (contents.flatMap spell ++ quote :: rest) contents rest := by
  induction contents with
  | nil => exact .closed
  | cons c contents ih =>
    rw [List.flatMap_cons, List.append_assoc]
    exact spells.character c ih

theorem name_quoted (spells : Spells spell) (name rest : Bytes) :
    Name (quoted spell name ++ colon :: rest) name rest := by
  simp only [quoted, List.cons_append, List.append_assoc, List.nil_append]
  exact .mk (.refl _) (characters_quoted spells name (colon :: rest)) (.refl _)

mutual

/-- What is printed is in the grammar, whatever follows it. -/
theorem value_print (spells : Spells spell) (value : Json) (rest : Bytes) :
    Value (print spell value ++ rest) value rest := by
  match value with
  | .null => exact .null
  | .boolean true => exact .yes
  | .boolean false => exact .no
  | .number spelling => exact .number spelling
  | .string contents =>
    simp only [print, quoted, List.cons_append, List.append_assoc, List.nil_append]
    exact .string (characters_quoted spells contents rest)
  | .array [] => exact .emptyArray (.refl _)
  | .array (item :: items) =>
    simp only [print, List.cons_append, List.append_assoc, List.nil_append]
    exact .array (elements_print spells items item (value_print spells item) rest)
  | .object [] => exact .emptyObject (.refl _)
  | .object ((name, value) :: members) =>
    simp only [print, List.cons_append, List.append_assoc, List.nil_append]
    exact .object (members_print spells members name value (value_print spells value) rest)

theorem elements_print (spells : Spells spell) (items : List Json) (item : Json)
    (first : ∀ rest, Value (print spell item ++ rest) item rest) (rest : Bytes) :
    Elements (print spell item ++ (printItems spell items ++ closeArray :: rest)) (item :: items)
      rest := by
  match items with
  | [] => exact .last (.mk (.refl _) (first _) (.refl _))
  | next :: items =>
    simp only [printItems, List.cons_append, List.append_assoc]
    refine .more (.mk (.refl _) (first _) (.refl _)) ?_
    exact elements_print spells items next (value_print spells next) rest

theorem members_print (spells : Spells spell) (members : List (Bytes × Json)) (name : Bytes)
    (value : Json)
    (first : ∀ rest, Value (print spell value ++ rest) value rest) (rest : Bytes) :
    Members (quoted spell name ++
      colon :: (print spell value ++ (printMembers spell members ++ closeObject :: rest)))
      ((name, value) :: members) rest := by
  match members with
  | [] => exact .last (name_quoted spells name _) (.mk (.refl _) (first _) (.refl _))
  | (other, next) :: members =>
    simp only [printMembers, List.cons_append, List.append_assoc]
    refine .more (name_quoted spells name _) (.mk (.refl _) (first _) (.refl _)) ?_
    exact members_print spells members other next (value_print spells next) rest

end

/-- A printed value denotes the value. -/
theorem denotes_print (spells : Spells spell) (value : Json) :
    Denotes (print spell value) value := by
  have inside := value_print spells value []
  rw [List.append_nil] at inside
  exact .mk (.refl _) inside (.refl _)

/-! ### Control bytes -/

/-- Without bytes below the first printable one. -/
def Printable (text : Bytes) : Prop := ∀ c ∈ text, 32 ≤ c

@[simp] theorem printable_nil : Printable [] := List.forall_mem_nil _

@[simp] theorem printable_cons {c : UInt8} {text : Bytes} :
    Printable (c :: text) ↔ 32 ≤ c ∧ Printable text := List.forall_mem_cons

@[simp] theorem printable_append {front back : Bytes} :
    Printable (front ++ back) ↔ Printable front ∧ Printable back := List.forall_mem_append

@[simp] theorem marks_printable : 32 ≤ quote ∧ 32 ≤ comma ∧ 32 ≤ colon ∧ 32 ≤ openArray ∧
    32 ≤ closeArray ∧ 32 ≤ openObject ∧ 32 ≤ closeObject := by decide

theorem printable_spelling (spelling : Number) : Printable spelling.1 := by
  have all : ∀ c ∈ letters numeric, 32 ≤ c := forall_mem_of_all (by decide)
  exact fun c member => all c (mem_letters spelling.2 c member)

theorem printable_quoted (spells : Spells spell) (contents : Bytes) :
    Printable (quoted spell contents) := by
  have inside : Printable (contents.flatMap spell) := by
    intro b member
    obtain ⟨c, -, spelled⟩ := List.mem_flatMap.mp member
    exact spells.printable c b spelled
  simpa [quoted] using inside

mutual

theorem printable_print (spells : Spells spell) (value : Json) : Printable (print spell value) := by
  match value with
  | .null => exact forall_mem_of_all rfl
  | .boolean true => exact forall_mem_of_all rfl
  | .boolean false => exact forall_mem_of_all rfl
  | .number spelling => exact printable_spelling spelling
  | .string contents => exact printable_quoted spells contents
  | .array [] => simp [print]
  | .array (item :: items) =>
    simp [print, printable_print spells item, printable_printItems spells items]
  | .object [] => simp [print]
  | .object ((name, value) :: members) =>
    simp [print, printable_quoted spells name, printable_print spells value,
      printable_printMembers spells members]

theorem printable_printItems (spells : Spells spell) (items : List Json) :
    Printable (printItems spell items) := by
  match items with
  | [] => exact printable_nil
  | item :: items =>
    simp [printItems, printable_print spells item, printable_printItems spells items]

theorem printable_printMembers (spells : Spells spell) (members : List (Bytes × Json)) :
    Printable (printMembers spell members) := by
  match members with
  | [] => exact printable_nil
  | (name, value) :: members =>
    simp [printMembers, printable_quoted spells name, printable_print spells value,
      printable_printMembers spells members]

end

end Printed

end Json
end MarketLab.Text

import Mathlib.Data.List.Induction
import Mathlib.Data.List.TakeWhile
import Mathlib.Data.Nat.Digits.Defs
import Mathlib.Data.UInt

/-!
# Byte strings

Text as the bytes of a `char` string, with the classes of the C locale and decimal numbers as
`std::from_chars` reads them.
-/
namespace MarketLab.Text

abbrev Bytes := List UInt8

/-- The bytes of an ASCII literal. -/
def ascii (text : String) : Bytes := text.toList.map Char.toUInt8

theorem ascii_append (front back : String) : ascii (front ++ back) = ascii front ++ ascii back := by
  simp [ascii]

/-- Bytes are checked one after the other. -/
theorem forall_mem_of_all {p : UInt8 → Prop} [DecidablePred p] {text : Bytes}
    (all : text.all (p ·) = true) : ∀ c ∈ text, p c := by
  simpa using all

/-- `std::isspace`: a space, or one of tab, line feed, vertical tab, form feed and return. -/
def isspace (c : UInt8) : Bool := c == 32 || (9 ≤ c && c ≤ 13)

def isdigit (c : UInt8) : Bool := 48 ≤ c && c ≤ 57

def digitValue (c : UInt8) : Nat := c.toNat - 48

/-- The lines `std::getline` reads one after the other. -/
def lines : Bytes → List Bytes
  | [] => []
  | c :: text =>
    if c == 10 then [] :: lines text
    else
      match lines text with
      | [] => [[c]]
      | line :: rest => (c :: line) :: rest

theorem mem_of_mem_lines {text line : Bytes} {c : UInt8} (read : line ∈ lines text)
    (member : c ∈ line) : c ∈ text := by
  induction text generalizing line with
  | nil => cases read
  | cons first text ih =>
    unfold lines at read
    split at read
    · rcases List.mem_cons.mp read with rfl | later
      · cases member
      · exact List.mem_cons_of_mem _ (ih later member)
    · split at read
      next => simp_all
      next head rest split =>
        rcases List.mem_cons.mp read with rfl | later
        · rcases List.mem_cons.mp member with rfl | tail
          · exact List.mem_cons_self
          · exact List.mem_cons_of_mem _ (ih (by simp [split]) tail)
        · exact List.mem_cons_of_mem _ (ih (by simp [split, later]) member)

theorem newline_notMem_lines {text line : Bytes} (read : line ∈ lines text) : 10 ∉ line := by
  induction text generalizing line with
  | nil => cases read
  | cons first text ih =>
    unfold lines at read
    split at read
    next =>
      rcases List.mem_cons.mp read with rfl | later
      · exact List.not_mem_nil
      · exact ih later
    next other =>
      have head : first ≠ 10 := by simpa using other
      split at read
      next =>
        obtain rfl := List.mem_singleton.mp read
        simpa using head.symm
      next line rest split =>
        rcases List.mem_cons.mp read with rfl | later
        · exact List.not_mem_cons_of_ne_of_not_mem head.symm (ih (by simp [split]))
        · exact ih (by simp [split, later])

theorem lines_append {line : Bytes} (inside : 10 ∉ line) (rest : Bytes) :
    lines (line ++ 10 :: rest) = line :: lines rest := by
  induction line with
  | nil => rfl
  | cons c line ih =>
    rw [List.mem_cons, not_or] at inside
    have other : (c == 10) = false := beq_eq_false_iff_ne.mpr (Ne.symm inside.1)
    rw [List.cons_append, lines, ih inside.2, other]
    rfl

section Heads
variable {p : UInt8 → Bool} {front rest : Bytes}

/-- A text that does not go on with such a byte. -/
def Stops (p : UInt8 → Bool) (rest : Bytes) : Prop := ∀ c ∈ rest.head?, p c = false

theorem stops_cons {c : UInt8} : Stops p (c :: rest) ↔ p c = false := by simp [Stops]

theorem stops_append {c : UInt8} (first : front.head? = some c) (other : p c = false) :
    Stops p (front ++ rest) := by
  rw [Stops, List.head?_append, first]
  simpa using other

theorem dropWhile_of_stops (stops : Stops p rest) : rest.dropWhile p = rest := by
  cases rest with
  | nil => rfl
  | cons c rest => exact List.dropWhile_cons_of_neg (Bool.eq_false_iff.mp (stops_cons.mp stops))

theorem takeWhile_of_stops (stops : Stops p rest) : rest.takeWhile p = [] := by
  cases rest with
  | nil => rfl
  | cons c rest => exact List.takeWhile_cons_of_neg (Bool.eq_false_iff.mp (stops_cons.mp stops))

theorem dropWhile_append_of_stops (all : ∀ c ∈ front, p c) (stops : Stops p rest) :
    (front ++ rest).dropWhile p = rest := by
  rw [List.dropWhile_append_of_pos all, dropWhile_of_stops stops]

theorem takeWhile_append_of_stops (all : ∀ c ∈ front, p c) (stops : Stops p rest) :
    (front ++ rest).takeWhile p = front := by
  rw [List.takeWhile_append_of_pos all, takeWhile_of_stops stops, List.append_nil]

end Heads

/-! ## Unsigned numbers -/

/-- `std::from_chars` for a `std::uint64_t`: the value of the digits in front and how many they
are, or an error when there are none or the value is out of range. -/
def fromChars (text : Bytes) : Option (UInt64 × Nat) :=
  let digits := text.takeWhile isdigit
  let value := digits.foldl (fun value digit => 10 * value + digitValue digit) 0
  if digits.isEmpty || 2 ^ 64 ≤ value then none else some (.ofNat value, digits.length)

/-- A non-empty string of decimal digits and the 64-bit value it denotes. -/
structure Numeral (text : Bytes) (value : UInt64) : Prop where
  nonempty : text ≠ []
  digits : ∀ c ∈ text, isdigit c
  denotes : Nat.ofDigits 10 (text.map digitValue).reverse = value.toNat

theorem foldl_digits (text : Bytes) :
    text.foldl (fun value digit => 10 * value + digitValue digit) 0 =
      Nat.ofDigits 10 (text.map digitValue).reverse := by
  induction text using List.reverseRecOn with
  | nil => rfl
  | append_singleton text digit ih =>
    rw [List.foldl_append, ih]
    simp [Nat.ofDigits_cons, Nat.add_comm]

theorem Numeral.fromChars {text : Bytes} {value : UInt64} (numeral : Numeral text value) :
    fromChars text = some (value, text.length) := by
  have whole : text.takeWhile isdigit = text := List.takeWhile_eq_self_iff.mpr numeral.digits
  have bound : value.toNat < 18446744073709551616 := value.toNat_lt
  simp [Text.fromChars, whole, foldl_digits, numeral.denotes, numeral.nonempty, bound]

/-- A number that ends where the text ends is a numeral. -/
theorem numeral_of_fromChars {text : Bytes} {value : UInt64}
    (read : fromChars text = some (value, text.length)) : Numeral text value := by
  simp only [fromChars, foldl_digits, Option.ite_none_left_eq_some, Option.some.injEq,
    Prod.mk.injEq, Bool.or_eq_true, List.isEmpty_iff, decide_eq_true_eq, not_or, Nat.not_le] at read
  obtain ⟨⟨nonempty, bound⟩, value, length⟩ := read
  have whole : text.takeWhile isdigit = text :=
    (List.takeWhile_prefix isdigit).eq_of_length length
  rw [whole] at nonempty bound value
  refine ⟨nonempty, List.takeWhile_eq_self_iff.mp whole, ?_⟩
  rw [← value, UInt64.toNat_ofNat_of_lt' bound]

/-- `std::from_chars` for an unsigned type with a smaller maximum. -/
def fromCharsUpTo (maximum : Nat) (text : Bytes) : Option (UInt64 × Nat) :=
  (fromChars text).filter fun read => read.1.toNat ≤ maximum

/-- An unsigned number in plain decimal, as a stream prints it. -/
def decimal (n : Nat) : Bytes :=
  if n = 0 then [48] else (Nat.digits 10 n).reverse.map fun digit => 48 + .ofNat digit

theorem decimal_digit : ∀ digit < 10,
    isdigit (48 + .ofNat digit) = true ∧ digitValue (48 + .ofNat digit) = digit := by decide

theorem decimal_ne_nil (n : Nat) : decimal n ≠ [] := by
  unfold decimal
  split
  next => exact List.cons_ne_nil _ _
  next positive =>
    rw [ne_eq, List.map_eq_nil_iff, List.reverse_eq_nil_iff]
    exact Nat.digits_ne_nil_iff_ne_zero.mpr positive

theorem decimal_isdigit (n : Nat) : ∀ c ∈ decimal n, isdigit c := by
  unfold decimal
  split
  next => exact List.forall_mem_singleton.mpr rfl
  next =>
    intro c member
    obtain ⟨digit, digits, rfl⟩ := List.mem_map.mp member
    exact (decimal_digit digit (Nat.digits_lt_base (by decide) (List.mem_reverse.mp digits))).1

/-- A number is what its decimals denote. -/
theorem ofDigits_decimal (n : Nat) :
    Nat.ofDigits 10 ((decimal n).map digitValue).reverse = n := by
  unfold decimal
  split
  next zero => exact zero.symm
  next =>
    have same : (Nat.digits 10 n).map (digitValue ∘ fun digit => 48 + .ofNat digit) =
        Nat.digits 10 n := by
      conv_rhs => rw [← List.map_id (Nat.digits 10 n)]
      exact List.map_congr_left fun digit member =>
        (decimal_digit digit (Nat.digits_lt_base (by decide) member)).2
    rw [List.map_map, List.map_reverse, List.reverse_reverse, same, Nat.ofDigits_digits]

theorem numeral_decimal (value : UInt64) : Numeral (decimal value.toNat) value :=
  ⟨decimal_ne_nil _, decimal_isdigit _, ofDigits_decimal _⟩

/-- Two numbers with no further digit behind them. -/
theorem decimal_append_inj {a b : Nat} {rest other : Bytes} (stops : Stops isdigit rest)
    (stopsToo : Stops isdigit other) (same : decimal a ++ rest = decimal b ++ other) :
    a = b ∧ rest = other := by
  have digits := congrArg (List.takeWhile isdigit) same
  rw [takeWhile_append_of_stops (decimal_isdigit a) stops,
    takeWhile_append_of_stops (decimal_isdigit b) stopsToo] at digits
  have numbers : a = b := by rw [← ofDigits_decimal a, digits, ofDigits_decimal]
  exact ⟨numbers, List.append_cancel_left (digits ▸ same)⟩

/-- A text that begins with no digit is no number with a text behind it. -/
theorem decimal_append_ne (n : Nat) (rest : Bytes) {other : Bytes} (stops : Stops isdigit other) :
    decimal n ++ rest ≠ other := by
  intro same
  obtain ⟨digit, digits, spelled⟩ := List.exists_cons_of_ne_nil (decimal_ne_nil n)
  rw [spelled, List.cons_append] at same
  have digitToo : isdigit digit = true := decimal_isdigit n digit (spelled ▸ List.mem_cons_self)
  rw [stops_cons.mp (same ▸ stops : Stops isdigit (digit :: (digits ++ rest)))] at digitToo
  cases digitToo

/-- A number below the maximum that ends where the text ends. -/
theorem fromCharsUpTo_whole {maximum : Nat} {text : Bytes} {value : UInt64} :
    fromCharsUpTo maximum text = some (value, text.length) ↔
      Numeral text value ∧ value.toNat ≤ maximum := by
  rw [fromCharsUpTo, Option.filter_eq_some_iff, decide_eq_true_eq]
  exact and_congr_left fun _ => ⟨numeral_of_fromChars, Numeral.fromChars⟩

end MarketLab.Text

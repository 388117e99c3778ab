import Mathlib.Data.List.Basic
import Mathlib.Data.List.Induction
import Mathlib.Data.UInt

/-!
# Fixed-width fields

A field format writes the values of a type as byte strings of one width, and every string
of that width is the writing of exactly one value. Fields are read one after the other off
the front of a string. Big-endian numbers are such a format.
-/
namespace MarketLab.Wire

structure FixedWidth (α : Type) (width : Nat) where
  write : α → List UInt8
  read : List UInt8 → α
  length_write (value : α) : (write value).length = width
  read_write (value : α) : read (write value) = value
  write_read (bytes : List UInt8) : bytes.length = width → write (read bytes) = bytes

namespace FixedWidth
variable {α : Type} {width : Nat} (field : FixedWidth α width)

/-- Reads one value and advances past it. -/
def readAndAdvance (source : List UInt8) : α × List UInt8 :=
  (field.read (source.take width), source.drop width)

@[simp] theorem readAndAdvance_write (value : α) (rest : List UInt8) :
    field.readAndAdvance (field.write value ++ rest) = (value, rest) := by
  have length := field.length_write value
  rw [readAndAdvance, List.take_left' length, List.drop_left' length, field.read_write]

@[simp] theorem readAndAdvance_write_last (value : α) :
    field.readAndAdvance (field.write value) = (value, []) := by
  have read := field.readAndAdvance_write value []
  rwa [List.append_nil] at read

/-- A string that is long enough starts with some value's writing. -/
theorem exists_write (source : List UInt8) (enough : width ≤ source.length) :
    ∃ value rest, source = field.write value ++ rest ∧ rest.length = source.length - width := by
  have length : (source.take width).length = width := by
    rw [List.length_take]
    omega
  refine ⟨field.read (source.take width), source.drop width, ?_, List.length_drop ..⟩
  rw [field.write_read _ length, List.take_append_drop]

end FixedWidth

/-! ## Big-endian numbers -/

/-- The low `width` bytes of a number, most significant first. -/
def beBytes : Nat → Nat → List UInt8
  | 0, _ => []
  | width + 1, n => beBytes width (n / 256) ++ [UInt8.ofNat n]

def beValue (bytes : List UInt8) : Nat := bytes.foldl (fun value byte => 256 * value + byte.toNat) 0

theorem length_beBytes (width n : Nat) : (beBytes width n).length = width := by
  induction width generalizing n with
  | zero => rfl
  | succ width ih => rw [beBytes, List.length_append, ih, List.length_singleton]

theorem beValue_snoc (bytes : List UInt8) (byte : UInt8) :
    beValue (bytes ++ [byte]) = 256 * beValue bytes + byte.toNat := by
  simp [beValue]

theorem beValue_beBytes {width n : Nat} (fits : n < 256 ^ width) : beValue (beBytes width n) = n := by
  induction width generalizing n with
  | zero =>
    have zero : n = 0 := by
      rw [Nat.pow_zero] at fits
      omega
    rw [zero]
    rfl
  | succ width ih =>
    have high : n / 256 < 256 ^ width := by
      rw [Nat.pow_succ] at fits
      omega
    have low : (UInt8.ofNat n).toNat = n % 256 := UInt8.toNat_ofNat'
    rw [beBytes, beValue_snoc, ih high, low]
    omega

theorem beValue_lt (bytes : List UInt8) : beValue bytes < 256 ^ bytes.length := by
  induction bytes using List.reverseRecOn with
  | nil => exact Nat.one_pos
  | append_singleton bytes byte ih =>
    have small : byte.toNat < 256 := byte.toNat_lt
    rw [beValue_snoc, List.length_append, List.length_singleton, Nat.pow_succ]
    omega

theorem beBytes_beValue (bytes : List UInt8) : beBytes bytes.length (beValue bytes) = bytes := by
  induction bytes using List.reverseRecOn with
  | nil => rfl
  | append_singleton bytes byte ih =>
    have small : byte.toNat < 256 := byte.toNat_lt
    have high : (256 * beValue bytes + byte.toNat) / 256 = beValue bytes := by omega
    have low : UInt8.ofNat (256 * beValue bytes + byte.toNat) = byte := by
      apply UInt8.toNat_inj.mp
      rw [UInt8.toNat_ofNat']
      omega
    rw [beValue_snoc, List.length_append, List.length_singleton, beBytes, high, ih, low]

/-- A type of numbers that fill their width, written big-endian. -/
def bigEndian {α : Type} (width : Nat) (toNat : α → Nat) (ofNat : Nat → α)
    (bounded : ∀ value, toNat value < 256 ^ width) (ofNat_toNat : ∀ value, ofNat (toNat value) = value)
    (toNat_ofNat : ∀ n, n < 256 ^ width → toNat (ofNat n) = n) : FixedWidth α width where
  write value := beBytes width (toNat value)
  read bytes := ofNat (beValue bytes)
  length_write value := length_beBytes width (toNat value)
  read_write value := by rw [beValue_beBytes (bounded value), ofNat_toNat]
  write_read bytes length := by
    rw [← length, toNat_ofNat _ (length ▸ beValue_lt bytes), beBytes_beValue]

end MarketLab.Wire

import MarketLab.MarketData.Canonical
import MarketLab.Text.Bytes

/-!
# The multicast receiver

`multicast_receiver.cpp`. The socket of `obz/transport` is what `receive_from` yields: the bytes it
wrote to the front of the buffer, whether they are a whole datagram, and who sent it. The buffer is
never cleared, so that behind a short datagram there is what a longer one left.
-/
namespace MarketLab.MarketData
open MarketLab.Text

def DecodeError.toString : DecodeError → Bytes
  | .headerTruncated => ascii "header_truncated"
  | .invalidSignature => ascii "invalid_signature"
  | .unsupportedVersion => ascii "unsupported_version"
  | .unknownMessageType => ascii "unknown_message_type"
  | .invalidSequence => ascii "invalid_sequence"
  | .bodyTruncated => ascii "body_truncated"
  | .bodyLengthMismatch => ascii "body_length_mismatch"
  | .invalidSymbol => ascii "invalid_symbol"
  | .invalidSide => ascii "invalid_side"
  | .invalidFlags => ascii "invalid_flags"
  | .invalidBookState => ascii "invalid_book_state"

inductive DatagramStatus where
  | complete
  | truncated
  deriving DecidableEq, Repr

structure DatagramSender where
  address : Bytes
  port : UInt16
  deriving DecidableEq, Repr

def maximumUdpPayloadSize : Nat := 65507

/-- What `receive_from` yields. -/
structure Datagram where
  bytes : List UInt8
  fits : bytes.length ≤ maximumUdpPayloadSize
  status : DatagramStatus
  sender : DatagramSender
  deriving DecidableEq

inductive MulticastReceiveResult where
  | received (value : Packet) (sender : DatagramSender)
  | truncated (bytesRetained : Nat) (sender : DatagramSender)
  | malformed (error : DecodeError) (sender : DatagramSender)
  deriving DecidableEq, Repr

structure MulticastReceiver where
  receiveBuffer : List UInt8 := List.replicate maximumUdpPayloadSize 0
  sized : receiveBuffer.length = maximumUdpPayloadSize := by exact List.length_replicate

namespace MulticastReceiver

/-- `receive_from` writes over the front of the buffer. -/
def fill (receiver : MulticastReceiver) (datagram : Datagram) : MulticastReceiver where
  receiveBuffer := datagram.bytes ++ receiver.receiveBuffer.drop datagram.bytes.length
  sized := by
    have fits := datagram.fits
    rw [List.length_append, List.length_drop, receiver.sized]
    omega

def receive (endian : Endian) (receiver : MulticastReceiver) (datagram : Datagram) :
    MulticastReceiver × MulticastReceiveResult :=
  let receiver := receiver.fill datagram
  (receiver,
    match datagram.status with
    | .truncated => .truncated datagram.bytes.length datagram.sender
    | .complete =>
      let bytes := receiver.receiveBuffer.take datagram.bytes.length
      match decode endian bytes with
      | .error error => .malformed error datagram.sender
      | .ok value => .received value datagram.sender)

end MulticastReceiver

/-- A whole datagram with the encoding of a packet. -/
def Datagram.Carries (endian : Endian) (datagram : Datagram) (packet : Packet) : Prop :=
  datagram.status = .complete ∧ encode endian packet = .ok datagram.bytes

variable {endian : Endian} {receiver : MulticastReceiver} {datagram : Datagram} {packet : Packet}

/-- Nothing that an earlier datagram left in the buffer is decoded. -/
theorem MulticastReceiver.take_fill (receiver : MulticastReceiver) (datagram : Datagram) :
    (receiver.fill datagram).receiveBuffer.take datagram.bytes.length = datagram.bytes :=
  List.take_left

theorem MulticastReceiver.receive_eq : (receiver.receive endian datagram).2 =
    match datagram.status with
    | .truncated => .truncated datagram.bytes.length datagram.sender
    | .complete =>
      match decode endian datagram.bytes with
      | .error error => .malformed error datagram.sender
      | .ok value => .received value datagram.sender := by
  unfold receive
  simp only [take_fill]

/-- The receipt of a datagram, by what it is. -/
theorem MulticastReceiver.receive_cases (endian : Endian) (receiver : MulticastReceiver)
    (datagram : Datagram) :
    (∃ packet, datagram.Carries endian packet ∧
      (receiver.receive endian datagram).2 = .received packet datagram.sender) ∨
    (∀ packet, ¬datagram.Carries endian packet) ∧
      (datagram.status = .truncated ∧ (receiver.receive endian datagram).2 =
          .truncated datagram.bytes.length datagram.sender ∨
        datagram.status = .complete ∧ ∃ error, decode endian datagram.bytes = .error error ∧
          (receiver.receive endian datagram).2 = .malformed error datagram.sender) := by
  rw [receive_eq]
  cases status : datagram.status with
  | truncated =>
    have nothing : ∀ packet, ¬datagram.Carries endian packet := fun packet carries => by
      rw [carries.1] at status
      cases status
    exact .inr ⟨nothing, .inl ⟨rfl, rfl⟩⟩
  | complete =>
    cases decoded : decode endian datagram.bytes with
    | ok value => exact .inl ⟨value, ⟨status, encode_decode endian decoded⟩, rfl⟩
    | error error =>
      have nothing : ∀ packet, ¬datagram.Carries endian packet := fun packet carries => by
        rw [decode_encode endian carries.2] at decoded
        cases decoded
      exact .inr ⟨nothing, .inr ⟨rfl, error, rfl, rfl⟩⟩

end MarketLab.MarketData

/-
The messages of the ports (PortMessage.h, AlpcPortServer.h): a header with the length of the whole
message, sent in segments of what fits into a message of the kernel.
-/
import MajorPrivacy.Lib.LittleEndian
import Mathlib.Data.UInt

namespace MajorPrivacy.Ipc

open LittleEndian

/-- `MAX_PORTMSG_LENGTH`. -/
def maxPortMsgLength : Nat := 0xFFFF

/-- `sizeof(PORT_MESSAGE)` on 64 bits. -/
def sizeofPortMessage : Nat := 40

/-- `MSG_DATA_LEN`, and `MaxDataLen` of a client. -/
def msgDataLen : Nat := maxPortMsgLength - sizeofPortMessage

/-- `PORT_MSG_HEADER`; `messageId` is the status in a reply. -/
structure PortMsgHeader where
  size : UInt32
  messageId : UInt32
  sequence : UInt32
  reserved : UInt32
  deriving DecidableEq

/-- `GetHeaderSize`. -/
def headerSize : Nat := 16

def write32 (n : UInt32) : Bytes := toLE 4 n.toNat

def PortMsgHeader.toBytes (h : PortMsgHeader) : Bytes :=
  write32 h.size ++ (write32 h.messageId ++ (write32 h.sequence ++ write32 h.reserved))

/-- The number at an offset; what is behind the bytes is zero. -/
def ulongAt (off : Nat) (bytes : Bytes) : UInt32 := .ofNat (ofLE ((bytes.drop off).take 4))

/-- `h.Size`. -/
def sizeOf (bytes : Bytes) : UInt32 := ulongAt 0 bytes

/-- `Sequence`. -/
def sequenceOf (bytes : Bytes) : UInt32 := ulongAt 8 bytes

/-- `Sequence = n` in bytes that hold a header. -/
def putSequence (n : UInt32) (bytes : Bytes) : Bytes := bytes.take 8 ++ (write32 n ++ bytes.drop 12)

/-- The segment of a message at a position. -/
def segment (sendBuff : Bytes) (position : Nat) : Bytes := (sendBuff.drop position).take msgDataLen

theorem length_segment (sendBuff : Bytes) (position : Nat) :
    (segment sendBuff position).length = min msgDataLen (sendBuff.length - position) := by
  rw [segment, List.length_take, List.length_drop]

/-- What was sent so far, and the next segment. -/
theorem take_append_segment (sendBuff : Bytes) (position : Nat) :
    sendBuff.take position ++ segment sendBuff position = sendBuff.take (position + (segment sendBuff position).length) := by
  rw [List.take_add, segment, List.length_take]
  congr 1
  rw [List.take_eq_take_iff]
  omega

/-! ## Fields of a header -/

section Header
variable (h : PortMsgHeader) (n : UInt32) (bytes rest : Bytes)

@[simp] theorem length_write32 : (write32 n).length = 4 := length_toLE 4 _

@[simp] theorem length_toBytes : h.toBytes.length = headerSize := by
  simp [PortMsgHeader.toBytes, headerSize]

theorem headerSize_le_msgDataLen : headerSize ≤ msgDataLen := by
  decide

theorem ulongAt_append {off : Nat} (hoff : off = bytes.length) : ulongAt off (bytes ++ (write32 n ++ rest)) = n := by
  have hn : n.toNat < 256 ^ 4 := n.toNat_lt
  rw [ulongAt, hoff, List.drop_left, List.take_left' (length_write32 n), write32, ofLE_toLE_of_lt hn, UInt32.ofNat_toNat]

@[simp] theorem sizeOf_toBytes : sizeOf (h.toBytes ++ rest) = h.size := by
  rw [PortMsgHeader.toBytes, List.append_assoc]
  exact ulongAt_append _ [] _ rfl

@[simp] theorem sequenceOf_toBytes : sequenceOf (h.toBytes ++ rest) = h.sequence := by
  have hsplit : h.toBytes ++ rest = (write32 h.size ++ write32 h.messageId) ++ (write32 h.sequence ++ (write32 h.reserved ++ rest)) := by
    simp [PortMsgHeader.toBytes]
  rw [hsplit]
  exact ulongAt_append _ _ _ rfl

theorem putSequence_toBytes : putSequence n (h.toBytes ++ rest) = { h with sequence := n }.toBytes ++ rest := by
  have hsplit : h.toBytes ++ rest = (write32 h.size ++ write32 h.messageId) ++ (write32 h.sequence ++ (write32 h.reserved ++ rest)) := by
    simp [PortMsgHeader.toBytes]
  have htake : (h.toBytes ++ rest).take 8 = write32 h.size ++ write32 h.messageId := by
    rw [hsplit]
    exact List.take_left' rfl
  have hdrop : (h.toBytes ++ rest).drop 12 = write32 h.reserved ++ rest := by
    rw [hsplit, ← List.append_assoc]
    exact List.drop_left' rfl
  rw [putSequence, htake, hdrop]
  simp [PortMsgHeader.toBytes]

/-- A number within the first bytes is read from these. -/
theorem ulongAt_take {off m : Nat} (hm : off + 4 ≤ m) : ulongAt off (bytes.take m) = ulongAt off bytes := by
  rw [ulongAt, ulongAt, List.drop_take, List.take_take, Nat.min_eq_left (by omega)]

end Header

end MajorPrivacy.Ipc

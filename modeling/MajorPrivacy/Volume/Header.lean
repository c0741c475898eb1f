/-
The volume header of `volume_lib`: a block of memory with the fields of `dc_header` at its start,
its checksum, its key slots and its extended header. Every function fails where it would touch a
byte outside the block, or where the length of an access wraps around.
-/
import MajorPrivacy.Lib.Memory
import MajorPrivacy.Volume.Crc32

namespace MajorPrivacy.Volume

open LittleEndian Memory

abbrev headerSaltSize : Nat := 64
abbrev pkcsDeriveMax : Nat := 192
abbrev diskKeySize : Nat := 256
abbrev xtsSectorSize : Nat := 512
abbrev dcBaseSize : Nat := 1024
abbrev dcAreaSize : Nat := 2048
abbrev dcAreaMaxSize : Nat := 32 * 1024 * 1024
abbrev dcVolumeSign : Nat := 0x50524344
abbrev dcHdrVersion2 : Nat := 3
abbrev minExtHdrSize : Nat := 10
/-- `sizeof(dc_slot_info)`. -/
abbrev slotInfoBytes : Nat := 32

/-- The status codes in use (`dc_status.h`). -/
inductive Status
  | ok
  | error
  | nomem
  | passErr
  | rwErr
  | invVolume
  | incompatible
  | invalidParam
  | invDataSize
  | smallBuff
  | badIndex
  | slotNotOk
  deriving DecidableEq, Repr

/-- A `dc_header` in memory: a block that holds at least the structure. -/
structure DcHeader where
  bytes : Bytes
  area : dcAreaSize ≤ bytes.length

/-- A little-endian number in a block, if it lies in the block. -/
def readLE (mem : Bytes) (off w : Nat) : Option Nat := (readAt mem off w).map ofLE

/-- `crc32` of a part of a block. A negative length becomes one of almost 4 GB as an `unsigned long`. -/
def crcAt (mem : Bytes) (off : Nat) (len : Int) : Option UInt32 :=
  if len < 0 then none else (readAt mem off len.toNat).map crc32

/-- Random bytes, as `dc_rand` leaves them. -/
def dcRand (rand : Nat → UInt8) (size : Nat) : Bytes := (List.range size).map rand

@[simp] theorem length_dcRand (rand : Nat → UInt8) (size : Nat) : (dcRand rand size).length = size := by
  simp [dcRand]

namespace DcHeader

/-! ## Fields -/

/-- A number of `w` bytes in the base. -/
def field (h : DcHeader) (off w : Nat) : Nat := ofLE (slice h.bytes off w)

def salt (h : DcHeader) : Bytes := slice h.bytes 0 headerSaltSize
def sign (h : DcHeader) : Nat := h.field 64 4
def hdrCrc (h : DcHeader) : Nat := h.field 68 4
def version (h : DcHeader) : Nat := h.field 72 2
def alg1 (h : DcHeader) : Nat := h.field 82 4
def key1 (h : DcHeader) : Bytes := slice h.bytes 86 diskKeySize
def headLen (h : DcHeader) : Nat := h.field 614 4
def tmpSize (h : DcHeader) : Nat := h.field 618 8

/-- A signed byte. -/
def footerCnt (h : DcHeader) : Int := if h.field 627 1 < 128 then h.field 627 1 else (h.field 627 1 : Int) - 256

def featureFlags (h : DcHeader) : Nat := h.field 628 4
def extHdrOff (h : DcHeader) : Nat := h.field 632 2
def slotAreaLen (h : DcHeader) : Nat := h.field 635 2
def keySlotCount (h : DcHeader) : Nat := h.field 637 1
def slotInfoSize (h : DcHeader) : Nat := h.field 638 2

/-- `FF_KEY_SLOTS`. -/
def ffKeySlots (h : DcHeader) : Bool := h.featureFlags % 2 = 1

/-- `version >= DC_HDR_VERSION_2`. -/
def isV2 (h : DcHeader) : Bool := dcHdrVersion2 ≤ h.version

def slotSize (h : DcHeader) : Nat := h.slotAreaLen / h.keySlotCount

/-- Where a slot and its descriptor are. -/
def slotOff (h : DcHeader) (i : Nat) : Nat := dcBaseSize + h.slotSize * i
def infoOff (h : DcHeader) (i : Nat) : Nat := dcBaseSize + h.slotAreaLen + h.slotInfoSize * i

/-- The length of the slots and their descriptors. -/
def slotsLen (h : DcHeader) : Nat := h.slotAreaLen + h.keySlotCount * h.slotInfoSize

theorem field_lt (h : DcHeader) {off w : Nat} (ho : off + w ≤ dcAreaSize) : h.field off w < 256 ^ w := by
  have hlt := ofLE_lt (slice h.bytes off w)
  have hle := h.area
  rwa [length_slice (by omega)] at hlt

theorem slotAreaLen_lt (h : DcHeader) : h.slotAreaLen < 65536 := h.field_lt (by decide)
/-! ## Checksum -/

/-- The length `calculate_header_crc` covers. -/
def crcLen (h : DcHeader) : Int := if h.isV2 then 952 - h.footerCnt * 16 else 1976

def calculateHeaderCrc (h : DcHeader) : Option UInt32 := crcAt h.bytes 72 h.crcLen

def isVolumeHeaderCorrect (h : DcHeader) : Option Bool :=
  if h.salt.all (· = 0) then some false
  else if h.sign ≠ dcVolumeSign then some false
  else do
    let crc ← h.calculateHeaderCrc
    some (h.hdrCrc = crc.toNat)

/-! ## Key slots -/

def hasKeySlots (h : DcHeader) : Bool :=
  h.isV2 && h.ffKeySlots && h.slotAreaLen ≠ 0 && h.keySlotCount ≠ 0 && h.slotInfoSize ≠ 0

/-- `SF_ACTIVE`, `SF_DISABLED` and `SF_CORRUPT` of the flags of a descriptor. -/
def sfActive (flags : Nat) : Bool := flags % 2 = 1
def sfDisabled (flags : Nat) : Bool := flags / 2 % 2 = 1
def sfCorrupt (flags : Nat) : Bool := flags / 4 % 2 = 1

/-- One turn of the loop of `cp_copy_keylots`: a slot that is not disabled is copied over raw. -/
def copySlot (h : DcHeader) (inBuff outBuff : Bytes) (i : Nat) : Option Bytes := do
  let flags ← readLE h.bytes (h.infoOff i + 4) 4
  if sfDisabled flags then some outBuff
  else do
    let slot ← readAt inBuff (h.slotOff i) h.slotSize
    writeAt outBuff (h.slotOff i) slot

/-- `cp_copy_keylots`: the copied buffer, and whether there was anything to copy. Where `outBuff` is
the buffer of the header, no slot reaches a descriptor. -/
def copyKeySlots (h : DcHeader) (inBuff outBuff : Bytes) : Option (Bytes × Bool) :=
  if ¬ h.ffKeySlots ∨ h.keySlotCount = 0 then some (outBuff, false)
  else if dcBaseSize + h.slotsLen > h.headLen then some (outBuff, false)
  else do
    let outBuff ← (List.range h.keySlotCount).foldlM (fun outBuff i => h.copySlot inBuff outBuff i) outBuff
    some (outBuff, true)

/-- The flags in a copy of a descriptor. -/
def infoFlags (info : Bytes) : Nat := ofLE (slice info 4 4)

/-- `cp_get_slot_info`. -/
def getSlotInfo (h : DcHeader) (slotIdx : Int) : Option (Status × Bytes) :=
  if ¬ h.hasKeySlots then some (.incompatible, [])
  else if slotIdx < 0 ∨ h.keySlotCount ≤ slotIdx then some (.badIndex, [])
  else do
    let i := slotIdx.toNat
    let stored ← readAt h.bytes (h.infoOff i) (min slotInfoBytes h.slotInfoSize)
    let info := stored ++ List.replicate (slotInfoBytes - h.slotInfoSize) 0
    if ¬ sfActive (infoFlags info) then some (.ok, info)
    else do
      let infoCrc ← crcAt h.bytes (h.infoOff i + 4) ((h.slotInfoSize : Int) - 4)
      let slotCrc ← crcAt h.bytes (h.slotOff i) h.slotSize
      let crc ← readLE h.bytes (h.infoOff i) 4
      if crc ≠ (crc32Combine infoCrc slotCrc h.slotSize).toNat then
        let flags := if sfCorrupt (infoFlags info) then infoFlags info else infoFlags info + 4
        some (.ok, info.take 4 ++ toLE 4 flags ++ info.drop 8)
      else some (.ok, info)

/-- `cp_get_slot_payload` into a buffer of `len` bytes. -/
def getSlotPayload (h : DcHeader) (slotIdx : Int) (len : Nat) : Option (Status × Bytes) :=
  if ¬ h.hasKeySlots then some (.incompatible, [])
  else if slotIdx < 0 ∨ h.keySlotCount ≤ slotIdx then some (.badIndex, [])
  else if h.slotSize < len then some (.smallBuff, [])
  else do
    let payload ← readAt h.bytes (h.slotOff slotIdx.toNat) (min len h.slotSize)
    some (.ok, payload)

/-- What `cp_set_slot` does with the descriptor: `NULL`, `CP_SLOT_CLEAR` or a new one. -/
inductive NewInfo
  | keep
  | clear
  | set (info : Vector UInt8 slotInfoBytes)

/-- What it does with the slot: `NULL`, `CP_SLOT_RANDOM` behind the first bytes, or new bytes. -/
inductive NewPayload
  | keep
  | random (len : Nat)
  | set (payload : Bytes)

/-- The `len` passed along with the payload; it is not looked at without one. -/
def NewPayload.len : NewPayload → Nat
  | keep => 0
  | random len => len
  | set payload => payload.length

/-- The first half of `cp_set_slot`: the descriptor. -/
def writeInfo (h : DcHeader) (i : Nat) : NewInfo → Option Bytes
  | .keep => some h.bytes
  | .clear => writeAt h.bytes (h.infoOff i) (List.replicate h.slotInfoSize 0)
  | .set info => writeAt h.bytes (h.infoOff i) (info.toList.take h.slotInfoSize)

/-- The second half: the slot, filled up with random bytes. -/
def writePayload (h : DcHeader) (rand : Nat → UInt8) (mem : Bytes) (i : Nat) : NewPayload → Option Bytes
  | .keep => some mem
  | .random len => writeAt mem (h.slotOff i + len) (dcRand rand (h.slotSize - len))
  | .set payload => do
    let mem ← writeAt mem (h.slotOff i) payload
    writeAt mem (h.slotOff i + payload.length) (dcRand rand (h.slotSize - payload.length))

/-- The checksum `cp_set_slot` leaves in the descriptor. -/
def writeSlotCrc (h : DcHeader) (mem : Bytes) (i : Nat) : Option Bytes := do
  let infoCrc ← crcAt mem (h.infoOff i + 4) ((h.slotInfoSize : Int) - 4)
  let slotCrc ← crcAt mem (h.slotOff i) h.slotSize
  writeAt mem (h.infoOff i) (toLE 4 (crc32Combine infoCrc slotCrc h.slotSize).toNat)

/-- `cp_set_slot`: the status and the changed header. -/
def setSlot (h : DcHeader) (rand : Nat → UInt8) (slotIdx : Int) (info : NewInfo) (payload : NewPayload) :
    Option (Status × Bytes) :=
  if ¬ h.hasKeySlots then some (.incompatible, h.bytes)
  else if slotIdx < 0 ∨ h.keySlotCount ≤ slotIdx then some (.badIndex, h.bytes)
  else if h.slotSize < payload.len then some (.invalidParam, h.bytes)
  else do
    let mem ← h.writeInfo slotIdx.toNat info
    let mem ← h.writePayload rand mem slotIdx.toNat payload
    let mem ← h.writeSlotCrc mem slotIdx.toNat
    some (.ok, mem)

/-! ## Extended header -/

/-- `get_ext_header`: the status and where the extended header is. -/
def getExtHeader (h : DcHeader) : Option (Status × Nat) :=
  if ¬ h.isV2 then some (.incompatible, 0)
  else if h.extHdrOff = 0 then some (.incompatible, 0)
  else if h.extHdrOff < dcBaseSize + (if h.ffKeySlots then h.slotsLen else 0) then some (.invVolume, 0)
  else if h.extHdrOff + minExtHdrSize > h.headLen then some (.invVolume, 0)
  else do
    let size ← readLE h.bytes (h.extHdrOff + 4) 4
    -- the sum is one of 32 bits
    if h.extHdrOff + size ≥ 4294967296 then none
    else if h.extHdrOff + size > h.headLen ∨ size < minExtHdrSize then some (.invVolume, 0)
    else do
      let crc ← readLE h.bytes h.extHdrOff 4
      let sum ← crcAt h.bytes (h.extHdrOff + 4) ((size : Int) - 4)
      if crc ≠ sum.toNat then some (.invVolume, 0)
      else some (.ok, h.extHdrOff)

end DcHeader

end MajorPrivacy.Volume

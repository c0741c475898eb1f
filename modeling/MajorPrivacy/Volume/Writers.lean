/-
The writers of a volume header: `cp_encrypt_header`, which seals a buffer, and `io_write_header`,
which seals a header and writes all of it or the sectors of its parts to a device.
-/
import MajorPrivacy.Volume.Readers

namespace MajorPrivacy.Volume

open LittleEndian Memory

/-! ## `cp_encrypt_header` -/

/-- The salt in the clear over an encrypted header. -/
def putSalt (h : DcHeader) (mem : Bytes) : Option Bytes := writeAt mem 0 h.salt

/-- The slots of a version 2 header over an encrypted one, as they are. -/
def putKeySlots (h : DcHeader) (mem : Bytes) : Option Bytes :=
  if h.isV2 ∧ h.ffKeySlots then (h.copyKeySlots h.bytes mem).map Prod.fst else some mem

/-- `len` bytes of a header, sealed. -/
def encryptHeader (key : Xts) (h : DcHeader) (len : Nat) : Option (Status × Bytes) :=
  if len < dcAreaSize then some (.invalidParam, [])
  else if len % xtsSectorSize ≠ 0 then some (.invDataSize, [])
  else do
    let out ← readAt h.bytes 0 len
    let out ← xtsEncrypt key out 0
    let out ← putSalt h out
    let out ← putKeySlots h out
    some (.ok, out)

/-! ## `io_write_header` -/

/-- The flags of `io_write_header`. -/
structure HfFlags where
  updateBase : Bool
  updateSlots : Bool
  updateExt : Bool
  clearSlots : Bool
  deriving DecidableEq, Repr

/-- Some of the parts, not all of them. -/
def HfFlags.isPartial (flags : HfFlags) : Bool :=
  (flags.updateBase || flags.updateSlots || flags.updateExt) &&
    !(flags.updateBase && flags.updateSlots && flags.updateExt)

/-- The flags of a full write that keeps the slots. -/
def HfFlags.Full (flags : HfFlags) : Prop := flags.isPartial = false ∧ flags.clearSlots = false

/-- `dc_buffer_rw`, writing. -/
def DcDev.write (dev : DcDev) (pos : Nat) (data : Bytes) : Option DcDev :=
  (writeAt dev.disk pos data).map fun disk => { dev with disk }

namespace DcHeader

/-- The end of the slots and descriptors, or of the base where there are none. -/
def partsLen (h : DcHeader) : Nat := dcBaseSize + if h.ffKeySlots then h.slotsLen else 0

/-- An extended header that is not there is not updated, one that does not fit is refused. -/
def checkExt (h : DcHeader) (flags : HfFlags) : Except Status HfFlags :=
  if flags.updateExt then
    if h.extHdrOff = 0 then .ok { flags with updateExt := false }
    else if h.headLen ≤ h.extHdrOff + minExtHdrSize ∨ h.extHdrOff < h.partsLen then .error .invVolume
    else .ok flags
  else .ok flags

/-- The same for the slots. -/
def checkSlots (h : DcHeader) (flags : HfFlags) : Except Status HfFlags :=
  if flags.updateSlots then
    if ¬ h.ffKeySlots then .ok { flags with updateSlots := false }
    else if h.headLen ≤ h.partsLen then .error .invVolume
    else .ok flags
  else .ok flags

/-- Where the update begins, if there is anything to do. -/
def updateStart (h : DcHeader) (flags : HfFlags) : Option Nat :=
  if flags.updateBase then some 0
  else if flags.updateSlots then some dcBaseSize
  else if flags.updateExt then some h.extHdrOff
  else none

/-- Where it ends. -/
def updateEnd (h : DcHeader) (flags : HfFlags) : Nat :=
  if flags.updateExt then h.headLen
  else if flags.updateSlots then dcBaseSize + h.slotsLen
  else dcBaseSize

/-- What a write covers: nothing, or the sectors from an offset on. -/
inductive Range
  | nothing
  | sectors (offset length : Nat)

/-- The sectors of an update. -/
def updateRange (h : DcHeader) (bps : Nat) (flags : HfFlags) : Except Status Range := do
  let flags ← h.checkExt flags
  let flags ← h.checkSlots flags
  match h.updateStart flags with
  | none => .ok .nothing
  | some start =>
    if h.headLen < start / bps * bps + roundToFullSectors (h.updateEnd flags - start / bps * bps) bps then .error .invVolume
    else .ok (.sectors (start / bps * bps) (roundToFullSectors (h.updateEnd flags - start / bps * bps) bps))

/-- The length of a header in memory. -/
def memLen (h : DcHeader) : Nat := if h.isV2 then h.headLen else dcAreaSize

/-- What `io_write_header` writes. -/
def writeRange (h : DcHeader) (bps : Nat) (flags : HfFlags) : Except Status Range :=
  if h.isV2 ∧ flags.isPartial then h.updateRange bps flags
  else .ok (.sectors 0 (roundToFullSectors h.memLen bps))

/-- `HF_CLEAR_SLOTS`: random bytes for the slots, zeros for the descriptors. -/
def clearSlots (h : DcHeader) (rand : Nat → UInt8) : Option DcHeader := do
  let mem ← writeAt h.bytes dcBaseSize (dcRand rand h.slotAreaLen)
  let mem ← writeAt mem (dcBaseSize + h.slotAreaLen) (List.replicate (h.keySlotCount * h.slotInfoSize) 0)
  ofBytes mem

end DcHeader

/-- The copy that is sealed, behind the checks. -/
def sealCopy (key : Xts) (h : DcHeader) (hcopy : Bytes) : Option Bytes := do
  let base ← readAt hcopy 0 h.memLen
  let base ← xtsEncrypt key base 0
  let hcopy ← writeAt hcopy 0 base
  putSalt h hcopy

/-- The slots put back where the write covers them. -/
def patchKeySlots (h : DcHeader) (flags : HfFlags) (offset length : Nat) (hcopy : Bytes) : Option Bytes :=
  if ¬ flags.clearSlots ∧ dcBaseSize < offset + length ∧ offset < dcBaseSize + h.slotAreaLen then putKeySlots h hcopy
  else some hcopy

/-- Random bytes behind the header, as far as the write covers them. -/
def fillRest (rand : Nat → UInt8) (memLen last : Nat) (hcopy : Bytes) : Option Bytes :=
  if memLen < last then writeAt hcopy memLen (dcRand rand (last - memLen)) else some hcopy

/-- The second half of `io_write_header`: the sealing and the write. -/
def sealAndWrite (dev : DcDev) (rand junk : Nat → UInt8) (pos : Nat) (h : DcHeader) (key : Xts) (flags : HfFlags)
    (offset length : Nat) : Option (Status × DcDev) :=
  if h.memLen % xtsSectorSize ≠ 0 then some (.invDataSize, dev)
  else if 2 ^ 31 ≤ roundToFullSectors h.memLen dev.bps then none
  else do
    let header ← readAt h.bytes 0 h.memLen
    let hcopy ← writeAt (dcAlloc junk (max (roundToFullSectors h.memLen dev.bps) pageSize)) 0 header
    let copy ← DcHeader.ofBytes hcopy
    let correct ← copy.isVolumeHeaderCorrect
    if ¬ correct then some (.invVolume, dev)
    else do
      let hcopy ← sealCopy key h hcopy
      let hcopy ← patchKeySlots h flags offset length hcopy
      let hcopy ← fillRest rand h.memLen (offset + length) hcopy
      let data ← readAt hcopy offset length
      match dev.write (pos + offset) data with
      | none => some (.rwErr, dev)
      | some dev => some (.ok, dev)

/-- `io_write_header` under a key that is at hand. -/
def ioWriteHeader (dev : DcDev) (rand junk : Nat → UInt8) (pos : Nat) (h : DcHeader) (key : Xts) (flags : HfFlags) :
    Option (Status × DcDev) :=
  match h.writeRange dev.bps flags with
  | .error status => some (status, dev)
  | .ok .nothing => some (.ok, dev)
  | .ok (.sectors offset length) => do
    let h ← (if h.isV2 ∧ flags.clearSlots ∧ h.ffKeySlots then h.clearSlots rand else some h)
    sealAndWrite dev rand junk pos h key flags offset length

end MajorPrivacy.Volume

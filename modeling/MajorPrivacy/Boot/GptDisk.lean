/-
`CGptDisk` (GptDisk.cpp): a boot partition in free space of a GPT disk, or in space that the Windows
partition gives up. The 64-bit computations keep record of a wrap-around. Formatting the new partition
and finding it again touch neither the table nor the Windows volume.
-/
import MajorPrivacy.Lib.Tracked
import MajorPrivacy.Firewall.Values

namespace MajorPrivacy.Boot

open Tracked
open MajorPrivacy.Firewall (Str)

/-! ## The disk -/

/-- `PARTITION_INFORMATION_EX` of a GPT disk. Offset and length are the bits of their `QuadPart`s. -/
structure PARTITION_INFORMATION_EX where
  StartingOffset : UInt64
  PartitionLength : UInt64
  PartitionNumber : UInt32
  RewritePartition : Bool
  PartitionType : BitVec 128
  PartitionId : BitVec 128
  Attributes : UInt64
  Name : Str

/-- `PartitionLength.QuadPart <= 0` does not hold. -/
def PARTITION_INFORMATION_EX.isUsed (pPart : PARTITION_INFORMATION_EX) : Bool :=
  0 < pPart.PartitionLength ∧ pPart.PartitionLength < 0x8000000000000000

/-- `NTFS_VOLUME_DATA_BUFFER`. -/
structure NTFS_VOLUME_DATA_BUFFER where
  NumberSectors : UInt64
  BytesPerSector : UInt32
  BytesPerCluster : UInt32

/-- A disk with its partition table, the Windows volume, and the table last written. -/
structure Disk where
  DiskSize : UInt64
  BytesPerSector : UInt32
  isGpt : Bool
  PartitionEntry : List PARTITION_INFORMATION_EX
  volume : NTFS_VOLUME_DATA_BUFFER
  written : Option (List PARTITION_INFORMATION_EX)

/-- What Windows answers during one run, place by place. -/
structure Windows where
  resolvesDisk : Bool
  isGptDisk : Bool
  opensForSpace : Bool
  readsForSpace : Bool
  osPartition : Int32
  opensForPlan : Bool
  readsForPlan : Bool
  findsVolume : Bool
  opensVolume : Bool
  readsVolume : Bool
  prepares : Bool
  commits : Bool
  opensForResize : Bool
  readsForResize : Bool
  resizes : Bool
  /-- The length of the Windows partition after the resize. -/
  resized : UInt64
  readsResized : Bool
  opensForCreate : Bool
  readsForCreate : Bool
  newGuid : Option (BitVec 128)
  setsLayout : Bool
  /-- The number of the new partition, if the table can be read back. -/
  newNumber : Option UInt32

structure SCreateEspOptions where
  uSize : UInt64
  bAllowShrink : Bool
  Name : Str

/-! ## Failures -/

inductive Failure
  | diskUnknown | espTooSmall | notGptDisk
  | notOpenedForRead | notRead | notGpt
  | notOpenedForWrite | tableFull | noRoomAtEnd | overlap | noGuid | tableRefused | notReportedBack
  | noOsPartition | osPartitionNotInTable | shrinkNotPermitted
  | noVolume | volumeNotOpened | notNtfs | zeroSectorSize | volumeTooSmall | unmovableFiles | notShrunk
  | notOpenedForResize | notReread | osPartitionGone | layoutMakesNoSense | smallerThanFileSystem
  | resizeRefused | notReadResized | stillNoRoom
  deriving DecidableEq

def STATUS_UNSUCCESSFUL : UInt32 := 0xC0000001
def STATUS_INVALID_PARAMETER : UInt32 := 0xC000000D
def STATUS_ACCESS_DENIED : UInt32 := 0xC0000022
def STATUS_DISK_FULL : UInt32 := 0xC000007F
def STATUS_NOT_SUPPORTED : UInt32 := 0xC00000BB
def STATUS_NOT_FOUND : UInt32 := 0xC0000225

/-- The status and the text of a failure. -/
def Failure.ERR : Failure → UInt32 × String
  | diskUnknown => (STATUS_NOT_FOUND, "Could not work out which disk to use.")
  | espTooSmall => (STATUS_INVALID_PARAMETER, "An EFI partition smaller than 32 MB is not useful.")
  | notGptDisk => (STATUS_NOT_SUPPORTED,
      "This disk does not use a GPT partition table, so it cannot hold an EFI System Partition.")
  | notOpenedForRead => (STATUS_ACCESS_DENIED, "Could not open the disk.")
  | notRead => (STATUS_UNSUCCESSFUL, "Could not read the disk layout.")
  | notGpt => (STATUS_NOT_SUPPORTED, "This disk does not use a GPT partition table.")
  | notOpenedForWrite => (STATUS_ACCESS_DENIED, "Could not open the disk for writing.")
  | tableFull => (STATUS_DISK_FULL, "The partition table is full.")
  | noRoomAtEnd => (STATUS_DISK_FULL, "There is not enough room at the end of the disk.")
  | overlap => (STATUS_UNSUCCESSFUL, "The new partition would overlap an existing one. Nothing was changed.")
  | noGuid => (STATUS_UNSUCCESSFUL, "Could not generate a partition identifier.")
  | tableRefused => (STATUS_UNSUCCESSFUL, "Windows refused to write the new partition table.")
  | notReportedBack => (STATUS_UNSUCCESSFUL, "The partition was written but Windows did not report it back.")
  | noOsPartition => (STATUS_NOT_FOUND, "Could not find the Windows partition on this disk.")
  | osPartitionNotInTable => (STATUS_NOT_FOUND, "Could not find the Windows partition in the partition table.")
  | shrinkNotPermitted => (STATUS_DISK_FULL, "There is no unallocated space for an EFI partition. " ++
      "Shrinking the Windows partition would make room, but that was not permitted.")
  | noVolume => (STATUS_NOT_FOUND, "Could not find the volume to shrink.")
  | volumeNotOpened => (STATUS_ACCESS_DENIED, "Could not open the Windows volume for shrinking.")
  | notNtfs => (STATUS_NOT_SUPPORTED, "Only an NTFS volume can be shrunk to make room for an EFI partition.")
  | zeroSectorSize => (STATUS_UNSUCCESSFUL, "The volume reported a sector size of zero.")
  | volumeTooSmall => (STATUS_DISK_FULL, "The Windows partition is too small to give up that much space.")
  | unmovableFiles => (STATUS_UNSUCCESSFUL, "Windows cannot free that much space at the end of the volume. " ++
      "Unmovable files are in the way; defragmenting may help.")
  | notShrunk => (STATUS_UNSUCCESSFUL, "The volume could not be shrunk. Nothing was changed.")
  | notOpenedForResize => (STATUS_ACCESS_DENIED,
      "The volume was shrunk, but the disk could not be opened to resize the partition.")
  | notReread => (STATUS_UNSUCCESSFUL, "Could not re-read the disk layout after shrinking.")
  | osPartitionGone => (STATUS_NOT_FOUND, "The Windows partition disappeared from the table.")
  | layoutMakesNoSense => (STATUS_UNSUCCESSFUL, "The computed layout makes no sense; nothing further was changed.")
  | smallerThanFileSystem => (STATUS_UNSUCCESSFUL,
      "The Windows partition would end up smaller than the filesystem inside it. Nothing further was changed.")
  | resizeRefused => (STATUS_UNSUCCESSFUL,
      "Windows refused to resize the partition. The filesystem was shrunk but the partition was not; " ++
      "no data was lost and the space can be recovered by extending the volume again.")
  | notReadResized => (STATUS_UNSUCCESSFUL, "Could not re-read the disk layout after resizing.")
  | stillNoRoom => (STATUS_DISK_FULL, "After resizing there is still not enough room for the EFI partition.")

/-- What a call returns, with the disk that it leaves. -/
abbrev Outcome (α : Type) := Except Failure α × Disk

def fail {α : Type} (disk : Disk) (failure : Failure) : Tracked (Outcome α) := pure (.error failure, disk)

/-! ## Alignment -/

def GPT_BACK_SECTORS : UInt64 := 33
def MAX_PARTITIONS : Nat := 128
def DCS_ESP_MIN_SIZE : UInt64 := 32 * 1024 * 1024
def ALIGNMENT : UInt64 := 0x100000

/-- `ALIGN_DOWN`. -/
def alignDown (x : UInt64) : UInt64 := x &&& ~~~(ALIGNMENT - 1)

/-- `ALIGN_UP`. -/
def alignUp (x : UInt64) : Tracked UInt64 := do
  let y ← add x (ALIGNMENT - 1)
  pure (alignDown y)

namespace Disk

variable (disk : Disk)

def uSectorSize : UInt64 := disk.BytesPerSector.toUInt64

/-- The end of the area for partitions. -/
def uUsableEnd : Tracked UInt64 := do
  let back ← mul GPT_BACK_SECTORS disk.uSectorSize
  sub disk.DiskSize back

end Disk

/-! ## FindFreeSpace -/

/-- The loop of `CreatePartition` over the existing partitions, with the end of the new one. -/
def overlapsAny (uStartOffset uEnd : UInt64) : List PARTITION_INFORMATION_EX → Tracked Bool
  | [] => pure false
  | pPart :: entries =>
    if pPart.isUsed then do
      let uPartEnd ← add pPart.StartingOffset pPart.PartitionLength
      if uStartOffset < uPartEnd ∧ uEnd > pPart.StartingOffset then pure true
      else overlapsAny uStartOffset uEnd entries
    else overlapsAny uStartOffset uEnd entries

def g_EfiSystemPartition : BitVec 128 := 0xc12a7328f81f11d2ba4b00a0c93ec93b

def newEntry (uSize uStartOffset : UInt64) (Name : Str) (NewGuid : BitVec 128) : PARTITION_INFORMATION_EX where
  StartingOffset := uStartOffset
  PartitionLength := uSize
  PartitionNumber := 0
  RewritePartition := true
  PartitionType := g_EfiSystemPartition
  PartitionId := NewGuid
  Attributes := 0
  Name := Name.take 35

/-- The entries with the new one in front of the first that starts behind it. The loop that clears the
flags of the others counts the entries without the new one. -/
def insertEntry (entries : List PARTITION_INFORMATION_EX) (new : PARTITION_INFORMATION_EX) : List PARTITION_INFORMATION_EX :=
  let uInsertAt := (entries.takeWhile (·.StartingOffset ≤ new.StartingOffset)).length
  (entries.take uInsertAt).map (fun e => { e with RewritePartition := false }) ++ new ::
    (entries.drop uInsertAt).mapIdx fun i e =>
      if uInsertAt + 1 + i < entries.length then { e with RewritePartition := false } else e

/-- The number that Windows reports for the partition at an offset. -/
def numberAt (w : Windows) (uStartOffset : UInt64) (written : List PARTITION_INFORMATION_EX) : Option UInt32 :=
  w.newNumber.bind fun newNumber =>
    (written.find? (·.StartingOffset = uStartOffset)).map fun e =>
      if e.PartitionNumber = 0 then newNumber else e.PartitionNumber

/-- `CreatePartition`. -/
def createPartition (w : Windows) (disk : Disk) (uSize uStartOffset : UInt64) (Name : Str) : Tracked (Outcome Int32) :=
  if !w.opensForCreate then fail disk .notOpenedForWrite
  else if !w.readsForCreate then fail disk .notRead
  else if !disk.isGpt then fail disk .notGpt
  else if MAX_PARTITIONS ≤ disk.PartitionEntry.length then fail disk .tableFull
  else do
    let uUsableEnd ← disk.uUsableEnd
    let uEnd ← add uStartOffset uSize
    if uEnd > uUsableEnd then fail disk .noRoomAtEnd
    else do
      let overlaps ← overlapsAny uStartOffset uEnd disk.PartitionEntry
      if overlaps then fail disk .overlap
      else
        match w.newGuid with
        | none => fail disk .noGuid
        | some NewGuid =>
          if !w.setsLayout then fail disk .tableRefused
          else
            let table := insertEntry disk.PartitionEntry (newEntry uSize uStartOffset Name NewGuid)
            let disk := { disk with PartitionEntry := table, written := some table }
            match numberAt w uStartOffset table with
            | none => fail disk .notReportedBack
            | some number => if number.toInt32 ≤ 0 then fail disk .notReportedBack else pure (.ok number.toInt32, disk)

/-! ## Shrinking -/

/-- The number of bytes, rounded up to sectors. -/
def roundToSectors (uShrinkBytes BytesPerSector : UInt64) : Tracked UInt64 :=
  if uShrinkBytes % BytesPerSector ≠ 0 then do
    let uSectors ← add (uShrinkBytes / BytesPerSector) 1
    mul uSectors BytesPerSector
  else pure uShrinkBytes

/-- `ShrinkFileSystem`. -/
def shrinkFileSystem (w : Windows) (disk : Disk) (uShrinkBytes : UInt64) : Tracked (Outcome Unit) :=
  if !w.findsVolume then fail disk .noVolume
  else if !w.opensVolume then fail disk .volumeNotOpened
  else if !w.readsVolume then fail disk .notNtfs
  else do
    -- a copy of the boot sector is at the very end
    let uShrinkBytes ← add uShrinkBytes disk.volume.BytesPerCluster.toUInt64
    if disk.volume.BytesPerSector = 0 then fail disk .zeroSectorSize
    else do
      let uShrinkBytes ← roundToSectors uShrinkBytes disk.volume.BytesPerSector.toUInt64
      let uShrinkSectors := uShrinkBytes / disk.volume.BytesPerSector.toUInt64
      if uShrinkSectors ≥ disk.volume.NumberSectors then fail disk .volumeTooSmall
      else do
        let uNewSectors ← sub disk.volume.NumberSectors uShrinkSectors
        if !w.prepares then fail disk .unmovableFiles
        else if !w.commits then fail disk .notShrunk
        else pure (.ok (), { disk with volume := { disk.volume with NumberSectors := uNewSectors } })

/-- The index of the Windows partition in the table. -/
def osIndex (w : Windows) (disk : Disk) : Option Nat :=
  disk.PartitionEntry.findIdx? (·.PartitionNumber = w.osPartition.toUInt32)

/-- The disk with another length of the Windows partition. -/
def setOsLength (w : Windows) (disk : Disk) (length : UInt64) : Disk :=
  match osIndex w disk with
  | some i => { disk with PartitionEntry := disk.PartitionEntry.modify i fun e => { e with PartitionLength := length } }
  | none => disk

/-- The new partition behind the resized one. -/
def createBehind (w : Windows) (disk : Disk) (o : SCreateEspOptions) (uNextStart : UInt64) : Tracked (Outcome Int32) :=
  if !w.readsResized then fail disk .notReadResized
  else
    match (osIndex w disk).bind (disk.PartitionEntry[·]?) with
    | none => fail disk .osPartitionGone
    | some os => do
      let uActualEnd ← add os.StartingOffset os.PartitionLength
      let uEspStart ← alignUp uActualEnd
      let uEspEnd ← add uEspStart o.uSize
      if uEspEnd > uNextStart then fail disk .stillNoRoom
      else createPartition w disk o.uSize uEspStart o.Name

/-- `CreateEspByShrinking` from where the file system is smaller than its partition. -/
def resizePartition (w : Windows) (disk : Disk) (o : SCreateEspOptions) (uOsStart uNextStart uNeeded : UInt64) : Tracked (Outcome Int32) :=
  if !w.opensForResize then fail disk .notOpenedForResize
  else if !w.readsForResize then fail disk .notReread
  else
    match (osIndex w disk).bind (disk.PartitionEntry[·]?) with
    | none => fail disk .osPartitionGone
    | some os => do
      let uOldLength := os.PartitionLength
      let uEspEnd := alignDown uNextStart
      let uFree ← sub uEspEnd o.uSize
      let uEspStart := alignDown uFree
      let uNewOsLength ← if uEspStart > uOsStart then sub uEspStart uOsStart else pure 0
      if uNewOsLength = 0 ∨ uNewOsLength ≥ uOldLength then fail disk .layoutMakesNoSense
      else do
        let uShrunkFsSize ← if uOldLength > uNeeded then sub uOldLength uNeeded else pure 0
        if uNewOsLength < uShrunkFsSize then fail disk .smallerThanFileSystem
        else do
          let _uBytesToGrow ← sub uOldLength uNewOsLength
          if !w.resizes then fail disk .resizeRefused
          else createBehind w (setOsLength w disk w.resized) o uNextStart

/-- The file system is shrunk for what is missing in the gap. -/
def shrinkForGap (w : Windows) (disk : Disk) (o : SCreateEspOptions) (uOsStart uNextStart uGap : UInt64) : Tracked (Outcome Int32) := do
  let uMissing ← sub o.uSize uGap
  let uNeeded ← add uMissing (2 * ALIGNMENT)
  let shrunk ← shrinkFileSystem w disk uNeeded
  match shrunk with
  | (.error failure, disk) => fail disk failure
  | (.ok (), disk) => resizePartition w disk o uOsStart uNextStart uNeeded

end MajorPrivacy.Boot

/-
`CNtPathMgr` (NtPathMgr.cpp): DOS paths to NT paths and back, by a table of drive letters, mount points
and volume GUIDs. A path is a text without a terminator in it, so `_wcsnicmp` compares as many
characters as it is told, in the C locale.
-/
import Mathlib.Data.Fin.Tuple.Basic
import MajorPrivacy.Path.TreeEntries

namespace MajorPrivacy.NtPath

open MajorPrivacy.Path

/-! ## Prefixes -/

/-- `_wcsnicmp` with the length of the prefix, for a text that is not shorter. -/
def begins (pre s : Str) : Bool := pre.length ≤ s.length ∧ makeLower (s.take pre.length) = makeLower pre

/-- A backslash or the end comes next. -/
def atComponent (s : Str) : Bool := s.head? = none ∨ s.head? = some backslash

/-- The path is at or below another one, component by component. -/
def contains (pre s : Str) : Bool := begins pre s && atComponent (s.drop pre.length)

def colon : WChar := 0x3A
def semicolon : WChar := 0x3B

/-- `\\?\` -/
def prefixBBQB : Str := [backslash, backslash, questionMark, backslash]

/-- `\\.\` -/
def prefixBBPB : Str := [backslash, backslash, 0x2E, backslash]

/-- `\??\` -/
def prefixBQQB : Str := [backslash, questionMark, questionMark, backslash]

/-- `\device\` -/
def prefixDevice : Str := [backslash, 0x64, 0x65, 0x76, 0x69, 0x63, 0x65, backslash]

/-- `\device\mup\` -/
def prefixMup : Str := prefixDevice ++ [0x6D, 0x75, 0x70, backslash]

/-- `\??\Volume{` -/
def prefixGuid : Str := prefixBQQB ++ [0x56, 0x6F, 0x6C, 0x75, 0x6D, 0x65, 0x7B]

/-! ## The table -/

-- The letters of the drives.
scoped instance neZero_drives : NeZero 26 := ⟨by decide⟩

structure SMount where
  MountPoint : Str
  DevicePath : Str

structure SGuid where
  Guid : Str
  DevicePath : Str

/-- `m_Drives` by the index of the letter, `m_Mounts` and `m_Guids`. -/
structure CNtPathMgr where
  m_Drives : Fin 26 → Option Str
  m_Mounts : List SMount
  m_Guids : List SGuid

/-- A drive or a mount point. -/
inductive Place
  | drive (index : Fin 26) (DevicePath : Str)
  | mount (Mount : SMount)

namespace Place

def DevicePath : Place → Str
  | drive _ DevicePath => DevicePath
  | mount Mount => Mount.DevicePath

/-- `X:` or the mount point. -/
def point : Place → Str
  | drive index _ => [0x41 + .ofNat index.val, colon]
  | mount Mount => Mount.MountPoint

end Place

/-- The index of a drive letter in either case. -/
def driveIndex (c : WChar) : Option (Fin 26) :=
  if h : 0x41 ≤ c.toNat ∧ c.toNat ≤ 0x5A then some ⟨c.toNat - 0x41, by omega⟩
  else if h : 0x61 ≤ c.toNat ∧ c.toNat ≤ 0x7A then some ⟨c.toNat - 0x61, by omega⟩
  else none

/-- `IsDosPath`. -/
def isDosPath (path : Str) : Bool :=
  path[1]? = some colon && (path.length = 2 || path[2]? = some backslash) && (path.head?.bind driveIndex).isSome

namespace CNtPathMgr

variable (t : CNtPathMgr)

/-! ## TranslateDosToNtPath -/

/-- `GetDriveForLetter`. -/
def getDriveForLetter (c : WChar) : Option Place := (driveIndex c).bind fun i => (t.m_Drives i).map (.drive i)

/-- `GetMountForPath`: the first of the longest mount points that the path begins with. -/
def getMountForPath (DosPath : Str) : Option SMount :=
  t.m_Mounts.foldl (fun FinalMount Mount =>
    if begins Mount.MountPoint DosPath then
      match FinalMount with
      | none => some Mount
      | some final => if Mount.MountPoint.length > final.MountPoint.length then some Mount else some final
    else FinalMount) none

/-- The mount point or drive that a path `X:\...` is taken to be on. -/
def placeOfDosPath (DosPath : Str) : Option Place :=
  match t.getMountForPath DosPath with
  | some Mount => some (.mount Mount)
  | none => t.getDriveForLetter (DosPath.headD 0)

/-- `TranslateDosToNtPath`. -/
def translateDosToNtPath (DosPath : Str) : Str :=
  let DosPath := if begins prefixBBQB DosPath then DosPath.drop 4 else DosPath
  if begins prefixBBPB DosPath then prefixDevice ++ DosPath.drop 4
  else if DosPath[0]? = some backslash ∧ DosPath[1]? = some backslash then prefixMup ++ DosPath.drop 2
  else if DosPath[1]? = some colon ∧ (DosPath.length = 2 ∨ DosPath[2]? = some backslash) then
    match t.placeOfDosPath DosPath with
    | some place => place.DevicePath ++ DosPath.drop place.point.length
    | none => []
  else []

/-! ## TranslateNtToDosPath -/

/-- `GetDriveForPath`: the first drive in the order of letters whose device path contains the path. -/
def getDriveForPath (Path : Str) : Option (Fin 26 × Str) :=
  Fin.findSome? fun i => (t.m_Drives i).bind fun DevicePath =>
    if contains DevicePath Path then some (i, DevicePath) else none

end CNtPathMgr

/-- The device of a path `\device\X\...`, and what is left of it from the backslash on. -/
def splitDevice (Path : Str) : Option (Str × Str) :=
  if begins prefixDevice Path then
    let rest := Path.drop prefixDevice.length
    if backslash ∈ rest then
      some (Path.take prefixDevice.length ++ rest.takeWhile (· ≠ backslash), rest.dropWhile (· ≠ backslash))
    else none
  else none

/-- How much of a path is the share of a network drive, which has a component `;X:...` behind the
device that the path does without. -/
def uncPrefix (DevicePath Path : Str) : Option Nat :=
  match splitDevice Path, splitDevice DevicePath with
  | some (device, rest), some (driveDevice, driveRest) =>
    let share := (driveRest.drop 1).dropWhile (· ≠ backslash)
    if makeLower driveDevice = makeLower device ∧ driveRest[1]? = some semicolon ∧ share ≠ [] ∧ contains share rest then
      some (device.length + share.length)
    else none
  | _, _ => none

namespace CNtPathMgr

variable (t : CNtPathMgr)

/-- The last drive of the loop of `GetDriveForUncPath`, which forgets a drive that it has passed only if
the drive's path is that of a device. -/
def lastDrive : Option (Fin 26 × Str) := (t.m_Drives 25).bind fun DevicePath =>
  if prefixDevice.length < DevicePath.length ∧ begins prefixDevice DevicePath then none else some (25, DevicePath)

/-- `GetDriveForUncPath`, with the length of the prefix. -/
def getDriveForUncPath (Path : Str) : Option ((Fin 26 × Str) × Nat) :=
  if (splitDevice Path).isNone then none
  else
    match Fin.findSome? fun i => (t.m_Drives i).bind fun DevicePath =>
        (uncPrefix DevicePath Path).map fun PrefixLen => ((i, DevicePath), PrefixLen) with
    | some found => some found
    | none => t.lastDrive.map fun last => (last, 0)

/-- `GetMountForDevice`: the first mount whose device path the path begins with. -/
def getMountForDevice (NtPath : Str) : Option SMount := t.m_Mounts.find? fun Mount => begins Mount.DevicePath NtPath

/-- `GetDeviceForGuid`. -/
def getDeviceForGuid (sGuid : Str) : Option SGuid := t.m_Guids.find? fun guid => makeLower guid.Guid = makeLower sGuid

/-- A path `\??\Volume{...}...` as the path of the volume's device. -/
def resolveGuid (NtPath : Str) : Str :=
  if 48 ≤ NtPath.length ∧ begins prefixGuid NtPath then
    match t.getDeviceForGuid ((NtPath.drop 10).take 38) with
    | some guid => guid.DevicePath ++ NtPath.drop 48
    | none => NtPath
  else NtPath

/-- The drive or mount point that an NT path is taken to be on, and how much of the path is that. -/
def placeOfNtPath (NtPath : Str) : Option (Place × Nat) :=
  match t.getDriveForPath NtPath with
  | some (i, DevicePath) => some (.drive i DevicePath, DevicePath.length)
  | none =>
    match t.getDriveForUncPath NtPath with
    | some ((i, DevicePath), PrefixLen) => some (.drive i DevicePath, PrefixLen)
    | none => (t.getMountForDevice NtPath).map fun Mount => (.mount Mount, Mount.DevicePath.length)

/-- `TranslateNtToDosPath`. -/
def translateNtToDosPath (NtPath : Str) : Str :=
  let NtPath := t.resolveGuid NtPath
  if begins prefixBQQB NtPath then NtPath.drop 4
  else if begins prefixMup NtPath then [backslash, backslash] ++ NtPath.drop prefixMup.length
  else
    match t.placeOfNtPath NtPath with
    | some (place, PrefixLen) => place.point ++ NtPath.drop PrefixLen
    | none => []

end CNtPathMgr

end MajorPrivacy.NtPath

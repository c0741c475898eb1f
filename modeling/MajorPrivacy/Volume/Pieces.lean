/-
`ReadHeader` of the box (CryptoIO.cpp): a first read of as much as the password asks for, and a second one of the whole
header under the key the first one has found. Beside it the same header decrypted in one read.
-/
import MajorPrivacy.Volume.Agreement
import MajorPrivacy.Volume.PasswordChange
import Mathlib.Data.List.TakeWhile

namespace MajorPrivacy.Volume

open LittleEndian Memory

/-! ## Lengths -/

/-- `dc_get_min_header_len`. -/
def dcGetMinHeaderLen (password : DcPass) : Nat := roundToFullSectors (getMinHeaderLen password) xtsSectorSize

/-- `get_read_len`. -/
def getReadLen (diskSize : Nat) (password : DcPass) : Nat :=
  let len := dcGetMinHeaderLen password
  if diskSize < len then diskSize / xtsSectorSize * xtsSectorSize else len

/-- `get_header_len`. -/
def getHeaderLen (h : DcHeader) : Option Nat :=
  let len := h.memLen
  if len < dcAreaSize ∨ dcAreaMaxSize < len ∨ len % xtsSectorSize ≠ 0 then none
  else if h.isV2 ∧ h.ffKeySlots ∧ len < dcBaseSize + h.slotsLen then none
  else some len

/-! ## `dc_decrypt_header` with all it gives out -/

/-- The status, or the key with the header. -/
def dcDecrypt (c : Crypto) (enc : Bytes) (password : DcPass) : Option (Except Status (Candidate × DcHeader)) :=
  if enc.length < dcAreaSize then some (.error .invVolume)
  else do
    let found ← c.decryptHeader enc password
    match found with
    | none => some (.error .passErr)
    | some (cand, h) => do
      let (resl, h) ← dcDecryptRest cand.key enc h
      match h with
      | none => some (.error resl)
      | some h => some (.ok (cand, h))

/-! ## `ReadHeader` -/

/-- What `ReadHeader` gives out: the header as far as it goes, the key, the KDF and the slot. -/
structure OpenedHeader where
  header : DcHeader
  key : Xts
  kdf : Int
  slot : Nat

/-- The first `len` bytes of a header, with where its key comes from. -/
def openedHeader (cand : Candidate) (h : DcHeader) (len : Nat) : Option (Except Err OpenedHeader) :=
  (DcHeader.ofBytes (h.bytes.take len)).map fun out => .ok ⟨out, cand.key, cand.kdf, cand.slot⟩

/-- The end of a pass over `encLen` bytes, and the passes after it. -/
def readPasses (disk : Bytes) (junk : Nat → UInt8) (cand : Candidate) (encLen : Nat) (h : DcHeader) : Option (Except Err OpenedHeader) :=
  match getHeaderLen h with
  | none => some (.error .internal)
  | some len =>
    if _hle : len ≤ encLen then openedHeader cand h len
    else if _hlt : disk.length < len then some (.error .internal)
    else
      match readAt disk 0 len with
      | none => some (.error .ioFailed)
      | some enc =>
        match decryptHeaderWithKey cand.key enc (dcAlloc junk len) with
        | none => none
        | some none => some (.error .internal)
        | some (some h) => readPasses disk junk cand len h
termination_by disk.length - encLen

def readHeader (c : Crypto) (disk : Bytes) (junk : Nat → UInt8) (password : DcPass) : Option (Except Err OpenedHeader) :=
  let encLen := getReadLen disk.length password
  match readAt disk 0 encLen with
  | none => some (.error .ioFailed)
  | some enc => do
    let found ← dcDecrypt c enc password
    match found with
    | .error _ => some (.error .wrongPassword)
    | .ok (cand, h) => readPasses disk junk cand encLen h

/-- A byte of a header that is open under a key, with its salt as it is stored. -/
def plainAt (key : Xts) (disk : Bytes) (x : Nat) : Option UInt8 :=
  if x < headerSaltSize then disk[x]? else cryptAt key.dec disk x

/-- The header has its first `len` bytes in the clear. -/
def PlainTo (key : Xts) (disk : Bytes) (len : Nat) (h : DcHeader) : Prop := ∀ x < len, h.bytes[x]? = plainAt key disk x

section Found

variable {c : Crypto} {disk : Bytes} {password : DcPass} {k : Nat}

/-- What the search over the first `k` bytes finds: the key, with its scratch copy. -/
def found (c : Crypto) (disk : Bytes) (password : DcPass) (k : Nat) : Option (Option (Candidate × DcHeader)) :=
  findKey disk (c.candidates (disk.take k) password)

end Found

/-! ## Fields -/

/-- A length that is taken. -/
structure LenOk (h : DcHeader) (len : Nat) : Prop where
  eq : h.memLen = len
  min : dcAreaSize ≤ len
  max : len ≤ dcAreaMaxSize
  sectors : len % xtsSectorSize = 0
  slots : h.isV2 = true → h.ffKeySlots = true → dcBaseSize + h.slotsLen ≤ len

/-- Fields stand in the base. -/
theorem sameFields_of_plain {key : Xts} {disk : Bytes} {h h' : DcHeader} {n n' : Nat} (hn : dcBaseSize ≤ n) (hn' : dcBaseSize ≤ n')
    (hp : PlainTo key disk n h) (hp' : PlainTo key disk n' h') : DcHeader.SameFields h h' :=
  DcHeader.sameFields fun x _ hx => (hp x (by omega)).trans (hp' x (by omega)).symm

/-! ## The tail and the slots -/

/-- The descriptors have their flags. -/
def Flagged (h : DcHeader) : Prop := h.isV2 = true → h.ffKeySlots = true → 8 ≤ h.slotInfoSize

section Rest

variable {key : Xts} {disk : Bytes} {k len : Nat} {h : DcHeader}

/-- The slots of a version 2 header put over it, if they and their descriptors were read. -/
def slotsOver (raw : Bytes) (h : DcHeader) : Option DcHeader :=
  if h.isV2 ∧ dcBaseSize + h.slotsLen ≤ raw.length then loadKeySlots raw h else some h

theorem slotsOver_spec {raw : Bytes} {h' : DcHeader} (hraw : h.bytes.length = raw.length) (hover : slotsOver raw h = some h') :
    h'.bytes.length = h.bytes.length ∧
      ∀ x, h'.bytes[x]? = if (h.isV2 = true ∧ dcBaseSize + h.slotsLen ≤ raw.length) ∧ h.Raw x then raw[x]? else h.bytes[x]? := by
  unfold slotsOver at hover
  split at hover
  · rename_i hread
    have hend := h.copyFits_iff.1 ((isSome_loadKeySlots (.inl (Nat.le_of_eq hraw))).1 (by rw [hover]; rfl))
    have harea : h.slotAreaLen ≤ h.slotsLen := Nat.le_add_right _ _
    obtain ⟨h'', hload, hlen, hat⟩ := loadKeySlots_spec raw h hend (fun _ => by omega) (fun _ => by omega)
    cases hover.symm.trans hload
    refine ⟨hlen, ?_⟩
    intro x
    simp only [hat, hread, and_self, true_and]
  · rename_i hread
    cases hover
    exact ⟨rfl, fun x => (if_neg fun hx => hread hx.1).symm⟩

/-- Slots leave the fields alone. -/
theorem sameFields_of_slotsOver {raw : Bytes} {h' : DcHeader} (hraw : h.bytes.length = raw.length) (hover : slotsOver raw h = some h') :
    DcHeader.SameFields h h' := by
  obtain ⟨-, hat⟩ := slotsOver_spec hraw hover
  refine DcHeader.sameFields fun x _ hx => ?_
  rw [hat, if_neg]
  rintro ⟨-, hslot⟩
  have := hslot.bounds
  omega

/-- Two reads of a header give the same bytes as far as the header goes. -/
theorem slotsOver_agree {k' : Nat} {h' g g' : DcHeader} (hk : len ≤ k) (hk' : len ≤ k') (hkd : k ≤ disk.length) (hkd' : k' ≤ disk.length)
    (hlen : h.bytes.length = k) (hlen' : h'.bytes.length = k') (hp : PlainTo key disk len h) (hp' : PlainTo key disk len h')
    (hok : LenOk h len) (hflags : Flagged h) (hover : slotsOver (disk.take k) h = some g) (hover' : slotsOver (disk.take k') h' = some g') :
    g.bytes.take len = g'.bytes.take len := by
  have hmin := hok.min
  have hbase : dcBaseSize ≤ dcAreaSize := by decide
  have hs := sameFields_of_plain (hbase.trans hmin) (hbase.trans hmin) hp hp'
  have htake : ∀ {n}, n ≤ disk.length → (disk.take n).length = n := fun hn => by rw [List.length_take, Nat.min_eq_left hn]
  obtain ⟨-, hat⟩ := slotsOver_spec (hlen.trans (htake hkd).symm) hover
  obtain ⟨-, hat'⟩ := slotsOver_spec (hlen'.trans (htake hkd').symm) hover'
  have hraw : ∀ x, h.isV2 = true → (h.Raw x ↔ h'.Raw x) := by
    intro x hv
    refine hs.raw ?_ x
    intro hc i hi
    have hinfo := h.infoOff_add_le hi
    have hfit := hok.slots hv hc.1
    have hsize := hflags hv hc.1
    unfold DcHeader.disabled DcHeader.field
    rw [← hs.infoOff, slice_congr fun y hy hylt => (hp y (by omega)).trans (hp' y (by omega)).symm]
  refine take_eq_take fun x hx => ?_
  rw [hat, hat', hp x hx, hp' x hx, List.getElem?_take_of_lt (by omega), List.getElem?_take_of_lt (by omega), htake hkd, htake hkd',
    ← hs.isV2, ← hs.slotsLen]
  by_cases hv : h.isV2 = true
  · by_cases hslot : h.Raw x
    · have hfit := hok.slots hv hslot.1.1
      rw [if_pos ⟨⟨hv, by omega⟩, hslot⟩, if_pos ⟨⟨hv, by omega⟩, (hraw x hv).1 hslot⟩]
    · rw [if_neg fun h => hslot h.2, if_neg fun h => hslot ((hraw x hv).2 h.2)]
  · rw [if_neg fun h => hv h.1.1, if_neg fun h => hv h.1.1]

end Rest

/-! ## One read -/

section Reads

variable {c : Crypto} {disk : Bytes} {password : DcPass} {junk : Nat → UInt8} {cand : Candidate} {hcopy : DcHeader} {k len : Nat}

/-- The header that is given out has the fields of the one it is cut from. -/
theorem openedHeader_ok {h : DcHeader} {out : OpenedHeader} (hmin : dcAreaSize ≤ len)
    (hrun : openedHeader cand h len = some (.ok out)) :
    out.header.bytes = h.bytes.take len ∧ DcHeader.SameFields out.header h := by
  obtain ⟨cut, hcut, hout⟩ := Option.map_eq_some_iff.1 hrun
  cases hout
  have hbytes := DcHeader.bytes_of_ofBytes hcut
  refine ⟨hbytes, DcHeader.sameFields fun x _ hx => ?_⟩
  rw [hbytes, List.getElem?_take_of_lt (hx.trans_le (Nat.le_trans (by decide) hmin))]

theorem openedHeader_congr {h h' : DcHeader} (heq : h.bytes.take len = h'.bytes.take len) :
    openedHeader cand h len = openedHeader cand h' len := by
  unfold openedHeader
  rw [heq]

/-! ## Both are one -/

/-- The first `len` bytes of a header of which `k` bytes were read. -/
structure Cut (disk : Bytes) (cand : Candidate) (k len : Nat) (h h' : DcHeader) : Prop where
  le : len ≤ k
  held : k ≤ disk.length
  length : h.bytes.length = k
  plain : PlainTo cand.key disk len h
  ok : LenOk h len
  slots : slotsOver (disk.take k) h = some h'

variable {h h' : DcHeader} {out : OpenedHeader}

theorem Cut.flagged (hc : Cut disk cand k len h h') (hout : openedHeader cand h' len = some (.ok out)) :
    out.header.memLen = len ∧ (Flagged out.header → Flagged h) := by
  have hlenTake : (disk.take k).length = k := by rw [List.length_take, Nat.min_eq_left hc.held]
  have hs := sameFields_of_slotsOver (hc.length.trans hlenTake.symm) hc.slots
  obtain ⟨-, hs'⟩ := openedHeader_ok hc.ok.min hout
  constructor
  · rw [hs'.memLen, ← hs.memLen, hc.ok.eq]
  · intro hf hv hff
    rw [hs.slotInfoSize, ← hs'.slotInfoSize]
    exact hf (by rw [hs'.isV2, ← hs.isV2, hv]) (by rw [hs'.ffKeySlots, ← hs.ffKeySlots, hff])

/-- Cuts of one header are the same whatever was read beside it. -/
theorem Cut.agree {k' : Nat} {g g' : DcHeader} (hc : Cut disk cand k len h h') (hflags : Flagged h) (hc' : Cut disk cand k' len g g') :
    openedHeader cand g' len = openedHeader cand h' len :=
  openedHeader_congr (slotsOver_agree hc.le hc'.le hc.held hc'.held hc.length hc'.length hc.plain hc'.plain hc.ok hflags hc.slots
    hc'.slots).symm

theorem Flagged.congr (hs : DcHeader.SameFields h h') (hf : Flagged h) : Flagged h' := fun hv hff =>
  hs.slotInfoSize ▸ hf (hs.isV2.trans hv) (hs.ffKeySlots.trans hff)

end Reads

/-! ## Where the two readings part -/

section FirstByte

variable {b : UInt8} {key : Xts} {raw : Bytes} {password : DcPass}

end FirstByte

/-- What is cut is given out. -/
theorem Cut.opened {disk : Bytes} {cand : Candidate} {k len : Nat} {h h' : DcHeader} (hc : Cut disk cand k len h h') :
    ∃ out, openedHeader cand h' len = some (.ok out) ∧ out.header.memLen = len := by
  have hlenTake : (disk.take k).length = k := by rw [List.length_take, Nat.min_eq_left hc.held]
  obtain ⟨hlen, -⟩ := slotsOver_spec (hc.length.trans hlenTake.symm) hc.slots
  have hle := hc.le
  have hmin := hc.ok.min
  have hlength := hc.length
  have hcut : dcAreaSize ≤ (h'.bytes.take len).length := by
    rw [List.length_take]
    omega
  have hout : openedHeader cand h' len = some (.ok ⟨⟨h'.bytes.take len, hcut⟩, cand.key, cand.kdf, cand.slot⟩) := by
    unfold openedHeader
    rw [DcHeader.ofBytes_eq hcut]
    rfl
  exact ⟨_, hout, (hc.flagged hout).1⟩

theorem length_take_of_le {mem : Bytes} {k : Nat} (hk : k ≤ mem.length) : (mem.take k).length = k := by
  rw [List.length_take, Nat.min_eq_left hk]

end MajorPrivacy.Volume

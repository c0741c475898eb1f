/-
The writers and the readers of a header: both writers produce the same bytes, and from these every
reader gets the header back, exactly where the layout of the header keeps what is left in the clear
apart from what is encrypted and checked.
-/
import MajorPrivacy.Volume.Ciphers
import MajorPrivacy.Volume.Contained
import MajorPrivacy.Volume.Opened

namespace MajorPrivacy.Volume

open LittleEndian Memory

/-! ## The agreement -/

/-- A device with whole sectors, and room for the header at `pos`. -/
structure OnDevice (dev : DcDev) (pos : Nat) (h : DcHeader) : Prop where
  sector : 0 < dev.bps
  sectors : xtsSectorSize ∣ dev.bps
  int : roundToFullSectors h.memLen dev.bps < 2 ^ 31
  room : pos + roundToFullSectors h.memLen dev.bps ≤ dev.disk.length

/-- A header a reader has found is the one that was sealed. -/
def GivesBack (h : DcHeader) (result : Option (Status × Option DcHeader)) : Prop :=
  ∃ h', result = some (.ok, some h') ∧ h'.bytes.take h.memLen = h.bytes.take h.memLen

/-- The bytes `io_write_header` leaves on a device, and what `io_read_header` gets from there with a password that
leads to the key. -/
def AgreeOnDevice (key : Xts) (h : DcHeader) (blob : Bytes) : Prop :=
  ∀ dev rand junk pos flags, OnDevice dev pos h → flags.Full →
    ∃ disk, ioWriteHeader dev rand junk pos h key flags = some (.ok, { dev with disk }) ∧
      slice disk pos h.memLen = blob.take h.memLen ∧
      ∀ c junk password, firstLen dev password < 2 ^ 31 → pos + max (firstLen dev password) h.memLen ≤ disk.length →
        Opens c password key (slice disk pos (firstLen dev password)) →
          GivesBack h (ioReadHeader c { dev with disk } junk pos password)

/-- Under a key, all writers produce the same bytes and all readers give the header back. -/
structure AgreeOn (key : Xts) (h : DcHeader) (blob : Bytes) : Prop where
  sealing : encryptHeader key h h.bytes.length = some (.ok, blob)
  device : AgreeOnDevice key h blob
  withKey : ∀ out, out.length = blob.length →
    GivesBack h ((decryptHeaderWithKey key blob out).map fun found => (.ok, found))
  memory : ∀ c password, Opens c password key blob → GivesBack h (dcDecryptHeader c blob password)

def Agree (key : Xts) (h : DcHeader) : Prop := ∃ blob, AgreeOn key h blob

/-- The header in a longer buffer of whole sectors. -/
structure Extends (h h' : DcHeader) : Prop where
  sectors : h'.bytes.length % xtsSectorSize = 0
  eq : h'.bytes.take h.bytes.length = h.bytes

/-- They agree whatever the length of the buffer. -/
def AgreeAtAllLengths (key : Xts) (h : DcHeader) : Prop := ∀ h', Extends h h' → Agree key h'

/-- A volume header: one that passes its check if the check can be made, of whole XTS sectors, with the slots and
descriptors inside. -/
structure VolumeHeader (h : DcHeader) : Prop where
  checked : h.isVolumeHeaderCorrect ≠ some false
  length : h.bytes.length = h.memLen
  sectors : h.memLen % xtsSectorSize = 0
  layout : h.isV2 = true → h.ffKeySlots = true → dcBaseSize + h.slotsLen ≤ h.headLen

namespace Extends

variable {h h' : DcHeader} (he : Extends h h')
include he

theorem length_le : h.bytes.length ≤ h'.bytes.length := by
  have hlen := congrArg List.length he.eq
  rw [List.length_take] at hlen
  omega

theorem at_eq {x : Nat} (hx : x < h.bytes.length) : h.bytes[x]? = h'.bytes[x]? := by
  conv_lhs => rw [← he.eq]
  exact List.getElem?_take_of_lt hx

theorem sameFields : DcHeader.SameFields h h' := by
  have harea := h.area
  exact DcHeader.sameFields fun x _ hx => he.at_eq (hx.trans ((by decide : dcBaseSize < dcAreaSize).trans_le harea))

theorem raw (hlen : h.bytes.length = h.memLen) (hflags : h.FlagsEnd h.memLen) (x : Nat) : h.Raw x ↔ h'.Raw x := by
  refine he.sameFields.raw (fun hc i hi => ?_) x
  have hlast := hflags hc
  have hle := h.infoOff_le (i := i) (j := h.keySlotCount - 1) (by omega)
  unfold DcHeader.disabled
  rw [← he.sameFields.infoOff]
  congr 1
  refine congrArg ofLE (slice_congr fun y _ hy => he.at_eq (by omega))

theorem saltKept {key : Xts} (hkept : SaltKept key h) : SaltKept key h' := by
  obtain ⟨x, hx, hne⟩ := hkept
  have harea := h.area
  refine ⟨x, hx, ?_⟩
  rwa [← cryptAt_congr (by decide) (fun y hy => he.at_eq ?_) hx]
  exact (hy.trans (by decide : headerSaltSize < dcAreaSize)).trans_le harea

theorem sealFits (hlen : h.bytes.length = h.memLen) (hf : SealFits h) : SealFits h' := by
  have hs := he.sameFields
  have hraw := he.raw hlen hf.flags
  refine ⟨?_, ?_, ?_, ?_, ?_, ?_⟩
  · rw [← hs.isV2, ← hs.footerCnt]
    exact hf.crc
  · rw [← hs.isV2, ← hs.headLen]
    exact hf.size
  · rw [← hs.memLen]
    exact (hs.flagsEnd _).1 hf.flags
  · intro hv x hx
    rw [← hs.footerCnt]
    exact hf.checked (hs.isV2.trans hv) x ((hraw x).2 hx)
  · exact fun hv x y hx hxy => (hraw y).1 (hf.blocks (hs.isV2.trans hv) x y ((hraw x).2 hx) hxy)
  · exact fun hv x hx => hf.noSlots (hs.isV2.trans hv) x ((hraw x).2 hx)

end Extends

namespace VolumeHeader

variable {h : DcHeader} (hv : VolumeHeader h)
include hv

theorem extends_self : Extends h h := ⟨hv.length ▸ hv.sectors, List.take_length⟩

theorem min : dcAreaSize ≤ h.memLen := hv.length ▸ h.area

/-- What the check has found out before the checksum. -/
theorem base : h.salt.all (· = 0) = false ∧ h.sign = dcVolumeSign := by
  have hchecked := hv.checked
  unfold DcHeader.isVolumeHeaderCorrect at hchecked
  by_cases hz : h.salt.all (· = 0) = true
  · rw [if_pos hz] at hchecked
    exact absurd rfl hchecked
  · rw [if_neg hz] at hchecked
    by_cases hs : h.sign ≠ dcVolumeSign
    · rw [if_pos hs] at hchecked
      exact absurd rfl hchecked
    · exact ⟨Bool.eq_false_iff.2 hz, not_not.1 hs⟩

theorem correct (hf : SealFits h) : h.isVolumeHeaderCorrect = some true := by
  have hcrc := hf.crcLen_bounds
  have harea : dcAreaSize ≤ h.bytes.length := h.area
  have hsome : h.isVolumeHeaderCorrect.isSome := by
    obtain ⟨hsalt, hsign⟩ := hv.base
    have hsum : h.calculateHeaderCrc.isSome := isSome_crcAt.2 (by omega)
    obtain ⟨crc, hsum⟩ := Option.isSome_iff_exists.1 hsum
    unfold DcHeader.isVolumeHeaderCorrect
    rw [if_neg (by rw [hsalt]; exact Bool.false_ne_true), if_neg (not_not.2 hsign), hsum]
    rfl
  obtain ⟨correct, hcorrect⟩ := Option.isSome_iff_exists.1 hsome
  cases correct with
  | true => exact hcorrect
  | false => exact absurd hcorrect hv.checked

end VolumeHeader

/-- Bytes compared one by one. -/
theorem take_eq_take {mem mem' : Bytes} {n : Nat} (h : ∀ x < n, mem[x]? = mem'[x]?) : mem.take n = mem'.take n := by
  rw [← slice_full, ← slice_full]
  exact slice_congr fun x _ hx => h x (by omega)

/-! ## Where the layout fits -/

section Fits

variable {key : Xts} {h : DcHeader} (hf : SealFits h) (hcorrect : h.isVolumeHeaderCorrect = some true)
  (hmin : dcAreaSize ≤ h.memLen) (hsectors : h.memLen % xtsSectorSize = 0) (hheld : h.memLen ≤ h.bytes.length)
include hf hcorrect hmin hsectors hheld

theorem writable {dev : DcDev} {pos : Nat} (hd : OnDevice dev pos h) : Writable h dev.bps where
  sector := hd.sector
  min := hmin
  sectors := hsectors
  int := hd.int
  held := hheld
  correct := hcorrect
  crc := by
    have hcrc := hf.crcLen_bounds
    omega
  flags := fun _ hc => (hf.flags hc).trans hheld

theorem agree_of_fits (hmod : h.bytes.length % xtsSectorSize = 0) (hkept : SaltKept key h) : Agree key h := by
  have hlenMin := hmin.trans hheld
  obtain ⟨blob, hseal, hlen, hat⟩ := encryptHeader_spec key h hlenMin hmod (Nat.le_refl _)
    (fun _ hc => (hf.flags hc).trans hheld) (fun _ hc => (hf.slots_le hc).trans hheld)
  have hs : SealedIn key h blob := ⟨hmin, hsectors, hheld, by omega, fun x hx => hat x (by omega)⟩
  refine ⟨blob, hseal, fun dev rand junk pos flags hd hfull => ?_, fun out hout => ?_, fun c password hopens => ?_⟩
  · obtain ⟨disk, hwrite, hdisk⟩ := ioWriteHeader_writable dev
      (writable hf hcorrect hmin hsectors hheld hd) hd.room rand junk hfull
    refine ⟨disk, hwrite, ?_, fun c junk password hint hroom hopens => ?_⟩
    · rw [← slice_full]
      apply List.ext_getElem?
      intro x
      rw [getElem?_slice, getElem?_slice]
      split
      · rename_i hx
        rw [hdisk x hx, Nat.zero_add, hat x (by omega)]
      · rfl
    · have hsDisk : SealedIn key h (slice disk pos (max (firstLen dev password) h.memLen)) := by
        refine ⟨hmin, hsectors, hheld, ?_, fun x hx => ?_⟩
        · rw [length_slice hroom]
          exact Nat.le_max_right _ _
        · rw [getElem?_slice, if_pos (by omega), hdisk x hx]
      obtain ⟨h', hread, hback⟩ := ioReadHeader_sealed { dev with disk } junk hf hsDisk hd.sector hd.sectors
        hint hroom hcorrect hkept hopens
      exact ⟨h', hread, take_eq_take hback⟩
  · obtain ⟨h', hread, hback⟩ := decryptHeaderWithKey_sealed hf hs hcorrect (by rw [hlen]; exact hmod) hout
    exact ⟨h', by rw [hread]; rfl, take_eq_take hback⟩
  · obtain ⟨h', hread, hback⟩ := dcDecryptHeader_sealed hf hs hcorrect hkept hopens
    exact ⟨h', hread, take_eq_take hback⟩

end Fits

/-! ## What agreement takes -/

/-- A search that meets one key. -/
def onlyKey (key : Xts) : Crypto where
  deriveKey _ _ _ := some []
  setKey _ alg := if alg = 0 then some key else none

def headerPassword : DcPass := ⟨[], 0, 0⟩

theorem candidates_onlyKey (key : Xts) (raw : Bytes) :
    (onlyKey key).candidates raw headerPassword = [⟨0, 0, [], key⟩] := rfl

theorem opens_onlyKey (key : Xts) (raw : Bytes) : Opens (onlyKey key) headerPassword key raw :=
  ⟨[], ⟨0, 0, [], key⟩, [], candidates_onlyKey key raw, rfl, fun _ hb => nomatch hb⟩

/-- A header that is found has passed its check on the scratch copy and a size that is accepted. -/
theorem dcDecryptHeader_onlyKey {key : Xts} {raw : Bytes} {h' : DcHeader} (hlen : dcAreaSize ≤ raw.length)
    (hfound : dcDecryptHeader (onlyKey key) raw headerPassword = some (.ok, some h')) :
    ∃ hcopy h₁ : DcHeader, hcopy.isVolumeHeaderCorrect = some true ∧ hcopy.bytes.length = dcAreaSize ∧
      (∀ x < dcAreaSize, hcopy.bytes[x]? = cryptAt key.dec raw x) ∧
      (∀ x, headerSaltSize ≤ x → x < dcAreaSize → h₁.bytes[x]? = hcopy.bytes[x]?) ∧
      dcDecryptRest key raw h₁ = some (.ok, some h') := by
  obtain ⟨hcopy, hopen, hlenCopy, hat⟩ := openBase_spec key _ (List.replicate dcAreaSize 0) hlen
    (by rw [List.length_replicate])
  rw [List.length_replicate] at hlenCopy
  unfold dcDecryptHeader Crypto.decryptHeader at hfound
  rw [if_neg (Nat.not_lt.2 hlen), candidates_onlyKey] at hfound
  obtain ⟨found, hsearch, hrest⟩ := Option.bind_eq_some_iff.1 hfound
  obtain ⟨first, hfirst, hsearch⟩ := Option.bind_eq_some_iff.1 hsearch
  unfold findKey tryDecryptHeader at hfirst
  rw [hopen] at hfirst
  simp only [Option.bind_eq_bind, Option.bind_some] at hfirst
  obtain ⟨result, htry, hfirst⟩ := Option.bind_eq_some_iff.1 hfirst
  obtain ⟨correct, hcorrect, htry⟩ := Option.bind_eq_some_iff.1 htry
  cases correct with
  | false =>
    cases htry
    cases hfirst
    cases hsearch
    cases hrest
  | true =>
    cases htry
    cases hfirst
    obtain ⟨mem, hw, hsearch⟩ := Option.bind_eq_some_iff.1 hsearch
    obtain ⟨h₁, hof, hsearch⟩ := Option.bind_eq_some_iff.1 hsearch
    cases hsearch
    refine ⟨hcopy, h₁, hcorrect, hlenCopy, fun x hx => by rw [hat, if_pos hx], fun x hge hlt => ?_, hrest⟩
    have hslice : (slice hcopy.bytes headerSaltSize (dcAreaSize - headerSaltSize)).length =
        dcAreaSize - headerSaltSize := length_slice (by rw [hlenCopy]; decide)
    have hsum : headerSaltSize + (dcAreaSize - headerSaltSize) = dcAreaSize := by decide
    rw [DcHeader.bytes_of_ofBytes hof, getElem?_writeAt hw, hslice, if_pos (by omega), getElem?_slice,
      if_pos (by omega), Nat.add_sub_cancel' hge]

/-- `cp_encrypt_header` reads the flags of every slot of a version 2 header. -/
theorem flagsEnd_of_sealing {key : Xts} {h : DcHeader} {blob : Bytes}
    (hseal : encryptHeader key h h.bytes.length = some (.ok, blob)) (hv : h.isV2 = true) : h.FlagsEnd h.bytes.length := by
  unfold encryptHeader at hseal
  split at hseal
  · cases hseal
  · split at hseal
    · cases hseal
    · obtain ⟨out, hread, hseal⟩ := Option.bind_eq_some_iff.1 hseal
      obtain ⟨enc, henc, hseal⟩ := Option.bind_eq_some_iff.1 hseal
      obtain ⟨salted, hsalt, hseal⟩ := Option.bind_eq_some_iff.1 hseal
      obtain ⟨put, hput, -⟩ := Option.bind_eq_some_iff.1 hseal
      rw [readAt_eq (by omega)] at hread
      cases hread
      have hlen : salted.length = h.bytes.length := by
        rw [length_writeAt hsalt, length_xtsRun key.length_enc henc, length_slice (by omega)]
      intro hc
      unfold putKeySlots at hput
      rw [if_pos ⟨hv, hc.1⟩] at hput
      obtain ⟨out, hcopy, -⟩ := Option.map_eq_some_iff.1 hput
      exact h.copyFits_iff.1 ((h.isSome_copyKeySlots (.inl (Nat.le_refl _)) (Nat.le_of_eq hlen.symm)).1
        (Option.isSome_iff_exists.2 ⟨out, hcopy⟩)) hc

section Needed

variable {key : Xts} {h : DcHeader} {blob : Bytes} (hv : VolumeHeader h) (ha : AgreeOn key h blob)
include hv ha

theorem AgreeOn.sealed : blob.length = h.bytes.length ∧ ∀ x < h.bytes.length, blob[x]? = sealedAt key h x := by
  obtain ⟨out, hseal, hlen, hat⟩ := encryptHeader_spec key h h.area (hv.length ▸ hv.sectors) (Nat.le_refl _)
    (flagsEnd_of_sealing ha.sealing) (fun hv2 hc => by
      have hlayout := hv.layout hv2 hc.1
      have hsum : h.slotAreaLen ≤ h.slotsLen := Nat.le_add_right _ _
      have hmem : h.memLen = h.headLen := if_pos hv2
      have hlen := hv.length
      omega)
  have heq : blob = out := by
    have := ha.sealing.symm.trans hseal
    cases this
    rfl
  rw [heq]
  exact ⟨hlen, hat⟩

/-- A byte that the cipher leaves alone, or that is left in the clear. -/
theorem AgreeOn.sealed_eq {x : Nat} (hx : x < h.bytes.length) (hsame : cryptAt key.enc h.bytes x = h.bytes[x]?) :
    blob[x]? = h.bytes[x]? := by
  rw [(ha.sealed hv).2 x hx, sealedAt, hsame, ite_self]

/-- What the reader with the key went through. -/
theorem AgreeOn.opened : ∃ h₁ h₂ h' : DcHeader, h₁.isVolumeHeaderCorrect = some true ∧
    (∀ x < dcAreaSize, h₁.bytes[x]? = if x < headerSaltSize then blob[x]? else cryptAt key.dec blob x) ∧
    h₂.bytes.length = h.bytes.length ∧
    (∀ x < h.bytes.length, h₂.bytes[x]? = if x < headerSaltSize then blob[x]? else cryptAt key.dec blob x) ∧
    loadKeySlots blob h₂ = some h' ∧ ∀ x < h.bytes.length, h'.bytes[x]? = h.bytes[x]? := by
  obtain ⟨hlen, -⟩ := ha.sealed hv
  have harea : dcAreaSize ≤ blob.length := by rw [hlen]; exact h.area
  obtain ⟨h₁, h₂, hat₁, hlen₂, hat₂, heq⟩ := decryptHeaderWithKey_eq key harea
    (by rw [hlen]; exact hv.length ▸ hv.sectors) rfl
  obtain ⟨h', hgives, hback⟩ := ha.withKey blob rfl
  obtain ⟨found, hfound, hpair⟩ := Option.map_eq_some_iff.1 hgives
  cases hpair
  rw [heq] at hfound
  obtain ⟨correct, hcorrect, hfound⟩ := Option.bind_eq_some_iff.1 hfound
  cases correct with
  | false => cases hfound
  | true =>
    obtain ⟨loaded, hload, hsome⟩ := Option.map_eq_some_iff.1 hfound
    cases hsome
    refine ⟨h₁, h₂, h', hcorrect, hat₁, hlen₂.trans hlen, fun x hx => hat₂ x (by omega), hload, fun x hx => ?_⟩
    rw [hv.length] at hx
    have hget := congrArg (·[x]?) hback
    simpa only [List.getElem?_take_of_lt hx] using hget

/-- The decrypted salt is not all zeros, or the password readers find nothing. -/
theorem AgreeOn.saltKept : SaltKept key h := by
  obtain ⟨hlen, hat⟩ := ha.sealed hv
  have harea : dcAreaSize ≤ blob.length := by rw [hlen]; exact h.area
  obtain ⟨h', hfound, -⟩ := ha.memory _ _ (opens_onlyKey key blob)
  obtain ⟨hcopy, -, hcorrect, -, hcopyAt, -, -⟩ := dcDecryptHeader_onlyKey harea hfound
  by_contra hkept
  refine Bool.eq_false_iff.1 (salt_of_correct hcorrect) ((salt_all_iff hcopy).2 fun x hx => ?_)
  have hzero : cryptAt key.dec h.bytes x = some 0 := by
    by_contra hne
    exact hkept ⟨x, hx, hne⟩
  rw [hcopyAt x (hx.trans (by decide)), ← hzero]
  refine cryptAt_congr (by decide) (fun y hy => ?_) hx
  have hylen : y < h.bytes.length := hy.trans ((by decide : headerSaltSize < dcAreaSize).trans_le h.area)
  rw [hat y hylen, sealedAt, if_pos (.inl hy)]

end Needed

/-- A cipher that leaves the salt alone. -/
theorem saltKept_of_eq {key : Xts} {h : DcHeader} (hv : VolumeHeader h)
    (hsame : ∀ x < headerSaltSize, cryptAt key.dec h.bytes x = h.bytes[x]?) : SaltKept key h := by
  by_contra hkept
  refine Bool.eq_false_iff.1 hv.base.1 ((salt_all_iff h).2 fun x hx => ?_)
  by_contra hne
  exact hkept ⟨x, hx, by rw [hsame x hx]; exact hne⟩

section Plain

variable {h : DcHeader} (hv : VolumeHeader h) (ha : Agree plain h)
include hv ha

/-- The flags of the slots are in the header, and the checksum in the scratch copy of a reader. -/
theorem flagsEnd_of_plain : h.FlagsEnd h.memLen := by
  obtain ⟨blob, ha⟩ := ha
  obtain ⟨h₁, h₂, h', -, -, hlen₂, hat₂, hload, -⟩ := ha.opened hv
  have hbytes : ∀ x < h.bytes.length, h₂.bytes[x]? = h.bytes[x]? := by
    intro x hx
    rw [hat₂ x hx]
    have hdec : cryptAt plain.dec blob x = blob[x]? := cryptAt_plain blob x
    rw [hdec, ite_self, ha.sealed_eq hv hx (cryptAt_plain _ _)]
  have hs : DcHeader.SameFields h h₂ := DcHeader.sameFields fun x _ hx =>
    (hbytes x (hx.trans ((by decide : dcBaseSize < dcAreaSize).trans_le h.area))).symm
  have hfits : h₂.CopyFits := (isSome_loadKeySlots (.inl (by rw [hlen₂, (ha.sealed hv).1]))).1
    (Option.isSome_iff_exists.2 ⟨h', hload⟩)
  rw [← hv.length, ← hlen₂]
  exact (hs.flagsEnd _).2 (h₂.copyFits_iff.1 hfits)

theorem base_of_plain (hv2 : h.isV2 = true) :
    -64 ≤ h.footerCnt ∧ h.footerCnt ≤ 59 ∧ h.headLen ≤ dcAreaMaxSize := by
  obtain ⟨blob, ha⟩ := ha
  have hlen := (ha.sealed hv).1
  have harea : dcAreaSize ≤ h.bytes.length := h.area
  obtain ⟨h', hfound, -⟩ := ha.memory _ _ (opens_onlyKey plain blob)
  obtain ⟨hcopy, h₁, hcorrect, hlenCopy, hcopyAt, hat₁, hrest⟩ := dcDecryptHeader_onlyKey (by omega) hfound
  have hbytes : ∀ x < dcAreaSize, hcopy.bytes[x]? = h.bytes[x]? := by
    intro x hx
    have hdec : cryptAt plain.dec blob x = blob[x]? := cryptAt_plain blob x
    rw [hcopyAt x hx, hdec, ha.sealed_eq hv (by omega) (cryptAt_plain _ _)]
  have hsub : dcBaseSize ≤ dcAreaSize := by decide
  have hs : DcHeader.SameFields h hcopy := DcHeader.sameFields fun x _ hx => (hbytes x (by omega)).symm
  have hs₁ : DcHeader.SameFields h h₁ := DcHeader.sameFields fun x hge hx => by
    rw [hat₁ x hge (by omega), hbytes x (by omega)]
  have hcrc := DcHeader.crcLen_of_correct hcorrect
  rw [← hs.crcLen, hlenCopy] at hcrc
  unfold DcHeader.crcLen at hcrc
  rw [if_pos hv2] at hcrc
  change 0 ≤ 952 - h.footerCnt * 16 ∧ 72 + (952 - h.footerCnt * 16) ≤ 2048 at hcrc
  refine ⟨by omega, by omega, Nat.le_of_not_lt fun hlt => ?_⟩
  unfold dcDecryptRest at hrest
  rw [← hs₁.isV2, ← hs₁.headLen, if_neg (not_not.2 hv2), if_pos (.inr hlt)] at hrest
  cases hrest

end Plain

theorem xor_one_ne (b : UInt8) : b ≠ b ^^^ 1 := by
  intro h
  have hzero : b ^^^ 0 = b ^^^ 1 := by rwa [UInt8.xor_zero]
  exact absurd ((UInt8.xor_right_inj b).1 hzero) (by decide)

/-- A changed byte is not the old one. -/
theorem map_xor_one_ne {mem : Bytes} {x : Nat} (hx : x < mem.length) : mem[x]?.map (· ^^^ 1) ≠ mem[x]? := by
  rw [List.getElem?_eq_getElem hx]
  exact fun h => xor_one_ne _ (Option.some_inj.1 h).symm

theorem crc_of_correct {h : DcHeader} (hc : h.isVolumeHeaderCorrect = some true) :
    h.hdrCrc = (crc32 (slice h.bytes 72 h.crcLen.toNat)).toNat := by
  have hcrc := DcHeader.crcLen_of_correct hc
  have hsalt := salt_of_correct hc
  unfold DcHeader.isVolumeHeaderCorrect at hc
  rw [if_neg (by rw [hsalt]; exact Bool.false_ne_true)] at hc
  split at hc
  · cases hc
  · unfold DcHeader.calculateHeaderCrc crcAt at hc
    rw [if_neg (by omega), readAt_eq (by omega)] at hc
    exact of_decide_eq_true (Option.some_inj.1 hc)

section Slots

variable {h : DcHeader} (hv : VolumeHeader h) {x : Nat}
include hv

/-- A slot under the checksum is checked before it is put back. -/
theorem checked_of_flip (hv2 : h.isV2 = true) (hfc : -64 ≤ h.footerCnt ∧ h.footerCnt ≤ 59) (hx : h.Raw x)
    (ha : Agree (flip x) h) : 1024 - h.footerCnt * 16 ≤ x := by
  obtain ⟨blob, ha⟩ := ha
  by_contra hlt
  obtain ⟨hlen, hat⟩ := ha.sealed hv
  obtain ⟨h₁, -, -, hcorrect₁, hat₁, -⟩ := ha.opened hv
  have harea : dcAreaSize ≤ h.bytes.length := h.area
  have hxlow : dcBaseSize ≤ x := hx.bounds.1
  have hxarea : x < dcAreaSize := by
    change x < 2048
    omega
  -- nothing is changed by the sealing
  have hblob : ∀ z < h.bytes.length, blob[z]? = h.bytes[z]? := by
    intro z hz
    by_cases hzx : z = x
    · rw [hat z hz, sealedAt, if_pos (.inr ⟨hv2, hzx ▸ hx⟩)]
    · exact ha.sealed_eq hv hz (by rw [cryptAt_flip, if_neg hzx])
  -- and one byte by the reader
  have hbytes : ∀ z < dcAreaSize, h₁.bytes[z]? = if z = x then h.bytes[z]?.map (· ^^^ 1) else h.bytes[z]? := by
    intro z hz
    rw [hat₁ z hz, dec_flip, cryptAt_flip, hblob z (by omega)]
    by_cases hzx : z = x
    · rw [if_pos hzx, if_neg]
      rw [hzx]
      exact Nat.not_lt.2 ((by decide : headerSaltSize ≤ dcBaseSize).trans hxlow)
    · rw [if_neg hzx, ite_self]
  have hs : DcHeader.SameFields h h₁ := DcHeader.sameFields fun z _ hz => by
    rw [hbytes z (hz.trans (by decide)), if_neg (by omega)]
  have hcorrect : h.isVolumeHeaderCorrect = some true := by
    have hsome : h.isVolumeHeaderCorrect.isSome :=
      (h.isSome_isVolumeHeaderCorrect).2 (.inr (.inr (.inr ⟨hfc.2, by change 2048 ≤ _ at harea; omega⟩)))
    obtain ⟨correct, hc⟩ := Option.isSome_iff_exists.1 hsome
    cases correct with
    | true => exact hc
    | false => exact absurd hc hv.checked
  have hsum := crc_of_correct hcorrect
  rw [hs.hdrCrc, crc_of_correct hcorrect₁, ← hs.crcLen] at hsum
  have hcrcLen : h.crcLen = 952 - h.footerCnt * 16 := if_pos hv2
  change 1024 ≤ x at hxlow
  have hi : x - 72 < h.crcLen.toNat := by omega
  have hget : (slice h.bytes 72 h.crcLen.toNat)[x - 72]? = h.bytes[x]? := by
    rw [getElem?_slice, if_pos hi, Nat.add_sub_cancel' (by omega)]
  have hget₁ : (slice h₁.bytes 72 h.crcLen.toNat)[x - 72]? = h.bytes[x]?.map (· ^^^ 1) := by
    rw [getElem?_slice, if_pos hi, Nat.add_sub_cancel' (by omega), hbytes x hxarea, if_pos rfl]
  obtain ⟨b, hb⟩ : ∃ b, h.bytes[x]? = some b := ⟨_, List.getElem?_eq_getElem (by omega)⟩
  rw [hb] at hget hget₁
  refine crc32_ne_of_getElem?_ne hget₁ hget (xor_one_ne _).symm (fun j hj => ?_) (UInt32.toNat_inj.1 hsum)
  rw [getElem?_slice, getElem?_slice]
  split
  · rw [hbytes _ (by change _ < 2048; omega), if_neg (by omega)]
  · rfl

/-- A block that holds bytes of both kinds is garbled. -/
theorem blocks_of_tangle (hflags : h.FlagsEnd h.memLen) {y : Nat} (hx : h.Raw x) (hxy : SameBlock x y)
    (hne : x % xtsBlockSize ≠ y % xtsBlockSize) (hv2 : h.isV2 = true) (ha : Agree (tangle x y hne) h) : h.Raw y := by
  obtain ⟨blob, ha⟩ := ha
  by_contra hy
  obtain ⟨hlen, hat⟩ := ha.sealed hv
  obtain ⟨-, h₂, h', -, -, hlen₂, hat₂, hload, hback⟩ := ha.opened hv
  have hmem : h.memLen = h.headLen := if_pos hv2
  have hxlt : x < h.bytes.length := by
    rw [hv.length, hmem]
    exact hx.lt_headLen
  have hxlow : 1024 ≤ x := hx.bounds.1
  have hblock : x / 16 = y / 16 := hxy
  have hylt : y < h.bytes.length := by
    have hsectors : h.memLen % 512 = 0 := hv.sectors
    have hlen := hv.length
    omega
  have hyx : y ≠ x := fun heq => hne (by rw [heq])
  have hblobX : blob[x]? = h.bytes[x]? := by rw [hat x hxlt, sealedAt, if_pos (.inr ⟨hv2, hx⟩)]
  have hblobY : blob[y]? = h.bytes[y]?.map (· ^^^ ((h.bytes.getD x 0 ^^^ 1) &&& 1)) := by
    rw [hat y hylt, sealedAt, if_neg, cryptAt_tangle_enc hxy hne _ _ hxlt, if_neg hyx, if_pos rfl]
    rintro (hlt | hraw)
    · change y < 64 at hlt
      omega
    · exact hy hraw.2
  have hblob : ∀ z < h.bytes.length, z ≠ x → z ≠ y → blob[z]? = h.bytes[z]? := fun z hz hzx hzy =>
    ha.sealed_eq hv hz (by rw [cryptAt_tangle_enc hxy hne _ _ hxlt, if_neg hzx, if_neg hzy])
  have hgetD : blob.getD x 0 = h.bytes.getD x 0 := by
    rw [List.getD_eq_getElem?_getD, hblobX, List.getD_eq_getElem?_getD]
  -- what is decrypted differs in the two bytes, by their lowest bits
  have hcarry : ∀ a b : UInt8, a ^^^ ((b ^^^ 1) &&& 1) ^^^ (b &&& 1) = a ^^^ 1 := by
    intro a b
    rw [UInt8.xor_assoc]
    congr 1
    exact carry_eq b
  have hbytes : ∀ z < h.bytes.length,
      h₂.bytes[z]? = if z = x ∨ z = y then h.bytes[z]?.map (· ^^^ 1) else h.bytes[z]? := by
    intro z hz
    rw [hat₂ z hz, cryptAt_tangle_dec hxy hne, hgetD]
    by_cases hzx : z = x
    · rw [if_neg (by change ¬ z < 64; omega), if_pos hzx, if_pos (.inl hzx), hzx, hblobX]
    · rw [if_neg hzx]
      by_cases hzy : z = y
      · rw [if_neg (by change ¬ z < 64; omega), if_pos hzy, if_pos (.inr hzy), hzy, hblobY, Option.map_map]
        congr 1
        funext a
        exact hcarry a _
      · rw [if_neg hzy, ite_self, hblob z hz hzx hzy, if_neg (not_or.2 ⟨hzx, hzy⟩)]
  have hs : DcHeader.SameFields h h₂ := DcHeader.sameFields fun z _ hz => by
    change z < 1024 at hz
    rw [hbytes z (by omega), if_neg (by omega)]
  have hraw : h.Raw y ↔ h₂.Raw y := hs.raw_of_lowBits (fun z => by
    by_cases hz : z < h.bytes.length
    · rw [hbytes z hz]
      split
      · exact .inr rfl
      · exact .inl rfl
    · rw [List.getElem?_eq_none (by omega), List.getElem?_eq_none (by omega)]
      exact .inl rfl) y
  have hslots : h₂.Copies → dcBaseSize + h₂.slotAreaLen ≤ h.bytes.length := by
    intro hc
    have hlast := hflags (hs.copies.2 hc)
    have hstart := h.le_infoOff (h.keySlotCount - 1)
    have hlen := hv.length
    rw [← hs.slotAreaLen]
    omega
  obtain ⟨h₃, hload₃, -, hat₃⟩ := loadKeySlots_spec blob h₂
    ((hs.flagsEnd _).1 (by rw [hlen₂, hv.length]; exact hflags)) (fun hc => by rw [hlen]; exact hslots hc)
    (fun hc => by rw [hlen₂]; exact hslots hc)
  have heq : h' = h₃ := Option.some_inj.1 (hload.symm.trans hload₃)
  have hback := hback y hylt
  rw [heq, hat₃, if_neg fun hr => hy (hraw.2 hr), hbytes y hylt, if_pos (.inr rfl)] at hback
  exact map_xor_one_ne hylt hback

/-- A version 1 header whose bytes look like slots gets them back as they were sealed. -/
theorem noSlots_of_flip (hflags : h.FlagsEnd h.memLen) (hv1 : h.isV2 = false) (ha : Agree (flip x) h) : ¬ h.Raw x := by
  obtain ⟨blob, ha⟩ := ha
  intro hx
  obtain ⟨hlen, hat⟩ := ha.sealed hv
  obtain ⟨-, h₂, h', -, -, hlen₂, hat₂, hload, hback⟩ := ha.opened hv
  have hxlow : 1024 ≤ x := hx.bounds.1
  have hslots : dcBaseSize + h.slotAreaLen ≤ h.bytes.length := by
    have hlast := hflags hx.1
    have hstart := h.le_infoOff (h.keySlotCount - 1)
    have hlen := hv.length
    omega
  have hxlt : x < h.bytes.length := hx.bounds.2.trans_le hslots
  have hblob : ∀ z < h.bytes.length, blob[z]? = if z = x then h.bytes[z]?.map (· ^^^ 1) else h.bytes[z]? := by
    intro z hz
    rw [hat z hz, sealedAt, cryptAt_flip]
    by_cases hzx : z = x
    · rw [if_pos hzx, if_neg]
      rintro (hlt | hraw)
      · change z < 64 at hlt
        omega
      · exact Bool.noConfusion (hv1.symm.trans hraw.1)
    · rw [if_neg hzx, ite_self]
  have hbytes : ∀ z < h.bytes.length, h₂.bytes[z]? = h.bytes[z]? := by
    intro z hz
    rw [hat₂ z hz, dec_flip, cryptAt_flip, hblob z hz]
    by_cases hzx : z = x
    · rw [if_neg (by change ¬ z < 64; omega), if_pos hzx, if_pos hzx, Option.map_map]
      cases h.bytes[z]? with
      | none => rfl
      | some a => exact congrArg some (xor_xor_cancel a 1)
    · rw [if_neg hzx, if_neg hzx, ite_self]
  have hs : DcHeader.SameFields h h₂ := DcHeader.sameFields fun z _ hz => by
    change z < 1024 at hz
    rw [hbytes z (by omega)]
  have hraw : h.Raw x ↔ h₂.Raw x := hs.raw_of_lowBits (fun z => by
    by_cases hz : z < h.bytes.length
    · exact .inl (hbytes z hz)
    · rw [List.getElem?_eq_none (by omega), List.getElem?_eq_none (by omega)]
      exact .inl rfl) x
  obtain ⟨h₃, hload₃, -, hat₃⟩ := loadKeySlots_spec blob h₂
    ((hs.flagsEnd _).1 (by rw [hlen₂, hv.length]; exact hflags))
    (fun _ => by rw [hlen, ← hs.slotAreaLen]; exact hslots) (fun _ => by rw [hlen₂, ← hs.slotAreaLen]; exact hslots)
  have heq : h' = h₃ := Option.some_inj.1 (hload.symm.trans hload₃)
  have hback := hback x hxlt
  rw [heq, hat₃, if_pos (hraw.1 hx), hblob x hxlt, if_pos rfl] at hback
  exact map_xor_one_ne hxlt hback

end Slots

/-! ## The condition -/

/-- The writers agree and the readers give back a header, at all lengths and under every key, exactly if the layout
fits; the keys under which the clear salt decrypts to zeros are lost to the password readers in any case. -/
theorem agree_iff_sealFits {h : DcHeader} (hv : VolumeHeader h) :
    ((∀ key, SaltKept key h → AgreeAtAllLengths key h) ↔ SealFits h) ∧
      ∀ key, AgreeAtAllLengths key h → SaltKept key h := by
  refine ⟨⟨fun hall => ?_, fun hf key hkept h' he => ?_⟩, fun key ha => ?_⟩
  · have hplain : Agree plain h := hall plain (saltKept_of_eq hv fun x _ => cryptAt_plain _ x) h hv.extends_self
    have hflags := flagsEnd_of_plain hv hplain
    have hflip : ∀ {x}, dcBaseSize ≤ x → Agree (flip x) h := by
      intro x hx
      refine hall _ (saltKept_of_eq hv fun z hz => ?_) h hv.extends_self
      rw [dec_flip, cryptAt_flip, if_neg]
      change z < 64 at hz
      change 1024 ≤ x at hx
      omega
    refine ⟨fun hv2 => ?_, fun hv2 => (base_of_plain hv hplain hv2).2.2, hflags, fun hv2 x hx => ?_,
      fun hv2 x y hx hxy => ?_, fun hv1 x hx => ?_⟩
    · exact ⟨(base_of_plain hv hplain hv2).1, (base_of_plain hv hplain hv2).2.1⟩
    · have hbase := base_of_plain hv hplain hv2
      exact checked_of_flip hv hv2 ⟨hbase.1, hbase.2.1⟩ hx (hflip hx.bounds.1)
    · by_cases hne : x % xtsBlockSize = y % xtsBlockSize
      · rwa [← eq_of_block hxy hne]
      · refine blocks_of_tangle hv hflags hx hxy hne hv2 (hall _ (saltKept_of_eq hv fun z hz => ?_) h hv.extends_self)
        have hxlow : 1024 ≤ x := hx.bounds.1
        have hblock : x / 16 = y / 16 := hxy
        change z < 64 at hz
        rw [cryptAt_tangle_dec hxy hne, if_neg (by omega), if_neg (by omega)]
    · exact noSlots_of_flip hv hflags hv1 (hflip hx.bounds.1) hx
  · have hf' := he.sealFits hv.length hf
    have hs := he.sameFields
    have hle := he.length_le
    have hlen := hv.length
    have hcorrect : h'.isVolumeHeaderCorrect = some true := by
      have hend := hf.checkEnd_le
      have hmin := hv.min
      rw [← hv.correct hf]
      refine (DcHeader.isVolumeHeaderCorrect_congr h.checkEnd (fun x _ hx => he.at_eq (by omega))
        (Nat.le_max_left _ _) ⟨hf.crcLen_bounds.1, ?_⟩ (by omega) (by omega) ?_).symm
      · unfold DcHeader.checkEnd
        omega
      · unfold DcHeader.salt
        have harea : 2048 ≤ h.bytes.length := h.area
        rw [slice_congr fun x _ hx => he.at_eq (by change x < 0 + 64 at hx; omega)]
    exact agree_of_fits hf' hcorrect (hs.memLen ▸ hv.min) (hs.memLen ▸ hv.sectors) (by rw [← hs.memLen]; omega)
      he.sectors (he.saltKept hkept)
  · obtain ⟨blob, ha⟩ := ha h hv.extends_self
    exact ha.saltKept hv

open Reader (twoSlots)

theorem volumeHeader_twoSlots {footerCnt : UInt8} (hc : (twoSlots footerCnt).isVolumeHeaderCorrect ≠ some false)
    (hlen : (twoSlots footerCnt).memLen = dcAreaSize)
    (hlayout : dcBaseSize + (twoSlots footerCnt).slotsLen ≤ (twoSlots footerCnt).headLen) :
    VolumeHeader (twoSlots footerCnt) := by
  refine ⟨hc, ?_, by rw [hlen]; rfl, fun _ _ => hlayout⟩
  rw [hlen, twoSlots, List.length_map, List.length_range]

/-- Two slots of 192 bytes take whole blocks behind the checksum. -/
theorem sealFits_twoSlots : SealFits (twoSlots 59) := by
  have hfc : (twoSlots 59).footerCnt = 59 := by decide +kernel
  have hoff : ∀ i, (twoSlots 59).slotOff i = 1024 + 192 * i := fun i => by
    have hsize : (twoSlots 59).slotSize = 192 := by decide +kernel
    rw [DcHeader.slotOff, hsize]
  have hsize : (twoSlots 59).slotSize = 192 := by decide +kernel
  refine ⟨fun _ => by rw [hfc]; decide, fun _ => by decide +kernel, fun _ => by decide +kernel, fun _ x hx => ?_,
    fun _ x y hx hxy => ?_, fun hv => absurd hv (by decide +kernel)⟩
  · have hlow : 1024 ≤ x := hx.bounds.1
    rw [hfc]
    omega
  · obtain ⟨hc, i, hi, hd, hle, hlt⟩ := hx
    have hblock : x / 16 = y / 16 := hxy
    rw [hsize] at hlt
    rw [hoff] at hle hlt
    refine ⟨hc, i, hi, hd, ?_, ?_⟩
    · rw [hoff]
      omega
    · rw [hoff, hsize]
      omega

theorem agree_twoSlots : AgreeAtAllLengths plain (twoSlots 59) :=
  have hv : VolumeHeader (twoSlots 59) :=
    volumeHeader_twoSlots (by decide +kernel) (by decide +kernel) (by decide +kernel)
  (agree_iff_sealFits hv).1.2 sealFits_twoSlots plain (saltKept_of_eq hv fun x _ => cryptAt_plain _ x)

/-- A header with a `footer_cnt` of 60 is sealed by one writer, and no reader gets it back. -/
theorem not_agree_footerCnt : VolumeHeader (twoSlots 60) ∧ SaltKept plain (twoSlots 60) ∧
    ¬ AgreeAtAllLengths plain (twoSlots 60) := by
  have hv : VolumeHeader (twoSlots 60) :=
    volumeHeader_twoSlots (by decide +kernel) (by decide +kernel) (by decide +kernel)
  refine ⟨hv, saltKept_of_eq hv fun x _ => cryptAt_plain _ x, fun ha => ?_⟩
  have hbase := base_of_plain hv (ha _ hv.extends_self) (by decide +kernel)
  have hfc : (twoSlots 60).footerCnt = 60 := by decide +kernel
  omega

end MajorPrivacy.Volume

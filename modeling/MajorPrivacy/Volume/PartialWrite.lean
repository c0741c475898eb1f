/-
Updates of parts of a header on a device. A write of the sectors of some parts leaves what a write of
the whole header leaves, as long as a slot is not taken into or out of the clear outside of them.
-/
import MajorPrivacy.Volume.Agreement

namespace MajorPrivacy.Volume

open LittleEndian Memory

/-! ## Updates -/

/-- A version 2 header that passes its check, in a buffer of its length. -/
structure ValidV2 (h : DcHeader) : Prop where
  isV2 : h.isV2 = true
  length : h.bytes.length = h.headLen
  correct : h.isVolumeHeaderCorrect = some true

/-- The salt and the layout are kept. -/
structure SameLayout (h₀ h₁ : DcHeader) : Prop where
  salt : h₀.salt = h₁.salt
  headLen : h₀.headLen = h₁.headLen
  ffKeySlots : h₀.ffKeySlots = h₁.ffKeySlots
  slotAreaLen : h₀.slotAreaLen = h₁.slotAreaLen
  keySlotCount : h₀.keySlotCount = h₁.keySlotCount
  slotInfoSize : h₀.slotInfoSize = h₁.slotInfoSize
  extHdrOff : h₀.extHdrOff = h₁.extHdrOff

/-- A byte of a part that the flags name: the base, the slots with their descriptors, or all from the extended
header on. -/
def InParts (flags : HfFlags) (h : DcHeader) (x : Nat) : Prop :=
  flags.updateBase = true ∧ x < dcBaseSize ∨
    flags.updateSlots = true ∧ h.ffKeySlots = true ∧ dcBaseSize ≤ x ∧ x < dcBaseSize + h.slotsLen ∨
    flags.updateExt = true ∧ h.extHdrOff ≠ 0 ∧ h.extHdrOff ≤ x

/-- The flags cover all differences. -/
def Covers (flags : HfFlags) (h₀ h₁ : DcHeader) : Prop :=
  ∀ x < h₁.headLen, h₀.bytes[x]? ≠ h₁.bytes[x]? → InParts flags h₁ x

/-- A header has been written to a device in full. -/
def WrittenTo (key : Xts) (h : DcHeader) (pos : Nat) (dev : DcDev) : Prop :=
  ∃ dev₀ rand junk flags, HfFlags.Full flags ∧ dev₀.bps = dev.bps ∧
    ioWriteHeader dev₀ rand junk pos h key flags = some (.ok, dev)

/-- An update either is refused and changes nothing, or leaves the bytes a full write leaves. -/
def PartialAsFull (h₀ h₁ : DcHeader) (bps : Nat) (flags : HfFlags) : Prop :=
  ∀ key pos dev, dev.bps = bps → WrittenTo key h₀ pos dev → ∀ rand junk,
    ∃ status dev', ioWriteHeader dev rand junk pos h₁ key flags = some (status, dev') ∧
      (status ≠ .ok ∧ dev' = dev ∨
        ∀ rand junk full, HfFlags.Full full →
          ∃ devFull, ioWriteHeader dev rand junk pos h₁ key full = some (.ok, devFull) ∧
            slice dev'.disk pos h₁.headLen = slice devFull.disk pos h₁.headLen)

/-- An update of the extended header alone takes no slot into or out of the clear that begins before its first
sector. (The flags of a slot can be bytes of the extended header if the descriptors are too short for them.) -/
def SlotsStay (h₀ h₁ : DcHeader) (bps : Nat) (flags : HfFlags) : Prop :=
  flags.updateBase = false → flags.updateSlots = false → flags.updateExt = true →
    h₁.partsLen ≤ h₁.extHdrOff → h₁.extHdrOff + minExtHdrSize < h₁.headLen → h₁.Copies → h₁.slotSize ≠ 0 →
      ∀ i < h₁.keySlotCount, h₀.disabled i ≠ h₁.disabled i → h₁.extHdrOff / bps * bps ≤ h₁.slotOff i

namespace SameLayout

variable {h₀ h₁ : DcHeader} (hs : SameLayout h₀ h₁)
include hs

theorem slotsLen : h₀.slotsLen = h₁.slotsLen := by
  unfold DcHeader.slotsLen
  rw [hs.slotAreaLen, hs.keySlotCount, hs.slotInfoSize]

theorem slotSize : h₀.slotSize = h₁.slotSize := by
  unfold DcHeader.slotSize
  rw [hs.slotAreaLen, hs.keySlotCount]

theorem slotOff (i : Nat) : h₀.slotOff i = h₁.slotOff i := by
  unfold DcHeader.slotOff
  rw [hs.slotSize]

theorem infoOff (i : Nat) : h₀.infoOff i = h₁.infoOff i := by
  unfold DcHeader.infoOff
  rw [hs.slotAreaLen, hs.slotInfoSize]

theorem copies : h₀.Copies ↔ h₁.Copies := by
  unfold DcHeader.Copies
  rw [hs.ffKeySlots, hs.keySlotCount, hs.slotsLen, hs.headLen]

theorem flagsEnd (last : Nat) : h₀.FlagsEnd last ↔ h₁.FlagsEnd last := by
  unfold DcHeader.FlagsEnd
  rw [hs.copies, hs.infoOff, hs.keySlotCount]

end SameLayout

/-! ## The range of an update -/

section Range

variable {h : DcHeader} {bps : Nat} {flags : HfFlags}

theorem checkExt_spec {eff : HfFlags} (he : h.checkExt flags = .ok eff) :
    eff.updateBase = flags.updateBase ∧ eff.updateSlots = flags.updateSlots ∧
      (eff.updateExt = true ↔ flags.updateExt = true ∧ h.extHdrOff ≠ 0) ∧
      (eff.updateExt = true → h.extHdrOff + minExtHdrSize < h.headLen ∧ h.partsLen ≤ h.extHdrOff) := by
  unfold DcHeader.checkExt at he
  by_cases hext : flags.updateExt = true
  · rw [if_pos hext] at he
    by_cases hoff : h.extHdrOff = 0
    · rw [if_pos hoff] at he
      cases he
      exact ⟨rfl, rfl, by simp [hoff], fun h => Bool.noConfusion h⟩
    · rw [if_neg hoff] at he
      split at he
      · cases he
      · rename_i hfit
        cases he
        exact ⟨rfl, rfl, by simp [hext, hoff], fun _ => by omega⟩
  · rw [if_neg hext] at he
    cases he
    exact ⟨rfl, rfl, by simp [hext], fun h => absurd h hext⟩

theorem checkSlots_spec {eff : HfFlags} (he : h.checkSlots flags = .ok eff) :
    eff.updateBase = flags.updateBase ∧ eff.updateExt = flags.updateExt ∧
      (eff.updateSlots = true ↔ flags.updateSlots = true ∧ h.ffKeySlots = true) ∧
      (eff.updateSlots = true → h.partsLen < h.headLen) := by
  unfold DcHeader.checkSlots at he
  by_cases hslots : flags.updateSlots = true
  · rw [if_pos hslots] at he
    by_cases hff : h.ffKeySlots = true
    · rw [if_neg (not_not.2 hff)] at he
      split at he
      · cases he
      · rename_i hfit
        cases he
        exact ⟨rfl, rfl, by simp [hslots, hff], fun _ => by omega⟩
    · rw [if_pos hff] at he
      cases he
      exact ⟨rfl, rfl, by simp [hff], fun h => Bool.noConfusion h⟩
  · rw [if_neg hslots] at he
    cases he
    exact ⟨rfl, rfl, by simp [hslots], fun h => absurd h hslots⟩

theorem checkExt_error {status : Status} (he : h.checkExt flags = .error status) : status = .invVolume := by
  unfold DcHeader.checkExt at he
  split at he
  · split at he
    · cases he
    · split at he
      · cases he
        rfl
      · cases he
  · cases he

theorem checkSlots_error {status : Status} (he : h.checkSlots flags = .error status) : status = .invVolume := by
  unfold DcHeader.checkSlots at he
  split at he
  · split at he
    · cases he
    · split at he
      · cases he
        rfl
      · cases he
  · cases he

/-- The parts an update comes to. -/
structure Effective (h : DcHeader) (flags eff : HfFlags) : Prop where
  base : eff.updateBase = flags.updateBase
  slots : eff.updateSlots = true ↔ flags.updateSlots = true ∧ h.ffKeySlots = true
  ext : eff.updateExt = true ↔ flags.updateExt = true ∧ h.extHdrOff ≠ 0
  slotsFit : eff.updateSlots = true → h.partsLen < h.headLen
  extFits : eff.updateExt = true → h.extHdrOff + minExtHdrSize < h.headLen ∧ h.partsLen ≤ h.extHdrOff

/-- An update is refused, or comes to nothing, or to the sectors of its parts. -/
theorem updateRange_cases (h : DcHeader) (bps : Nat) (flags : HfFlags) :
    h.updateRange bps flags = .error .invVolume ∨ ∃ eff, Effective h flags eff ∧
      (h.updateStart eff = none ∧ h.updateRange bps flags = .ok .nothing ∨
        ∃ start, h.updateStart eff = some start ∧
          start / bps * bps + roundToFullSectors (h.updateEnd eff - start / bps * bps) bps ≤ h.headLen ∧
          h.updateRange bps flags = .ok (.sectors (start / bps * bps)
            (roundToFullSectors (h.updateEnd eff - start / bps * bps) bps))) := by
  unfold DcHeader.updateRange
  cases hext : h.checkExt flags with
  | error status =>
    rw [checkExt_error hext]
    exact .inl rfl
  | ok eff₁ =>
    obtain ⟨hbase₁, hslots₁, hext₁, hfit₁⟩ := checkExt_spec hext
    change (h.checkSlots eff₁ >>= _) = _ ∨ ∃ eff, Effective h flags eff ∧
      (_ ∧ (h.checkSlots eff₁ >>= _) = _ ∨ ∃ start, _ ∧ _ ∧ (h.checkSlots eff₁ >>= _) = _)
    cases hslots : h.checkSlots eff₁ with
    | error status =>
      rw [checkSlots_error hslots]
      exact .inl rfl
    | ok eff₂ =>
      obtain ⟨hbase₂, hext₂, hslots₂, hfit₂⟩ := checkSlots_spec hslots
      have heff : Effective h flags eff₂ :=
        ⟨hbase₂.trans hbase₁, by rw [hslots₂, hslots₁], by rw [hext₂, hext₁], hfit₂, fun he => hfit₁ (hext₂ ▸ he)⟩
      simp only [bind, Except.bind]
      cases hstart : h.updateStart eff₂ with
      | none => exact .inr ⟨eff₂, heff, .inl ⟨hstart, rfl⟩⟩
      | some start =>
        by_cases hroom : h.headLen <
            start / bps * bps + roundToFullSectors (h.updateEnd eff₂ - start / bps * bps) bps
        · exact .inl (if_pos hroom)
        · exact .inr ⟨eff₂, heff, .inr ⟨start, hstart, Nat.le_of_not_lt hroom, if_neg hroom⟩⟩

/-- Every byte of the parts is in the sectors. -/
theorem inRange_of_inParts {eff : HfFlags} (heff : Effective h flags eff) (hb : 0 < bps) {start x : Nat}
    (hstart : h.updateStart eff = some start) (hx : x < h.headLen) (hin : InParts flags h x) :
    start / bps * bps ≤ x ∧ x < start / bps * bps + roundToFullSectors (h.updateEnd eff - start / bps * bps) bps := by
  have hdown := Nat.div_mul_le_self start bps
  have hround := le_roundToFullSectors (h.updateEnd eff - start / bps * bps) hb
  have hparts : h.ffKeySlots = true → h.partsLen = dcBaseSize + h.slotsLen := fun hff => by
    rw [DcHeader.partsLen, if_pos hff]
  have hbase : dcBaseSize ≤ h.partsLen := Nat.le_add_right _ _
  suffices hmid : start ≤ x ∧ x < h.updateEnd eff by omega
  unfold DcHeader.updateStart at hstart
  unfold DcHeader.updateEnd
  rcases hin with ⟨hflag, hlt⟩ | ⟨hflag, hff, hge, hlt⟩ | ⟨hflag, hoff, hge⟩
  · rw [if_pos (heff.base.trans hflag)] at hstart
    cases hstart
    refine ⟨Nat.zero_le _, ?_⟩
    split
    · exact hx
    · split <;> omega
  · have hslots := heff.slots.2 ⟨hflag, hff⟩
    have hfit := heff.slotsFit hslots
    have := hparts hff
    rw [if_pos hslots] at hstart
    constructor
    · split at hstart
      · cases hstart
        exact Nat.zero_le _
      · cases hstart
        exact hge
    · split
      · omega
      · exact hlt
  · have hext := heff.ext.2 ⟨hflag, hoff⟩
    have hfit := heff.extFits hext
    rw [if_pos hext] at hstart
    refine ⟨?_, by rw [if_pos hext]; exact hx⟩
    split at hstart
    · cases hstart
      exact Nat.zero_le _
    · split at hstart
      · cases hstart
        omega
      · cases hstart
        exact hge

/-- An update that comes to nothing names no part. -/
theorem not_inParts_of_nothing {eff : HfFlags} (heff : Effective h flags eff) (hstart : h.updateStart eff = none)
    (x : Nat) : ¬ InParts flags h x := by
  unfold DcHeader.updateStart at hstart
  split at hstart
  · cases hstart
  · rename_i hbase
    split at hstart
    · cases hstart
    · rename_i hslots
      split at hstart
      · cases hstart
      · rename_i hext
        rintro (⟨hflag, -⟩ | ⟨hflag, hff, -⟩ | ⟨hflag, hoff, -⟩)
        · exact hbase (heff.base.trans hflag)
        · exact hslots (heff.slots.2 ⟨hflag, hff⟩)
        · exact hext (heff.ext.2 ⟨hflag, hoff⟩)

end Range

/-! ## Headers on a device -/

theorem ValidV2.memLen {h : DcHeader} (hv : ValidV2 h) : h.memLen = h.headLen := if_pos hv.isV2

/-- What a write that has succeeded has gone through. -/
theorem sealAndWrite_ok {dev dev' : DcDev} {rand junk : Nat → UInt8} {pos : Nat} {h : DcHeader} {key : Xts}
    {flags : HfFlags} {offset length : Nat} (hv : ValidV2 h) (hclear : flags.clearSlots = false)
    (hcover : dcBaseSize < offset + length ∧ offset < dcBaseSize + h.slotAreaLen)
    (hw : sealAndWrite dev rand junk pos h key flags offset length = some (.ok, dev')) :
    h.memLen % xtsSectorSize = 0 ∧ roundToFullSectors h.memLen dev.bps < 2 ^ 31 ∧ h.FlagsEnd h.bytes.length ∧
      pos + offset + length ≤ dev.disk.length := by
  unfold sealAndWrite at hw
  split at hw
  · cases hw
  rename_i hsectors
  split at hw
  · cases hw
  rename_i hint
  obtain ⟨header, hread, hw⟩ := Option.bind_eq_some_iff.1 hw
  obtain ⟨hcopy, hcopyW, hw⟩ := Option.bind_eq_some_iff.1 hw
  obtain ⟨copy, -, hw⟩ := Option.bind_eq_some_iff.1 hw
  obtain ⟨correct, -, hw⟩ := Option.bind_eq_some_iff.1 hw
  split at hw
  · cases hw
  obtain ⟨sealed, hseal, hw⟩ := Option.bind_eq_some_iff.1 hw
  obtain ⟨patched, hpatch, hw⟩ := Option.bind_eq_some_iff.1 hw
  obtain ⟨filled, hfill, hw⟩ := Option.bind_eq_some_iff.1 hw
  obtain ⟨data, hdata, hw⟩ := Option.bind_eq_some_iff.1 hw
  refine ⟨not_not.1 hsectors, Nat.lt_of_not_le hint, fun hc => ?_, ?_⟩
  · -- the slots were put back into a copy that holds the header
    have hlen : h.bytes.length ≤ sealed.length := by
      unfold sealCopy at hseal
      obtain ⟨base, -, hseal⟩ := Option.bind_eq_some_iff.1 hseal
      obtain ⟨enc, -, hseal⟩ := Option.bind_eq_some_iff.1 hseal
      obtain ⟨mid, hmid, hseal⟩ := Option.bind_eq_some_iff.1 hseal
      rw [length_writeAt hseal, length_writeAt hmid, hv.length, ← hv.memLen]
      have hle := writeAt_le hcopyW
      have hheader : header.length = h.memLen := by
        have hroom := (isSome_readAt).1 (Option.isSome_iff_exists.2 ⟨header, hread⟩)
        rw [readAt_eq hroom] at hread
        cases hread
        exact length_slice hroom
      rw [length_writeAt hcopyW]
      omega
    unfold patchKeySlots at hpatch
    rw [if_pos ⟨by rw [hclear]; exact Bool.false_ne_true, hcover⟩] at hpatch
    unfold putKeySlots at hpatch
    rw [if_pos ⟨hv.isV2, hc.1⟩] at hpatch
    obtain ⟨out, hcopyS, -⟩ := Option.map_eq_some_iff.1 hpatch
    exact h.copyFits_iff.1 ((h.isSome_copyKeySlots (.inl (Nat.le_refl _)) hlen).1
      (Option.isSome_iff_exists.2 ⟨out, hcopyS⟩)) hc
  · have hlenData : data.length = length := by
      have hroom := (isSome_readAt).1 (Option.isSome_iff_exists.2 ⟨data, hdata⟩)
      rw [readAt_eq hroom] at hdata
      cases hdata
      exact length_slice hroom
    unfold DcDev.write at hw
    cases hwrite : writeAt dev.disk (pos + offset) data with
    | none =>
      rw [hwrite] at hw
      cases hw
    | some disk =>
      rw [← hlenData]
      exact writeAt_le hwrite

section OnDisk

variable {key : Xts} {h : DcHeader} {pos : Nat} {dev : DcDev} (hv : ValidV2 h)
include hv

theorem writable_of_valid {bps : Nat} (hb : 0 < bps) (hsectors : h.memLen % xtsSectorSize = 0)
    (hint : roundToFullSectors h.memLen bps < 2 ^ 31) (hflags : h.FlagsEnd h.bytes.length) : Writable h bps where
  sector := hb
  min := by rw [hv.memLen, ← hv.length]; exact h.area
  sectors := hsectors
  int := hint
  held := by rw [hv.memLen, hv.length]
  correct := hv.correct
  crc := by
    have hcrc := (DcHeader.crcLen_of_correct hv.correct).2
    rw [hv.length, ← hv.memLen] at hcrc
    exact hcrc
  flags := fun _ => hflags

/-- The device holds the sealed bytes of the header, and the header can be written to it. -/
theorem writtenTo_spec (hb : 0 < dev.bps) (hwritten : WrittenTo key h pos dev) :
    Writable h dev.bps ∧ pos + roundToFullSectors h.memLen dev.bps ≤ dev.disk.length ∧
      ∀ x < h.memLen, dev.disk[pos + x]? = sealedAt key h x := by
  obtain ⟨dev₀, rand, junk, flags, hfull, hbps, hw⟩ := hwritten
  rw [ioWriteHeader_of_full hfull, hbps] at hw
  have hround := le_roundToFullSectors h.memLen hb
  have hmin : 2048 ≤ h.memLen := by rw [hv.memLen, ← hv.length]; exact h.area
  obtain ⟨hsectors, hint, hflags, hroom⟩ := sealAndWrite_ok hv hfull.2 ⟨by change 1024 < _; omega, by change 0 < 1024 + _; omega⟩ hw
  rw [hbps] at hint
  have hwritable := writable_of_valid hv hb hsectors hint hflags
  obtain ⟨disk, hspec, hlen, hat, -⟩ := sealAndWrite_spec dev₀ rand junk pos key _ _
    (by rw [hbps]; exact hwritable) hfull.2
    (by rw [hbps, Nat.zero_add]) (by omega)
  have heq := hw.symm.trans hspec
  cases heq
  exact ⟨hwritable, by change _ ≤ disk.length; omega, fun x hx => hat x (Nat.zero_le _) (by omega) hx⟩

end OnDisk

/-! ## What an update leaves -/

theorem sealedAt_congr {key : Xts} {h₀ h₁ : DcHeader} {x : Nat} (hv : h₀.isV2 = h₁.isV2)
    (hblock : ∀ y, SameBlock x y → h₀.bytes[y]? = h₁.bytes[y]?) (hraw : h₀.Raw x ↔ h₁.Raw x) :
    sealedAt key h₀ x = sealedAt key h₁ x := by
  have hcrypt : cryptAt key.enc h₀.bytes x = cryptAt key.enc h₁.bytes x := by
    unfold cryptAt
    rw [slice_congr fun y hy hlt => hblock y ?_]
    change x / 16 = y / 16
    change 16 * (x / 16) ≤ y at hy
    change y < 16 * (x / 16) + 16 at hlt
    omega
  unfold sealedAt
  rw [hv, hblock x rfl, hcrypt]
  by_cases hx : x < headerSaltSize ∨ h₁.isV2 = true ∧ h₁.Raw x
  · rw [if_pos hx, if_pos (by rw [hraw]; exact hx)]
  · rw [if_neg hx, if_neg (by rw [hraw]; exact hx)]

/-- The same slots cover a byte. -/
theorem raw_congr_at {h₀ h₁ : DcHeader} (hs : SameLayout h₀ h₁) {x : Nat}
    (hd : h₁.Copies → ∀ i < h₁.keySlotCount, h₁.slotOff i ≤ x → x < h₁.slotOff i + h₁.slotSize →
      h₀.disabled i = h₁.disabled i) : h₀.Raw x ↔ h₁.Raw x := by
  constructor
  · rintro ⟨hc, i, hi, hdis, hle, hlt⟩
    rw [hs.slotOff] at hle hlt
    rw [hs.slotSize] at hlt
    have hc := hs.copies.1 hc
    have hi : i < h₁.keySlotCount := hs.keySlotCount ▸ hi
    exact ⟨hc, i, hi, (hd hc i hi hle hlt).symm.trans hdis, hle, hlt⟩
  · rintro ⟨hc, i, hi, hdis, hle, hlt⟩
    refine ⟨hs.copies.2 hc, i, hs.keySlotCount.symm ▸ hi, (hd hc i hi hle hlt).trans hdis, ?_, ?_⟩
    · rw [hs.slotOff]
      exact hle
    · rw [hs.slotOff, hs.slotSize]
      exact hlt

section Update

variable {h₀ h₁ : DcHeader} {bps : Nat} {flags : HfFlags} (hv₀ : ValidV2 h₀) (hv₁ : ValidV2 h₁)
  (hs : SameLayout h₀ h₁) (hcover : Covers flags h₀ h₁)
include hv₀ hv₁ hs hcover

/-- A byte no flag names is the same in both headers. -/
theorem bytes_eq_of_not_inParts {x : Nat} (hx : ¬ InParts flags h₁ x) : h₀.bytes[x]? = h₁.bytes[x]? := by
  by_cases hlt : x < h₁.headLen
  · by_contra hne
    exact hx (hcover x hlt hne)
  · rw [List.getElem?_eq_none (by rw [hv₀.length, hs.headLen]; omega),
      List.getElem?_eq_none (by rw [hv₁.length]; omega)]

/-- A slot that changes sides lies in the sectors that are written. -/
theorem raw_outside (hb : 0 < bps) (hstay : SlotsStay h₀ h₁ bps flags) {eff : HfFlags} (heff : Effective h₁ flags eff)
    {start : Nat} (hstart : h₁.updateStart eff = some start) {x : Nat} (hx : x < h₁.headLen)
    (hout : ¬ (start / bps * bps ≤ x ∧
      x < start / bps * bps + roundToFullSectors (h₁.updateEnd eff - start / bps * bps) bps)) :
    h₀.Raw x ↔ h₁.Raw x := by
  refine raw_congr_at hs fun hc i hi hle hlt => ?_
  by_contra hne
  have hslot := h₁.slotOff_add_le hi
  have hslotOff : dcBaseSize ≤ h₁.slotOff i := Nat.le_add_right _ _
  have hinfo := h₁.le_infoOff i
  have hsum : h₁.slotAreaLen ≤ h₁.slotsLen := Nat.le_add_right _ _
  -- the flag of the slot is a byte of one of the parts
  have hflag : InParts flags h₁ (h₁.infoOff i + 4) := by
    by_contra hno
    refine hne ?_
    rw [DcHeader.disabled_eq, DcHeader.disabled_eq, hs.infoOff, bytes_eq_of_not_inParts hv₀ hv₁ hs hcover hno]
  have hslots : flags.updateSlots = false := by
    by_contra hset
    refine hout (inRange_of_inParts heff hb hstart hx (.inr (.inl ⟨?_, hc.1, by omega, by omega⟩)))
    exact Bool.eq_true_of_not_eq_false hset
  rcases hflag with ⟨-, hlow⟩ | ⟨hset, -⟩ | ⟨hext, hoff, hge⟩
  · omega
  · exact Bool.false_ne_true (hslots.symm.trans hset)
  · have heffExt := heff.ext.2 ⟨hext, hoff⟩
    have hfit := heff.extFits heffExt
    have hdown := Nat.div_mul_le_self start bps
    have hround := le_roundToFullSectors (h₁.updateEnd eff - start / bps * bps) hb
    have hend : h₁.updateEnd eff = h₁.headLen := by
      unfold DcHeader.updateEnd
      rw [if_pos heffExt]
    have heffSlots : ¬ eff.updateSlots = true := fun h => Bool.false_ne_true (hslots.symm.trans (heff.slots.1 h).1)
    unfold DcHeader.updateStart at hstart
    rw [if_neg heffSlots, if_pos heffExt] at hstart
    refine hout ⟨?_, by omega⟩
    by_cases hbase : eff.updateBase = true
    · rw [if_pos hbase] at hstart
      cases hstart
      rw [Nat.zero_div, Nat.zero_mul]
      exact Nat.zero_le _
    · rw [if_neg hbase] at hstart
      cases hstart
      have hbase : flags.updateBase = false := by
        rw [← heff.base]
        exact Bool.eq_false_iff.2 hbase
      exact (hstay hbase hslots hext hfit.2 hfit.1 hc (by omega) i hi hne).trans hle

/-- Outside of the sectors that are written both headers are sealed to the same bytes. -/
theorem sealedAt_outside (hb : 0 < bps) (hsector : xtsSectorSize ∣ bps) (hmod : h₁.headLen % xtsSectorSize = 0)
    (hstay : SlotsStay h₀ h₁ bps flags) {eff : HfFlags} (heff : Effective h₁ flags eff) {start : Nat}
    (hstart : h₁.updateStart eff = some start) (key : Xts) {x : Nat} (hx : x < h₁.headLen)
    (hout : ¬ (start / bps * bps ≤ x ∧
      x < start / bps * bps + roundToFullSectors (h₁.updateEnd eff - start / bps * bps) bps)) :
    sealedAt key h₀ x = sealedAt key h₁ x := by
  refine sealedAt_congr (hv₀.isV2.trans hv₁.isV2.symm) (fun y hy => ?_)
    (raw_outside hv₀ hv₁ hs hcover hb hstay heff hstart hx hout)
  refine bytes_eq_of_not_inParts hv₀ hv₁ hs hcover fun hin => hout ?_
  have hoff : start / bps * bps % 512 = 0 := Nat.mod_eq_zero_of_dvd (hsector.trans (Nat.dvd_mul_left _ _))
  have hlen : roundToFullSectors (h₁.updateEnd eff - start / bps * bps) bps % 512 = 0 :=
    Nat.mod_eq_zero_of_dvd (hsector.trans (dvd_roundToFullSectors _ _))
  have hblock : x / 16 = y / 16 := hy
  have hylt : y < h₁.headLen := by
    change h₁.headLen % 512 = 0 at hmod
    omega
  have hrange := inRange_of_inParts heff hb hstart hylt hin
  omega

/-- The update is refused, or the device is left as by a full write. -/
theorem partialAsFull_of_slotsStay (hb : 0 < bps) (hsector : xtsSectorSize ∣ bps)
    (hclear : flags.clearSlots = false) (hstay : SlotsStay h₀ h₁ bps flags) : PartialAsFull h₀ h₁ bps flags := by
  intro key pos dev hbps hwritten rand junk
  subst hbps
  obtain ⟨hw₀, hroom, hdisk⟩ := writtenTo_spec hv₀ hb hwritten
  have hmem : h₀.memLen = h₁.memLen := by rw [hv₀.memLen, hs.headLen, hv₁.memLen]
  have hbytes : h₀.bytes.length = h₁.bytes.length := by rw [hv₀.length, hs.headLen, hv₁.length]
  have hw₁ : Writable h₁ dev.bps := writable_of_valid hv₁ hb (hmem ▸ hw₀.sectors) (hmem ▸ hw₀.int)
    ((hs.flagsEnd _).1 (hbytes ▸ hw₀.flags hv₀.isV2))
  rw [hmem] at hroom hdisk
  have hround := le_roundToFullSectors h₁.memLen hb
  -- what the full write leaves
  have hfullWrite : ∀ rand junk full, HfFlags.Full full → ∃ devFull : DcDev,
      ioWriteHeader dev rand junk pos h₁ key full = some (.ok, devFull) ∧
        ∀ x < h₁.headLen, devFull.disk[pos + x]? = sealedAt key h₁ x := by
    intro rand junk full hfull
    obtain ⟨disk, hwrite, hat⟩ := ioWriteHeader_writable _ hw₁ hroom rand junk hfull
    exact ⟨_, hwrite, fun x hx => hat x (by rw [hv₁.memLen]; exact hx)⟩
  have hsame : ∀ dev' : DcDev, (∀ x < h₁.headLen, dev'.disk[pos + x]? = sealedAt key h₁ x) →
      ∀ rand junk full, HfFlags.Full full → ∃ devFull : DcDev,
        ioWriteHeader dev rand junk pos h₁ key full = some (.ok, devFull) ∧
          slice dev'.disk pos h₁.headLen = slice devFull.disk pos h₁.headLen := by
    intro dev' hat rand junk full hfull
    obtain ⟨devFull, hwrite, hatFull⟩ := hfullWrite rand junk full hfull
    refine ⟨devFull, hwrite, slice_congr fun y hle hlt => ?_⟩
    obtain ⟨x, rfl⟩ := Nat.exists_eq_add_of_le hle
    rw [hat x (by omega), hatFull x (by omega)]
  by_cases hpart : h₁.isV2 = true ∧ flags.isPartial = true
  · have hrange : h₁.writeRange dev.bps flags = h₁.updateRange dev.bps flags := if_pos hpart
    have hnoClear : ¬ (h₁.isV2 = true ∧ flags.clearSlots = true ∧ h₁.ffKeySlots = true) := by
      rw [hclear]
      exact fun h => Bool.false_ne_true h.2.1
    rcases updateRange_cases h₁ dev.bps flags with herr | ⟨eff, heff, hcase⟩
    · refine ⟨.invVolume, dev, ?_, .inl ⟨by decide, rfl⟩⟩
      unfold ioWriteHeader
      rw [hrange, herr]
    · rcases hcase with ⟨hnone, hnothing⟩ | ⟨start, hstart, hlast, hsectors⟩
      · refine ⟨.ok, dev, ?_, .inr (hsame dev fun x hx => ?_)⟩
        · unfold ioWriteHeader
          rw [hrange, hnothing]
        · have heq : ∀ y : Nat, h₀.bytes[y]? = h₁.bytes[y]? := fun y =>
            bytes_eq_of_not_inParts hv₀ hv₁ hs hcover (not_inParts_of_nothing heff hnone y)
          rw [hdisk x (by rw [hv₁.memLen]; exact hx)]
          refine sealedAt_congr (hv₀.isV2.trans hv₁.isV2.symm) (fun y _ => heq y) (raw_congr_at hs fun _ i _ _ _ => ?_)
          rw [DcHeader.disabled_eq, DcHeader.disabled_eq, hs.infoOff, heq]
      · obtain ⟨disk, hwrite, -, hin, hout⟩ := sealAndWrite_spec dev rand junk pos key
          (start / dev.bps * dev.bps)
          (roundToFullSectors (h₁.updateEnd eff - start / dev.bps * dev.bps) dev.bps) hw₁ hclear
          (by rw [← hv₁.memLen] at hlast; omega) (by rw [← hv₁.memLen] at hlast; omega)
        refine ⟨.ok, { dev with disk }, ?_, .inr (hsame _ fun x hx => ?_)⟩
        · unfold ioWriteHeader
          rw [hrange, hsectors]
          simp only [if_neg hnoClear, Option.bind_eq_bind, Option.bind_some, hwrite]
        · have hxmem : x < h₁.memLen := by rw [hv₁.memLen]; exact hx
          by_cases hrange : start / dev.bps * dev.bps ≤ x ∧ x < start / dev.bps * dev.bps +
              roundToFullSectors (h₁.updateEnd eff - start / dev.bps * dev.bps) dev.bps
          · exact hin x hrange.1 hrange.2 hxmem
          · change disk[pos + x]? = _
            rw [hout _ (by omega), hdisk x hxmem]
            exact sealedAt_outside hv₀ hv₁ hs hcover hb hsector (hv₁.memLen ▸ hw₁.sectors) hstay heff hstart key hx hrange
  · have hfull : flags.Full := by
      refine ⟨Bool.eq_false_iff.2 fun h => hpart ⟨hv₁.isV2, h⟩, hclear⟩
    obtain ⟨devFull, hwrite, hat⟩ := hfullWrite rand junk flags hfull
    exact ⟨.ok, devFull, hwrite, .inr (hsame devFull hat)⟩

end Update

/-! ## What it takes -/

theorem roundToFullSectors_of_dvd {len bps : Nat} (hb : 0 < bps) (hd : bps ∣ len) : roundToFullSectors len bps = len := by
  obtain ⟨k, rfl⟩ := hd
  unfold roundToFullSectors
  rw [Nat.add_sub_assoc hb, Nat.mul_add_div hb, Nat.div_eq_of_lt (by omega), Nat.add_zero, Nat.mul_comm]

/-- The sectors of an update of the extended header alone. -/
theorem updateRange_ext {h : DcHeader} {bps : Nat} {flags : HfFlags} (hb : 0 < bps) (hd : bps ∣ h.headLen)
    (hbase : flags.updateBase = false) (hslots : flags.updateSlots = false) (hext : flags.updateExt = true)
    (hparts : h.partsLen ≤ h.extHdrOff) (hfit : h.extHdrOff + minExtHdrSize < h.headLen) :
    h.updateRange bps flags =
      .ok (.sectors (h.extHdrOff / bps * bps) (h.headLen - h.extHdrOff / bps * bps)) := by
  have hdown := Nat.div_mul_le_self h.extHdrOff bps
  have hlow : dcBaseSize ≤ h.partsLen := Nat.le_add_right _ _
  have hne : h.extHdrOff ≠ 0 := by
    intro hzero
    rw [hzero] at hparts
    change 1024 ≤ h.partsLen at hlow
    omega
  have hcheckExt : h.checkExt flags = .ok flags := by
    unfold DcHeader.checkExt
    rw [if_pos hext, if_neg hne, if_neg (by omega)]
  have hcheckSlots : h.checkSlots flags = .ok flags := by
    unfold DcHeader.checkSlots
    rw [if_neg (by rw [hslots]; exact Bool.false_ne_true)]
  have hstart : h.updateStart flags = some h.extHdrOff := by
    unfold DcHeader.updateStart
    rw [if_neg (by rw [hbase]; exact Bool.false_ne_true), if_neg (by rw [hslots]; exact Bool.false_ne_true), if_pos hext]
  have hend : h.updateEnd flags = h.headLen := by
    unfold DcHeader.updateEnd
    rw [if_pos hext]
  have hround : roundToFullSectors (h.headLen - h.extHdrOff / bps * bps) bps = h.headLen - h.extHdrOff / bps * bps :=
    roundToFullSectors_of_dvd hb (Nat.dvd_sub hd (Nat.dvd_mul_left _ _))
  unfold DcHeader.updateRange
  simp only [bind, Except.bind, hcheckExt, hcheckSlots, hstart, hend, hround]
  rw [if_neg (by omega)]

/-- The first byte of a slot is in the clear if this slot is. -/
theorem raw_slotOff {h : DcHeader} {i : Nat} (hc : h.Copies) (hi : i < h.keySlotCount) (hsize : h.slotSize ≠ 0) :
    h.Raw (h.slotOff i) ↔ h.disabled i = false := by
  constructor
  · rintro ⟨-, j, -, hd, hle, hlt⟩
    have hij : j = i := by
      unfold DcHeader.slotOff at hle hlt
      have hle' : h.slotSize * j ≤ h.slotSize * i := Nat.le_of_add_le_add_left hle
      have hlt' : h.slotSize * i < h.slotSize * (j + 1) := by
        rw [Nat.mul_succ]
        omega
      have hji := Nat.le_of_mul_le_mul_left hle' (Nat.pos_of_ne_zero hsize)
      have hij := Nat.lt_of_mul_lt_mul_left hlt'
      omega
    exact hij ▸ hd
  · exact fun hd => ⟨hc, i, hi, hd, Nat.le_refl _, by omega⟩

section Needed

variable {h₀ h₁ : DcHeader} {bps : Nat} {flags : HfFlags} (hv₀ : ValidV2 h₀) (hv₁ : ValidV2 h₁)
  (hs : SameLayout h₀ h₁) (hcover : Covers flags h₀ h₁)
include hv₀ hv₁ hs hcover

theorem slotsStay_of_partialAsFull (hb : 0 < bps) (hd : bps ∣ h₁.headLen) (hclear : flags.clearSlots = false)
    (hw₀ : Writable h₀ bps) (hp : PartialAsFull h₀ h₁ bps flags) : SlotsStay h₀ h₁ bps flags := by
  intro hbase hslots hext hparts hfit hc hsize i hi hne
  by_contra hlt
  have hlt := Nat.lt_of_not_le hlt
  have hdown := Nat.div_mul_le_self h₁.extHdrOff bps
  have hlow : dcBaseSize ≤ h₁.slotOff i := Nat.le_add_right _ _
  have hmem : h₀.memLen = h₁.memLen := by rw [hv₀.memLen, hs.headLen, hv₁.memLen]
  have hbytes : h₀.bytes.length = h₁.bytes.length := by rw [hv₀.length, hs.headLen, hv₁.length]
  have hw₁ : Writable h₁ bps := writable_of_valid hv₁ hb (hmem ▸ hw₀.sectors) (hmem ▸ hw₀.int)
    ((hs.flagsEnd _).1 (hbytes ▸ hw₀.flags hv₀.isV2))
  have hround : roundToFullSectors h₁.memLen bps = h₁.headLen := by
    rw [hv₁.memLen]
    exact roundToFullSectors_of_dvd hb hd
  -- a device with the old header, under a key that changes the first byte of the slot
  have hfull : HfFlags.Full ⟨false, false, false, false⟩ := ⟨rfl, rfl⟩
  obtain ⟨disk₀, hwrite₀, hat₀⟩ := ioWriteHeader_writable
    ⟨List.replicate (roundToFullSectors h₀.memLen bps) 0, bps, 0⟩ hw₀
    (by rw [List.length_replicate, Nat.zero_add]) (fun _ => 0) (fun _ => 0) hfull
  have hwritten : WrittenTo (flip (h₁.slotOff i)) h₀ 0 ⟨disk₀, bps, 0⟩ :=
    ⟨⟨List.replicate (roundToFullSectors h₀.memLen bps) 0, bps, 0⟩, _, _, _, hfull, rfl, hwrite₀⟩
  obtain ⟨-, hroom, hdisk⟩ := writtenTo_spec hv₀ hb hwritten
  rw [hmem, hround] at hroom
  -- the update leaves the slot alone, the full write does not
  obtain ⟨status, dev', hupdate, hcase⟩ := hp _ 0 _ rfl hwritten (fun _ => 0) (fun _ => 0)
  obtain ⟨disk, hwrite, -, -, hout⟩ := sealAndWrite_spec ⟨disk₀, bps, 0⟩ (fun _ => 0) (fun _ => 0) 0
    (flip (h₁.slotOff i)) (h₁.extHdrOff / bps * bps)
    (h₁.headLen - h₁.extHdrOff / bps * bps) hw₁ hclear (by change _ ≤ roundToFullSectors h₁.memLen bps; omega)
    (by change _ ≤ disk₀.length; change 0 + h₁.headLen ≤ disk₀.length at hroom; omega)
  have hupdate' : ioWriteHeader ⟨disk₀, bps, 0⟩ (fun _ => 0) (fun _ => 0) 0 h₁ (flip (h₁.slotOff i)) flags =
      some (.ok, ⟨disk, bps, 0⟩) := by
    have hpart : flags.isPartial = true := by
      unfold HfFlags.isPartial
      rw [hbase, hslots, hext]
      rfl
    have hrange : h₁.writeRange bps flags = h₁.updateRange bps flags := if_pos ⟨hv₁.isV2, hpart⟩
    unfold ioWriteHeader
    rw [hrange, updateRange_ext hb hd hbase hslots hext hparts hfit]
    simp only [if_neg (show ¬ (h₁.isV2 = true ∧ flags.clearSlots = true ∧ h₁.ffKeySlots = true) by
      rw [hclear]; exact fun h => Bool.false_ne_true h.2.1), Option.bind_eq_bind, Option.bind_some, hwrite]
  have heq := hupdate.symm.trans hupdate'
  cases heq
  rcases hcase with ⟨hbad, -⟩ | hsame
  · exact hbad rfl
  obtain ⟨devFull, hwriteFull, hslice⟩ := hsame (fun _ => 0) (fun _ => 0) _ hfull
  obtain ⟨diskFull, hwriteFull', hatFull⟩ := ioWriteHeader_writable
    ⟨disk₀, bps, 0⟩ hw₁ (by rw [hround]; exact hroom) (fun _ => 0) (fun _ => 0) hfull
  have heq := hwriteFull.symm.trans hwriteFull'
  cases heq
  have hxlt : h₁.slotOff i < h₁.headLen := by omega
  have hget := congrArg (·[h₁.slotOff i]?) hslice
  simp only [getElem?_slice, if_pos hxlt, Nat.zero_add] at hget
  have hbefore : disk[h₁.slotOff i]? = sealedAt (flip (h₁.slotOff i)) h₀ (h₁.slotOff i) := by
    rw [hout _ (by omega)]
    have := hdisk (h₁.slotOff i) (by rw [hmem, hv₁.memLen]; exact hxlt)
    rwa [Nat.zero_add] at this
  have hafter : diskFull[h₁.slotOff i]? = sealedAt (flip (h₁.slotOff i)) h₁ (h₁.slotOff i) := by
    have := hatFull (h₁.slotOff i) (by rw [hv₁.memLen]; exact hxlt)
    rwa [Nat.zero_add] at this
  -- but the byte is in the clear in one of the headers only
  have hbyte : h₀.bytes[h₁.slotOff i]? = h₁.bytes[h₁.slotOff i]? := by
    refine bytes_eq_of_not_inParts hv₀ hv₁ hs hcover ?_
    rintro (⟨hset, -⟩ | ⟨hset, -⟩ | ⟨-, -, hge⟩)
    · exact Bool.false_ne_true (hbase.symm.trans hset)
    · exact Bool.false_ne_true (hslots.symm.trans hset)
    · omega
  have hraw₀ : h₀.Raw (h₁.slotOff i) ↔ h₀.disabled i = false := by
    have hslot := raw_slotOff (hs.copies.2 hc) (hs.keySlotCount.symm ▸ hi : i < h₀.keySlotCount)
      (by rw [hs.slotSize]; exact hsize)
    rwa [hs.slotOff] at hslot
  have hraw₁ := raw_slotOff hc hi hsize
  have hnoSalt : ¬ h₁.slotOff i < headerSaltSize := by
    change 1024 ≤ h₁.slotOff i at hlow
    change ¬ h₁.slotOff i < 64
    omega
  have hclash : sealedAt (flip (h₁.slotOff i)) h₀ (h₁.slotOff i) ≠ sealedAt (flip (h₁.slotOff i)) h₁ (h₁.slotOff i) := by
    unfold sealedAt
    rw [cryptAt_flip, cryptAt_flip, if_pos rfl, if_pos rfl, hbyte]
    have hchanged := map_xor_one_ne (x := h₁.slotOff i) (by rw [hv₁.length]; exact hxlt)
    cases hd₀ : h₀.disabled i with
    | false =>
      have hd₁ : h₁.disabled i ≠ false := fun h => hne (hd₀.trans h.symm)
      rw [if_pos (.inr ⟨hv₀.isV2, hraw₀.2 hd₀⟩), if_neg (not_or.2 ⟨hnoSalt, fun h => hd₁ (hraw₁.1 h.2)⟩)]
      exact hchanged.symm
    | true =>
      have hd₁ : h₁.disabled i = false := by
        cases h : h₁.disabled i with
        | false => rfl
        | true => exact absurd (hd₀.trans h.symm) hne
      rw [if_neg (not_or.2 ⟨hnoSalt, fun h => Bool.false_ne_true ((hraw₀.1 h.2).symm.trans hd₀)⟩),
        if_pos (.inr ⟨hv₁.isV2, hraw₁.2 hd₁⟩)]
      exact hchanged
  exact hclash (hbefore.symm.trans (hget.trans hafter))

end Needed

/-- An update of some parts of a header on a device is as good as a full write exactly if it takes no slot outside of
its sectors into or out of the clear. -/
theorem partialAsFull_iff_slotsStay {h₀ h₁ : DcHeader} {bps : Nat} {flags : HfFlags} (hv₀ : ValidV2 h₀)
    (hv₁ : ValidV2 h₁) (hs : SameLayout h₀ h₁) (hcover : Covers flags h₀ h₁) (hclear : flags.clearSlots = false)
    (hb : 0 < bps) (hsector : xtsSectorSize ∣ bps) (hd : bps ∣ h₁.headLen)
    (hon : ∃ key pos dev, dev.bps = bps ∧ WrittenTo key h₀ pos dev) :
    PartialAsFull h₀ h₁ bps flags ↔ SlotsStay h₀ h₁ bps flags := by
  refine ⟨fun hp => ?_, partialAsFull_of_slotsStay hv₀ hv₁ hs hcover hb hsector hclear⟩
  obtain ⟨key, pos, dev, hbps, hwritten⟩ := hon
  obtain ⟨hw₀, -, -⟩ := writtenTo_spec hv₀ (by rw [hbps]; exact hb) hwritten
  exact slotsStay_of_partialAsFull hv₀ hv₁ hs hcover hb hd hclear (hbps ▸ hw₀) hp

/-- A header with one slot and a descriptor of 4 bytes: the flags of the slot are in the extended header. -/
def shortInfo (flags : UInt8) : DcHeader where
  bytes := (List.range dcAreaSize).map fun x => if x = 1540 then flags else match x with
    | 0 => 1
    | 64 => 0x44 | 65 => 0x43 | 66 => 0x52 | 67 => 0x50
    | 68 => 0x8A | 69 => 0xD8 | 70 => 0xAD | 71 => 0xEB
    | 72 => 3
    | 615 => 8
    | 627 => 59
    | 628 => 1
    | 632 => 4 | 633 => 6 | 636 => 2 | 637 => 1 | 638 => 4
    | _ => 0
  area := by rw [List.length_map, List.length_range]

def extOnly : HfFlags := ⟨false, false, true, false⟩

section ShortInfo

variable (a b : UInt8)

theorem length_shortInfo : (shortInfo a).bytes.length = dcAreaSize := by
  rw [shortInfo, List.length_map, List.length_range]

/-- The flags are the only difference. -/
theorem shortInfo_eq {x : Nat} (hx : x ≠ 1540) : (shortInfo a).bytes[x]? = (shortInfo b).bytes[x]? := by
  unfold shortInfo
  rw [List.getElem?_map, List.getElem?_map]
  by_cases hlt : x < dcAreaSize
  · rw [List.getElem?_range hlt, Option.map_some, Option.map_some, if_neg hx, if_neg hx]
  · rw [List.getElem?_eq_none (by rw [List.length_range]; omega)]
    rfl

theorem shortInfo_fields : DcHeader.SameFields (shortInfo a) (shortInfo b) :=
  DcHeader.sameFields fun x _ hx => shortInfo_eq a b (by change x < 1024 at hx; omega)

/-- What the readers find in it. -/
theorem shortInfo_read : (shortInfo 0).isV2 = true ∧ (shortInfo 0).headLen = 2048 ∧ (shortInfo 0).isVolumeHeaderCorrect = some true ∧
    (shortInfo 0).crcLen = 8 ∧ (shortInfo 0).extHdrOff = 1540 ∧ (shortInfo 0).memLen = 2048 ∧ (shortInfo 0).infoOff 0 = 1536 := by
  decide +kernel

/-- The key slot in it. -/
theorem shortInfo_slot : (shortInfo 0).keySlotCount = 1 ∧ (shortInfo 0).Copies ∧ (shortInfo 0).slotSize ≠ 0 ∧
    (shortInfo 0).partsLen ≤ 1540 ∧ (shortInfo 0).slotOff 0 < 1536 := by
  decide +kernel

theorem validV2_shortInfo : ValidV2 (shortInfo a) := by
  have hs := shortInfo_fields 0 a
  rcases shortInfo_read with ⟨hv2, hhead, hbase, hcrc, -⟩
  refine ⟨?_, ?_, ?_⟩
  · rw [← hs.isV2, hv2]
  · rw [length_shortInfo, ← hs.headLen, hhead]
  · rw [← hbase]
    refine (DcHeader.isVolumeHeaderCorrect_congr _
      (fun x _ hx => shortInfo_eq 0 a (by change x < 1024 at hx; omega)) (Nat.le_refl _) (by rw [hcrc]; decide)
      (by rw [length_shortInfo]; decide) (by rw [length_shortInfo]; decide) ?_).symm
    unfold DcHeader.salt
    rw [slice_congr fun x _ hx => shortInfo_eq 0 a (by change x < 0 + 64 at hx; omega)]

theorem sameLayout_shortInfo : SameLayout (shortInfo a) (shortInfo b) := by
  have hs := shortInfo_fields a b
  refine ⟨?_, hs.headLen, hs.ffKeySlots, hs.slotAreaLen, hs.keySlotCount, hs.slotInfoSize, hs.extHdrOff⟩
  unfold DcHeader.salt
  exact slice_congr fun x _ hx => shortInfo_eq a b (by change x < 0 + 64 at hx; omega)

theorem covers_shortInfo : Covers extOnly (shortInfo a) (shortInfo b) := by
  have hoff : (shortInfo b).extHdrOff = 1540 := by
    rw [(shortInfo_fields b 0).extHdrOff, shortInfo_read.2.2.2.2.1]
  intro x _ hne
  have hx : x = 1540 := by
    by_contra hx
    exact hne (shortInfo_eq a b hx)
  exact .inr (.inr ⟨rfl, by rw [hoff]; decide, by rw [hoff, hx]⟩)

theorem writable_shortInfo : Writable (shortInfo a) 512 := by
  have hs := shortInfo_fields a 0
  have hv := validV2_shortInfo a
  rcases shortInfo_read with ⟨-, -, -, -, -, hmem, hinfo⟩
  refine writable_of_valid hv (by decide) ?_ ?_ ((hs.flagsEnd _).2 ?_)
  · rw [hs.memLen, hmem]
    decide
  · rw [hs.memLen, hmem]
    decide
  · rw [length_shortInfo]
    intro _
    rw [shortInfo_slot.1, hinfo]
    decide

theorem writtenTo_shortInfo : ∃ key pos dev, dev.bps = 512 ∧ WrittenTo key (shortInfo a) pos dev := by
  have hfull : HfFlags.Full ⟨false, false, false, false⟩ := ⟨rfl, rfl⟩
  have hlen : roundToFullSectors (shortInfo a).memLen 512 = 2048 := by
    rw [(shortInfo_fields a 0).memLen, shortInfo_read.2.2.2.2.2.1]
    decide
  obtain ⟨disk, hwrite, -⟩ := ioWriteHeader_writable ⟨List.replicate 2048 0, 512, 0⟩
    (writable_shortInfo a) (by rw [List.length_replicate, hlen]) (fun _ => 0) (fun _ => 0) hfull
  exact ⟨plain, 0, ⟨disk, 512, 0⟩, rfl, ⟨List.replicate 2048 0, 512, 0⟩, _, _, _, hfull, rfl, hwrite⟩

theorem disabled_shortInfo : (shortInfo a).disabled 0 = DcHeader.disabledIn (some a) := by
  have hoff : (shortInfo a).infoOff 0 + 4 = 1540 := by
    rw [(shortInfo_fields a 0).infoOff, shortInfo_read.2.2.2.2.2.2]
  rw [DcHeader.disabled_eq, hoff]
  unfold shortInfo
  rw [List.getElem?_map, List.getElem?_range (by decide), Option.map_some, if_pos rfl]

end ShortInfo

/-- `SF_ACTIVE` of a slot can be set by an update of the extended header. -/
theorem partialAsFull_shortInfo : PartialAsFull (shortInfo 0) (shortInfo 1) 512 extOnly := by
  have hv := validV2_shortInfo 1
  refine (partialAsFull_iff_slotsStay (validV2_shortInfo 0) hv (sameLayout_shortInfo 0 1) (covers_shortInfo 0 1) rfl
    (by decide) (Nat.dvd_refl _) ?_ (writtenTo_shortInfo 0)).2 fun _ _ _ _ _ _ _ i hi hne => ?_
  · rw [← hv.length, length_shortInfo]
    decide
  · have hcount : (shortInfo 1).keySlotCount = 1 := by
      rw [(shortInfo_fields 1 0).keySlotCount, shortInfo_slot.1]
    have hzero : i = 0 := by omega
    rw [hzero, disabled_shortInfo, disabled_shortInfo] at hne
    exact absurd (by decide) hne

/-- `SF_DISABLED` cannot: the slot stays in the clear on the device. -/
theorem not_partialAsFull_shortInfo : ValidV2 (shortInfo 0) ∧ ValidV2 (shortInfo 2) ∧
    SameLayout (shortInfo 0) (shortInfo 2) ∧ Covers extOnly (shortInfo 0) (shortInfo 2) ∧
      512 ∣ (shortInfo 2).headLen ∧ (∃ key pos dev, dev.bps = 512 ∧ WrittenTo key (shortInfo 0) pos dev) ∧
        ¬ PartialAsFull (shortInfo 0) (shortInfo 2) 512 extOnly := by
  have hv := validV2_shortInfo 2
  have hd : 512 ∣ (shortInfo 2).headLen := by
    rw [← hv.length, length_shortInfo]
    decide
  refine ⟨validV2_shortInfo 0, hv, sameLayout_shortInfo 0 2, covers_shortInfo 0 2, hd, writtenTo_shortInfo 0,
    fun hp => ?_⟩
  have hl := sameLayout_shortInfo 2 0
  have hoff : (shortInfo 2).extHdrOff = 1540 := by
    rw [hl.extHdrOff, shortInfo_read.2.2.2.2.1]
  rcases shortInfo_slot with ⟨hcount, hcopies, hsize, hparts, hslot⟩
  have hlen : (shortInfo 2).partsLen = (shortInfo 0).partsLen := by
    unfold DcHeader.partsLen
    rw [hl.ffKeySlots, hl.slotsLen]
  have hstay := slotsStay_of_partialAsFull (validV2_shortInfo 0) hv (sameLayout_shortInfo 0 2) (covers_shortInfo 0 2)
    (by decide) hd rfl (writable_shortInfo 0) hp rfl rfl rfl (by rw [hoff, hlen]; exact hparts) (by rw [hoff, ← hv.length, length_shortInfo]; decide)
    (hl.copies.2 hcopies) (by rw [hl.slotSize]; exact hsize) 0 (by rw [hl.keySlotCount, hcount]; decide)
    (by rw [disabled_shortInfo, disabled_shortInfo]; decide)
  rw [hoff, hl.slotOff] at hstay
  omega

end MajorPrivacy.Volume

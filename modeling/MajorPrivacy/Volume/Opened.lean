/-
What the readers get back from a sealed header. Each part of a reader is described byte by byte; a
byte that was not left in the clear comes back by decryption if its block holds no byte that was.
-/
import MajorPrivacy.Volume.Sealed

namespace MajorPrivacy.Volume

open LittleEndian Memory

theorem DcHeader.ofBytes_eq {mem : Bytes} (h : dcAreaSize ≤ mem.length) : DcHeader.ofBytes mem = some ⟨mem, h⟩ :=
  dif_pos h

/-! ## The parts of a reader -/

theorem openBase_spec (key : Xts) (raw mem : Bytes) (hraw : dcAreaSize ≤ raw.length) (hmem : dcAreaSize ≤ mem.length) :
    ∃ h, openBase key raw mem = some h ∧ h.bytes.length = mem.length ∧
      ∀ x, h.bytes[x]? = if x < dcAreaSize then cryptAt key.dec raw x else mem[x]? := by
  obtain ⟨base, hbase, hlen, hat⟩ := xtsRun_slice key.length_dec raw 0 dcAreaSize
    rfl rfl (by decide) (by omega)
  obtain ⟨out, hw⟩ := writeAt_eq mem 0 base (by omega)
  have hout : dcAreaSize ≤ out.length := by rw [length_writeAt hw]; exact hmem
  refine ⟨⟨out, hout⟩, ?_, length_writeAt hw, fun x => ?_⟩
  · unfold openBase xtsDecrypt
    rw [readAt_eq (by omega)]
    simp only [Option.bind_eq_bind, Option.bind_some, hbase, hw, DcHeader.ofBytes_eq hout]
  · rw [getElem?_writeAt hw, hlen]
    by_cases hx : x < dcAreaSize
    · rw [if_pos (by omega), if_pos hx, Nat.sub_zero, hat x hx, Nat.zero_add]
    · rw [if_neg (by omega), if_neg hx]

theorem decryptTail_spec (key : Xts) {raw : Bytes} (h : DcHeader) {hdrLen : Nat} (hmod : hdrLen % xtsSectorSize = 0)
    (hraw : hdrLen ≤ raw.length) (hmem : hdrLen ≤ h.bytes.length) :
    ∃ h', decryptTail key raw h hdrLen = some h' ∧ h'.bytes.length = h.bytes.length ∧
      ∀ x, h'.bytes[x]? = if dcAreaSize ≤ x ∧ x < hdrLen then cryptAt key.dec raw x else h.bytes[x]? := by
  unfold decryptTail
  by_cases hlt : dcAreaSize < hdrLen
  · rw [if_pos hlt]
    obtain ⟨tail, htail, hlen, hat⟩ := xtsRun_slice key.length_dec raw dcAreaSize (hdrLen - dcAreaSize) rfl (by change (hdrLen - 2048) % 512 = 0; change hdrLen % 512 = 0 at hmod; omega)
      (by omega) (by omega)
    obtain ⟨out, hw⟩ := writeAt_eq h.bytes dcAreaSize tail (by omega)
    have hout : dcAreaSize ≤ out.length := by rw [length_writeAt hw]; exact h.area
    refine ⟨⟨out, hout⟩, ?_, length_writeAt hw, fun x => ?_⟩
    · unfold xtsTail xtsDecrypt
      rw [readAt_eq (by omega)]
      simp only [Option.bind_eq_bind, Option.bind_some, htail, hw, DcHeader.ofBytes_eq hout]
    · rw [getElem?_writeAt hw, hlen]
      by_cases hx : dcAreaSize ≤ x ∧ x < hdrLen
      · rw [if_pos (by omega), if_pos hx, hat _ (by omega), Nat.add_sub_cancel' hx.1]
      · rw [if_neg (by omega), if_neg hx]
  · rw [if_neg hlt]
    exact ⟨h, rfl, rfl, fun x => (if_neg (by omega)).symm⟩

theorem loadKeySlots_spec (raw : Bytes) (h : DcHeader) (hflags : h.FlagsEnd h.bytes.length)
    (hin : h.Copies → dcBaseSize + h.slotAreaLen ≤ raw.length)
    (hout : h.Copies → dcBaseSize + h.slotAreaLen ≤ h.bytes.length) :
    ∃ h', loadKeySlots raw h = some h' ∧ h'.bytes.length = h.bytes.length ∧
      ∀ x, h'.bytes[x]? = if h.Raw x then raw[x]? else h.bytes[x]? := by
  unfold loadKeySlots
  by_cases hff : h.ffKeySlots = true
  · rw [if_pos hff]
    obtain ⟨out, hcopy, hlen, hx⟩ := h.copyKeySlots_spec hflags hin hout
    have harea : dcAreaSize ≤ out.1.length := by rw [hlen]; exact h.area
    refine ⟨⟨out.1, harea⟩, ?_, hlen, hx⟩
    rw [hcopy, Option.bind_some, DcHeader.ofBytes_eq harea]
  · rw [if_neg hff]
    exact ⟨h, rfl, rfl, fun x => (if_neg fun hx => hff hx.1.1).symm⟩

/-- The reader with a key: the base is checked in the buffer of the caller, with the salt put back. -/
theorem decryptHeaderWithKey_eq (key : Xts) {raw out : Bytes} (hlen : dcAreaSize ≤ raw.length)
    (hmod : raw.length % xtsSectorSize = 0) (hout : out.length = raw.length) :
    ∃ h₁ h₂ : DcHeader,
      (∀ x < dcAreaSize, h₁.bytes[x]? = if x < headerSaltSize then raw[x]? else cryptAt key.dec raw x) ∧
      h₂.bytes.length = raw.length ∧
      (∀ x < raw.length, h₂.bytes[x]? = if x < headerSaltSize then raw[x]? else cryptAt key.dec raw x) ∧
      decryptHeaderWithKey key raw out =
        h₁.isVolumeHeaderCorrect.bind fun correct => if correct then (loadKeySlots raw h₂).map some else some none := by
  have hsaltLt : headerSaltSize ≤ dcAreaSize := by decide
  obtain ⟨h₀, hopen, hlen₀, hat₀⟩ := openBase_spec key raw out (by omega) (by omega)
  have hlenSalt : (slice raw 0 headerSaltSize).length = headerSaltSize := length_slice (by omega)
  obtain ⟨mem, hw⟩ := writeAt_eq h₀.bytes 0 (slice raw 0 headerSaltSize) (by omega)
  have hlenMem := length_writeAt hw
  have harea : dcAreaSize ≤ mem.length := by omega
  have hmem : ∀ x < dcAreaSize, mem[x]? = if x < headerSaltSize then raw[x]? else cryptAt key.dec raw x := by
    intro x hx
    rw [getElem?_writeAt hw, hlenSalt]
    by_cases hlt : x < headerSaltSize
    · rw [if_pos (by omega), if_pos hlt, Nat.sub_zero, getElem?_slice, if_pos hlt, Nat.zero_add]
    · rw [if_neg (by omega), if_neg hlt, hat₀, if_pos hx]
  obtain ⟨h₂, htail, hlen₂, hat₂⟩ := decryptTail_spec key ⟨mem, harea⟩ hmod (Nat.le_refl _)
    (by change raw.length ≤ mem.length; omega)
  change h₂.bytes.length = mem.length at hlen₂
  refine ⟨⟨mem, harea⟩, h₂, hmem, by omega, fun x hx => ?_, ?_⟩
  · rw [hat₂]
    by_cases hge : dcAreaSize ≤ x
    · rw [if_pos ⟨hge, hx⟩, if_neg (by omega)]
    · rw [if_neg fun h => hge h.1]
      exact hmem x (Nat.lt_of_not_le hge)
  · unfold decryptHeaderWithKey
    rw [if_neg (Nat.not_lt.2 hlen), if_neg (not_not.2 hmod)]
    simp only [Option.bind_eq_bind, Option.bind_some, hopen, hw, DcHeader.ofBytes_eq harea, htail]
    congr 1
    funext correct
    cases correct with
    | false => rfl
    | true =>
      rw [if_neg (not_not.2 rfl), if_pos rfl]
      cases loadKeySlots raw h₂ <;> rfl

/-- The salt is all zeros. -/
theorem salt_all_iff (h : DcHeader) : h.salt.all (· = 0) = true ↔ ∀ x < headerSaltSize, h.bytes[x]? = some 0 := by
  have hlen := length_salt h
  rw [List.all_eq_true]
  constructor
  · intro hall x hx
    have hget : h.bytes[x]? = h.salt[x]? := by
      rw [DcHeader.salt, getElem?_slice, if_pos hx, Nat.zero_add]
    rw [hget, List.getElem?_eq_getElem (by omega), Option.some_inj]
    exact of_decide_eq_true (hall _ (List.getElem_mem _))
  · intro hall b hb
    obtain ⟨x, hx, rfl⟩ := List.mem_iff_getElem.1 hb
    have hget : h.bytes[x]? = h.salt[x]? := by
      rw [DcHeader.salt, getElem?_slice, if_pos (by omega), Nat.zero_add]
    have hzero := hget.symm.trans (hall x (by omega))
    rw [List.getElem?_eq_getElem hx, Option.some_inj] at hzero
    exact decide_eq_true hzero

theorem salt_of_correct {h : DcHeader} (hc : h.isVolumeHeaderCorrect = some true) : h.salt.all (· = 0) = false := by
  rw [Bool.eq_false_iff]
  intro hz
  unfold DcHeader.isVolumeHeaderCorrect at hc
  rw [if_pos hz] at hc
  cases hc

/-! ## Headers that come back -/

/-- The end of what a check of the base reads. -/
def DcHeader.checkEnd (h : DcHeader) : Nat := max dcBaseSize (72 + h.crcLen).toNat

/-- Two bytes of one block. -/
def SameBlock (x y : Nat) : Prop := x / xtsBlockSize = y / xtsBlockSize

/-- The layout is one under which every byte comes back. In version 2 the checksum covers no more than the first
2 KB and no slot, the flags of every slot are in the header, and a block is left in the clear as a whole or not
at all. In version 1 nothing is taken for a slot. -/
structure SealFits (h : DcHeader) : Prop where
  crc : h.isV2 = true → -64 ≤ h.footerCnt ∧ h.footerCnt ≤ 59
  size : h.isV2 = true → h.headLen ≤ dcAreaMaxSize
  flags : h.FlagsEnd h.memLen
  checked : h.isV2 = true → ∀ x, h.Raw x → 1024 - h.footerCnt * 16 ≤ x
  blocks : h.isV2 = true → ∀ x y, h.Raw x → SameBlock x y → h.Raw y
  noSlots : h.isV2 = false → ∀ x, ¬ h.Raw x

namespace SealFits

variable {h : DcHeader} (hf : SealFits h)
include hf

theorem isV2_of_raw {x : Nat} (hx : h.Raw x) : h.isV2 = true := by
  cases hv : h.isV2 with
  | true => rfl
  | false => exact absurd hx (hf.noSlots hv x)

theorem crcLen_bounds : 0 ≤ h.crcLen ∧ 72 + h.crcLen ≤ dcAreaSize := by
  unfold DcHeader.crcLen
  cases hv : h.isV2 with
  | true =>
    have hcrc := hf.crc hv
    rw [if_pos rfl]
    change 0 ≤ 952 - h.footerCnt * 16 ∧ 72 + (952 - h.footerCnt * 16) ≤ 2048
    omega
  | false =>
    rw [if_neg Bool.false_ne_true]
    decide

theorem checkEnd_le : h.checkEnd ≤ dcAreaSize := by
  have hcrc := hf.crcLen_bounds
  unfold DcHeader.checkEnd
  change max 1024 _ ≤ 2048
  change _ ∧ 72 + h.crcLen ≤ 2048 at hcrc
  omega

theorem checkEnd_le_raw {x : Nat} (hx : h.Raw x) : h.checkEnd ≤ x := by
  have hv := hf.isV2_of_raw hx
  have hle : 1024 ≤ x := hx.bounds.1
  have hchecked := hf.checked hv x hx
  unfold DcHeader.checkEnd DcHeader.crcLen
  rw [if_pos hv]
  change max 1024 _ ≤ x
  omega

theorem slots_le (hc : h.Copies) : dcBaseSize + h.slotAreaLen ≤ h.memLen := by
  have hstart := h.le_infoOff (h.keySlotCount - 1)
  have hlast := hf.flags hc
  omega

end SealFits

/-- Sealed bytes of a header: `raw` begins with them. -/
structure SealedIn (key : Xts) (h : DcHeader) (raw : Bytes) : Prop where
  min : dcAreaSize ≤ h.memLen
  sectors : h.memLen % xtsSectorSize = 0
  held : h.memLen ≤ h.bytes.length
  length : h.memLen ≤ raw.length
  eq : ∀ x < h.memLen, raw[x]? = sealedAt key h x

/-- A header that has back every byte that was encrypted. -/
structure Decrypted (h h' : DcHeader) : Prop where
  length : h.memLen ≤ h'.bytes.length
  eq : ∀ x < h.memLen, headerSaltSize ≤ x → ¬ h.Raw x → h'.bytes[x]? = h.bytes[x]?

section Sealed

variable {key : Xts} {h : DcHeader} {raw : Bytes} (hf : SealFits h) (hs : SealedIn key h raw)
include hf hs

theorem SealedIn.raw_of_raw {x : Nat} (hx : h.Raw x) : raw[x]? = h.bytes[x]? := by
  have hv := hf.isV2_of_raw hx
  have hlt : x < h.memLen := by
    unfold DcHeader.memLen
    rw [if_pos hv]
    exact hx.lt_headLen
  rw [hs.eq x hlt, sealedAt, if_pos (.inr ⟨hv, hx⟩)]

/-- A byte outside salt and slots comes back by decryption. -/
theorem SealedIn.cryptAt_dec {x : Nat} (hx : x < h.memLen) (hsalt : headerSaltSize ≤ x) (hraw : ¬ h.Raw x) :
    cryptAt key.dec raw x = h.bytes[x]? := by
  have hsectors := hs.sectors
  have hheld := hs.held
  change h.memLen % 512 = 0 at hsectors
  change 64 ≤ x at hsalt
  refine Volume.cryptAt_dec (fun y hy _ => ?_) ?_
  · change y / 16 = x / 16 at hy
    rw [hs.eq y (by omega), sealedAt, if_neg]
    rintro (hlt | hclear)
    · change y < 64 at hlt
      omega
    · exact hraw (hf.blocks hclear.1 y x hclear.2 hy)
  · change 16 * (x / 16) + 16 ≤ h.bytes.length
    omega

end Sealed

namespace Decrypted

variable {h h' : DcHeader} (hf : SealFits h) (hd : Decrypted h h') (hmin : dcAreaSize ≤ h.memLen)
include hf hd hmin

theorem checked (x : Nat) (hx : headerSaltSize ≤ x) (hlt : x < h.checkEnd) : h.bytes[x]? = h'.bytes[x]? := by
  have hend := hf.checkEnd_le
  exact (hd.eq x (by omega) hx fun hraw => Nat.not_lt.2 (hf.checkEnd_le_raw hraw) hlt).symm

theorem sameFields : DcHeader.SameFields h h' :=
  DcHeader.sameFields fun x hx hlt => hd.checked hf hmin x hx (hlt.trans_le (Nat.le_max_left _ _))

/-- The same slots are in the clear. -/
theorem raw (x : Nat) : h.Raw x ↔ h'.Raw x := by
  have hs := hd.sameFields hf hmin
  refine hs.raw (fun hc i hi => ?_) x
  have hlast := hf.flags hc
  have hle := h.infoOff_le (i := i) (j := h.keySlotCount - 1) (by omega)
  have hstart := h.le_infoOff i
  unfold DcHeader.disabled
  rw [← hs.infoOff]
  congr 1
  refine congrArg ofLE (slice_congr fun y hy hylt => (hd.eq y (by omega) ?_ fun hraw => ?_).symm)
  · change 64 ≤ y
    change 1024 + _ ≤ _ at hstart
    omega
  · have hb := hraw.bounds
    omega

end Decrypted

/-! ## The search for the key -/

/-- The clear salt does not decrypt to zeros, which no header may have for a salt. -/
def SaltKept (key : Xts) (h : DcHeader) : Prop := ∃ x < headerSaltSize, cryptAt key.dec h.bytes x ≠ some 0

/-- The search of a password meets a key, and no header under another key before it. -/
def Opens (c : Crypto) (password : DcPass) (key : Xts) (raw : Bytes) : Prop :=
  ∃ before cand after, c.candidates raw password = before ++ cand :: after ∧ cand.key = key ∧
    ∀ b ∈ before, tryDecryptHeader b.key raw = some none

theorem findKey_append {raw : Bytes} {cand : Candidate} {hcopy : DcHeader} :
    ∀ {before after : List Candidate}, (∀ b ∈ before, tryDecryptHeader b.key raw = some none) →
      tryDecryptHeader cand.key raw = some (some hcopy) →
      findKey raw (before ++ cand :: after) = some (some (cand, hcopy))
  | [], _, _, htry => by simp only [List.nil_append, findKey, htry, Option.bind_eq_bind, Option.bind_some]
  | b :: before, after, hbefore, htry => by
    rw [List.cons_append, findKey, hbefore b List.mem_cons_self]
    exact findKey_append (fun b hb => hbefore b (List.mem_cons_of_mem _ hb)) htry

theorem tryDecryptHeader_take {key : Xts} {raw : Bytes} {n : Nat} (hn : dcAreaSize ≤ n) :
    tryDecryptHeader key (raw.take n) = tryDecryptHeader key raw := by
  have hread : readAt (raw.take n) 0 dcAreaSize = readAt raw 0 dcAreaSize := by
    unfold readAt slice
    rw [List.length_take, List.drop_zero, List.drop_zero, List.take_take, Nat.min_eq_left hn]
    congr 1
    rw [eq_iff_iff]
    omega
  unfold tryDecryptHeader openBase
  rw [hread]

section Sealed

variable {key : Xts} {h : DcHeader} {raw : Bytes} (hf : SealFits h) (hs : SealedIn key h raw)
include hf hs

/-- With the slots carried over from what was read, every byte is back. -/
theorem SealedIn.loadKeySlots {h' : DcHeader} (hd : Decrypted h h')
    (hsalt : ∀ x < headerSaltSize, h'.bytes[x]? = h.bytes[x]?) :
    ∃ h'', Volume.loadKeySlots raw h' = some h'' ∧ h''.bytes.length = h'.bytes.length ∧
      ∀ x < h.memLen, h''.bytes[x]? = h.bytes[x]? := by
  have hsame := hd.sameFields hf hs.min
  have hlen := hd.length
  have hraw := hs.length
  have hslots : h'.Copies → dcBaseSize + h'.slotAreaLen ≤ h.memLen := fun hc =>
    hsame.slotAreaLen ▸ hf.slots_le (hsame.copies.2 hc)
  obtain ⟨h'', hload, hlen', hat⟩ := loadKeySlots_spec raw h'
    (fun hc => ((hsame.flagsEnd h.memLen).1 hf.flags hc).trans hlen) (fun hc => (hslots hc).trans hraw)
    (fun hc => (hslots hc).trans hlen)
  refine ⟨h'', hload, hlen', fun x hx => ?_⟩
  rw [hat]
  by_cases hraw : h.Raw x
  · rw [if_pos ((hd.raw hf hs.min x).1 hraw), hs.raw_of_raw hf hraw]
  · rw [if_neg fun hraw' => hraw ((hd.raw hf hs.min x).2 hraw')]
    by_cases hlt : x < headerSaltSize
    · exact hsalt x hlt
    · exact hd.eq x hx (Nat.le_of_not_lt hlt) hraw

/-- The base, once it is open, passes the check if its salt is not all zeros. -/
theorem SealedIn.isVolumeHeaderCorrect {h' : DcHeader} (hcorrect : h.isVolumeHeaderCorrect = some true)
    (hbase : ∀ x < dcAreaSize, headerSaltSize ≤ x → h'.bytes[x]? = cryptAt key.dec raw x)
    (hsalt : h'.salt.all (· = 0) = false) : h'.isVolumeHeaderCorrect = some true := by
  have hend := hf.checkEnd_le
  have hmin := hs.min
  have harea := h'.area
  have hheld := hs.held
  rw [← hcorrect]
  refine (DcHeader.isVolumeHeaderCorrect_congr h.checkEnd (fun x hx hlt => ?_) (Nat.le_max_left _ _)
    ⟨hf.crcLen_bounds.1, ?_⟩ (by omega) (by omega) ?_).symm
  · rw [hbase x (by omega) hx,
      hs.cryptAt_dec hf (by omega) hx fun hraw => Nat.not_lt.2 (hf.checkEnd_le_raw hraw) hlt]
  · unfold DcHeader.checkEnd
    omega
  · rw [hsalt, salt_of_correct hcorrect]

/-! ## `cp_decrypt_header_with_key` -/

theorem decryptHeaderWithKey_sealed {out : Bytes} (hcorrect : h.isVolumeHeaderCorrect = some true)
    (hmod : raw.length % xtsSectorSize = 0) (hout : out.length = raw.length) :
    ∃ h', decryptHeaderWithKey key raw out = some (some h') ∧ ∀ x < h.memLen, h'.bytes[x]? = h.bytes[x]? := by
  have hmin := hs.min
  have hlen := hs.length
  have hsaltLt : headerSaltSize ≤ dcAreaSize := by decide
  have hsaltAt : ∀ x < headerSaltSize, raw[x]? = h.bytes[x]? := fun x hx => by
    rw [hs.eq x (by omega), sealedAt, if_pos (.inl hx)]
  obtain ⟨h₁, h₂, hat₁, hlen₂, hat₂, heq⟩ := decryptHeaderWithKey_eq key (hmin.trans hlen) hmod hout
  have hcorrect₁ : h₁.isVolumeHeaderCorrect = some true := by
    refine hs.isVolumeHeaderCorrect hf hcorrect (fun x hx hle => ?_) ?_
    · rw [hat₁ x hx, if_neg (Nat.not_lt.2 hle)]
    · refine Bool.eq_false_iff.2 fun hz => Bool.eq_false_iff.1 (salt_of_correct hcorrect) ((salt_all_iff h).2 fun x hx => ?_)
      rw [← hsaltAt x hx, ← (salt_all_iff h₁).1 hz x hx, hat₁ x (by omega), if_pos hx]
  have hd : Decrypted h h₂ := by
    refine ⟨by omega, fun x hx hle hraw => ?_⟩
    rw [hat₂ x (by omega), if_neg (Nat.not_lt.2 hle)]
    exact hs.cryptAt_dec hf hx hle hraw
  obtain ⟨h₃, hload, -, hat₃⟩ := hs.loadKeySlots hf hd fun x hx => by
    rw [hat₂ x (by omega), if_pos hx, hsaltAt x hx]
  refine ⟨h₃, ?_, hat₃⟩
  rw [heq, hcorrect₁, Option.bind_some, if_pos rfl, hload, Option.map_some]

/-! ## The password readers -/

/-- The base is found under its key, on the scratch copy: the decrypted salt takes part in the check. -/
theorem tryDecryptHeader_sealed (hcorrect : h.isVolumeHeaderCorrect = some true) (hkept : SaltKept key h) :
    ∃ hcopy, tryDecryptHeader key raw = some (some hcopy) ∧ hcopy.bytes.length = dcAreaSize ∧
      ∀ x < dcAreaSize, hcopy.bytes[x]? = cryptAt key.dec raw x := by
  have hmin := hs.min
  have hlen := hs.length
  obtain ⟨hcopy, hopen, hlenCopy, hat⟩ := openBase_spec key raw (List.replicate dcAreaSize 0)
    (by omega) (by rw [List.length_replicate])
  have hbase : ∀ x < dcAreaSize, hcopy.bytes[x]? = cryptAt key.dec raw x := fun x hx => by rw [hat, if_pos hx]
  refine ⟨hcopy, ?_, hlenCopy.trans List.length_replicate, hbase⟩
  have hcorrect₁ : hcopy.isVolumeHeaderCorrect = some true := by
    refine hs.isVolumeHeaderCorrect hf hcorrect (fun x hx _ => hbase x hx) (Bool.eq_false_iff.2 fun hz => ?_)
    obtain ⟨x, hx, hne⟩ := hkept
    refine hne ?_
    have hzero := (salt_all_iff hcopy).1 hz x hx
    rw [hbase x (hx.trans_le (by decide))] at hzero
    rw [← hzero]
    refine (cryptAt_congr (by decide) (fun y hy => ?_) hx)
    rw [hs.eq y (hy.trans_le ((by decide : headerSaltSize ≤ dcAreaSize).trans hmin)), sealedAt, if_pos (.inl hy)]
  unfold tryDecryptHeader
  simp only [Option.bind_eq_bind, Option.bind_some, hopen, hcorrect₁, if_true]

/-- The password leads to the key: it is the first of the search under which a header is found. -/
theorem decryptHeader_sealed {c : Crypto} {password : DcPass} {n : Nat} (hn : dcAreaSize ≤ n)
    (hcorrect : h.isVolumeHeaderCorrect = some true) (hkept : SaltKept key h)
    (hopens : Opens c password key (raw.take n)) :
    ∃ cand h', c.decryptHeader (raw.take n) password = some (some (cand, h')) ∧ cand.key = key ∧
      h'.bytes.length = min n raw.length ∧
      ∀ x, h'.bytes[x]? = if headerSaltSize ≤ x ∧ x < dcAreaSize then cryptAt key.dec raw x else (raw.take n)[x]? := by
  have hmin := hs.min
  have hlen := hs.length
  have hlenTake : (raw.take n).length = min n raw.length := List.length_take
  obtain ⟨hcopy, htry, hlenCopy, hat⟩ := tryDecryptHeader_sealed hf hs hcorrect hkept
  obtain ⟨before, cand, after, hcands, rfl, hbefore⟩ := hopens
  have hfound : findKey (raw.take n) (c.candidates (raw.take n) password) = some (some (cand, hcopy)) := by
    rw [hcands]
    exact findKey_append hbefore ((tryDecryptHeader_take hn).trans htry)
  have hslice : (slice hcopy.bytes headerSaltSize (dcAreaSize - headerSaltSize)).length = dcAreaSize - headerSaltSize :=
    length_slice (by rw [hlenCopy]; decide)
  have hsum : headerSaltSize + (dcAreaSize - headerSaltSize) = dcAreaSize := by decide
  obtain ⟨mem, hw⟩ := writeAt_eq (raw.take n) headerSaltSize
    (slice hcopy.bytes headerSaltSize (dcAreaSize - headerSaltSize)) (by omega)
  have hlenMem := length_writeAt hw
  have harea : dcAreaSize ≤ mem.length := by omega
  refine ⟨cand, ⟨mem, harea⟩, ?_, rfl, hlenMem.trans hlenTake, fun x => ?_⟩
  · unfold Crypto.decryptHeader
    simp only [Option.bind_eq_bind, Option.bind_some, hfound, hw, DcHeader.ofBytes_eq harea]
  · change mem[x]? = _
    rw [getElem?_writeAt hw, hslice]
    by_cases hx : headerSaltSize ≤ x ∧ x < dcAreaSize
    · rw [if_pos ⟨hx.1, by omega⟩, if_pos hx, getElem?_slice, if_pos (by omega), Nat.add_sub_cancel' hx.1, hat x hx.2]
    · rw [if_neg (fun hx' => hx ⟨hx'.1, by have := hx'.2; omega⟩), if_neg hx]

/-- What is left to do once the base is open: the tail as far as the reader goes, and the slots. -/
theorem SealedIn.decryptTail {h' : DcHeader} {hdrLen : Nat} (hle : h.memLen ≤ hdrLen) (hraw : hdrLen ≤ raw.length)
    (hmem : hdrLen ≤ h'.bytes.length) (hmod : hdrLen % xtsSectorSize = 0)
    (hbase : ∀ x < dcAreaSize, h'.bytes[x]? = if headerSaltSize ≤ x then cryptAt key.dec raw x else raw[x]?) :
    ∃ h'', Volume.decryptTail key raw h' hdrLen = some h'' ∧ Decrypted h h'' ∧
      ∀ x < headerSaltSize, h''.bytes[x]? = h.bytes[x]? := by
  have hmin := hs.min
  have hsaltLt : headerSaltSize ≤ dcAreaSize := by decide
  obtain ⟨h'', htail, hlen, hat⟩ := decryptTail_spec key h' hmod hraw hmem
  refine ⟨h'', htail, ⟨by omega, fun x hx hge hclear => ?_⟩, fun x hx => ?_⟩
  · rw [hat]
    split
    · exact hs.cryptAt_dec hf hx hge hclear
    · rw [hbase x (by omega), if_pos hge]
      exact hs.cryptAt_dec hf hx hge hclear
  · rw [hat, if_neg (by omega), hbase x (by omega), if_neg (by omega), hs.eq x (by omega), sealedAt, if_pos (.inl hx)]

/-- A version 1 header is back with its base. -/
theorem SealedIn.base_v1 {h' : DcHeader} (hv : h.isV2 = false)
    (hbase : ∀ x < dcAreaSize, h'.bytes[x]? = if headerSaltSize ≤ x then cryptAt key.dec raw x else raw[x]?) :
    ∀ x < h.memLen, h'.bytes[x]? = h.bytes[x]? := by
  intro x hx
  have hlen : h.memLen = dcAreaSize := by
    unfold DcHeader.memLen
    rw [hv, if_neg Bool.false_ne_true]
  rw [hbase x (by omega)]
  split
  · rename_i hge
    exact hs.cryptAt_dec hf hx hge (hf.noSlots hv x)
  · rename_i hlt
    rw [hs.eq x hx, sealedAt, if_pos (.inl (Nat.lt_of_not_le hlt))]

theorem SealedIn.sameFields_base {h' : DcHeader}
    (hbase : ∀ x < dcAreaSize, h'.bytes[x]? = if headerSaltSize ≤ x then cryptAt key.dec raw x else raw[x]?) :
    DcHeader.SameFields h h' := by
  have hmin := hs.min
  have hsub : dcBaseSize ≤ dcAreaSize := by decide
  refine DcHeader.sameFields fun x hge hx => ?_
  rw [hbase x (by omega), if_pos hge]
  exact (hs.cryptAt_dec hf (by omega) hge fun hclear => Nat.not_lt.2 hclear.bounds.1 hx).symm

/-! ### `dc_decrypt_header` -/

theorem dcDecryptRest_sealed {h' : DcHeader} (hlen : h'.bytes.length = raw.length)
    (hbase : ∀ x < dcAreaSize, h'.bytes[x]? = if headerSaltSize ≤ x then cryptAt key.dec raw x else raw[x]?) :
    ∃ h'', dcDecryptRest key raw h' = some (.ok, some h'') ∧ ∀ x < h.memLen, h''.bytes[x]? = h.bytes[x]? := by
  have hsame := hs.sameFields_base hf hbase
  unfold dcDecryptRest
  rw [← hsame.isV2, ← hsame.headLen]
  cases hv : h.isV2 with
  | false =>
    rw [if_pos Bool.false_ne_true]
    exact ⟨h', rfl, hs.base_v1 hf hv hbase⟩
  | true =>
    have hmin := hs.min
    have hsectors := hs.sectors
    have hraw := hs.length
    have hsize := hf.size hv
    have hmem : h.memLen = h.headLen := if_pos hv
    rw [hmem] at hmin hsectors hraw
    have htailLen : dcAreaSize + memTail raw.length h.headLen = h.headLen := by
      unfold memTail
      rw [Nat.min_eq_right hraw]
      change 2048 + (h.headLen - 2048) / 512 * 512 = h.headLen
      change h.headLen % 512 = 0 at hsectors
      change 2048 ≤ h.headLen at hmin
      omega
    rw [if_neg (not_not.2 rfl), if_neg (by omega), htailLen]
    obtain ⟨h₂, htail, hd, hsalt⟩ := hs.decryptTail hf (by omega) hraw (by omega)
      hsectors hbase
    have hslots := (hd.sameFields hf hs.min).slotsLen
    by_cases hfit : dcBaseSize + h.slotsLen ≤ raw.length
    · obtain ⟨h₃, hload, -, hat⟩ := hs.loadKeySlots hf hd hsalt
      refine ⟨h₃, ?_, hat⟩
      simp only [htail, Option.bind_eq_bind, Option.bind_some, ← hslots, if_pos hfit, hload]
    · refine ⟨h₂, ?_, fun x hx => ?_⟩
      · simp only [htail, Option.bind_eq_bind, Option.bind_some, ← hslots, if_neg hfit]
      · by_cases hlt : x < headerSaltSize
        · exact hsalt x hlt
        · exact hd.eq x hx (Nat.le_of_not_lt hlt) fun hclear => hfit (hclear.1.2.2.trans hraw)

theorem dcDecryptHeader_sealed {c : Crypto} {password : DcPass} (hcorrect : h.isVolumeHeaderCorrect = some true)
    (hkept : SaltKept key h) (hopens : Opens c password key raw) :
    ∃ h', dcDecryptHeader c raw password = some (.ok, some h') ∧ ∀ x < h.memLen, h'.bytes[x]? = h.bytes[x]? := by
  have hmin := hs.min
  have hlen := hs.length
  rw [← List.take_length (l := raw)] at hopens
  obtain ⟨cand, h₁, hfound, hkey, hlen₁, hat⟩ := decryptHeader_sealed hf hs (by omega) hcorrect hkept hopens
  rw [Nat.min_self] at hlen₁
  rw [List.take_length] at hfound hat
  have hbase : ∀ x < dcAreaSize, h₁.bytes[x]? = if headerSaltSize ≤ x then cryptAt key.dec raw x else raw[x]? := by
    intro x hx
    rw [hat]
    by_cases hge : headerSaltSize ≤ x
    · rw [if_pos ⟨hge, hx⟩, if_pos hge]
    · rw [if_neg fun h => hge h.1, if_neg hge]
  obtain ⟨h₂, hrest, hback⟩ := dcDecryptRest_sealed hf hs hlen₁ hbase
  refine ⟨h₂, ?_, hback⟩
  unfold dcDecryptHeader
  rw [if_neg (by omega), hfound, Option.bind_eq_bind, Option.bind_some]
  simp only [hkey, hrest]

/-! ### `io_read_header` -/

theorem ioDecryptRest_sealed (h' : DcHeader) {hdrLen : Nat} (hle : h.memLen ≤ hdrLen) (hraw : hdrLen ≤ raw.length)
    (hmem : hdrLen ≤ h'.bytes.length) (hmod : hdrLen % xtsSectorSize = 0)
    (hbase : ∀ x < dcAreaSize, h'.bytes[x]? = if headerSaltSize ≤ x then cryptAt key.dec raw x else raw[x]?) :
    ∃ h'', ioDecryptRest key raw h' hdrLen = some (.ok, some h'') ∧ ∀ x < h.memLen, h''.bytes[x]? = h.bytes[x]? := by
  obtain ⟨h₂, htail, hd, hsalt⟩ := hs.decryptTail hf hle hraw hmem hmod hbase
  obtain ⟨h₃, hload, -, hat⟩ := hs.loadKeySlots hf hd hsalt
  refine ⟨h₃, ?_, hat⟩
  unfold ioDecryptRest
  simp only [htail, Option.bind_eq_bind, Option.bind_some, hload]

end Sealed

theorem roundToFullSectors_lt (len : Nat) {bps : Nat} (hb : 0 < bps) : roundToFullSectors len bps < len + bps := by
  have hle := Nat.div_mul_le_self (len + bps - 1) bps
  unfold roundToFullSectors
  omega

theorem dvd_roundToFullSectors (len bps : Nat) : bps ∣ roundToFullSectors len bps := Nat.dvd_mul_left _ _

theorem le_getMinHeaderLen (password : DcPass) : dcAreaSize ≤ getMinHeaderLen password := by
  unfold getMinHeaderLen
  split
  · exact Nat.le_max_right _ _
  · exact Nat.le_refl _

/-- What is read first is whole sectors, the base among them. -/
theorem firstLen_spec {dev : DcDev} (hb : 0 < dev.bps) (hsector : xtsSectorSize ∣ dev.bps) (password : DcPass) :
    dcAreaSize ≤ firstLen dev password ∧ dev.bps ≤ firstLen dev password ∧
      firstLen dev password % xtsSectorSize = 0 := by
  have hround := le_roundToFullSectors (max dev.headLen (getMinHeaderLen password)) hb
  have hmin := le_getMinHeaderLen password
  have hle : dcAreaSize ≤ firstLen dev password := by
    unfold firstLen
    omega
  have hdvd : dev.bps ∣ firstLen dev password := dvd_roundToFullSectors _ _
  exact ⟨hle, Nat.le_of_dvd ((by decide : 0 < dcAreaSize).trans_le hle) hdvd,
    Nat.mod_eq_zero_of_dvd (hsector.trans hdvd)⟩

theorem ioReadHeaderFull_sealed {key : Xts} {h h' : DcHeader} {dev : DcDev} (junk : Nat → UInt8) {pos hdrLen : Nat}
    (hf : SealFits h) (hs : SealedIn key h (slice dev.disk pos (max hdrLen h.memLen))) (hb : 0 < dev.bps)
    (hbps : dev.bps ≤ hdrLen) (hmin : dcAreaSize ≤ hdrLen) (hmod : hdrLen % xtsSectorSize = 0)
    (hdisk : pos + max hdrLen h.memLen ≤ dev.disk.length) (hlen : h'.bytes.length = hdrLen)
    (hbase : ∀ x < dcAreaSize, h'.bytes[x]? = if headerSaltSize ≤ x then
      cryptAt key.dec (slice dev.disk pos (max hdrLen h.memLen)) x else (slice dev.disk pos (max hdrLen h.memLen))[x]?) :
    ∃ h'', ioReadHeaderFull dev junk pos key h' hdrLen = some (.ok, some h'') ∧
      ∀ x < h.memLen, h''.bytes[x]? = h.bytes[x]? := by
  have hsame := hs.sameFields_base hf hbase
  have hslice : (slice dev.disk pos (max hdrLen h.memLen)).length = max hdrLen h.memLen := length_slice hdisk
  unfold ioReadHeaderFull
  rw [← hsame.isV2, ← hsame.headLen]
  cases hv : h.isV2 with
  | false =>
    rw [if_pos Bool.false_ne_true]
    exact ⟨h', rfl, hs.base_v1 hf hv hbase⟩
  | true =>
    have hmem : h.memLen = h.headLen := if_pos hv
    have hsize := hf.size hv
    change h.headLen ≤ 33554432 at hsize
    rw [if_neg (not_not.2 rfl)]
    unfold DcDev.read
    rw [readAt_eq (by omega)]
    by_cases hlt : hdrLen < h.headLen
    · have hmax : max hdrLen h.memLen = h.headLen := by omega
      rw [hmax] at hs hbase hslice
      have hround := roundToFullSectors_lt (max h.headLen pageSize) hb
      have hle := le_roundToFullSectors h.headLen hb
      have hpage : pageSize = 4096 := rfl
      have hsize' : fullLen dev.bps hdrLen h.headLen = some (roundToFullSectors h.headLen dev.bps) := by
        unfold fullLen
        rw [if_neg (by omega), if_pos hlt, if_neg (by omega)]
      have hlenRaw : (slice dev.disk pos hdrLen).length = hdrLen := length_slice (by omega)
      obtain ⟨mem, hw⟩ := writeAt_eq (dcAlloc junk (roundToFullSectors h.headLen dev.bps)) 0 h'.bytes
        (by rw [dcAlloc_length]; omega)
      have hlenMem : mem.length = roundToFullSectors h.headLen dev.bps := (length_writeAt hw).trans (dcAlloc_length _ _)
      have harea : dcAreaSize ≤ mem.length := by omega
      have hfull : slice dev.disk pos hdrLen ++ slice dev.disk (pos + hdrLen) (h.headLen - hdrLen) =
          slice dev.disk pos h.headLen := by
        rw [← slice_add, Nat.add_sub_cancel' (Nat.le_of_lt hlt)]
      have hbaseMem : ∀ x < dcAreaSize, mem[x]? = h'.bytes[x]? := by
        intro x hx
        rw [getElem?_writeAt hw, if_pos (by omega), Nat.sub_zero]
      have hsame' : DcHeader.SameFields h' ⟨mem, harea⟩ := DcHeader.sameFields fun x _ hx =>
        (hbaseMem x (hx.trans (by decide))).symm
      have hhead : (⟨mem, harea⟩ : DcHeader).headLen = h.headLen := by rw [← hsame'.headLen, ← hsame.headLen]
      obtain ⟨h'', hrest, hat⟩ := ioDecryptRest_sealed hf hs ⟨mem, harea⟩ (by omega)
        (by omega) (by change h.headLen ≤ mem.length; omega) (hmem ▸ hs.sectors)
        (fun x hx => (hbaseMem x hx).trans (hbase x hx))
      refine ⟨h'', ?_, hat⟩
      simp only [hsize', Option.bind_eq_bind, Option.bind_some, if_pos hlt, ioReadRest, DcDev.read, hlenRaw,
        ← hsame.headLen, readAt_eq (show pos + hdrLen + (h.headLen - hdrLen) ≤ dev.disk.length by omega), hw,
        DcHeader.ofBytes_eq harea, hfull, hhead, hrest]
    · have hmax : max hdrLen h.memLen = hdrLen := by omega
      rw [hmax] at hs hbase hslice
      have hsize' : fullLen dev.bps hdrLen h.headLen = some hdrLen := by
        unfold fullLen
        rw [if_neg (by omega), if_neg hlt]
      obtain ⟨h'', hrest, hat⟩ := ioDecryptRest_sealed hf hs _ (by omega) (by omega)
        (by omega) hmod hbase
      refine ⟨h'', ?_, hat⟩
      simp only [hsize', Option.bind_eq_bind, Option.bind_some, if_neg hlt, hrest]

theorem ioReadHeader_sealed {key : Xts} {h : DcHeader} {c : Crypto} (dev : DcDev) (junk : Nat → UInt8) {pos : Nat}
    {password : DcPass} (hf : SealFits h)
    (hs : SealedIn key h (slice dev.disk pos (max (firstLen dev password) h.memLen))) (hb : 0 < dev.bps)
    (hsector : xtsSectorSize ∣ dev.bps) (hint : firstLen dev password < 2 ^ 31)
    (hdisk : pos + max (firstLen dev password) h.memLen ≤ dev.disk.length)
    (hcorrect : h.isVolumeHeaderCorrect = some true) (hkept : SaltKept key h)
    (hopens : Opens c password key (slice dev.disk pos (firstLen dev password))) :
    ∃ h', ioReadHeader c dev junk pos password = some (.ok, some h') ∧ ∀ x < h.memLen, h'.bytes[x]? = h.bytes[x]? := by
  obtain ⟨hmin, hbps, hmod⟩ := firstLen_spec hb hsector password
  have hslice : (slice dev.disk pos (max (firstLen dev password) h.memLen)).length =
      max (firstLen dev password) h.memLen := length_slice hdisk
  have htake : (slice dev.disk pos (max (firstLen dev password) h.memLen)).take (firstLen dev password) =
      slice dev.disk pos (firstLen dev password) := by
    unfold slice
    rw [List.take_take, Nat.min_eq_left (Nat.le_max_left _ _)]
  rw [← htake] at hopens
  obtain ⟨cand, h₁, hfound, hkey, hlen₁, hat⟩ := decryptHeader_sealed hf hs hmin hcorrect hkept hopens
  rw [htake] at hfound
  have hbase : ∀ x < dcAreaSize, h₁.bytes[x]? = if headerSaltSize ≤ x then
      cryptAt key.dec (slice dev.disk pos (max (firstLen dev password) h.memLen)) x else
      (slice dev.disk pos (max (firstLen dev password) h.memLen))[x]? := by
    intro x hx
    rw [hat]
    by_cases hge : headerSaltSize ≤ x
    · rw [if_pos ⟨hge, hx⟩, if_pos hge]
    · rw [if_neg fun h => hge h.1, if_neg hge, List.getElem?_take_of_lt (by omega)]
  obtain ⟨h₂, hrest, hback⟩ := ioReadHeaderFull_sealed junk hf hs hb hbps hmin hmod hdisk (by omega) hbase
  refine ⟨h₂, ?_, hback⟩
  unfold ioReadHeader DcDev.read
  rw [if_neg (Nat.not_le.2 hint), readAt_eq (by omega)]
  simp only [hfound, Option.bind_eq_bind, Option.bind_some, hkey, hrest]

end MajorPrivacy.Volume

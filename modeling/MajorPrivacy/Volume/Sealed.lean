/-
What stands where in a sealed header: the salt and the slots that are not disabled in the clear,
everything else encrypted block by block. Both writers produce these bytes, and a reader gets a byte
back where the block it is in was encrypted as a whole.
-/
import MajorPrivacy.Volume.Bounds
import MajorPrivacy.Volume.Writers

namespace MajorPrivacy.Volume

open LittleEndian Memory

/-! ## XTS calls, byte by byte -/

/-- A byte of a memory whose blocks all go through `crypt`. -/
def cryptAt (crypt : Nat → Bytes → Bytes) (mem : Bytes) (x : Nat) : Option UInt8 :=
  (crypt (x / xtsBlockSize) (slice mem (xtsBlockSize * (x / xtsBlockSize)) xtsBlockSize))[x % xtsBlockSize]?

theorem slice_slice {mem : Bytes} {off len off' len' : Nat} (h : off' + len' ≤ len) :
    slice (slice mem off len) off' len' = slice mem (off + off') len' := by
  apply List.ext_getElem?
  intro i
  rw [getElem?_slice, getElem?_slice, getElem?_slice]
  split
  · rw [if_pos (by omega), Nat.add_assoc]
  · rfl

theorem slice_congr {mem mem' : Bytes} {off len : Nat} (h : ∀ x, off ≤ x → x < off + len → mem[x]? = mem'[x]?) :
    slice mem off len = slice mem' off len := by
  apply List.ext_getElem?
  intro i
  rw [getElem?_slice, getElem?_slice]
  split
  · exact h _ (Nat.le_add_right _ _) (by omega)
  · rfl

theorem xtsRun_slice {crypt : Nat → Bytes → Bytes} (hcrypt : ∀ n b, (crypt n b).length = b.length) (raw : Bytes)
    (off len : Nat) (ho : off % xtsSectorSize = 0) (hl : len % xtsSectorSize = 0) (hpos : 0 < len)
    (hle : off + len ≤ raw.length) :
    ∃ out, xtsRun crypt (slice raw off len) off = some out ∧ out.length = len ∧
      ∀ y < len, out[y]? = cryptAt crypt raw (off + y) := by
  have hlen : (slice raw off len).length = len := length_slice hle
  have hne : ¬ (slice raw off len = [] ∨ (slice raw off len).length % xtsSectorSize ≠ 0) := by
    rw [hlen, not_or, not_not]
    refine ⟨fun h => ?_, hl⟩
    rw [h, List.length_nil] at hlen
    omega
  change off % 512 = 0 at ho
  change len % 512 = 0 at hl
  have hblocks : len = xtsBlockSize * (len / xtsBlockSize) := by
    change len = 16 * (len / 16)
    omega
  have hmem : (slice raw off len).length = xtsBlockSize * (len / xtsBlockSize) := hlen.trans hblocks
  unfold xtsRun
  rw [if_neg hne]
  refine ⟨_, rfl, ?_, fun y hy => ?_⟩
  · rw [hlen, BlockCipher.length_mapBlocks hcrypt _ _ _ hmem, ← hblocks]
  · have hblock : y / xtsBlockSize < len / xtsBlockSize := by
      change y / 16 < len / 16
      omega
    rw [BlockCipher.getElem?_eq_slice (w := xtsBlockSize) (by decide), hlen,
      BlockCipher.slice_mapBlocks hcrypt _ _ _ hmem _ hblock, slice_slice (by change 16 * (y / 16) + 16 ≤ len; omega)]
    unfold cryptAt
    have hdiv : (off + y) / xtsBlockSize = off / xtsBlockSize + y / xtsBlockSize := by
      change (off + y) / 16 = off / 16 + y / 16
      omega
    have hmod : (off + y) % xtsBlockSize = y % xtsBlockSize := by
      change (off + y) % 16 = y % 16
      omega
    have hoff : xtsBlockSize * (off / xtsBlockSize + y / xtsBlockSize) = off + xtsBlockSize * (y / xtsBlockSize) := by
      change 16 * (off / 16 + y / 16) = off + 16 * (y / 16)
      omega
    rw [hdiv, hmod, hoff]

/-- A byte comes back where its whole block was encrypted. -/
theorem cryptAt_dec {key : Xts} {mem raw : Bytes} {x : Nat}
    (h : ∀ y, y / xtsBlockSize = x / xtsBlockSize → y < mem.length → raw[y]? = cryptAt key.enc mem y)
    (hmem : xtsBlockSize * (x / xtsBlockSize) + xtsBlockSize ≤ mem.length) :
    cryptAt key.dec raw x = mem[x]? := by
  have hblock : slice raw (xtsBlockSize * (x / xtsBlockSize)) xtsBlockSize =
      key.enc (x / xtsBlockSize) (slice mem (xtsBlockSize * (x / xtsBlockSize)) xtsBlockSize) := by
    apply List.ext_getElem?
    intro i
    rw [getElem?_slice]
    split
    · rename_i hi
      have hdiv : (xtsBlockSize * (x / xtsBlockSize) + i) / xtsBlockSize = x / xtsBlockSize := by
        change i < 16 at hi
        change (16 * (x / 16) + i) / 16 = x / 16
        omega
      have hmod : (xtsBlockSize * (x / xtsBlockSize) + i) % xtsBlockSize = i := by
        change i < 16 at hi
        change (16 * (x / 16) + i) % 16 = i
        omega
      rw [h _ hdiv (by omega), cryptAt, hdiv, hmod]
    · rename_i hi
      rw [List.getElem?_eq_none]
      rw [key.length_enc, length_slice hmem]
      exact Nat.le_of_not_lt hi
  rw [cryptAt, hblock, key.dec_enc, ← BlockCipher.getElem?_eq_slice (by decide)]

/-! ## Slots in the clear -/

namespace DcHeader

variable (h : DcHeader)

/-- `SF_DISABLED` of a slot. -/
def disabled (i : Nat) : Bool := sfDisabled (h.field (h.infoOff i + 4) 4)

/-- A byte of a slot that is not disabled. -/
def InSlot (i x : Nat) : Prop := h.disabled i = false ∧ h.slotOff i ≤ x ∧ x < h.slotOff i + h.slotSize

instance (i x : Nat) : Decidable (h.InSlot i x) := inferInstanceAs (Decidable (_ ∧ _ ∧ _))

/-- `cp_copy_keylots` goes through the slots. -/
def Copies : Prop := h.ffKeySlots = true ∧ h.keySlotCount ≠ 0 ∧ dcBaseSize + h.slotsLen ≤ h.headLen

instance : Decidable h.Copies := inferInstanceAs (Decidable (_ ∧ _ ∧ _))

/-- A byte `cp_copy_keylots` copies. -/
def Raw (x : Nat) : Prop := h.Copies ∧ ∃ i < h.keySlotCount, h.InSlot i x

instance (x : Nat) : Decidable (h.Raw x) := inferInstanceAs (Decidable (_ ∧ _))

/-- The flags of the last descriptor end at `last` at most. -/
def FlagsEnd (last : Nat) : Prop := h.Copies → h.infoOff (h.keySlotCount - 1) + 8 ≤ last

theorem copyFits_iff : h.CopyFits ↔ h.FlagsEnd h.bytes.length :=
  ⟨fun hf hc => hf hc.1 hc.2.1 hc.2.2, fun hf h₁ h₂ h₃ => hf ⟨h₁, h₂, h₃⟩⟩

theorem Raw.bounds {h : DcHeader} {x : Nat} (hx : h.Raw x) : dcBaseSize ≤ x ∧ x < dcBaseSize + h.slotAreaLen := by
  obtain ⟨-, i, hi, -, hle, hlt⟩ := hx
  have hslot := h.slotOff_add_le hi
  exact ⟨(Nat.le_add_right _ _).trans hle, by omega⟩

theorem Raw.lt_headLen {h : DcHeader} {x : Nat} (hx : h.Raw x) : x < h.headLen := by
  have hlt := hx.bounds.2
  have hsum : h.slotAreaLen ≤ h.slotsLen := Nat.le_add_right _ _
  have hcopies := hx.1.2.2
  omega

theorem copySlot_spec {inBuff outBuff : Bytes} {i : Nat} (hi : i < h.keySlotCount)
    (hflags : h.infoOff i + 8 ≤ h.bytes.length) (hin : dcBaseSize + h.slotAreaLen ≤ inBuff.length)
    (hout : dcBaseSize + h.slotAreaLen ≤ outBuff.length) :
    ∃ out, h.copySlot inBuff outBuff i = some out ∧ out.length = outBuff.length ∧
      ∀ x, out[x]? = if h.InSlot i x then inBuff[x]? else outBuff[x]? := by
  have hslot := h.slotOff_add_le hi
  have hread : readLE h.bytes (h.infoOff i + 4) 4 = some (h.field (h.infoOff i + 4) 4) := by
    rw [readLE, readAt_eq (by omega)]
    rfl
  unfold copySlot
  rw [hread, Option.bind_eq_bind, Option.bind_some]
  by_cases hd : sfDisabled (h.field (h.infoOff i + 4) 4) = true
  · rw [if_pos hd]
    refine ⟨_, rfl, rfl, fun x => ?_⟩
    rw [if_neg fun hx => Bool.noConfusion (hx.1.symm.trans hd)]
  · rw [if_neg hd, readAt_eq (by omega), Option.bind_eq_bind, Option.bind_some]
    have hlen : (slice inBuff (h.slotOff i) h.slotSize).length = h.slotSize := length_slice (by omega)
    obtain ⟨out, hw⟩ := writeAt_eq outBuff (h.slotOff i) (slice inBuff (h.slotOff i) h.slotSize) (by omega)
    refine ⟨out, hw, length_writeAt hw, fun x => ?_⟩
    rw [getElem?_writeAt hw, hlen]
    by_cases hx : h.slotOff i ≤ x ∧ x < h.slotOff i + h.slotSize
    · rw [if_pos hx, if_pos ⟨Bool.eq_false_iff.2 hd, hx⟩, getElem?_slice, if_pos (by omega), Nat.add_sub_cancel' hx.1]
    · rw [if_neg hx, if_neg fun hx' => hx hx'.2]

theorem copySlots_spec {inBuff : Bytes} (hin : dcBaseSize + h.slotAreaLen ≤ inBuff.length) :
    ∀ (l : List Nat) (outBuff : Bytes), (∀ i ∈ l, i < h.keySlotCount ∧ h.infoOff i + 8 ≤ h.bytes.length) →
      dcBaseSize + h.slotAreaLen ≤ outBuff.length →
      ∃ out, l.foldlM (fun outBuff i => h.copySlot inBuff outBuff i) outBuff = some out ∧
        out.length = outBuff.length ∧ ∀ x, out[x]? = if ∃ i ∈ l, h.InSlot i x then inBuff[x]? else outBuff[x]?
  | [], outBuff, _, _ => ⟨outBuff, rfl, rfl, fun x => by simp⟩
  | i :: l, outBuff, hl, hout => by
    obtain ⟨hi, hflags⟩ := hl i List.mem_cons_self
    obtain ⟨mid, hmid, hmlen, hmx⟩ := h.copySlot_spec hi hflags hin hout
    obtain ⟨out, hrest, hlen, hx⟩ :=
      copySlots_spec hin l mid (fun j hj => hl j (List.mem_cons_of_mem _ hj)) (by omega)
    refine ⟨out, ?_, hlen.trans hmlen, fun x => ?_⟩
    · rw [List.foldlM_cons, hmid]
      exact hrest
    · rw [hx, hmx]
      by_cases hl : ∃ j ∈ l, h.InSlot j x
      · obtain ⟨j, hj, hjx⟩ := hl
        rw [if_pos ⟨j, hj, hjx⟩, if_pos ⟨j, List.mem_cons_of_mem _ hj, hjx⟩]
      · rw [if_neg hl]
        by_cases hix : h.InSlot i x
        · rw [if_pos hix, if_pos ⟨i, List.mem_cons_self, hix⟩]
        · rw [if_neg hix, if_neg]
          rintro ⟨j, hj, hjx⟩
          rcases List.mem_cons.1 hj with rfl | hj
          · exact hix hjx
          · exact hl ⟨j, hj, hjx⟩

/-- `cp_copy_keylots` takes the bytes of the slots from one buffer to the other. -/
theorem copyKeySlots_spec {inBuff outBuff : Bytes} (hflags : h.FlagsEnd h.bytes.length)
    (hin : h.Copies → dcBaseSize + h.slotAreaLen ≤ inBuff.length)
    (hout : h.Copies → dcBaseSize + h.slotAreaLen ≤ outBuff.length) :
    ∃ out, h.copyKeySlots inBuff outBuff = some out ∧ out.1.length = outBuff.length ∧
      ∀ x, out.1[x]? = if h.Raw x then inBuff[x]? else outBuff[x]? := by
  unfold copyKeySlots
  by_cases hc : h.Copies
  · rw [if_neg (by rw [not_or, not_not]; exact ⟨hc.1, hc.2.1⟩), if_neg (Nat.not_lt.2 hc.2.2)]
    obtain ⟨out, hl, hlen, hx⟩ := h.copySlots_spec (hin hc) (List.range h.keySlotCount) outBuff
      (fun i hi => by
        have hi := List.mem_range.1 hi
        have hle := h.infoOff_le (i := i) (j := h.keySlotCount - 1) (by omega)
        exact ⟨hi, (Nat.add_le_add_right hle 8).trans (hflags hc)⟩) (hout hc)
    rw [hl]
    refine ⟨_, rfl, hlen, fun x => (hx x).trans ?_⟩
    congr 1
    simp only [List.mem_range, Raw, hc, true_and]
  · have hraw : ∀ x, ¬ h.Raw x := fun x hx => hc hx.1
    by_cases hff : ¬ h.ffKeySlots = true ∨ h.keySlotCount = 0
    · rw [if_pos hff]
      exact ⟨_, rfl, rfl, fun x => (if_neg (hraw x)).symm⟩
    · rw [if_neg hff]
      rw [not_or, not_not] at hff
      rw [if_pos (Nat.lt_of_not_le fun hle => hc ⟨hff.1, hff.2, hle⟩)]
      exact ⟨_, rfl, rfl, fun x => (if_neg (hraw x)).symm⟩

/-! ### The flag of a slot -/

/-- `SF_DISABLED` in the first byte of the flags, if there is one. -/
def disabledIn (b : Option UInt8) : Bool := b.elim false fun b => decide (b.toNat / 2 % 2 = 1)

theorem disabled_eq (i : Nat) : h.disabled i = disabledIn h.bytes[h.infoOff i + 4]? := by
  have hhead : h.bytes[h.infoOff i + 4]? = (slice h.bytes (h.infoOff i + 4) 4)[0]? := by
    rw [getElem?_slice, if_pos (by decide), Nat.add_zero]
  rw [hhead, disabled, field]
  cases slice h.bytes (h.infoOff i + 4) 4 with
  | nil => rfl
  | cons b bs =>
    change decide ((b.toNat + 256 * ofLE bs) / 2 % 2 = 1) = decide (b.toNat / 2 % 2 = 1)
    congr 1
    rw [eq_iff_iff]
    omega

/-- The flag is not in the lowest bit. -/
theorem disabledIn_xor_one (b : Option UInt8) : disabledIn (b.map (· ^^^ 1)) = disabledIn b := by
  cases b with
  | none => rfl
  | some b =>
    change decide ((b ^^^ 1).toNat / 2 % 2 = 1) = decide (b.toNat / 2 % 2 = 1)
    rw [UInt8.toNat_xor, Nat.xor_div_two]
    change decide ((b.toNat / 2 ^^^ 0) % 2 = 1) = _
    rw [Nat.xor_zero]

/-! ## Headers with the same bytes -/

variable {h} {h' : DcHeader}

theorem field_congr {off w last : Nat} (heq : ∀ x, headerSaltSize ≤ x → x < last → h.bytes[x]? = h'.bytes[x]?)
    (ho : headerSaltSize ≤ off) (hw : off + w ≤ last) : h.field off w = h'.field off w := by
  unfold field
  rw [slice_congr fun x hx hlt => heq x (ho.trans hx) (by omega)]

/-- The fields that are looked at come before the slots. -/
structure SameFields (h h' : DcHeader) : Prop where
  sign : h.sign = h'.sign
  hdrCrc : h.hdrCrc = h'.hdrCrc
  isV2 : h.isV2 = h'.isV2
  headLen : h.headLen = h'.headLen
  footerCnt : h.footerCnt = h'.footerCnt
  ffKeySlots : h.ffKeySlots = h'.ffKeySlots
  extHdrOff : h.extHdrOff = h'.extHdrOff
  slotAreaLen : h.slotAreaLen = h'.slotAreaLen
  keySlotCount : h.keySlotCount = h'.keySlotCount
  slotInfoSize : h.slotInfoSize = h'.slotInfoSize

theorem sameFields (heq : ∀ x, headerSaltSize ≤ x → x < dcBaseSize → h.bytes[x]? = h'.bytes[x]?) : SameFields h h' := by
  have hfield : ∀ off w, headerSaltSize ≤ off → off + w ≤ dcBaseSize → h.field off w = h'.field off w :=
    fun off w => field_congr heq
  refine ⟨hfield 64 4 (by decide) (by decide), hfield 68 4 (by decide) (by decide), ?_,
    hfield 614 4 (by decide) (by decide), ?_, ?_, hfield 632 2 (by decide) (by decide),
    hfield 635 2 (by decide) (by decide), hfield 637 1 (by decide) (by decide), hfield 638 2 (by decide) (by decide)⟩
  · unfold isV2 version
    rw [hfield 72 2 (by decide) (by decide)]
  · unfold footerCnt
    rw [hfield 627 1 (by decide) (by decide)]
  · unfold ffKeySlots featureFlags
    rw [hfield 628 4 (by decide) (by decide)]

namespace SameFields

variable (hs : SameFields h h')
include hs

theorem slotSize : h.slotSize = h'.slotSize := by
  unfold DcHeader.slotSize
  rw [hs.slotAreaLen, hs.keySlotCount]

theorem slotOff (i : Nat) : h.slotOff i = h'.slotOff i := by
  unfold DcHeader.slotOff
  rw [hs.slotSize]

theorem infoOff (i : Nat) : h.infoOff i = h'.infoOff i := by
  unfold DcHeader.infoOff
  rw [hs.slotAreaLen, hs.slotInfoSize]

theorem slotsLen : h.slotsLen = h'.slotsLen := by
  unfold DcHeader.slotsLen
  rw [hs.slotAreaLen, hs.keySlotCount, hs.slotInfoSize]

theorem copies : h.Copies ↔ h'.Copies := by
  unfold Copies
  rw [hs.ffKeySlots, hs.keySlotCount, hs.slotsLen, hs.headLen]

theorem flagsEnd (last : Nat) : h.FlagsEnd last ↔ h'.FlagsEnd last := by
  unfold FlagsEnd
  rw [hs.copies, hs.infoOff, hs.keySlotCount]

theorem memLen : h.memLen = h'.memLen := by
  unfold DcHeader.memLen
  rw [hs.isV2, hs.headLen]

theorem crcLen : h.crcLen = h'.crcLen := by
  unfold DcHeader.crcLen
  rw [hs.isV2, hs.footerCnt]

/-- The same slots are copied where the flags are the same. -/
theorem raw (hd : h.Copies → ∀ i < h.keySlotCount, h.disabled i = h'.disabled i) (x : Nat) : h.Raw x ↔ h'.Raw x := by
  have hslot : ∀ {i}, h.Copies → i < h.keySlotCount → (h.InSlot i x ↔ h'.InSlot i x) := by
    intro i hc hi
    unfold InSlot
    rw [hd hc i hi, hs.slotOff, hs.slotSize]
  constructor
  · rintro ⟨hc, i, hi, hx⟩
    exact ⟨hs.copies.1 hc, i, hs.keySlotCount ▸ hi, (hslot hc hi).1 hx⟩
  · rintro ⟨hc, i, hi, hx⟩
    have hc := hs.copies.2 hc
    have hi := hs.keySlotCount.symm ▸ hi
    exact ⟨hc, i, hi, (hslot hc hi).2 hx⟩

/-- Changes of lowest bits leave the slots as they are. -/
theorem raw_of_lowBits (hlow : ∀ x : Nat, h'.bytes[x]? = h.bytes[x]? ∨ h'.bytes[x]? = h.bytes[x]?.map (· ^^^ 1)) (x : Nat) :
    h.Raw x ↔ h'.Raw x := by
  refine hs.raw (fun _ i _ => ?_) x
  rw [disabled_eq, disabled_eq, ← hs.infoOff]
  rcases hlow (h.infoOff i + 4) with heq | heq
  · rw [heq]
  · rw [heq, disabledIn_xor_one]

end SameFields

/-- The check reads the salt, the fields and what the checksum covers. -/
theorem isVolumeHeaderCorrect_congr (last : Nat) (heq : ∀ x, headerSaltSize ≤ x → x < last → h.bytes[x]? = h'.bytes[x]?)
    (hlast : dcBaseSize ≤ last) (hcrc : 0 ≤ h.crcLen ∧ 72 + h.crcLen ≤ last) (hle : last ≤ h.bytes.length)
    (hle' : last ≤ h'.bytes.length) (hsalt : h.salt.all (· = 0) = h'.salt.all (· = 0)) :
    h.isVolumeHeaderCorrect = h'.isVolumeHeaderCorrect := by
  have hs : SameFields h h' := sameFields fun x hx hlt => heq x hx (by omega)
  have hsum : h.calculateHeaderCrc = h'.calculateHeaderCrc := by
    unfold calculateHeaderCrc crcAt
    rw [← hs.crcLen, if_neg (by omega), if_neg (by omega), readAt_eq (by omega), readAt_eq (by omega),
      slice_congr fun x hx hlt => heq x (by change 64 ≤ x; omega) (by omega)]
  unfold isVolumeHeaderCorrect
  rw [hsalt, hs.sign, hsum, hs.hdrCrc]

theorem crcLen_of_correct (hc : h.isVolumeHeaderCorrect = some true) :
    0 ≤ h.crcLen ∧ 72 + h.crcLen ≤ h.bytes.length := by
  unfold isVolumeHeaderCorrect at hc
  split at hc
  · cases hc
  · split at hc
    · cases hc
    · obtain ⟨crc, hsum, -⟩ := Option.bind_eq_some_iff.1 hc
      exact isSome_crcAt.1 (Option.isSome_iff_exists.2 ⟨crc, hsum⟩)

end DcHeader

/-! ## What the writers produce -/

/-- A byte of a sealed header. -/
def sealedAt (key : Xts) (h : DcHeader) (x : Nat) : Option UInt8 :=
  if x < headerSaltSize ∨ h.isV2 = true ∧ h.Raw x then h.bytes[x]? else cryptAt key.enc h.bytes x

theorem length_salt (h : DcHeader) : h.salt.length = headerSaltSize :=
  length_slice ((by decide : 0 + headerSaltSize ≤ dcAreaSize).trans h.area)

theorem putSalt_spec (h : DcHeader) {mem : Bytes} (hm : headerSaltSize ≤ mem.length) :
    ∃ out, putSalt h mem = some out ∧ out.length = mem.length ∧
      ∀ x, out[x]? = if x < headerSaltSize then h.bytes[x]? else mem[x]? := by
  obtain ⟨out, hw⟩ := writeAt_eq mem 0 h.salt (by rw [length_salt]; omega)
  refine ⟨out, hw, length_writeAt hw, fun x => ?_⟩
  rw [getElem?_writeAt hw, length_salt]
  by_cases hx : x < headerSaltSize
  · rw [if_pos (by omega), if_pos hx, DcHeader.salt, getElem?_slice, if_pos (by omega), Nat.sub_zero, Nat.zero_add]
  · rw [if_neg (by omega), if_neg hx]

theorem putKeySlots_spec (h : DcHeader) {mem : Bytes} (hflags : h.isV2 = true → h.FlagsEnd h.bytes.length)
    (hin : h.isV2 = true → h.Copies → dcBaseSize + h.slotAreaLen ≤ h.bytes.length)
    (hm : h.isV2 = true → h.Copies → dcBaseSize + h.slotAreaLen ≤ mem.length) :
    ∃ out, putKeySlots h mem = some out ∧ out.length = mem.length ∧
      ∀ x, out[x]? = if h.isV2 = true ∧ h.Raw x then h.bytes[x]? else mem[x]? := by
  unfold putKeySlots
  by_cases hc : h.isV2 = true ∧ h.ffKeySlots = true
  · rw [if_pos hc]
    obtain ⟨out, hcopy, hlen, hx⟩ := h.copyKeySlots_spec (hflags hc.1) (hin hc.1) (hm hc.1)
    refine ⟨out.1, by rw [hcopy]; rfl, hlen, fun x => (hx x).trans ?_⟩
    congr 1
    rw [hc.1, eq_self, true_and]
  · rw [if_neg hc]
    refine ⟨_, rfl, rfl, fun x => (if_neg fun hx => hc ⟨hx.1, hx.2.1.1⟩).symm⟩

theorem encryptHeader_spec (key : Xts) (h : DcHeader) {len : Nat} (hmin : dcAreaSize ≤ len)
    (hmod : len % xtsSectorSize = 0) (hle : len ≤ h.bytes.length)
    (hflags : h.isV2 = true → h.FlagsEnd h.bytes.length)
    (hslots : h.isV2 = true → h.Copies → dcBaseSize + h.slotAreaLen ≤ len) :
    ∃ out, encryptHeader key h len = some (.ok, out) ∧ out.length = len ∧ ∀ x < len, out[x]? = sealedAt key h x := by
  have hpos : 0 < len := (by decide : 0 < dcAreaSize).trans_le hmin
  obtain ⟨enc, henc, hlenEnc, hencAt⟩ := xtsRun_slice key.length_enc h.bytes 0 _
    rfl hmod hpos (by omega)
  obtain ⟨salted, hsalt, hlenSalt, hsaltAt⟩ := putSalt_spec h
    (by rw [hlenEnc]; exact (by decide : headerSaltSize ≤ dcAreaSize).trans hmin)
  obtain ⟨out, hout, hlenOut, houtAt⟩ := putKeySlots_spec h hflags
    (fun hv hc => (hslots hv hc).trans hle) (fun hv hc => by rw [hlenSalt, hlenEnc]; exact hslots hv hc)
  refine ⟨out, ?_, by omega, fun x hx => ?_⟩
  · unfold encryptHeader xtsEncrypt
    rw [if_neg (Nat.not_lt.2 hmin), if_neg (not_not.2 hmod), readAt_eq (by omega)]
    simp only [Option.bind_eq_bind, Option.bind_some, henc, hsalt, hout]
  · rw [houtAt, hsaltAt, hencAt x hx, Nat.zero_add, sealedAt]
    by_cases hraw : h.isV2 = true ∧ h.Raw x
    · rw [if_pos hraw, if_pos (.inr hraw)]
    · rw [if_neg hraw]
      by_cases hx : x < headerSaltSize
      · rw [if_pos hx, if_pos (.inl hx)]
      · rw [if_neg hx, if_neg (not_or.2 ⟨hx, hraw⟩)]

/-! ### `io_write_header` -/

theorem cryptAt_congr {crypt : Nat → Bytes → Bytes} {mem mem' : Bytes} {last x : Nat} (hlast : last % xtsBlockSize = 0)
    (heq : ∀ x < last, mem[x]? = mem'[x]?) (hx : x < last) : cryptAt crypt mem x = cryptAt crypt mem' x := by
  unfold cryptAt
  rw [slice_congr fun y _ hy => heq y ?_]
  change last % 16 = 0 at hlast
  change y < 16 * (x / 16) + 16 at hy
  omega

theorem dcAlloc_length (junk : Nat → UInt8) (size : Nat) : (dcAlloc junk size).length = size := length_dcRand junk size

theorem sealCopy_spec (key : Xts) (h : DcHeader) {hcopy : Bytes} (hmin : dcAreaSize ≤ h.memLen)
    (hmod : h.memLen % xtsSectorSize = 0) (hle : h.memLen ≤ hcopy.length)
    (heq : ∀ x < h.memLen, hcopy[x]? = h.bytes[x]?) :
    ∃ out, sealCopy key h hcopy = some out ∧ out.length = hcopy.length ∧
      ∀ x < h.memLen, out[x]? = if x < headerSaltSize then h.bytes[x]? else cryptAt key.enc h.bytes x := by
  have hpos : 0 < h.memLen := (by decide : 0 < dcAreaSize).trans_le hmin
  obtain ⟨enc, henc, hlenEnc, hencAt⟩ := xtsRun_slice key.length_enc hcopy 0 _
    rfl hmod hpos (by omega)
  obtain ⟨mid, hmid⟩ := writeAt_eq hcopy 0 enc (by omega)
  have hlenMid := length_writeAt hmid
  obtain ⟨out, hout, hlenOut, houtAt⟩ := putSalt_spec h (by
    rw [hlenMid]
    exact ((by decide : headerSaltSize ≤ dcAreaSize).trans hmin).trans hle)
  refine ⟨out, ?_, hlenOut.trans hlenMid, fun x hx => ?_⟩
  · unfold sealCopy xtsEncrypt
    rw [readAt_eq (by omega)]
    simp only [Option.bind_eq_bind, Option.bind_some, henc, hmid, hout]
  · have hmidAt : mid[x]? = cryptAt key.enc h.bytes x := by
      rw [getElem?_writeAt hmid, if_pos (by omega), Nat.sub_zero, hencAt x hx, Nat.zero_add,
        cryptAt_congr (by change h.memLen % 16 = 0; change h.memLen % 512 = 0 at hmod; omega) heq hx]
    rw [houtAt, hmidAt]

/-- The slots are in the clear wherever the write covers them. -/
theorem patchKeySlots_spec (h : DcHeader) {flags : HfFlags} (hclear : flags.clearSlots = false) (offset length : Nat)
    (hcopy : Bytes) (hflags : h.isV2 = true → h.FlagsEnd h.bytes.length)
    (hin : h.isV2 = true → h.Copies → dcBaseSize + h.slotAreaLen ≤ h.bytes.length)
    (hm : h.isV2 = true → h.Copies → dcBaseSize + h.slotAreaLen ≤ hcopy.length) :
    ∃ out, patchKeySlots h flags offset length hcopy = some out ∧ out.length = hcopy.length ∧
      ∀ x, offset ≤ x → x < offset + length →
        out[x]? = if h.isV2 = true ∧ h.Raw x then h.bytes[x]? else hcopy[x]? := by
  unfold patchKeySlots
  by_cases hc : ¬ flags.clearSlots = true ∧ dcBaseSize < offset + length ∧ offset < dcBaseSize + h.slotAreaLen
  · rw [if_pos hc]
    obtain ⟨out, hput, hlen, hx⟩ := putKeySlots_spec h hflags hin hm
    exact ⟨out, hput, hlen, fun x _ _ => hx x⟩
  · rw [if_neg hc]
    refine ⟨_, rfl, rfl, fun x hle hlt => (if_neg fun hx => hc ⟨?_, ?_⟩).symm⟩
    · rw [hclear]
      exact Bool.false_ne_true
    · have hb := hx.2.bounds
      omega

theorem fillRest_spec (rand : Nat → UInt8) (memLen last : Nat) (hcopy : Bytes) (hlast : last ≤ hcopy.length) :
    ∃ out, fillRest rand memLen last hcopy = some out ∧ out.length = hcopy.length ∧
      ∀ x < memLen, out[x]? = hcopy[x]? := by
  unfold fillRest
  split
  · obtain ⟨out, hw⟩ := writeAt_eq hcopy memLen (dcRand rand (last - memLen)) (by rw [length_dcRand]; omega)
    refine ⟨out, hw, length_writeAt hw, fun x hx => ?_⟩
    rw [getElem?_writeAt hw, if_neg (by omega)]
  · exact ⟨_, rfl, rfl, fun x _ => rfl⟩

/-- The conditions under which a header is sealed in memory. -/
structure Writable (h : DcHeader) (bps : Nat) : Prop where
  sector : 0 < bps
  min : dcAreaSize ≤ h.memLen
  sectors : h.memLen % xtsSectorSize = 0
  int : roundToFullSectors h.memLen bps < 2 ^ 31
  held : h.memLen ≤ h.bytes.length
  correct : h.isVolumeHeaderCorrect = some true
  crc : 72 + h.crcLen ≤ h.memLen
  flags : h.isV2 = true → h.FlagsEnd h.bytes.length

theorem Writable.slots {h : DcHeader} (hv : h.isV2 = true) (hc : h.Copies) :
    dcBaseSize + h.slotAreaLen ≤ h.memLen := by
  have hsum : h.slotAreaLen ≤ h.slotsLen := Nat.le_add_right _ _
  have hle := hc.2.2
  unfold DcHeader.memLen
  rw [if_pos hv]
  omega

/-- The sectors written hold the bytes of the sealed header, the others what they held. -/
theorem sealAndWrite_spec (dev : DcDev) (rand junk : Nat → UInt8) (pos : Nat) {h : DcHeader} (key : Xts)
    {flags : HfFlags} (offset length : Nat) (hw : Writable h dev.bps) (hclear : flags.clearSlots = false)
    (hrange : offset + length ≤ roundToFullSectors h.memLen dev.bps)
    (hdisk : pos + offset + length ≤ dev.disk.length) :
    ∃ disk, sealAndWrite dev rand junk pos h key flags offset length = some (.ok, { dev with disk }) ∧
      disk.length = dev.disk.length ∧
      (∀ x, offset ≤ x → x < offset + length → x < h.memLen → disk[pos + x]? = sealedAt key h x) ∧
      ∀ y, ¬ (pos + offset ≤ y ∧ y < pos + offset + length) → disk[y]? = dev.disk[y]? := by
  have hround := le_roundToFullSectors h.memLen hw.sector
  have hheld := hw.held
  have hmin : 2048 ≤ h.memLen := hw.min
  have hheader : (slice h.bytes 0 h.memLen).length = h.memLen := length_slice (by omega)
  -- the copy
  obtain ⟨hcopy, hcopyW⟩ := writeAt_eq (dcAlloc junk (max (roundToFullSectors h.memLen dev.bps) pageSize)) 0
    (slice h.bytes 0 h.memLen) (by rw [hheader, dcAlloc_length]; omega)
  have hlenCopy : hcopy.length = max (roundToFullSectors h.memLen dev.bps) pageSize :=
    (length_writeAt hcopyW).trans (dcAlloc_length _ _)
  have hcopyAt : ∀ x < h.memLen, hcopy[x]? = h.bytes[x]? := by
    intro x hx
    rw [getElem?_writeAt hcopyW, hheader, if_pos (by omega), getElem?_slice, if_pos (by omega), Nat.sub_zero,
      Nat.zero_add]
  have harea : dcAreaSize ≤ hcopy.length := by
    change 2048 ≤ hcopy.length
    omega
  have hcorrect : (⟨hcopy, harea⟩ : DcHeader).isVolumeHeaderCorrect = some true := by
    rw [← hw.correct]
    refine (DcHeader.isVolumeHeaderCorrect_congr _ (fun x _ hx => (hcopyAt x hx).symm)
      ((by decide : dcBaseSize ≤ dcAreaSize).trans hw.min) ⟨(DcHeader.crcLen_of_correct hw.correct).1, hw.crc⟩
      hheld (by change h.memLen ≤ hcopy.length; omega) ?_).symm
    unfold DcHeader.salt
    rw [slice_congr fun x _ hx => (hcopyAt x (by change x < 0 + 64 at hx; omega)).symm]
  -- the sealing
  obtain ⟨sealed, hseal, hlenSeal, hsealAt⟩ := sealCopy_spec key h hw.min hw.sectors (by omega) hcopyAt
  obtain ⟨patched, hpatch, hlenPatch, hpatchAt⟩ := patchKeySlots_spec h hclear offset length sealed
    hw.flags (fun hv hc => (Writable.slots hv hc).trans hheld)
    (fun hv hc => by have := Writable.slots hv hc; omega)
  obtain ⟨filled, hfill, hlenFill, hfillAt⟩ := fillRest_spec rand h.memLen (offset + length) patched
    (by omega)
  have hdata : (slice filled offset length).length = length := length_slice (by omega)
  obtain ⟨disk, hdiskW⟩ := writeAt_eq dev.disk (pos + offset) (slice filled offset length) (by omega)
  refine ⟨disk, ?_, length_writeAt hdiskW, fun x hle hlt hx => ?_, fun y hy => ?_⟩
  · unfold sealAndWrite
    rw [if_neg (not_not.2 hw.sectors), if_neg (Nat.not_le.2 hw.int), readAt_eq (by omega)]
    simp only [Option.bind_eq_bind, Option.bind_some, hcopyW, DcHeader.ofBytes, dif_pos harea, hcorrect, hseal, hpatch,
      hfill, readAt_eq (show offset + length ≤ filled.length by omega), DcDev.write, hdiskW, Option.map_some,
      not_true_eq_false, if_false]
  · rw [getElem?_writeAt hdiskW, hdata, if_pos (by omega), getElem?_slice, if_pos (by omega),
      show offset + (pos + x - (pos + offset)) = x by omega, hfillAt x hx, hpatchAt x hle hlt, hsealAt x hx, sealedAt]
    by_cases hraw : h.isV2 = true ∧ h.Raw x
    · rw [if_pos hraw, if_pos (.inr hraw)]
    · rw [if_neg hraw]
      by_cases hx : x < headerSaltSize
      · rw [if_pos hx, if_pos (.inl hx)]
      · rw [if_neg hx, if_neg (not_or.2 ⟨hx, hraw⟩)]
  · rw [getElem?_writeAt hdiskW, hdata, if_neg (by omega)]

/-- A full write goes over all sectors of the header. -/
theorem ioWriteHeader_of_full {dev : DcDev} {rand junk : Nat → UInt8} {pos : Nat} {h : DcHeader} {key : Xts}
    {flags : HfFlags} (hfull : flags.Full) : ioWriteHeader dev rand junk pos h key flags =
      sealAndWrite dev rand junk pos h key flags 0 (roundToFullSectors h.memLen dev.bps) := by
  unfold ioWriteHeader DcHeader.writeRange
  rw [if_neg (by rw [hfull.1]; exact fun hp => Bool.false_ne_true hp.2)]
  simp only [if_neg (show ¬ (h.isV2 = true ∧ flags.clearSlots = true ∧ h.ffKeySlots = true) by
    rw [hfull.2]; exact fun hp => Bool.false_ne_true hp.2.1), Option.bind_eq_bind, Option.bind_some]

/-- A header that can be written in memory is, on any device with room for it. -/
theorem ioWriteHeader_writable {key : Xts} {h : DcHeader} {pos : Nat} (dev : DcDev) (hw : Writable h dev.bps)
    (hroom : pos + roundToFullSectors h.memLen dev.bps ≤ dev.disk.length) (rand junk : Nat → UInt8) {flags : HfFlags}
    (hfull : flags.Full) : ∃ disk, ioWriteHeader dev rand junk pos h key flags = some (.ok, { dev with disk }) ∧
      ∀ x < h.memLen, disk[pos + x]? = sealedAt key h x := by
  have hround := le_roundToFullSectors h.memLen hw.sector
  obtain ⟨disk, hspec, -, hat, -⟩ := sealAndWrite_spec dev rand junk _ key 0
    (roundToFullSectors h.memLen dev.bps) hw hfull.2 (by omega) (by omega)
  rw [ioWriteHeader_of_full hfull]
  exact ⟨disk, hspec, fun x hx => hat x (Nat.zero_le _) (by omega) hx⟩

end MajorPrivacy.Volume

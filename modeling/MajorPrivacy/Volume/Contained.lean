/-
A header that one of the three readers has opened, in the buffer this reader allocated: when every
call that follows the fields of the header stays inside the buffer.
-/
import MajorPrivacy.Volume.Bounds
import MajorPrivacy.Volume.Readers

namespace MajorPrivacy.Volume

open LittleEndian Memory

/-! ## XTS calls on the tail -/

theorem isSome_xtsRun {crypt : Nat → Bytes → Bytes} {mem : Bytes} {offset : Nat} :
    (xtsRun crypt mem offset).isSome ↔ mem ≠ [] ∧ mem.length % xtsSectorSize = 0 := by
  unfold xtsRun
  split
  · rename_i h
    refine iff_of_false Bool.false_ne_true fun h' => ?_
    rcases h with h | h
    · exact h'.1 h
    · exact h h'.2
  · rename_i h
    rw [not_or, not_not] at h
    exact iff_of_true rfl h

theorem length_xtsRun {crypt : Nat → Bytes → Bytes} (hcrypt : ∀ n b, (crypt n b).length = b.length)
    {mem mem' : Bytes} {offset : Nat} (h : xtsRun crypt mem offset = some mem') : mem'.length = mem.length := by
  unfold xtsRun at h
  split at h
  · cases h
  · rename_i hne
    rw [not_or, not_not] at hne
    have hlen : mem.length % 512 = 0 := hne.2
    have hblocks : mem.length = xtsBlockSize * (mem.length / xtsBlockSize) := by
      change mem.length = 16 * (mem.length / 16)
      omega
    cases h
    rw [BlockCipher.length_mapBlocks hcrypt _ _ _ hblocks, ← hblocks]

theorem DcHeader.isSome_ofBytes {mem : Bytes} : (DcHeader.ofBytes mem).isSome ↔ dcAreaSize ≤ mem.length := by
  unfold DcHeader.ofBytes
  split <;> simp [*]

/-- With the tail in both buffers, the call stays in them exactly on whole sectors. -/
theorem isSome_decryptTail {key : Xts} {raw : Bytes} {h : DcHeader} {hdrLen : Nat} (hraw : hdrLen ≤ raw.length)
    (hmem : hdrLen ≤ h.bytes.length) :
    (decryptTail key raw h hdrLen).isSome ↔ (dcAreaSize < hdrLen → hdrLen % xtsSectorSize = 0) := by
  have harea : 2048 ≤ h.bytes.length := h.area
  unfold decryptTail
  split
  · rename_i hlt
    have htail : dcAreaSize + (hdrLen - dcAreaSize) = hdrLen := Nat.add_sub_cancel' (Nat.le_of_lt hlt)
    unfold xtsTail
    rw [readAt_eq (by omega), Option.bind_eq_bind, Option.bind_some]
    have hslice : (slice raw dcAreaSize (hdrLen - dcAreaSize)).length = hdrLen - dcAreaSize := length_slice (by omega)
    have hcrypt := @isSome_xtsRun key.dec (slice raw dcAreaSize (hdrLen - dcAreaSize)) dcAreaSize
    rw [hslice] at hcrypt
    have hne : slice raw dcAreaSize (hdrLen - dcAreaSize) ≠ [] := by
      intro h
      rw [h, List.length_nil] at hslice
      omega
    have hmod : (hdrLen - dcAreaSize) % xtsSectorSize = 0 ↔ hdrLen % xtsSectorSize = 0 := by
      change (hdrLen - 2048) % 512 = 0 ↔ hdrLen % 512 = 0
      change 2048 < hdrLen at hlt
      omega
    rw [hmod] at hcrypt
    cases hc : xtsDecrypt key (slice raw dcAreaSize (hdrLen - dcAreaSize)) dcAreaSize with
    | none =>
      have hnone : (xtsRun key.dec (slice raw dcAreaSize (hdrLen - dcAreaSize)) dcAreaSize).isSome = false := by
        change (xtsDecrypt key _ _).isSome = false
        rw [hc]
        rfl
      rw [hnone] at hcrypt
      exact iff_of_false Bool.false_ne_true fun h => Bool.false_ne_true (hcrypt.2 ⟨hne, h hlt⟩)
    | some tail =>
      have hlen := (length_xtsRun key.length_dec hc).trans hslice
      have hsome : (xtsRun key.dec (slice raw dcAreaSize (hdrLen - dcAreaSize)) dcAreaSize).isSome = true := by
        change (xtsDecrypt key _ _).isSome = true
        rw [hc]
        rfl
      obtain ⟨mem, hw⟩ := writeAt_eq h.bytes dcAreaSize tail (by omega)
      have hwlen : dcAreaSize ≤ mem.length := by
        rw [length_writeAt hw]
        exact h.area
      simp only [Option.bind_some, hw, DcHeader.isSome_ofBytes]
      exact iff_of_true hwlen fun _ => (hcrypt.1 hsome).2
  · rename_i hlt
    exact iff_of_true rfl fun h => absurd h hlt

theorem isSome_loadKeySlots {raw : Bytes} {h : DcHeader} (hin : h.bytes.length ≤ raw.length ∨ h.headLen ≤ raw.length) :
    (loadKeySlots raw h).isSome ↔ h.CopyFits := by
  unfold loadKeySlots
  by_cases hff : h.ffKeySlots = true
  · rw [if_pos hff, ← h.isSome_copyKeySlots hin (Nat.le_refl _)]
    cases hc : h.copyKeySlots raw h.bytes with
    | none => exact iff_of_false Bool.false_ne_true Bool.false_ne_true
    | some out =>
      rw [Option.bind_some, DcHeader.isSome_ofBytes, h.length_copyKeySlots hc]
      exact iff_of_true h.area rfl
  · rw [if_neg hff]
    exact iff_of_true rfl fun h' => absurd h' hff

/-! ## Readers and their buffers -/

/-- A reader that has opened a header: with the key to a buffer of `len` bytes, from memory, or from a device
of which `hdrLen` bytes have been read. -/
inductive Reader
  | withKey (len : Nat)
  | memory (encLen : Nat)
  | device (bps hdrLen : Nat)

namespace Reader

/-- What each reader has made sure of before it opens a header. -/
def Valid : Reader → Prop
  | withKey len => dcAreaSize ≤ len ∧ len % xtsSectorSize = 0
  | memory encLen => dcAreaSize ≤ encLen
  | device bps hdrLen => 0 < bps ∧ xtsSectorSize ∣ bps ∧ bps ∣ hdrLen ∧ dcAreaSize ≤ hdrLen ∧ hdrLen < 2 ^ 31

/-- The length of the buffer for a header. -/
def allocated (r : Reader) (h : DcHeader) : Nat :=
  match r with
  | withKey len => len
  | memory encLen => encLen
  | device bps hdrLen => if h.isV2 ∧ hdrLen < h.headLen then roundToFullSectors h.headLen bps else hdrLen

/-- How much of the header has been read. -/
def rawLen (r : Reader) (h : DcHeader) : Nat :=
  match r with
  | withKey len => len
  | memory encLen => encLen
  | device _ hdrLen => if h.isV2 then max hdrLen h.headLen else hdrLen

/-- What the header is checked in: its buffer, or a scratch copy of the first 2 KB. -/
def base (r : Reader) (h : DcHeader) : DcHeader :=
  match r with
  | withKey _ => h
  | memory _ | device _ _ => ⟨h.bytes.take dcAreaSize, by rw [List.length_take]; have := h.area; omega⟩

/-- The range of `head_len` that `dc_decrypt_header` goes on with. -/
def memoryAccepts (h : DcHeader) : Prop := h.isV2 ∧ dcAreaSize ≤ h.headLen ∧ h.headLen ≤ dcAreaMaxSize

instance (h : DcHeader) : Decidable (memoryAccepts h) := inferInstanceAs (Decidable (_ ∧ _ ∧ _))

/-- The XTS call on the tail. -/
def tail (r : Reader) (key : Xts) (raw : Bytes) (h : DcHeader) : Option DcHeader :=
  match r with
  | withKey len => decryptTail key raw h len
  | memory encLen =>
    if memoryAccepts h then decryptTail key raw h (dcAreaSize + memTail encLen h.headLen) else some h
  | device bps hdrLen =>
    if h.isV2 then (fullLen bps hdrLen h.headLen).bind fun _ => decryptTail key raw h (max hdrLen h.headLen)
    else some h

/-- Whether the reader gets to `cp_copy_keylots`. -/
def loads (r : Reader) (h : DcHeader) : Prop :=
  match r with
  | withKey _ => True
  | memory encLen => memoryAccepts h ∧ dcBaseSize + h.slotsLen ≤ encLen
  | device _ _ => h.isV2

/-- No function leaves the buffer or computes a length that wraps around, whatever has been read, whichever
slot is asked for and whatever is put into it. -/
structure Contained (r : Reader) (h : DcHeader) : Prop where
  base : (r.base h).isVolumeHeaderCorrect.isSome
  tail : ∀ key raw, raw.length = r.rawLen h → (r.tail key raw h).isSome
  keySlots : r.loads h → ∀ raw, raw.length = r.rawLen h → (loadKeySlots raw h).isSome
  slotInfo : ∀ slotIdx, (h.getSlotInfo slotIdx).isSome
  slotPayload : ∀ slotIdx len, (h.getSlotPayload slotIdx len).isSome
  setSlot : ∀ rand slotIdx info payload, (h.setSlot rand slotIdx info payload).isSome
  extHeader : h.getExtHeader.isSome

/-- The tail of the length in the header is one of whole sectors, and its buffer one an `int` can count. -/
def TailFits (r : Reader) (h : DcHeader) : Prop :=
  match r with
  | withKey _ | memory _ => True
  | device bps hdrLen => h.isV2 → h.headLen < 2 ^ 31 ∧
      (hdrLen < h.headLen → roundToFullSectors (max h.headLen pageSize) bps < 2 ^ 31 ∧ h.headLen % xtsSectorSize = 0)

/-- The layout in the header fits the buffer it is in. -/
structure LayoutFits (r : Reader) (h : DcHeader) : Prop where
  crc : (r.base h).CrcFits
  tail : r.TailFits h
  copy : r.loads h → h.CopyFits
  slots : h.SlotsFit
  ext : h.ExtFits

theorem isSome_tail {r : Reader} {h : DcHeader} (hv : r.Valid) (hlen : h.bytes.length = r.allocated h) (key : Xts)
    {raw : Bytes} (hraw : raw.length = r.rawLen h) : (r.tail key raw h).isSome ↔ r.TailFits h := by
  cases r with
  | withKey len =>
    change raw.length = len at hraw
    change h.bytes.length = len at hlen
    exact (isSome_decryptTail (Nat.le_of_eq hraw.symm) (Nat.le_of_eq hlen.symm)).trans
      (iff_of_true (fun _ => hv.2) trivial)
  | memory encLen =>
    change 2048 ≤ encLen at hv
    change raw.length = encLen at hraw
    change h.bytes.length = encLen at hlen
    refine iff_of_true ?_ trivial
    simp only [tail]
    split
    · have hle : dcAreaSize + memTail encLen h.headLen ≤ encLen := by
        have hdiv := Nat.div_mul_le_self (min encLen h.headLen - dcAreaSize) xtsSectorSize
        have harea : dcAreaSize = 2048 := rfl
        unfold memTail
        omega
      refine (isSome_decryptTail (by omega) (by omega)).2 fun _ => ?_
      unfold memTail
      rw [Nat.add_mul_mod_self_right]
      rfl
    · rfl
  | device bps hdrLen =>
    obtain ⟨hbps, hsector, hdvd, harea, hint⟩ := hv
    simp only [tail, TailFits, allocated, rawLen] at hlen hraw ⊢
    by_cases hv2 : h.isV2 = true
    swap
    · rw [if_neg hv2]
      exact iff_of_true rfl fun h' => absurd h' hv2
    rw [if_pos hv2] at hraw ⊢
    rw [forall_prop_of_true hv2]
    unfold fullLen
    by_cases hhead : 2 ^ 31 ≤ h.headLen
    · rw [if_pos hhead]
      exact iff_of_false Bool.false_ne_true fun h' => by omega
    rw [if_neg hhead, and_iff_right (Nat.lt_of_not_le hhead)]
    by_cases hlt : hdrLen < h.headLen
    · rw [if_pos hlt, forall_prop_of_true hlt]
      rw [if_pos ⟨hv2, hlt⟩] at hlen
      by_cases hround : 2 ^ 31 ≤ roundToFullSectors (max h.headLen pageSize) bps
      · rw [if_pos hround]
        exact iff_of_false Bool.false_ne_true fun h' => by omega
      · rw [if_neg hround, Option.bind_some, and_iff_right (Nat.lt_of_not_le hround),
          Nat.max_eq_right (Nat.le_of_lt hlt)]
        rw [Nat.max_eq_right (Nat.le_of_lt hlt)] at hraw
        have hle := le_roundToFullSectors h.headLen hbps
        rw [isSome_decryptTail (by omega) (by omega), forall_prop_of_true (by omega)]
    · rw [if_neg hlt, Option.bind_some, Nat.max_eq_left (Nat.le_of_not_lt hlt)]
      rw [if_neg fun h' => hlt h'.2] at hlen
      rw [Nat.max_eq_left (Nat.le_of_not_lt hlt)] at hraw
      rw [isSome_decryptTail (by omega) (by omega)]
      exact iff_of_true (fun _ => Nat.mod_eq_zero_of_dvd (hsector.trans hdvd)) fun h' => absurd h' hlt

theorem headLen_le_rawLen {r : Reader} {h : DcHeader} (hlen : h.bytes.length = r.allocated h) (hl : r.loads h) :
    h.bytes.length ≤ r.rawLen h ∨ h.headLen ≤ r.rawLen h := by
  cases r with
  | withKey len => exact .inl (Nat.le_of_eq hlen)
  | memory encLen => exact .inl (Nat.le_of_eq hlen)
  | device bps hdrLen =>
    have hv2 : h.isV2 = true := hl
    refine .inr ?_
    simp only [rawLen]
    rw [if_pos hv2]
    exact Nat.le_max_right _ _

/-- The code stays inside the buffer a reader has allocated for exactly the headers whose layout fits it. -/
theorem contained_iff_layoutFits {r : Reader} {h : DcHeader} (hv : r.Valid) (hlen : h.bytes.length = r.allocated h) :
    r.Contained h ↔ r.LayoutFits h := by
  have htail := isSome_tail hv hlen
  constructor
  · intro hc
    refine ⟨(DcHeader.isSome_isVolumeHeaderCorrect _).1 hc.base, ?_, fun hl => ?_,
      h.slotsFit_of_setSlot (fun _ => 0) (hc.setSlot _ _ _ _), h.isSome_getExtHeader.1 hc.extHeader⟩
    · let key : Xts := ⟨fun _ b => b, fun _ b => b, fun _ _ => rfl, fun _ _ => rfl, fun _ _ => rfl⟩
      have hraw : (List.replicate (r.rawLen h) (0 : UInt8)).length = r.rawLen h := List.length_replicate
      exact (htail key hraw).1 (hc.tail key _ hraw)
    · have hraw : (List.replicate (r.rawLen h) (0 : UInt8)).length = r.rawLen h := List.length_replicate
      exact (isSome_loadKeySlots (by rw [hraw]; exact headLen_le_rawLen hlen hl)).1 (hc.keySlots hl _ hraw)
  · intro hf
    refine ⟨(DcHeader.isSome_isVolumeHeaderCorrect _).2 hf.crc, fun key raw hraw => (htail key hraw).2 hf.tail,
      fun hl raw hraw => ?_, h.isSome_getSlotInfo hf.slots, h.isSome_getSlotPayload hf.slots,
      h.isSome_setSlot hf.slots, h.isSome_getExtHeader.2 hf.ext⟩
    exact (isSome_loadKeySlots (by rw [hraw]; exact headLen_le_rawLen hlen hl)).2 (hf.copy hl)

/-- A version 2 header of 2 KB with two slots and a given `footer_cnt`, and the checksum it has with 59. -/
def twoSlots (footerCnt : UInt8) : DcHeader where
  bytes := (List.range dcAreaSize).map fun
    | 0 => 1
    | 64 => 0x44 | 65 => 0x43 | 66 => 0x52 | 67 => 0x50
    | 68 => 0x8A | 69 => 0xD8 | 70 => 0xAD | 71 => 0xEB
    | 72 => 3
    | 615 => 8
    | 627 => footerCnt
    | 628 => 1
    | 635 => 0x80 | 636 => 1 | 637 => 2 | 638 => 32
    | _ => 0
  area := by rw [List.length_map, List.length_range]

theorem contained_twoSlots : (memory dcAreaSize).Contained (twoSlots 0) := by
  refine (contained_iff_layoutFits (r := memory dcAreaSize) (Nat.le_refl _)
    (by rw [twoSlots, List.length_map, List.length_range]; rfl)).2 ⟨.inr (.inr (.inr ?_)), trivial, ?_, ?_, ?_⟩
  · decide +kernel
  · exact fun _ _ _ _ => by decide +kernel
  · exact fun _ => by decide +kernel
  · exact fun _ hoff => absurd (by decide +kernel) hoff

/-- With a `footer_cnt` of 60 the length of the checksum is negative, and almost 4 GB as it is used. -/
theorem footerCnt_leaves_buffer : (memory dcAreaSize).Valid ∧
    (twoSlots 60).bytes.length = (memory dcAreaSize).allocated (twoSlots 60) ∧
      ¬ (memory dcAreaSize).Contained (twoSlots 60) := by
  refine ⟨Nat.le_refl _, by rw [twoSlots, List.length_map, List.length_range]; rfl, fun hc => ?_⟩
  have hnone : ((memory dcAreaSize).base (twoSlots 60)).isVolumeHeaderCorrect.isSome = false := by decide +kernel
  exact Bool.false_ne_true (hnone.symm.trans hc.base)

end Reader

end MajorPrivacy.Volume

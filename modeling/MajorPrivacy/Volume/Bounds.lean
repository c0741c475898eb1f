/-
Which header contents keep the code inside its buffer. Nothing in a header is trusted before it is
checked, but several fields are used before anything checks them: each function is taken with the
buffer its reader has allocated, and it stays inside exactly where the fields fit that buffer.
-/
import MajorPrivacy.Volume.Header

namespace MajorPrivacy.Volume

open LittleEndian Memory

theorem isSome_readLE {mem : Bytes} {off w : Nat} : (readLE mem off w).isSome ↔ off + w ≤ mem.length := by
  rw [readLE, Option.isSome_map, isSome_readAt]

theorem isSome_crcAt {mem : Bytes} {off : Nat} {len : Int} :
    (crcAt mem off len).isSome ↔ 0 ≤ len ∧ off + len ≤ mem.length := by
  unfold crcAt
  split
  · exact iff_of_false (by simp) fun h => by omega
  · rw [Option.isSome_map, isSome_readAt]
    omega

/-- A loop that fails in no step; `P` holds of what is handed from step to step. -/
theorem isSome_foldlM {α β : Type} {P : β → Prop} {c : α → Prop} {f : β → α → Option β} : ∀ (l : List α) (b : β),
    (∀ b a b', P b → f b a = some b' → P b') → (∀ b, ∀ a ∈ l, P b → ((f b a).isSome ↔ c a)) → P b →
      ((l.foldlM f b).isSome ↔ ∀ a ∈ l, c a)
  | [], _, _, _, _ => by simp
  | a :: l, b, hP, hc, hb => by
    have ha := hc b a List.mem_cons_self hb
    rw [List.foldlM_cons, List.forall_mem_cons]
    cases hf : f b a with
    | none =>
      rw [hf] at ha
      exact iff_of_false Bool.false_ne_true fun h => Bool.false_ne_true (ha.2 h.1)
    | some b' =>
      rw [hf] at ha
      rw [and_iff_right (ha.1 rfl)]
      exact isSome_foldlM l b' hP (fun b a hm => hc b a (List.mem_cons_of_mem _ hm)) (hP b a b' hb hf)

namespace DcHeader

variable (h : DcHeader)

/-! ## Each function -/

/-- The checksum is taken of bytes in the buffer, if it is taken at all. -/
def CrcFits : Prop :=
  h.salt.all (· = 0) = true ∨ h.sign ≠ dcVolumeSign ∨ h.isV2 = false ∨
    h.footerCnt ≤ 59 ∧ 1024 - h.footerCnt * 16 ≤ h.bytes.length

theorem isSome_calculateHeaderCrc :
    h.calculateHeaderCrc.isSome ↔ h.isV2 = false ∨ h.footerCnt ≤ 59 ∧ 1024 - h.footerCnt * 16 ≤ h.bytes.length := by
  have hlen : 2048 ≤ h.bytes.length := h.area
  unfold calculateHeaderCrc crcLen
  rw [isSome_crcAt]
  cases h.isV2 with
  | true => simp only [if_true, Bool.true_eq_false, false_or]; omega
  | false => simp only [Bool.false_eq_true, if_false, true_or, iff_true]; omega

theorem isSome_isVolumeHeaderCorrect : h.isVolumeHeaderCorrect.isSome ↔ h.CrcFits := by
  have hcrc := h.isSome_calculateHeaderCrc
  unfold isVolumeHeaderCorrect CrcFits
  split
  · simp [*]
  · split
    · simp [*]
    · rw [← hcrc]
      cases h.calculateHeaderCrc <;> simp [*]

/-- The flags of the last descriptor are in the buffer, if `cp_copy_keylots` looks at them. -/
def CopyFits : Prop :=
  h.ffKeySlots = true → h.keySlotCount ≠ 0 → dcBaseSize + h.slotsLen ≤ h.headLen →
    h.infoOff (h.keySlotCount - 1) + 8 ≤ h.bytes.length

theorem slotOff_add_le {i : Nat} (hi : i < h.keySlotCount) : h.slotOff i + h.slotSize ≤ dcBaseSize + h.slotAreaLen := by
  have hmul : h.slotSize * (i + 1) ≤ h.slotSize * h.keySlotCount := Nat.mul_le_mul_left _ hi
  have hdiv : h.slotSize * h.keySlotCount ≤ h.slotAreaLen := Nat.div_mul_le_self _ _
  rw [Nat.mul_succ] at hmul
  unfold slotOff
  omega

theorem infoOff_le {i j : Nat} (hij : i ≤ j) : h.infoOff i ≤ h.infoOff j :=
  Nat.add_le_add_left (Nat.mul_le_mul_left _ hij) _

theorem le_infoOff (i : Nat) : dcBaseSize + h.slotAreaLen ≤ h.infoOff i := Nat.le_add_right _ _

theorem infoOff_add_le {i : Nat} (hi : i < h.keySlotCount) : h.infoOff i + h.slotInfoSize ≤ dcBaseSize + h.slotsLen := by
  have hmul : h.slotInfoSize * (i + 1) ≤ h.slotInfoSize * h.keySlotCount := Nat.mul_le_mul_left _ hi
  rw [Nat.mul_succ] at hmul
  unfold infoOff slotsLen
  rw [Nat.mul_comm h.keySlotCount]
  omega

theorem length_copySlot {inBuff outBuff outBuff' : Bytes} {i : Nat}
    (hc : h.copySlot inBuff outBuff i = some outBuff') : outBuff'.length = outBuff.length := by
  unfold copySlot at hc
  obtain ⟨flags, -, hc⟩ := Option.bind_eq_some_iff.1 hc
  split at hc
  · cases hc
    rfl
  · obtain ⟨slot, -, hc⟩ := Option.bind_eq_some_iff.1 hc
    exact length_writeAt hc

/-- A slot lies in front of its descriptor, so that only the descriptor can leave the buffer. -/
theorem isSome_copySlot {inBuff outBuff : Bytes} {i : Nat} (hi : i < h.keySlotCount)
    (hin : h.infoOff i + 8 ≤ h.bytes.length → dcBaseSize + h.slotAreaLen ≤ inBuff.length)
    (hout : h.bytes.length ≤ outBuff.length) :
    (h.copySlot inBuff outBuff i).isSome ↔ h.infoOff i + 8 ≤ h.bytes.length := by
  have hslot := h.slotOff_add_le hi
  have hinfo := h.le_infoOff i
  have hread := @isSome_readLE h.bytes (h.infoOff i + 4) 4
  unfold copySlot
  cases hf : readLE h.bytes (h.infoOff i + 4) 4 with
  | none =>
    rw [hf] at hread
    exact iff_of_false Bool.false_ne_true fun hle => Bool.false_ne_true (hread.2 hle)
  | some flags =>
    rw [hf] at hread
    have hle := hread.1 rfl
    have hin := hin (by omega)
    refine iff_of_true ?_ (by omega)
    simp only [Option.bind_eq_bind, Option.bind_some]
    split
    · rfl
    · rw [readAt_eq (by omega), Option.bind_some, isSome_writeAt, length_slice (by omega)]
      omega

theorem isSome_copyKeySlots {inBuff outBuff : Bytes}
    (hin : h.bytes.length ≤ inBuff.length ∨ h.headLen ≤ inBuff.length)
    (hout : h.bytes.length ≤ outBuff.length) : (h.copyKeySlots inBuff outBuff).isSome ↔ h.CopyFits := by
  unfold copyKeySlots CopyFits
  by_cases hff : ¬ h.ffKeySlots = true ∨ h.keySlotCount = 0
  · rw [if_pos hff]
    refine iff_of_true rfl fun h₁ h₂ => ?_
    rcases hff with hff | hff
    · exact absurd h₁ hff
    · exact absurd hff h₂
  rw [if_neg hff]
  rw [not_or, not_not] at hff
  by_cases hlen : dcBaseSize + h.slotsLen > h.headLen
  · rw [if_pos hlen]
    exact iff_of_true rfl fun _ _ h₃ => by omega
  rw [if_neg hlen]
  have hloop := isSome_foldlM (P := fun out : Bytes => h.bytes.length ≤ out.length)
    (c := fun i => h.infoOff i + 8 ≤ h.bytes.length) (f := fun outBuff i => h.copySlot inBuff outBuff i)
    (List.range h.keySlotCount) outBuff (fun b a b' hb hf => by rwa [h.length_copySlot hf])
    (fun b i hi hb => h.isSome_copySlot (List.mem_range.1 hi) (fun hle => by
      have hslots := h.le_infoOff i
      have hsum : h.slotAreaLen ≤ h.slotsLen := Nat.le_add_right _ _
      omega) hb) hout
  have hmap : ((List.range h.keySlotCount).foldlM (fun outBuff i => h.copySlot inBuff outBuff i) outBuff >>=
      fun outBuff => some (outBuff, true)).isSome =
      ((List.range h.keySlotCount).foldlM (fun outBuff i => h.copySlot inBuff outBuff i) outBuff).isSome := by
    cases (List.range h.keySlotCount).foldlM (fun outBuff i => h.copySlot inBuff outBuff i) outBuff <;> rfl
  rw [hmap, hloop]
  constructor
  · exact fun hall _ _ _ => hall _ (List.mem_range.2 (by omega))
  · intro hlast i hi
    have := h.infoOff_le (i := i) (j := h.keySlotCount - 1) (by have := List.mem_range.1 hi; omega)
    have := hlast hff.1 hff.2 (by omega)
    omega

theorem length_copySlots {inBuff : Bytes} : ∀ (l : List Nat) {outBuff outBuff' : Bytes},
    l.foldlM (fun outBuff i => h.copySlot inBuff outBuff i) outBuff = some outBuff' → outBuff'.length = outBuff.length
  | [], _, _, hl => by
    cases hl
    rfl
  | i :: l, outBuff, outBuff', hl => by
    rw [List.foldlM_cons] at hl
    obtain ⟨mid, hmid, hl⟩ := Option.bind_eq_some_iff.1 hl
    exact (length_copySlots l hl).trans (h.length_copySlot hmid)

theorem length_copyKeySlots {inBuff outBuff : Bytes} {out : Bytes × Bool}
    (hc : h.copyKeySlots inBuff outBuff = some out) : out.1.length = outBuff.length := by
  unfold copyKeySlots at hc
  split at hc
  · cases hc
    rfl
  · split at hc
    · cases hc
      rfl
    · obtain ⟨outBuff', hl, hc⟩ := Option.bind_eq_some_iff.1 hc
      cases hc
      exact h.length_copySlots _ hl

/-- The slots and their descriptors are in the buffer, and a descriptor has room for a checksum. -/
def SlotsFit : Prop :=
  h.hasKeySlots = true → 4 ≤ h.slotInfoSize ∧ dcBaseSize + h.slotsLen ≤ h.bytes.length

/-- The extended header is in the buffer, if `get_ext_header` looks at it, and its end is below 4 GB. -/
def ExtFits : Prop :=
  h.isV2 = true → h.extHdrOff ≠ 0 → dcBaseSize + (if h.ffKeySlots then h.slotsLen else 0) ≤ h.extHdrOff →
    h.extHdrOff + minExtHdrSize ≤ h.headLen →
      h.extHdrOff + 8 ≤ h.bytes.length ∧ h.extHdrOff + h.field (h.extHdrOff + 4) 4 < 4294967296 ∧
        (h.extHdrOff + h.field (h.extHdrOff + 4) 4 ≤ h.headLen → minExtHdrSize ≤ h.field (h.extHdrOff + 4) 4 →
          h.extHdrOff + h.field (h.extHdrOff + 4) 4 ≤ h.bytes.length)

theorem isSome_getExtHeader : h.getExtHeader.isSome ↔ h.ExtFits := by
  unfold getExtHeader ExtFits
  by_cases hv : h.isV2 = true
  · by_cases hoff : h.extHdrOff = 0
    · rw [if_neg (not_not.2 hv), if_pos hoff]
      exact iff_of_true rfl fun _ h₂ => absurd hoff h₂
    rw [if_neg (not_not.2 hv), if_neg hoff]
    by_cases hslots : h.extHdrOff < dcBaseSize + (if h.ffKeySlots then h.slotsLen else 0)
    · rw [if_pos hslots]
      exact iff_of_true rfl fun _ _ h₃ => by omega
    rw [if_neg hslots]
    by_cases hmin : h.extHdrOff + minExtHdrSize > h.headLen
    · rw [if_pos hmin]
      exact iff_of_true rfl fun _ _ _ h₄ => by omega
    rw [if_neg hmin]
    have hgo : ∀ {P : Prop}, (h.isV2 = true → h.extHdrOff ≠ 0 →
        dcBaseSize + (if h.ffKeySlots then h.slotsLen else 0) ≤ h.extHdrOff →
        h.extHdrOff + minExtHdrSize ≤ h.headLen → P) ↔ P :=
      fun {P} => ⟨fun hp => hp hv hoff (by omega) (by omega), fun hp _ _ _ _ => hp⟩
    rw [hgo]
    by_cases hread : h.extHdrOff + 8 ≤ h.bytes.length
    · have hsize : readLE h.bytes (h.extHdrOff + 4) 4 = some (h.field (h.extHdrOff + 4) 4) := by
        rw [readLE, readAt_eq (by omega)]
        rfl
      rw [hsize, and_iff_right hread]
      simp only [Option.bind_eq_bind, Option.bind_some]
      generalize h.field (h.extHdrOff + 4) 4 = size
      by_cases hwrap : h.extHdrOff + size ≥ 4294967296
      · rw [if_pos hwrap]
        exact iff_of_false (by simp) fun hf => by omega
      rw [if_neg hwrap, and_iff_right (by omega : h.extHdrOff + size < 4294967296)]
      by_cases hinv : h.extHdrOff + size > h.headLen ∨ size < minExtHdrSize
      · rw [if_pos hinv]
        exact iff_of_true rfl fun _ _ => by omega
      rw [if_neg hinv]
      have hcrc : readLE h.bytes h.extHdrOff 4 = some (h.field h.extHdrOff 4) := by
        rw [readLE, readAt_eq (by omega)]
        rfl
      have hsum := @isSome_crcAt h.bytes (h.extHdrOff + 4) ((size : Int) - 4)
      rw [hcrc]
      simp only [Option.bind_some]
      cases hc : crcAt h.bytes (h.extHdrOff + 4) ((size : Int) - 4) with
      | none =>
        rw [hc] at hsum
        refine iff_of_false (by simp) fun hf => Bool.false_ne_true (hsum.2 ?_)
        have hmin : 10 ≤ size := by
          change ¬ (_ ∨ size < 10) at hinv
          omega
        have := hf (by omega) hmin
        omega
      | some sum =>
        rw [hc] at hsum
        have := hsum.1 rfl
        refine iff_of_true ?_ fun _ _ => by omega
        simp only [Option.bind_some]
        split <;> rfl
    · have hsize : readLE h.bytes (h.extHdrOff + 4) 4 = none := by
        rw [← Option.not_isSome_iff_eq_none, isSome_readLE]
        omega
      rw [hsize]
      exact iff_of_false (by simp) fun hf => hread hf.1
  · rw [if_pos hv]
    exact iff_of_true rfl fun h₁ => absurd h₁ hv

/-! ### Slots -/

theorem isSome_getSlotInfo (hf : h.SlotsFit) (slotIdx : Int) : (h.getSlotInfo slotIdx).isSome := by
  unfold getSlotInfo
  by_cases hs : h.hasKeySlots = true
  · obtain ⟨hsize, hend⟩ := hf hs
    rw [if_neg (not_not.2 hs)]
    by_cases hidx : slotIdx < 0 ∨ h.keySlotCount ≤ slotIdx
    · rw [if_pos hidx]
      rfl
    rw [if_neg hidx]
    have hi : slotIdx.toNat < h.keySlotCount := by omega
    have hinfo := h.infoOff_add_le hi
    have hslot := h.slotOff_add_le hi
    have hle := h.le_infoOff slotIdx.toNat
    have hinfoCrc := (@isSome_crcAt h.bytes (h.infoOff slotIdx.toNat + 4) ((h.slotInfoSize : Int) - 4)).2 (by omega)
    have hslotCrc := (@isSome_crcAt h.bytes (h.slotOff slotIdx.toNat) h.slotSize).2 (by omega)
    have hcrc := (@isSome_readLE h.bytes (h.infoOff slotIdx.toNat) 4).2 (by omega)
    obtain ⟨infoCrc, hinfoCrc⟩ := Option.isSome_iff_exists.1 hinfoCrc
    obtain ⟨slotCrc, hslotCrc⟩ := Option.isSome_iff_exists.1 hslotCrc
    obtain ⟨crc, hcrc⟩ := Option.isSome_iff_exists.1 hcrc
    simp only [readAt_eq (show h.infoOff slotIdx.toNat + min slotInfoBytes h.slotInfoSize ≤ h.bytes.length by omega),
      hinfoCrc, hslotCrc, hcrc, Option.bind_eq_bind, Option.bind_some]
    split
    · rfl
    · split <;> rfl
  · rw [if_pos hs]
    rfl

theorem isSome_getSlotPayload (hf : h.SlotsFit) (slotIdx : Int) (len : Nat) : (h.getSlotPayload slotIdx len).isSome := by
  unfold getSlotPayload
  by_cases hs : h.hasKeySlots = true
  · obtain ⟨-, hend⟩ := hf hs
    rw [if_neg (not_not.2 hs)]
    by_cases hidx : slotIdx < 0 ∨ h.keySlotCount ≤ slotIdx
    · rw [if_pos hidx]
      rfl
    rw [if_neg hidx]
    have hi : slotIdx.toNat < h.keySlotCount := by omega
    have hinfo := h.infoOff_add_le hi
    have hslot := h.slotOff_add_le hi
    have hle := h.le_infoOff slotIdx.toNat
    split
    · rfl
    · rw [readAt_eq (by omega)]
      rfl
  · rw [if_pos hs]
    rfl

theorem exists_writeInfo (hs : h.hasKeySlots = true) (hf : h.SlotsFit) {i : Nat} (hi : i < h.keySlotCount)
    (info : NewInfo) : ∃ mem, h.writeInfo i info = some mem ∧ mem.length = h.bytes.length := by
  obtain ⟨-, hend⟩ := hf hs
  have hinfo := h.infoOff_add_le hi
  cases info with
  | keep => exact ⟨_, rfl, rfl⟩
  | clear =>
    obtain ⟨mem, hm⟩ := writeAt_eq h.bytes (h.infoOff i) (List.replicate h.slotInfoSize 0)
      (by rw [List.length_replicate]; omega)
    exact ⟨mem, hm, length_writeAt hm⟩
  | set info =>
    obtain ⟨mem, hm⟩ := writeAt_eq h.bytes (h.infoOff i) (info.toList.take h.slotInfoSize)
      (by have := List.length_take_le h.slotInfoSize info.toList; omega)
    exact ⟨mem, hm, length_writeAt hm⟩

theorem exists_writePayload (hs : h.hasKeySlots = true) (hf : h.SlotsFit) {i : Nat} (hi : i < h.keySlotCount)
    (rand : Nat → UInt8) {mem : Bytes} (hm : mem.length = h.bytes.length) {payload : NewPayload}
    (hp : payload.len ≤ h.slotSize) :
    ∃ mem', h.writePayload rand mem i payload = some mem' ∧ mem'.length = h.bytes.length := by
  obtain ⟨-, hend⟩ := hf hs
  have hslot := h.slotOff_add_le hi
  have hlen : dcBaseSize + h.slotAreaLen ≤ dcBaseSize + h.slotsLen := Nat.add_le_add_left (Nat.le_add_right _ _) _
  cases payload with
  | keep => exact ⟨_, rfl, hm⟩
  | random len =>
    change len ≤ h.slotSize at hp
    obtain ⟨mem', hw⟩ := writeAt_eq mem (h.slotOff i + len) (dcRand rand (h.slotSize - len))
      (by rw [length_dcRand]; omega)
    exact ⟨mem', hw, (length_writeAt hw).trans hm⟩
  | set payload =>
    change payload.length ≤ h.slotSize at hp
    obtain ⟨mem₁, h₁⟩ := writeAt_eq mem (h.slotOff i) payload (by omega)
    have hlen₁ := (length_writeAt h₁).trans hm
    obtain ⟨mem₂, h₂⟩ := writeAt_eq mem₁ (h.slotOff i + payload.length)
      (dcRand rand (h.slotSize - payload.length)) (by rw [length_dcRand]; omega)
    refine ⟨mem₂, ?_, (length_writeAt h₂).trans hlen₁⟩
    change (writeAt mem (h.slotOff i) payload).bind _ = _
    rw [h₁, Option.bind_some, h₂]

theorem exists_writeSlotCrc (hs : h.hasKeySlots = true) (hf : h.SlotsFit) {i : Nat} (hi : i < h.keySlotCount)
    {mem : Bytes} (hm : mem.length = h.bytes.length) : ∃ mem', h.writeSlotCrc mem i = some mem' := by
  obtain ⟨hsize, hend⟩ := hf hs
  have hinfo := h.infoOff_add_le hi
  have hslot := h.slotOff_add_le hi
  have hle := h.le_infoOff i
  obtain ⟨infoCrc, h₁⟩ := Option.isSome_iff_exists.1
    ((@isSome_crcAt mem (h.infoOff i + 4) ((h.slotInfoSize : Int) - 4)).2 (by omega))
  obtain ⟨slotCrc, h₂⟩ := Option.isSome_iff_exists.1 ((@isSome_crcAt mem (h.slotOff i) h.slotSize).2 (by omega))
  obtain ⟨mem', h₃⟩ := writeAt_eq mem (h.infoOff i) (toLE 4 (crc32Combine infoCrc slotCrc h.slotSize).toNat)
    (by rw [length_toLE]; omega)
  refine ⟨mem', ?_⟩
  simp only [writeSlotCrc, h₁, h₂, h₃, Option.bind_eq_bind, Option.bind_some]

/-- `cp_set_slot` checks nothing of the layout, so it takes a layout that fits. -/
theorem isSome_setSlot (hf : h.SlotsFit) (rand : Nat → UInt8) (slotIdx : Int) (info : NewInfo) (payload : NewPayload) :
    (h.setSlot rand slotIdx info payload).isSome := by
  unfold setSlot
  by_cases hs : h.hasKeySlots = true
  · rw [if_neg (not_not.2 hs)]
    by_cases hidx : slotIdx < 0 ∨ h.keySlotCount ≤ slotIdx
    · rw [if_pos hidx]
      rfl
    rw [if_neg hidx]
    by_cases hlen : h.slotSize < payload.len
    · rw [if_pos hlen]
      rfl
    rw [if_neg hlen]
    have hi : slotIdx.toNat < h.keySlotCount := by omega
    obtain ⟨mem₁, h₁, hlen₁⟩ := h.exists_writeInfo hs hf hi info
    obtain ⟨mem₂, h₂, hlen₂⟩ := h.exists_writePayload hs hf hi rand hlen₁ (Nat.le_of_not_lt hlen)
    obtain ⟨mem₃, h₃⟩ := h.exists_writeSlotCrc hs hf hi hlen₂
    simp only [h₁, h₂, h₃, Option.bind_eq_bind, Option.bind_some, Option.isSome_some]
  · rw [if_pos hs]
    rfl

/-- Where the last slot can be set to anything, the layout fits. -/
theorem slotsFit_of_setSlot (rand : Nat → UInt8)
    (hset : (h.setSlot rand ((h.keySlotCount : Int) - 1) .keep .keep).isSome) : h.SlotsFit := by
  intro hs
  have hcount : h.keySlotCount ≠ 0 := by
    unfold hasKeySlots at hs
    simp only [Bool.and_eq_true, decide_eq_true_eq] at hs
    exact hs.1.2
  unfold setSlot at hset
  have hidx : ((h.keySlotCount : Int) - 1).toNat = h.keySlotCount - 1 := by omega
  rw [if_neg (not_not.2 hs), if_neg (by omega),
    if_neg (show ¬ h.slotSize < NewPayload.keep.len from Nat.not_lt_zero _), hidx] at hset
  simp only [writeInfo, writePayload, writeSlotCrc, Option.bind_eq_bind, Option.bind_some] at hset
  obtain ⟨result, hset⟩ := Option.isSome_iff_exists.1 hset
  obtain ⟨mem, hset, -⟩ := Option.bind_eq_some_iff.1 hset
  obtain ⟨infoCrc, hinfo, -⟩ := Option.bind_eq_some_iff.1 hset
  have hfit := isSome_crcAt.1 (Option.isSome_iff_exists.2 ⟨infoCrc, hinfo⟩)
  have hend : h.infoOff (h.keySlotCount - 1) + h.slotInfoSize = dcBaseSize + h.slotsLen := by
    have hmul : h.slotInfoSize * h.keySlotCount = h.slotInfoSize * (h.keySlotCount - 1) + h.slotInfoSize := by
      rw [← Nat.mul_succ]
      congr 1
      omega
    unfold infoOff slotsLen
    rw [Nat.mul_comm h.keySlotCount, hmul]
    omega
  omega

end DcHeader

end MajorPrivacy.Volume

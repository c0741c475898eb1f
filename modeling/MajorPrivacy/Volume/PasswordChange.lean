/-
`CCryptoIO::ChangePassword` over the slots of a header: what its two calls leave of the slots that unwrap to the header
key, and what it hands to `WriteHeader`.
-/
import MajorPrivacy.Volume.Ciphers
import MajorPrivacy.Volume.SlotPasswords

namespace MajorPrivacy.Volume

open LittleEndian Memory

/-! ## `CCryptoIO::ChangePassword` -/

/-- The error codes in use (`ImBox.h`). -/
inductive Err
  | ok
  | mallocError
  | wrongPassword
  | ioFailed
  | invalidParam
  | internal
  deriving DecidableEq, Repr

/-- `st_to_err`. -/
def stToErr : Status → Err
  | .ok => .ok
  | .nomem => .mallocError
  | .passErr => .wrongPassword
  | .rwErr => .ioFailed
  | .incompatible | .badIndex | .invalidParam => .invalidParam
  | _ => .internal

theorem stToErr_eq_ok {st : Status} : stToErr st = .ok ↔ st = .ok := by
  cases st <;> simp [stToErr]

/-- What `WriteHeader` is called with. Without a key it takes a new salt. -/
structure Sealing where
  header : Bytes
  key : Option Xts

/-- `header->head_kdf`. -/
def putHeadKdf (h : DcHeader) (mem : Bytes) (kdf : Int) : Option Bytes :=
  if h.isV2 then writeAt mem 634 (toLE 1 (kdf % 256).toNat) else some mem

namespace DcHeader

/-- The slot of a password that is set, or erased if it is empty. -/
def changeSlot (h : DcHeader) (env : CallEnv) (password newPass : DcPass) : Option (Status × Bytes) :=
  if newPass.size = 0 then h.setSlot (env.rand 0) (newPass.slot - 1) .clear (.random 0) else h.changeSlotPass env password newPass

/-- The header password that is changed. -/
def changeHeaderPass (h : DcHeader) (env : CallEnv) (password newPass : DcPass) : Option (Status × Bytes × Option Xts) :=
  if h.hasKeySlots then h.updateKeySlots env password newPass else some (.ok, h.bytes, none)

/-- `ChangePassword` behind `ReadHeader`, which has opened the header under `key` with the password and the slot: an
error, or the call of `WriteHeader`. -/
def changePassword (h : DcHeader) (env : CallEnv) (key : Xts) (slot : Nat) (password newPass : DcPass) : Option (Except Err Sealing) :=
  if newPass.size = 0 ∧ newPass.slot = 0 then some (.error .invalidParam)
  else if newPass.kdf < 0 ∨ 10 < newPass.kdf then some (.error .invalidParam)
  else if slot ≠ 0 then some (.error .invalidParam)
  else if newPass.slot ≠ 0 then
    if ¬ h.hasKeySlots then some (.error .invalidParam)
    else if newPass.slot < 1 ∨ h.keySlotCount < newPass.slot then some (.error .invalidParam)
    else do
      let (resl, mem) ← h.changeSlot env password newPass
      if stToErr resl ≠ .ok then some (.error (stToErr resl)) else some (.ok ⟨mem, some key⟩)
  else do
    let (resl, mem, newKey) ← h.changeHeaderPass env password newPass
    if stToErr resl ≠ .ok then some (.error (stToErr resl))
    else do
      let mem ← putHeadKdf h mem newPass.kdf
      some (.ok ⟨mem, newKey⟩)

/-! ## Slots that unwrap -/

variable (h : DcHeader)

/-- `cp_get_slot_info` reports the slot as in use and intact. -/
def InUse (i : Nat) : Prop :=
  ∃ info, h.getSlotInfo i = some (.ok, info) ∧ sfActive (infoFlags info) = true ∧ sfCorrupt (infoFlags info) = false

/-- The slot is in use and intact, and unwraps to `k` under its password. -/
def Unwraps (kdfs : Kdfs) (i : Nat) (password : DcPass) (k : Bytes) : Prop :=
  h.InUse i ∧ ∃ dk payload, kdfs.deriveKey password password.kdf h.salt true = some dk ∧
    h.getSlotPayload i pkcsDeriveMax = some (.ok, payload) ∧ xorKey payload dk.toList = k

/-- `get_header_len` on a header that is read as far as it goes. -/
def SlotsInside : Prop :=
  h.isV2 = true → h.ffKeySlots = true → dcBaseSize + h.slotsLen ≤ h.headLen ∧ h.headLen ≤ h.bytes.length

theorem hasKeySlots_iff : h.hasKeySlots = true ↔
    h.isV2 = true ∧ h.ffKeySlots = true ∧ h.slotAreaLen ≠ 0 ∧ h.keySlotCount ≠ 0 ∧ h.slotInfoSize ≠ 0 := by
  unfold hasKeySlots
  simp only [Bool.and_eq_true, decide_eq_true_eq, and_assoc]

variable {h} {i : Nat}

theorem SlotsInside.fit (hin : h.SlotsInside) (hs : h.hasKeySlots = true) : dcBaseSize + h.slotsLen ≤ h.bytes.length := by
  obtain ⟨hv, hf, -⟩ := h.hasKeySlots_iff.1 hs
  obtain ⟨h₁, h₂⟩ := hin hv hf
  exact h₁.trans h₂

theorem getSlotPayload_iff (hin : h.SlotsInside) {payload : Bytes} : h.getSlotPayload i pkcsDeriveMax = some (.ok, payload) ↔
    h.hasKeySlots = true ∧ i < h.keySlotCount ∧ pkcsDeriveMax ≤ h.slotSize ∧ payload = slice h.bytes (h.slotOff i) pkcsDeriveMax := by
  unfold getSlotPayload
  by_cases hs : h.hasKeySlots = true
  · rw [if_neg (not_not.2 hs)]
    by_cases hi : i < h.keySlotCount
    · rw [if_neg (by omega)]
      by_cases hsize : h.slotSize < pkcsDeriveMax
      · rw [if_pos hsize]
        constructor
        · intro hcon
          cases hcon
        · rintro ⟨-, -, hle, -⟩
          omega
      · have hend := hin.fit hs
        have hslot := h.slotOff_add_le hi
        have hle := h.le_infoOff i
        have hinfo := h.infoOff_add_le hi
        rw [if_neg hsize, Int.toNat_natCast, Nat.min_eq_left (by omega), readAt_eq (by omega)]
        constructor
        · intro heq
          cases heq
          exact ⟨hs, hi, by omega, rfl⟩
        · rintro ⟨-, -, -, rfl⟩
          rfl
    · rw [if_pos (.inr (by omega))]
      constructor
      · intro hcon
        cases hcon
      · rintro ⟨-, hlt, -⟩
        exact absurd hlt hi
  · rw [if_pos hs]
    constructor
    · intro hcon
      cases hcon
    · rintro ⟨hs', -⟩
      exact absurd hs' hs

/-! ### In use -/

/-- The descriptor as `cp_get_slot_info` copies it, the flags of it where they are stored. -/
theorem infoFlags_mod {mem stored : Bytes} {off len : Nat} (hlen : 5 ≤ len) (hle : off + len ≤ mem.length)
    (hstored : readAt mem off (min slotInfoBytes len) = some stored) :
    infoFlags (stored ++ List.replicate (slotInfoBytes - len) 0) % 256 = ofLE (slice mem (off + 4) 1) := by
  have h32 : slotInfoBytes = 32 := rfl
  rw [readAt_eq (by omega)] at hstored
  cases hstored
  have hread : readLE (slice mem off (min slotInfoBytes len) ++ List.replicate (slotInfoBytes - len) 0) 4 4 =
      some (infoFlags (slice mem off (min slotInfoBytes len) ++ List.replicate (slotInfoBytes - len) 0)) := by
    refine readLE_eq ?_
    rw [List.length_append, List.length_replicate, length_slice (by omega)]
    omega
  rw [← ofLE_slice_one hread]
  congr 1
  apply List.ext_getElem?
  intro k
  rw [getElem?_slice, getElem?_slice]
  split
  · rw [List.getElem?_append_left (by rw [length_slice (by omega)]; omega), getElem?_slice, if_pos (by omega), Nat.add_assoc]
  · rfl

/-- A descriptor without flags is one that is not in use. -/
theorem infoFlags_short {stored : Bytes} (len : Nat) (hlen : len < 5) (hstored : stored.length = len) :
    infoFlags (stored ++ List.replicate (slotInfoBytes - len) 0) = 0 := by
  have hzero : slice (stored ++ List.replicate (slotInfoBytes - len) 0) 4 4 = List.replicate 4 0 := by
    unfold slice
    rw [List.drop_append, List.drop_eq_nil_of_le (by omega), List.nil_append, List.drop_replicate, List.take_replicate]
    congr 1
    change min 4 (32 - len - (4 - stored.length)) = 4
    omega
  unfold infoFlags
  rw [hzero]
  rfl

theorem infoFlags_mark {info : Bytes} {flags : Nat} (hinfo : 4 ≤ info.length) :
    infoFlags (info.take 4 ++ toLE 4 flags ++ info.drop 8) = flags % 256 ^ 4 := by
  unfold infoFlags
  have hmid := @slice_append_mid _ (info.take 4) (toLE 4 flags) (info.drop 8) 4 (by rw [List.length_take]; omega)
  rw [length_toLE] at hmid
  rw [hmid, ofLE_toLE]

theorem sfCorrupt_mark (flags : Nat) : sfCorrupt ((if sfCorrupt flags then flags else flags + 4) % 256 ^ 4) = true := by
  split
  · rename_i hset
    unfold sfCorrupt at hset ⊢
    have := of_decide_eq_true hset
    exact decide_eq_true (by omega)
  · rename_i hset
    unfold sfCorrupt at hset ⊢
    have := of_decide_eq_false (Bool.eq_false_of_not_eq_true hset)
    exact decide_eq_true (by omega)

theorem InUse.hasKeySlots (hu : h.InUse i) : h.hasKeySlots = true ∧ i < h.keySlotCount := by
  obtain ⟨info, hget, -⟩ := hu
  unfold getSlotInfo at hget
  by_cases hs : h.hasKeySlots = true
  · rw [if_neg (not_not.2 hs)] at hget
    by_cases hi : i < h.keySlotCount
    · exact ⟨hs, hi⟩
    · rw [if_pos (.inr (by omega))] at hget
      cases hget
  · rw [if_pos hs] at hget
    cases hget

theorem getSlotInfo_eq (hs : h.hasKeySlots = true) (hi : i < h.keySlotCount) {stored : Bytes}
    (hstored : readAt h.bytes (h.infoOff i) (min slotInfoBytes h.slotInfoSize) = some stored) :
    h.getSlotInfo i =
      (let info := stored ++ List.replicate (slotInfoBytes - h.slotInfoSize) 0
      if ¬ sfActive (infoFlags info) then some (.ok, info)
      else do
        let infoCrc ← crcAt h.bytes (h.infoOff i + 4) ((h.slotInfoSize : Int) - 4)
        let slotCrc ← crcAt h.bytes (h.slotOff i) h.slotSize
        let crc ← readLE h.bytes (h.infoOff i) 4
        if crc ≠ (crc32Combine infoCrc slotCrc h.slotSize).toNat then
          let flags := if sfCorrupt (infoFlags info) then infoFlags info else infoFlags info + 4
          some (.ok, info.take 4 ++ toLE 4 flags ++ info.drop 8)
        else some (.ok, info)) := by
  unfold getSlotInfo
  rw [if_neg (not_not.2 hs), if_neg (by omega), Int.toNat_natCast]
  simp only [hstored, Option.bind_eq_bind, Option.bind_some]

theorem InUse.info (hin : h.SlotsInside) (hu : h.InUse i) : 5 ≤ h.slotInfoSize := by
  obtain ⟨hs, hi⟩ := hu.hasKeySlots
  obtain ⟨info, hget, hactive, -⟩ := hu
  have hend := hin.fit hs
  have h₁ := h.infoOff_add_le hi
  have h32 : slotInfoBytes = 32 := rfl
  by_contra hlt
  have hstored := readAt_eq (show h.infoOff i + min slotInfoBytes h.slotInfoSize ≤ h.bytes.length by omega)
  have hshort := infoFlags_short h.slotInfoSize (by omega)
    ((length_slice (show h.infoOff i + min slotInfoBytes h.slotInfoSize ≤ h.bytes.length by omega)).trans (by omega))
  rw [getSlotInfo_eq hs hi hstored] at hget
  simp only [hshort] at hget
  cases hget
  rw [hshort] at hactive
  cases hactive

theorem inUse_iff (hr : h.Regular) (hs : h.hasKeySlots = true) (hi : i < h.keySlotCount) : h.InUse i ↔ h.IntactAt h.bytes i := by
  have hinfo := hr.info
  have hend := hr.fit
  have h₁ := h.infoOff_add_le hi
  have h32 : slotInfoBytes = 32 := rfl
  have hstored := readAt_eq (show h.infoOff i + min slotInfoBytes h.slotInfoSize ≤ h.bytes.length by omega)
  have hmod := infoFlags_mod hinfo (show h.infoOff i + h.slotInfoSize ≤ h.bytes.length by omega) hstored
  obtain ⟨hinfoCrc, hslotCrc, hsum⟩ := slotSum_eq hr rfl hi
  have hcrc := readLE_eq (show h.infoOff i + 4 ≤ h.bytes.length by omega)
  have hget := getSlotInfo_eq hs hi hstored
  have hlen : (slice h.bytes (h.infoOff i) (min slotInfoBytes h.slotInfoSize)).length = min slotInfoBytes h.slotInfoSize :=
    length_slice (by omega)
  simp only [hinfoCrc, hslotCrc, hcrc, Option.bind_eq_bind, Option.bind_some, hsum] at hget
  generalize hcopy : slice h.bytes (h.infoOff i) (min slotInfoBytes h.slotInfoSize) ++
    List.replicate (slotInfoBytes - h.slotInfoSize) 0 = info at hget hmod
  have hactive : sfActive (infoFlags info) = sfActive (h.slotFlags h.bytes i) := by
    rw [← sfActive_mod, hmod]
    rfl
  have hcorrupt : sfCorrupt (infoFlags info) = sfCorrupt (h.slotFlags h.bytes i) := by
    rw [← sfCorrupt_mod, hmod]
    rfl
  constructor
  · rintro ⟨info', hget', hactive', hclean'⟩
    rw [hget] at hget'
    split at hget'
    · -- not in use
      rename_i hnot
      cases hget'
      exact absurd hactive' hnot
    · rename_i hyes
      split at hget'
      · -- the checksum is another, and the copy says so
        cases hget'
        rw [infoFlags_mark (by rw [← hcopy, List.length_append, hlen]; omega)] at hclean'
        exact absurd (sfCorrupt_mark _) (by rw [hclean']; exact Bool.false_ne_true)
      · rename_i hsame
        cases hget'
        exact ⟨hactive ▸ hactive', hcorrupt ▸ hclean', not_not.1 hsame⟩
  · rintro ⟨h₂, h₃, h₄⟩
    refine ⟨info, ?_, hactive.trans h₂, hcorrupt.trans h₃⟩
    rw [hget, if_neg (not_not.2 (hactive.trans h₂)), if_neg (not_not.2 h₄)]

theorem unwraps_iff (hin : h.SlotsInside) {kdfs : Kdfs} {password : DcPass} {k : Bytes} : h.Unwraps kdfs i password k ↔
    h.hasKeySlots = true ∧ i < h.keySlotCount ∧ h.Regular ∧ h.IntactAt h.bytes i ∧
      ∃ dk, kdfs.deriveKey password password.kdf h.salt true = some dk ∧
        xorKey (slice h.bytes (h.slotOff i) pkcsDeriveMax) dk.toList = k := by
  constructor
  · rintro ⟨hu, dk, payload, hdk, hpayload, hk⟩
    obtain ⟨hs, hi, hsize, rfl⟩ := (getSlotPayload_iff hin).1 hpayload
    have hr : h.Regular := ⟨hsize, hu.info hin, hin.fit hs⟩
    exact ⟨hs, hi, hr, (inUse_iff hr hs hi).1 hu, dk, hdk, hk⟩
  · rintro ⟨hs, hi, hr, hintact, dk, hdk, hk⟩
    exact ⟨(inUse_iff hr hs hi).2 hintact, dk, _, hdk, (getSlotPayload_iff hin).2 ⟨hs, hi, hr.size, rfl⟩, hk⟩

/-! ## What the calls leave -/

/-- A header whose slots alone have changed. -/
structure SlotsChanged (h h' : DcHeader) : Prop where
  length : h'.bytes.length = h.bytes.length
  base : ∀ k < dcBaseSize, h'.bytes[k]? = h.bytes[k]?

namespace SlotsChanged

variable {h' : DcHeader} (hc : SlotsChanged h h')
include hc

theorem sameFields : SameFields h h' := DcHeader.sameFields fun k _ hk => (hc.base k hk).symm

theorem salt : h'.salt = h.salt :=
  slice_congr fun k _ hk => hc.base k (by have : headerSaltSize ≤ dcBaseSize := by decide
                                          omega)

theorem slotsInside (hin : h.SlotsInside) : h'.SlotsInside := by
  have hf := hc.sameFields
  intro hv hk
  rw [← hf.slotsLen, ← hf.headLen, hc.length]
  exact hin (hf.isV2.trans hv) (hf.ffKeySlots.trans hk)

theorem hasKeySlots : h'.hasKeySlots = h.hasKeySlots := by
  have hf := hc.sameFields
  unfold DcHeader.hasKeySlots
  rw [hf.isV2, hf.ffKeySlots, hf.slotAreaLen, hf.keySlotCount, hf.slotInfoSize]

theorem regular : h'.Regular ↔ h.Regular := by
  have hf := hc.sameFields
  constructor
  · rintro ⟨h₁, h₂, h₃⟩
    exact ⟨hf.slotSize ▸ h₁, hf.slotInfoSize ▸ h₂, by rw [hf.slotsLen, ← hc.length]; exact h₃⟩
  · rintro ⟨h₁, h₂, h₃⟩
    exact ⟨hf.slotSize ▸ h₁, hf.slotInfoSize ▸ h₂, by rw [← hf.slotsLen, hc.length]; exact h₃⟩

theorem intactAt {mem : Bytes} : h'.IntactAt mem i ↔ h.IntactAt mem i := by
  have hf := hc.sameFields
  have hflags : h'.slotFlags mem i = h.slotFlags mem i := by
    unfold slotFlags
    rw [hf.infoOff]
  have hsum : h'.slotSum mem i = h.slotSum mem i := by
    unfold slotSum
    rw [hf.infoOff, hf.slotOff, hf.slotSize, hf.slotInfoSize]
  constructor
  · rintro ⟨h₁, h₂, h₃⟩
    exact ⟨hflags ▸ h₁, hflags ▸ h₂, by rw [hf.infoOff, ← hsum]; exact h₃⟩
  · rintro ⟨h₁, h₂, h₃⟩
    exact ⟨hflags.symm ▸ h₁, hflags.symm ▸ h₂, by rw [← hf.infoOff, hsum]; exact h₃⟩

theorem unwraps_iff (hin : h.SlotsInside) {kdfs : Kdfs} {password : DcPass} {k : Bytes} : h'.Unwraps kdfs i password k ↔
    h.hasKeySlots = true ∧ i < h.keySlotCount ∧ h.Regular ∧ h.IntactAt h'.bytes i ∧
      ∃ dk, kdfs.deriveKey password password.kdf h.salt true = some dk ∧
        xorKey (slice h'.bytes (h.slotOff i) pkcsDeriveMax) dk.toList = k := by
  have hf := hc.sameFields
  rw [DcHeader.unwraps_iff (hc.slotsInside hin), hc.hasKeySlots, ← hf.keySlotCount, hc.regular, hc.intactAt, hc.salt, ← hf.slotOff]

end SlotsChanged

theorem ofBytes_of_length {mem : Bytes} (hlen : mem.length = h.bytes.length) : ∃ h', DcHeader.ofBytes mem = some h' ∧ h'.bytes = mem := by
  have harea := h.area
  refine ⟨⟨mem, by omega⟩, ?_, rfl⟩
  unfold DcHeader.ofBytes
  rw [dif_pos]

end DcHeader

/-! ### Derivations -/

/-- A derivation that is not granted its memory gives nothing, or what it always gives. -/
theorem Kdfs.deriveKey_granted {kdfs : Kdfs} {password : DcPass} {kdf : Int} {salt : Bytes} {granted : Bool}
    {dk : Vector UInt8 pkcsDeriveMax} (hd : kdfs.deriveKey password kdf salt granted = some dk) :
    kdfs.deriveKey password kdf salt true = some dk := by
  cases granted with
  | true => exact hd
  | false =>
    unfold deriveKey at hd ⊢
    by_cases h₁ : kdf = kdfNone
    · rwa [if_pos h₁] at hd ⊢
    rw [if_neg h₁] at hd ⊢
    by_cases h₂ : kdf = 0
    · rwa [if_pos h₂] at hd ⊢
    rw [if_neg h₂] at hd ⊢
    split at hd
    · cases hd
    · cases hparams : argon2MkParams kdf with
      | none =>
        rw [hparams] at hd
        cases hd
      | some params =>
        rw [hparams] at hd
        cases hd

/-- A keystream that is laid over twice is gone. -/
theorem xorKey_cancel : ∀ {a b : Bytes}, a.length ≤ b.length → xorKey (xorKey a b) b = a
  | [], _, _ => rfl
  | _ :: _, [], hle => absurd hle (Nat.not_succ_le_zero _)
  | x :: a, y :: b, hle => by
    change (x ^^^ y ^^^ y) :: xorKey (xorKey a b) b = x :: a
    rw [xorKey_cancel (Nat.le_of_succ_le_succ hle), UInt8.xor_assoc, UInt8.xor_self, UInt8.xor_zero]

theorem xorKey_comm (a b : Bytes) : xorKey a b = xorKey b a := List.zipWith_comm_of_comm UInt8.xor_comm

theorem xorKey_assoc : ∀ a b c : Bytes, xorKey (xorKey a b) c = xorKey a (xorKey b c)
  | [], _, _ => rfl
  | _ :: _, [], _ => rfl
  | _ :: _, _ :: _, [] => rfl
  | x :: a, y :: b, z :: c => by
    change (x ^^^ y ^^^ z) :: xorKey (xorKey a b) c = (x ^^^ (y ^^^ z)) :: xorKey a (xorKey b c)
    rw [xorKey_assoc, UInt8.xor_assoc]

theorem xorKey_right_comm (a b c : Bytes) : xorKey (xorKey a b) c = xorKey (xorKey a c) b := by
  rw [xorKey_assoc, xorKey_comm b, ← xorKey_assoc]

theorem length_xorKey {a b : Bytes} (hlen : a.length = b.length) : (xorKey a b).length = a.length := by
  unfold xorKey
  rw [List.length_zipWith, hlen, Nat.min_self]

theorem xorKey_inj {a b c : Bytes} (ha : a.length = c.length) (hb : b.length = c.length) (heq : xorKey a c = xorKey b c) : a = b := by
  have hcancel := xorKey_cancel (a := a) (b := c) (Nat.le_of_eq ha)
  rw [heq, xorKey_cancel (Nat.le_of_eq hb)] at hcancel
  exact hcancel.symm

/-- Two layers over a slot, taken off with its own key: only what they are together is seen. -/
theorem layers_inj {n : Nat} {p d x y x' y' : Bytes} (hp : p.length = n) (hd : d.length = n) (hx : x.length = n) (hy : y.length = n)
    (hx' : x'.length = n) (hy' : y'.length = n)
    (heq : xorKey (xorKey (xorKey p x) y) d = xorKey (xorKey (xorKey p x') y') d) : xorKey x y = xorKey x' y' := by
  have hlen : (xorKey x y).length = n := (length_xorKey (hx.trans hy.symm)).trans hx
  have hlen' : (xorKey x' y').length = n := (length_xorKey (hx'.trans hy'.symm)).trans hx'
  rw [xorKey_assoc p x y, xorKey_assoc p x' y'] at heq
  have hover := xorKey_inj (((length_xorKey (hp.trans hlen.symm)).trans hp).trans hd.symm)
    (((length_xorKey (hp.trans hlen'.symm)).trans hp).trans hd.symm) heq
  rw [xorKey_comm p, xorKey_comm p] at hover
  exact xorKey_inj (hlen.trans hp.symm) (hlen'.trans hp.symm) hover

theorem CallEnv.deriveKey_of_derive {env : CallEnv} {n : Nat} {password : DcPass} {salt : Bytes} {dk : Vector UInt8 pkcsDeriveMax}
    (hd : env.derive n password salt = some dk) : env.kdfs.deriveKey password password.kdf salt true = some dk :=
  Kdfs.deriveKey_granted hd

namespace DcHeader

variable {h : DcHeader} {i : Nat}

/-! ### One slot set -/

/-- A successful call has two derived keys and three writes. -/
theorem changeSlotPass_ok {env : CallEnv} {oldPass newPass : DcPass} {mem' : Bytes}
    (hrun : h.changeSlotPass env oldPass newPass = some (.ok, mem')) : ∃ dk sk info mem₁ mem₂,
      h.hasKeySlots = true ∧ (1 ≤ newPass.slot ∧ newPass.slot ≤ h.keySlotCount) ∧ slotInfoBytes ≤ h.slotInfoSize ∧
      env.derive 0 oldPass h.salt = some dk ∧ env.derive 1 newPass h.salt = some sk ∧
      readAt h.bytes (h.infoOff (newPass.slot - 1).toNat) h.slotInfoSize = some info ∧
      writeAt h.bytes (h.infoOff (newPass.slot - 1).toNat) (activeInfo info newPass.kdf) = some mem₁ ∧
      writeAt mem₁ (h.slotOff (newPass.slot - 1).toNat) (xorKey sk.toList dk.toList) = some mem₂ ∧
      h.writeSlotCrc mem₂ (newPass.slot - 1).toNat = some mem' := by
  have h32 : slotInfoBytes = 32 := rfl
  unfold changeSlotPass at hrun
  split at hrun
  · cases hrun
  · rename_i hv
    split at hrun
    · cases hrun
    · rename_i hslot
      split at hrun
      · cases hrun
      · rename_i hlayout
        simp only at hrun
        split at hrun
        · cases hrun
        · split at hrun
          · cases hrun
          · cases hdk : env.derive 0 oldPass h.salt with
            | none =>
              rw [hdk] at hrun
              cases hrun
            | some dk =>
              cases hsk : env.derive 1 newPass h.salt with
              | none =>
                rw [hdk, hsk] at hrun
                cases hrun
              | some sk =>
                rw [hdk, hsk] at hrun
                obtain ⟨info, hinfo, hrun⟩ := Option.bind_eq_some_iff.1 hrun
                obtain ⟨mem₁, hw₁, hrun⟩ := Option.bind_eq_some_iff.1 hrun
                obtain ⟨mem₂, hw₂, hrun⟩ := Option.bind_eq_some_iff.1 hrun
                obtain ⟨mem₃, hw₃, hrun⟩ := Option.bind_eq_some_iff.1 hrun
                cases hrun
                obtain ⟨hv₁, hv₂⟩ := not_or.1 hv
                exact ⟨dk, sk, info, mem₁, mem₂, h.hasKeySlots_iff.2 ⟨not_not.1 hv₁, not_not.1 hv₂, by omega, by omega, by omega⟩,
                  by omega, by omega, rfl, rfl, hinfo, hw₁, hw₂, hw₃⟩

theorem activeInfo_flags {info : Bytes} (kdf : Int) (hlen : slotInfoBytes ≤ info.length) :
    sfActive (infoFlags (activeInfo info kdf)) = true ∧ sfCorrupt (infoFlags (activeInfo info kdf)) = false := by
  have h32 : slotInfoBytes = 32 := rfl
  have hflags : infoFlags (activeInfo info kdf) =
      (let flags := infoFlags info
       let flags := if sfActive flags then flags else flags + 1
       if sfCorrupt flags then flags - 4 else flags) % 256 ^ 4 := by
    unfold activeInfo
    simp only [List.append_assoc]
    rw [← List.append_assoc]
    generalize (if sfCorrupt _ = true then _ else _ : Nat) = flags
    have hmid := fun rest => @slice_append_mid _ (info.take 4) (toLE 4 flags) rest 4 (by rw [List.length_take]; omega)
    rw [length_toLE] at hmid
    unfold infoFlags
    rw [hmid, ofLE_toLE]
  rw [hflags]
  unfold sfActive sfCorrupt
  constructor
  · apply decide_eq_true
    simp only [decide_eq_true_eq]
    split <;> split <;> omega
  · apply decide_eq_false
    simp only [decide_eq_true_eq]
    split <;> split <;> omega

theorem length_activeInfo {info : Bytes} (kdf : Int) (hlen : slotInfoBytes ≤ info.length) : (activeInfo info kdf).length = info.length := by
  have h32 : slotInfoBytes = 32 := rfl
  unfold activeInfo
  simp only [List.length_append, List.length_take, List.length_drop, length_toLE, length_slice (show 10 + 20 ≤ info.length by omega)]
  omega

theorem writeSlotCrc_eq {mem : Bytes} (hr : h.Regular) (hlen : mem.length = h.bytes.length) (hi : i < h.keySlotCount) :
    h.writeSlotCrc mem i = writeAt mem (h.infoOff i) (toLE 4 (h.slotSum mem i).toNat) := by
  obtain ⟨hinfoCrc, hslotCrc, hsum⟩ := slotSum_eq hr hlen hi
  unfold writeSlotCrc
  simp only [hinfoCrc, hslotCrc, Option.bind_eq_bind, Option.bind_some]
  rw [hsum]

/-- The slot that is set holds the header key under the new password, and no other slot is touched. -/
theorem changeSlotPass_spec (hr : h.Regular) {env : CallEnv} {oldPass newPass : DcPass} {mem' : Bytes}
    (hrun : h.changeSlotPass env oldPass newPass = some (.ok, mem')) : ∃ dk sk,
      ((newPass.slot - 1).toNat < h.keySlotCount ∧ (newPass.slot - 1).toNat = newPass.slot - 1) ∧
      env.derive 0 oldPass h.salt = some dk ∧ env.derive 1 newPass h.salt = some sk ∧
      h.Frame (newPass.slot - 1).toNat h.bytes mem' ∧ h.IntactAt mem' (newPass.slot - 1).toNat ∧
      slice mem' (h.slotOff (newPass.slot - 1).toNat) pkcsDeriveMax = xorKey sk.toList dk.toList := by
  obtain ⟨dk, sk, info, mem₁, mem₂, -, hslot, hsize, hdk, hsk, hinfo, hw₁, hw₂, hcrc⟩ := changeSlotPass_ok hrun
  refine ⟨dk, sk, by omega, hdk, hsk, ?_⟩
  have hi : (newPass.slot - 1).toNat < h.keySlotCount := by omega
  generalize (newPass.slot - 1).toNat = i at *
  have hend := hr.fit
  have hslotSize := hr.size
  have h₁ := h.infoOff_add_le hi
  have h₂ := h.slotOff_add_le hi
  have h₃ := h.le_infoOff i
  rw [readAt_eq (by omega)] at hinfo
  cases hinfo
  have hinfoLen : (slice h.bytes (h.infoOff i) h.slotInfoSize).length = h.slotInfoSize := length_slice (by omega)
  have hlen₁ := length_writeAt hw₁
  have hlen₂ := (length_writeAt hw₂).trans hlen₁
  have hkey : (xorKey sk.toList dk.toList).length = pkcsDeriveMax := by
    rw [length_xorKey (by simp)]
    exact Vector.length_toList
  have hactiveLen := length_activeInfo newPass.kdf (hsize.trans_eq hinfoLen.symm)
  have hflags : h.slotFlags mem₂ i = infoFlags (activeInfo (slice h.bytes (h.infoOff i) h.slotInfoSize) newPass.kdf) % 256 := by
    have hdesc := slice_writeAt_self hw₁
    rw [hactiveLen, hinfoLen] at hdesc
    have hdesc₂ : slice mem₂ (h.infoOff i + 4) 4 = slice mem₁ (h.infoOff i + 4) 4 := slice_writeAt hw₂ (.inr (by omega))
    have hread : readLE mem₂ (h.infoOff i + 4) 4 =
        some (infoFlags (activeInfo (slice h.bytes (h.infoOff i) h.slotInfoSize) newPass.kdf)) := by
      have h32 : slotInfoBytes = 32 := rfl
      rw [readLE_eq (by omega), hdesc₂, infoFlags, ← hdesc, slice_slice (by omega)]
    exact ofLE_slice_one hread
  obtain ⟨hactive, hclean⟩ := activeInfo_flags newPass.kdf (hsize.trans_eq hinfoLen.symm)
  rw [writeSlotCrc_eq hr hlen₂ hi] at hcrc
  obtain ⟨mem₃, hw₃, hframe, hintact, hsame⟩ := putSum_spec hr hlen₂ hi (by rw [hflags, sfActive_mod, hactive])
    (by rw [hflags, sfCorrupt_mod, hclean])
  cases hw₃.symm.trans hcrc
  refine ⟨((Frame.of_writeAt hw₁ ?_).trans (Frame.of_writeAt hw₂ ?_)).trans hframe, hintact, ?_⟩
  · intro k hk hk'
    exact .inr ⟨hk, by omega⟩
  · intro k hk hk'
    exact .inl ⟨hk, by omega⟩
  · have hself := slice_writeAt_self hw₂
    rw [hkey] at hself
    rw [hsame, hself]

/-! ### All slots rewrapped -/

/-- What the derivations fill, or what was there before. -/
def oldDk (h : DcHeader) (env : CallEnv) (oldPass : DcPass) : Bytes := ((env.derive 0 oldPass h.salt).getD (env.stack 0)).toList
def newDk (h : DcHeader) (env : CallEnv) (newPass : DcPass) : Bytes := ((env.derive 1 newPass h.salt).getD (env.stack 1)).toList

/-- The loop comes to its end, and the key to seal the header with is made. -/
structure UpdateReturns (h : DcHeader) (env : CallEnv) (newPass : DcPass) : Prop where
  flags : ∀ i < h.keySlotCount, h.infoOff i + 8 ≤ h.bytes.length
  type : ∀ i < h.keySlotCount, h.InUse i → readLE h.bytes (h.infoOff i + 8) 2 = some 0
  allocated : env.allocated = true
  key : ((env.derive 2 newPass h.salt).bind fun dk => env.setKey dk.toList h.alg1).isSome

section Update

variable {env : CallEnv} {oldPass newPass : DcPass}

theorem updateKeySlots_ok (hr : h.Regular) (hs : h.hasKeySlots = true) {mem' : Bytes} {key : Option Xts}
    (hrun : h.updateKeySlots env oldPass newPass = some (.ok, mem', key)) (hslot : ∃ j < h.keySlotCount, h.IntactAt h.bytes j) :
    h.UpdateReturns env newPass ∧ (∃ used, h.Looped (h.oldDk env oldPass) (h.newDk env newPass) (List.range h.keySlotCount) h.bytes 0
        mem' used true) ∧
      ∃ kNew key', env.derive 2 newPass h.salt = some kNew ∧ env.setKey kNew.toList h.alg1 = some key' ∧ key = some key' := by
  obtain ⟨-, -, -, hcount, -⟩ := h.hasKeySlots_iff.1 hs
  have hold : (h.oldDk env oldPass).length = pkcsDeriveMax := Vector.length_toList
  have hnew : (h.newDk env newPass).length = pkcsDeriveMax := Vector.length_toList
  unfold updateKeySlots at hrun
  rw [if_neg hcount] at hrun
  dsimp only at hrun
  cases hloop : h.updateSlots (h.oldDk env oldPass) (h.newDk env newPass) env.rand (List.range h.keySlotCount) h.bytes 0 with
  | none =>
    unfold oldDk newDk at hloop
    rw [hloop] at hrun
    cases hrun
  | some out =>
    obtain ⟨mem, used, ended⟩ := out
    have hcall := hloop
    unfold oldDk newDk at hcall
    rw [hcall] at hrun
    have hlooped := updateSlots_looped hr hold hnew rfl List.nodup_range (fun i hi => List.mem_range.1 hi) hloop
    cases ended with
    | false =>
      simp only [Bool.false_eq_true, if_false] at hrun
      split at hrun
      · cases hrun
      · split at hrun
        · cases hrun
        · split at hrun
          · cases hrun
          · cases hrun
    | true =>
      obtain ⟨j, hj, hintact⟩ := hslot
      have hused : used ≠ 0 := by
        obtain ⟨hlt, -⟩ := hlooped.rewrapped rfl j (List.mem_range.2 hj) hintact
        omega
      simp only [if_true] at hrun
      rw [if_neg hused] at hrun
      split at hrun
      · cases hrun
      · rename_i halloc
        cases hkey : (env.derive 2 newPass h.salt).bind fun dk => env.setKey dk.toList h.alg1 with
        | none =>
          rw [hkey] at hrun
          cases hrun
        | some key' =>
          rw [hkey] at hrun
          cases hrun
          have hneeds := updateSlots_needs hr hold hnew rfl List.pairwise_lt_range (fun i hi => List.mem_range.1 hi) hloop
          obtain ⟨kNew, hk, hset⟩ := Option.bind_eq_some_iff.1 hkey
          refine ⟨⟨?_, ?_, not_not.1 halloc, by rw [hkey]; rfl⟩, ⟨used, hlooped⟩, kNew, key', hk, hset, rfl⟩
          · intro i hi
            exact (hneeds i (List.mem_range.2 hi)).1
          · intro i hi hu
            exact (hneeds i (List.mem_range.2 hi)).2 ((inUse_iff hr hs hi).1 hu)

theorem updateKeySlots_runs (hr : h.Regular) (hs : h.hasKeySlots = true) (hret : h.UpdateReturns env newPass)
    (hslot : ∃ j < h.keySlotCount, h.IntactAt h.bytes j) : ∃ mem' key, h.updateKeySlots env oldPass newPass = some (.ok, mem', key) := by
  obtain ⟨-, -, -, hcount, -⟩ := h.hasKeySlots_iff.1 hs
  have hold : (h.oldDk env oldPass).length = pkcsDeriveMax := Vector.length_toList
  have hnew : (h.newDk env newPass).length = pkcsDeriveMax := Vector.length_toList
  obtain ⟨mem', used, hloop⟩ := updateSlots_runs hr hold hnew env.rand 0 rfl List.pairwise_lt_range (fun i hi => List.mem_range.1 hi)
    (fun i hi => hret.flags i (List.mem_range.1 hi))
    (fun i hi hintact => hret.type i (List.mem_range.1 hi) ((inUse_iff hr hs (List.mem_range.1 hi)).2 hintact))
  have hlooped := updateSlots_looped hr hold hnew rfl List.nodup_range (fun i hi => List.mem_range.1 hi) hloop
  obtain ⟨j, hj, hintact⟩ := hslot
  obtain ⟨hlt, -⟩ := hlooped.rewrapped rfl j (List.mem_range.2 hj) hintact
  obtain ⟨key', hkey⟩ := Option.isSome_iff_exists.1 hret.key
  refine ⟨mem', some key', ?_⟩
  unfold updateKeySlots
  rw [if_neg hcount]
  unfold oldDk newDk at hloop
  dsimp only
  rw [hloop]
  simp only [if_true, hkey]
  rw [if_neg (by omega), if_neg (not_not.2 hret.allocated)]

end Update

/-! ## Keys are kept -/

section Keep

variable (h : DcHeader) (env : CallEnv) (oldPass newPass : DcPass) (kOld : Bytes)

/-- Where `dc_update_key_slots` works out, a slot that unwraps to the header key unwraps to the new one. -/
def UpdateKeeps : Prop :=
  ∀ mem' key, h.updateKeySlots env oldPass newPass = some (.ok, mem', key) →
    ∀ i password, h.Unwraps env.kdfs i password kOld → ∃ h' kNew key', ofBytes mem' = some h' ∧
      env.kdfs.deriveKey newPass newPass.kdf h.salt true = some kNew ∧
        env.setKey kNew.toList h.alg1 = some key' ∧ key = some key' ∧ h'.Unwraps env.kdfs i password kNew.toList

/-- Where `dc_change_slot_pass` works out, the other slots unwrap as before, and the one that is set under its new
password. -/
def ChangeKeeps : Prop :=
  ∀ mem', h.changeSlotPass env oldPass newPass = some (.ok, mem') → ∃ h', ofBytes mem' = some h' ∧
    (∀ (i : Nat) password, (i : Int) ≠ newPass.slot - 1 → h.Unwraps env.kdfs i password kOld → h'.Unwraps env.kdfs i password kOld) ∧
    (pkcsDeriveMax ≤ h.slotSize → h'.Unwraps env.kdfs (newPass.slot - 1).toNat newPass kOld)

/-- Where a call fails, nothing is handed to `WriteHeader`. -/
def CallerStops (key : Xts) (slot : Nat) : Prop :=
  ∀ resl, resl ≠ .ok →
    (newPass.slot ≠ 0 ∧ (∃ mem, h.changeSlot env oldPass newPass = some (resl, mem)) ∨
      newPass.slot = 0 ∧ ∃ mem key', h.changeHeaderPass env oldPass newPass = some (resl, mem, key')) →
    ∃ err, h.changePassword env key slot oldPass newPass = some (.error err)

/-- All of it, whatever was on the stack. -/
structure KeysKept : Prop where
  update : ∀ stack, h.UpdateKeeps { env with stack := stack } oldPass newPass kOld
  change : h.ChangeKeeps env oldPass newPass kOld
  caller : ∀ key slot, h.CallerStops env oldPass newPass key slot

end Keep

variable {h : DcHeader} {i : Nat} {env : CallEnv} {oldPass newPass : DcPass}

theorem callerStops (key : Xts) (slot : Nat) : h.CallerStops env oldPass newPass key slot := by
  intro resl hne hcall
  have herr : stToErr resl ≠ .ok := fun heq => hne (stToErr_eq_ok.1 heq)
  unfold changePassword
  split
  · exact ⟨_, rfl⟩
  · split
    · exact ⟨_, rfl⟩
    · split
      · exact ⟨_, rfl⟩
      · obtain ⟨hslot, mem, hcall⟩ | ⟨hslot, mem, key', hcall⟩ := hcall
        · rw [if_pos hslot]
          split
          · exact ⟨_, rfl⟩
          · split
            · exact ⟨_, rfl⟩
            · refine ⟨stToErr resl, ?_⟩
              simp only [hcall, Option.bind_eq_bind, Option.bind_some]
              rw [if_pos herr]
        · rw [if_neg (not_not.2 hslot)]
          refine ⟨stToErr resl, ?_⟩
          simp only [hcall, Option.bind_eq_bind, Option.bind_some]
          rw [if_pos herr]

/-- The memory after a frame is a header with the same fields. -/
theorem Frame.slotsChanged {mem' : Bytes} (hf : h.Frame i h.bytes mem') {h' : DcHeader} (hb : h'.bytes = mem') : SlotsChanged h h' :=
  ⟨by rw [hb, hf.length], fun k hk => by rw [hb, hf.base hk]⟩

theorem changeKeeps {kOld : Vector UInt8 pkcsDeriveMax} (hin : h.SlotsInside)
    (hopen : env.kdfs.deriveKey oldPass oldPass.kdf h.salt true = some kOld) : h.ChangeKeeps env oldPass newPass kOld.toList := by
  intro mem' hrun
  obtain ⟨dk, sk, info, mem₁, mem₂, hs, -, hsize, -, -, -, hw₁, hw₂, hw₃⟩ := changeSlotPass_ok hrun
  have hlen : mem'.length = h.bytes.length := by
    unfold writeSlotCrc at hw₃
    obtain ⟨infoCrc, -, hw₃⟩ := Option.bind_eq_some_iff.1 hw₃
    obtain ⟨slotCrc, -, hw₃⟩ := Option.bind_eq_some_iff.1 hw₃
    rw [length_writeAt hw₃, length_writeAt hw₂, length_writeAt hw₁]
  obtain ⟨h', hof, hb⟩ := h.ofBytes_of_length hlen
  refine ⟨h', hof, ?_⟩
  have hkeep : h.Regular → h.hasKeySlots = true →
      (∀ (i : Nat) password, (i : Int) ≠ newPass.slot - 1 → h.Unwraps env.kdfs i password kOld.toList →
        h'.Unwraps env.kdfs i password kOld.toList) ∧ h'.Unwraps env.kdfs (newPass.slot - 1).toNat newPass kOld.toList := by
    intro hr hs
    obtain ⟨dk, sk, ⟨hi, hcast⟩, hdk, hsk, hframe, hintact, hkey⟩ := changeSlotPass_spec hr hrun
    have hchanged := hframe.slotsChanged hb
    constructor
    · intro i password hne hu
      obtain ⟨-, hlt, -, hintact₀, dk₀, hdk₀, hkey₀⟩ := (unwraps_iff hin).1 hu
      have hsame := hframe.sameSlot hr hi hlt (by omega)
      rw [hchanged.unwraps_iff hin, hb]
      exact ⟨hs, hlt, hr, (hsame.intactAt hr).2 hintact₀, dk₀, hdk₀, by rw [hsame.key hr, hkey₀]⟩
    · rw [hchanged.unwraps_iff hin, hb]
      refine ⟨hs, hi, hr, hintact, sk, CallEnv.deriveKey_of_derive hsk, ?_⟩
      cases hopen.symm.trans (CallEnv.deriveKey_of_derive hdk)
      rw [hkey, xorKey_comm sk.toList, xorKey_cancel (by simp)]
  constructor
  · intro i password hne hu
    obtain ⟨hs, -, hr, -⟩ := (unwraps_iff hin).1 hu
    exact (hkeep hr hs).1 i password hne hu
  · intro hkeySize
    have h32 : slotInfoBytes = 32 := rfl
    exact (hkeep ⟨hkeySize, by omega, hin.fit hs⟩ hs).2

/-- With both keys derived the new header key takes the place of the old one in every slot. -/
theorem updateKeeps {kOld dk sk : Vector UInt8 pkcsDeriveMax} (hin : h.SlotsInside)
    (hopen : env.kdfs.deriveKey oldPass oldPass.kdf h.salt true = some kOld) (hdk : env.derive 0 oldPass h.salt = some dk)
    (hsk : env.derive 1 newPass h.salt = some sk) {mem' : Bytes} {key : Option Xts}
    (hrun : h.updateKeySlots env oldPass newPass = some (.ok, mem', key)) {password : DcPass}
    (hu : h.Unwraps env.kdfs i password kOld.toList) :
    ∃ h' kNew key', ofBytes mem' = some h' ∧ env.kdfs.deriveKey newPass newPass.kdf h.salt true = some kNew ∧
      env.setKey kNew.toList h.alg1 = some key' ∧ key = some key' ∧ h'.Unwraps env.kdfs i password kNew.toList := by
  obtain ⟨hs, hi, hr, hintact, dk₀, hdk₀, hkey₀⟩ := (unwraps_iff hin).1 hu
  obtain ⟨-, ⟨used, hlooped⟩, kNew, key', hk, hset, hkey⟩ := updateKeySlots_ok hr hs hrun ⟨i, hi, hintact⟩
  obtain ⟨h', hof, hb⟩ := h.ofBytes_of_length hlooped.length
  refine ⟨h', kNew, key', hof, CallEnv.deriveKey_of_derive hk, hset, hkey, ?_⟩
  obtain ⟨-, hintact', hslot⟩ := hlooped.rewrapped rfl i (List.mem_range.2 hi) hintact
  have hchanged : SlotsChanged h h' := ⟨by rw [hb, hlooped.length], fun k hk => by rw [hb, hlooped.base k hk]⟩
  rw [hchanged.unwraps_iff hin, hb]
  refine ⟨hs, hi, hr, hintact', dk₀, hdk₀, ?_⟩
  have hold : h.oldDk env oldPass = kOld.toList := by
    cases hopen.symm.trans (CallEnv.deriveKey_of_derive hdk)
    rw [oldDk, hdk]
    rfl
  have hnew : h.newDk env newPass = kNew.toList := by
    cases (CallEnv.deriveKey_of_derive hk).symm.trans (CallEnv.deriveKey_of_derive hsk)
    rw [newDk, hsk]
    rfl
  -- the payload is laid over the slot's key, which gives the old header key
  calc xorKey (slice mem' (h.slotOff i) pkcsDeriveMax) dk₀.toList
      = xorKey (xorKey (xorKey (slice h.bytes (h.slotOff i) pkcsDeriveMax) kOld.toList) kNew.toList) dk₀.toList := by
        rw [hslot, hold, hnew]
    _ = xorKey (xorKey (xorKey (slice h.bytes (h.slotOff i) pkcsDeriveMax) kOld.toList) dk₀.toList) kNew.toList :=
        xorKey_right_comm _ _ _
    _ = xorKey (xorKey (xorKey (slice h.bytes (h.slotOff i) pkcsDeriveMax) dk₀.toList) kOld.toList) kNew.toList := by
        rw [xorKey_right_comm (slice _ _ _)]
    _ = xorKey (xorKey kNew.toList kOld.toList) kOld.toList := by rw [hkey₀, xorKey_comm _ kNew.toList, xorKey_assoc]
    _ = kNew.toList := xorKey_cancel (by simp)

theorem slot_of_update (hin : h.SlotsInside) {kOld : Bytes} {password : DcPass} (hu : h.Unwraps env.kdfs i password kOld)
    (hret : h.UpdateReturns env newPass) (hkeep : h.UpdateKeeps env oldPass newPass kOld) :
    ∃ dk₀ kNew, env.kdfs.deriveKey password password.kdf h.salt true = some dk₀ ∧
      env.kdfs.deriveKey newPass newPass.kdf h.salt true = some kNew ∧
        xorKey (xorKey (xorKey (slice h.bytes (h.slotOff i) pkcsDeriveMax) (h.oldDk env oldPass)) (h.newDk env newPass)) dk₀.toList =
          kNew.toList := by
  obtain ⟨hs, hi, hr, hintact, dk₀, hdk₀, -⟩ := (unwraps_iff hin).1 hu
  obtain ⟨mem', key, hrun⟩ : ∃ mem' key, h.updateKeySlots env oldPass newPass = some (.ok, mem', key) :=
    updateKeySlots_runs hr hs hret ⟨i, hi, hintact⟩
  obtain ⟨h', kNew, key', hof, hk, -, -, hu'⟩ := hkeep mem' key hrun i password hu
  obtain ⟨-, ⟨used, hlooped⟩, -⟩ := updateKeySlots_ok hr hs hrun ⟨i, hi, hintact⟩
  have hb := bytes_of_ofBytes hof
  have hchanged : SlotsChanged h h' := ⟨by rw [hb, hlooped.length], fun k hk => by rw [hb, hlooped.base k hk]⟩
  obtain ⟨-, -, -, -, dk₁, hdk₁, hkey⟩ := (hchanged.unwraps_iff hin).1 hu'
  cases hdk₀.symm.trans hdk₁
  obtain ⟨-, -, hslot⟩ := hlooped.rewrapped rfl i (List.mem_range.2 hi) hintact
  exact ⟨dk₀, kNew, hdk₀, hk, by rw [← hslot, ← hb, hkey]⟩

/-- What was on the stack, with another byte where one of the keys is put. -/
def stackAt (m : Nat) (b : UInt8) : Nat → Vector UInt8 pkcsDeriveMax := fun n => Vector.replicate pkcsDeriveMax (if n = m then b else 0)

theorem stackAt_ne (m : Nat) : (stackAt m 0 m).toList ≠ (stackAt m 1 m).toList := by
  intro heq
  unfold stackAt at heq
  rw [if_pos rfl, if_pos rfl, Vector.toList_replicate, Vector.toList_replicate] at heq
  cases heq

/-- A key that was not derived does not take the header key over, whatever it is. -/
theorem derived_of_updateKeeps {kOld : Bytes} {password : DcPass} (hin : h.SlotsInside) (hu : h.Unwraps env.kdfs i password kOld)
    (hret : h.UpdateReturns env newPass) (hupdate : ∀ stack, h.UpdateKeeps { env with stack := stack } oldPass newPass kOld) :
    (env.derive 0 oldPass h.salt).isSome ∧ (env.derive 1 newPass h.salt).isSome := by
  obtain ⟨hs, hi, hr, -⟩ := (unwraps_iff hin).1 hu
  have hslot := h.slotOff_add_le hi
  have hinfo := h.infoOff_add_le hi
  have hle := h.le_infoOff i
  have hsize := hr.size
  have hend := hr.fit
  have hp : (slice h.bytes (h.slotOff i) pkcsDeriveMax).length = pkcsDeriveMax := length_slice (by omega)
  have hu' : ∀ stack, h.Unwraps ({ env with stack := stack } : CallEnv).kdfs i password kOld := fun _ => hu
  have hret' : ∀ stack, h.UpdateReturns { env with stack := stack } newPass := fun _ =>
    ⟨hret.flags, hret.type, hret.allocated, hret.key⟩
  -- the same slot under the same password, so the two layers do not depend on the stack
  have hlayers : ∀ stack stack', xorKey (h.oldDk { env with stack := stack } oldPass) (h.newDk { env with stack := stack } newPass) =
      xorKey (h.oldDk { env with stack := stack' } oldPass) (h.newDk { env with stack := stack' } newPass) := by
    intro stack stack'
    obtain ⟨d, k, hd, hk, h₁⟩ :=
      slot_of_update hin (hu' stack) (hret' stack) (hupdate stack)
    obtain ⟨d', k', hd', hk', h₂⟩ :=
      slot_of_update hin (hu' stack') (hret' stack') (hupdate stack')
    cases hd.symm.trans hd'
    cases hk.symm.trans hk'
    exact layers_inj hp Vector.length_toList Vector.length_toList Vector.length_toList Vector.length_toList Vector.length_toList
      (h₁.trans h₂.symm)
  constructor
  · cases hdk : env.derive 0 oldPass h.salt with
    | some dk => rfl
    | none =>
      have heq := hlayers (stackAt 0 0) (stackAt 0 1)
      have hold : ∀ b, h.oldDk { env with stack := stackAt 0 b } oldPass = (stackAt 0 b 0).toList := fun b =>
        congrArg (fun dk => (Option.getD dk (stackAt 0 b 0)).toList) hdk
      have hnew : ∀ b, h.newDk { env with stack := stackAt 0 b } newPass = h.newDk { env with stack := stackAt 0 0 } newPass :=
        fun _ => rfl
      rw [hold, hold, hnew] at heq
      exact absurd (xorKey_inj (by simp [newDk]) (by simp [newDk]) heq) (stackAt_ne 0)
  · cases hsk : env.derive 1 newPass h.salt with
    | some sk => rfl
    | none =>
      have heq := hlayers (stackAt 1 0) (stackAt 1 1)
      have hnew : ∀ b, h.newDk { env with stack := stackAt 1 b } newPass = (stackAt 1 b 1).toList := fun b =>
        congrArg (fun dk => (Option.getD dk (stackAt 1 b 1)).toList) hsk
      have hold : ∀ b, h.oldDk { env with stack := stackAt 1 b } oldPass = h.oldDk { env with stack := stackAt 1 0 } oldPass :=
        fun _ => rfl
      rw [hnew, hnew, hold 1, xorKey_comm, xorKey_comm _ (stackAt 1 1 1).toList] at heq
      exact absurd (xorKey_inj (by simp [oldDk]) (by simp [oldDk]) heq) (stackAt_ne 1)

/-- **The slots keep their keys if and only if no slot is in use, or `dc_update_key_slots` fails anyhow, or both keys it lays
over the slots are derived.** -/
theorem keysKept_iff {kOld : Vector UInt8 pkcsDeriveMax} (hin : h.SlotsInside)
    (hopen : env.kdfs.deriveKey oldPass oldPass.kdf h.salt true = some kOld) : h.KeysKept env oldPass newPass kOld.toList ↔
      ((∃ i password, h.Unwraps env.kdfs i password kOld.toList) → h.UpdateReturns env newPass →
        (env.derive 0 oldPass h.salt).isSome ∧ (env.derive 1 newPass h.salt).isSome) := by
  constructor
  · rintro ⟨hupdate, -, -⟩ ⟨i, password, hu⟩ hret
    exact derived_of_updateKeeps hin hu hret hupdate
  · intro hcond
    refine ⟨?_, changeKeeps hin hopen, callerStops⟩
    intro stack mem' key hrun i password hu
    obtain ⟨hs, hi, hr, hintact, -⟩ := (unwraps_iff hin).1 hu
    obtain ⟨hret, -⟩ := updateKeySlots_ok hr hs hrun ⟨i, hi, hintact⟩
    obtain ⟨hdk, hsk⟩ := hcond ⟨i, password, hu⟩ ⟨hret.flags, hret.type, hret.allocated, hret.key⟩
    obtain ⟨dk, hdk⟩ := Option.isSome_iff_exists.1 hdk
    obtain ⟨sk, hsk⟩ := Option.isSome_iff_exists.1 hsk
    exact @updateKeeps h i { env with stack := stack } oldPass newPass kOld dk sk hin hopen hdk hsk mem' key hrun password hu

/-- A header of 2 KB with a slot in use. -/
def oneSlot : DcHeader where
  bytes := (List.range dcAreaSize).map fun
    | 72 => 3
    | 615 => 8
    | 628 => 1
    | 635 => 192 | 637 => 1 | 638 => 32
    | 1216 => 0x96 | 1217 => 0x6A | 1218 => 0xB1 | 1219 => 0xAF
    | 1220 => 1
    | n => if 1024 ≤ n ∧ n < 1216 then 5 else 0
  area := by rw [List.length_map, List.length_range]

/-- Keys that are the first byte of the password over and over, and a derivation that fails. -/
def failing (n : Nat) : CallEnv where
  kdfs := ⟨fun password _ => Vector.replicate _ (password.headD 0), fun _ password _ len => Vector.replicate len (password.headD 0)⟩
  granted := fun m => m ≠ n
  stack := fun _ => Vector.replicate _ 0
  allocated := true
  setKey := fun _ _ => some plain
  rand := fun _ _ => 0

abbrev headerPass (c : UInt16) : DcPass := ⟨[c], 5, 0⟩

theorem deriveKey_failing (n : Nat) (c : UInt16) (salt : Bytes) : (failing n).kdfs.deriveKey (headerPass c) 5 salt true =
    some (Vector.replicate pkcsDeriveMax ((headerPass c).bytes.headD 0)) := by
  have hparams : argon2MkParams 5 = some (384 * 1024, 5, 4) := by decide
  unfold Kdfs.deriveKey
  rw [if_neg (by decide), if_neg (by decide), if_neg (by decide), hparams]
  refine congrArg some (Vector.ext ?_)
  intro i hi
  rw [Vector.getElem_replicate]
  exact (Vector.getElem_take ..).trans (Vector.getElem_replicate ..)

theorem slotsInside_oneSlot : oneSlot.SlotsInside := by
  intro _ _
  decide +kernel

/-- The checksum of the slot, put together from parts. -/
theorem slotSum_oneSlot : oneSlot.slotSum oneSlot.bytes 0 = 0xAFB16A96 := by
  have hbytes : slice oneSlot.bytes (oneSlot.infoOff 0 + 4) (oneSlot.slotInfoSize - 4) ++
      slice oneSlot.bytes (oneSlot.slotOff 0) oneSlot.slotSize = (1 :: List.replicate 27 0) ++ List.replicate 192 5 := by decide +kernel
  have hdouble : ∀ n (crc : UInt32), n < 2 ^ 64 → crc32 (List.replicate n 5) = crc →
      crc32 (List.replicate (n + n) 5) = crc32Combine crc crc n := by
    intro n crc hn hcrc
    have happend := crc32Combine_crc32 (List.replicate n 5) (List.replicate n 5) (by rwa [List.length_replicate])
    rw [List.length_replicate, hcrc, List.replicate_append_replicate] at happend
    exact happend.symm
  have hlt : ∀ n < 1024, n < 2 ^ 64 := fun n hn => Nat.lt_of_lt_of_le hn (Nat.pow_le_pow_right (Nat.succ_pos 1) (show 10 ≤ 64 by omega))
  have h96 := hdouble 48 _ (hlt 48 (by omega)) rfl
  have h192 := hdouble 96 _ (hlt 96 (by omega)) h96
  have happend := crc32Combine_crc32 (1 :: List.replicate 27 0) (List.replicate 192 5) (by rw [List.length_replicate]; exact hlt 192 (by omega))
  unfold slotSum
  rw [hbytes, ← happend, h192, List.length_replicate]
  decide +kernel

theorem inUse_oneSlot : oneSlot.InUse 0 := by
  refine (inUse_iff ⟨by decide +kernel, by decide +kernel, by decide +kernel⟩ (by decide +kernel) (by decide +kernel)).2
    ⟨by decide +kernel, by decide +kernel, ?_⟩
  rw [slotSum_oneSlot]
  decide +kernel

theorem unwraps_oneSlot (n : Nat) : oneSlot.Unwraps (failing n).kdfs 0 ⟨[4], 0, 1⟩ (Vector.replicate pkcsDeriveMax (1 : UInt8)).toList := by
  refine ⟨inUse_oneSlot, Vector.replicate pkcsDeriveMax 4, List.replicate pkcsDeriveMax 5, rfl, ?_, ?_⟩
  · decide +kernel
  · rw [Vector.toList_replicate, Vector.toList_replicate, xorKey, List.zipWith_replicate]
    rfl

theorem updateReturns_oneSlot {n : Nat} (hn : n ≠ 2) : oneSlot.UpdateReturns (failing n) (headerPass 2) := by
  refine ⟨?_, ?_, rfl, ?_⟩
  · intro i hi
    rw [show oneSlot.keySlotCount = 1 by decide +kernel] at hi
    obtain rfl : i = 0 := by omega
    decide +kernel
  · intro i hi _
    rw [show oneSlot.keySlotCount = 1 by decide +kernel] at hi
    obtain rfl : i = 0 := by omega
    decide +kernel
  · have hgranted : (failing n).granted 2 = true := decide_eq_true hn.symm
    unfold CallEnv.derive
    rw [hgranted]
    rfl

/-- All derivations work: the slot keeps its key. -/
theorem keysKept_oneSlot : oneSlot.KeysKept (failing 3) (headerPass 1) (headerPass 2) (Vector.replicate pkcsDeriveMax (1 : UInt8)).toList :=
  (keysKept_iff slotsInside_oneSlot (deriveKey_failing 3 1 _)).2 fun _ _ =>
    ⟨by rw [CallEnv.derive, show (failing 3).granted 0 = true from rfl, deriveKey_failing]; rfl,
      by rw [CallEnv.derive, show (failing 3).granted 1 = true from rfl, deriveKey_failing]; rfl⟩

/-- The derivation from the old password fails: the call works out, and the slot loses its key. -/
theorem not_keysKept_oneSlot : oneSlot.SlotsInside ∧
    (failing 0).kdfs.deriveKey (headerPass 1) 5 oneSlot.salt true = some (Vector.replicate pkcsDeriveMax 1) ∧
      ¬ oneSlot.KeysKept (failing 0) (headerPass 1) (headerPass 2) (Vector.replicate pkcsDeriveMax (1 : UInt8)).toList := by
  refine ⟨slotsInside_oneSlot, deriveKey_failing 0 1 _, ?_⟩
  rintro ⟨hupdate, -, -⟩
  have hderived := derived_of_updateKeeps slotsInside_oneSlot (unwraps_oneSlot 0) (updateReturns_oneSlot (by decide)) hupdate
  exact Bool.false_ne_true hderived.1

end DcHeader

end MajorPrivacy.Volume

/-
Changing passwords of a volume (volume_head.c, CryptoIO.cpp): `dc_update_key_slots` wraps every slot in use under a new
header key, `dc_change_slot_pass` sets one slot. A derivation can fail, then the array it was to fill holds what was on
the stack.
-/
import MajorPrivacy.Volume.CrcCombine
import MajorPrivacy.Volume.Sealed

namespace MajorPrivacy.Volume

open LittleEndian Memory

/-! ## Derivation -/

abbrev kdfLegacyArgonBase : Int := 1000
abbrev kdfLegacyArgonLast : Int := 1100

/-- `argon2_mk_params`: the memory in KiB, the passes and the lanes. -/
def argon2MkParams (kdf : Int) : Option (Nat × Nat × Nat) :=
  if kdf < 1 ∨ 10 < kdf then none
  else
    let memoryMib := [64, 128, 192, 256, 384, 512, 768, 1024, 1536, 2048].getD (kdf - 1).toNat 0
    let timeCost := [3, 3, 4, 4, 5, 5, 5, 6, 6, 6].getD (kdf - 1).toNat 0
    some (memoryMib * 1024, timeCost, 4)

/-- The cost of the volumes of 0.99.7. -/
def legacyArgonParams (cost : Nat) : Nat × Nat × Nat :=
  (min (64 + (cost - 1) * 32) 1024 * 1024, if cost ≤ 31 then 3 + (cost - 1) / 3 else 13 + (cost - 31), 1)

/-- `sha512_pkcs5_2` and `argon2id_hash_raw`, of the parameters, the password, the salt and the length asked for. -/
structure Kdfs where
  sha512Pkcs5 : Bytes → Bytes → Vector UInt8 pkcsDeriveMax
  argon2id : Nat × Nat × Nat → Bytes → Bytes → (len : Nat) → Vector UInt8 len

/-- The password as memory. -/
def DcPass.bytes (password : DcPass) : Bytes := password.pass.flatMap fun c => toLE 2 c.toNat

/-- The password has characters. -/
def DcPass.size (password : DcPass) : Nat := password.bytes.length

/-- `dc_derive_key`. Argon2 works if it is granted its memory and not interrupted. -/
def Kdfs.deriveKey (c : Kdfs) (password : DcPass) (kdf : Int) (salt : Bytes) (granted : Bool) : Option (Vector UInt8 pkcsDeriveMax) :=
  if kdf = kdfNone then
    if h : password.size = diskKeySize then
      some ⟨(password.bytes.take pkcsDeriveMax).toArray, by
        rw [List.size_toArray, List.length_take]
        unfold DcPass.size at h
        rw [h]
        rfl⟩
    else none
  else if kdf = 0 then some (c.sha512Pkcs5 password.bytes salt)
  else if kdfLegacyArgonBase < kdf ∧ kdf ≤ kdfLegacyArgonLast then
    if granted then some (c.argon2id (legacyArgonParams (kdf - kdfLegacyArgonBase).toNat) password.bytes salt pkcsDeriveMax) else none
  else
    match argon2MkParams kdf with
    | none => none
    | some params => if granted then some ((c.argon2id params password.bytes salt diskKeySize).take pkcsDeriveMax) else none

/-- What the calls meet: the derivations, which of them have what they need, what was on the stack before, whether the
key is allocated, the ciphers and random bytes. -/
structure CallEnv where
  kdfs : Kdfs
  granted : Nat → Bool
  stack : Nat → Vector UInt8 pkcsDeriveMax
  allocated : Bool
  setKey : Bytes → Nat → Option Xts
  rand : Nat → Nat → UInt8

/-- A call of `dc_derive_key`, of which it is the `n`th. -/
def CallEnv.derive (env : CallEnv) (n : Nat) (password : DcPass) (salt : Bytes) : Option (Vector UInt8 pkcsDeriveMax) :=
  env.kdfs.deriveKey password password.kdf salt (env.granted n)

namespace DcHeader

variable (h : DcHeader)

/-! ## `dc_update_key_slots` -/

/-- How a turn of the loop ends: the slot holds the new key, it is filled with random bytes, or its type is not known. -/
inductive Turn
  | rewrapped
  | cleared
  | failed
  deriving DecidableEq, Repr

/-- A slot that is not in use, or not intact. -/
def clearSlot (rand : Nat → UInt8) (mem : Bytes) (i : Nat) : Option (Bytes × Turn) := do
  let mem ← writeAt mem (h.slotOff i) (dcRand rand h.slotSize)
  let mem ← writeAt mem (h.infoOff i) (toLE 4 0)
  some (mem, .cleared)

/-- `cp_swap_slot_key` with the checksum behind it. -/
def swapSlotKey (oldDk newDk : Bytes) (mem : Bytes) (i : Nat) (infoCrc : UInt32) : Option (Bytes × Turn) := do
  let type ← readLE mem (h.infoOff i + 8) 2
  if type ≠ 0 then some (mem, .failed)
  else do
    let slot ← readAt mem (h.slotOff i) pkcsDeriveMax
    let mem ← writeAt mem (h.slotOff i) (xorKey (xorKey slot oldDk) newDk)
    let slotCrc ← crcAt mem (h.slotOff i) h.slotSize
    let mem ← writeAt mem (h.infoOff i) (toLE 4 (crc32Combine infoCrc slotCrc h.slotSize).toNat)
    some (mem, .rewrapped)

/-- One turn of the loop. -/
def updateSlot (oldDk newDk : Bytes) (rand : Nat → UInt8) (mem : Bytes) (i : Nat) : Option (Bytes × Turn) := do
  let flags ← readLE mem (h.infoOff i + 4) 4
  if sfActive flags ∧ ¬ sfCorrupt flags then do
    let infoCrc ← crcAt mem (h.infoOff i + 4) ((h.slotInfoSize : Int) - 4)
    let slotCrc ← crcAt mem (h.slotOff i) h.slotSize
    let crc ← readLE mem (h.infoOff i) 4
    if crc = (crc32Combine infoCrc slotCrc h.slotSize).toNat then h.swapSlotKey oldDk newDk mem i infoCrc
    else do
      -- SF_CORRUPT
      let mem ← writeAt mem (h.infoOff i + 4) (toLE 4 (flags + 4))
      h.clearSlot rand mem i
  else h.clearSlot rand mem i

/-- The loop: the memory, `used_slots`, and whether it came to its end. -/
def updateSlots (oldDk newDk : Bytes) (rand : Nat → Nat → UInt8) : List Nat → (mem : Bytes) → (used : Nat) → Option (Bytes × Nat × Bool)
  | [], mem, used => some (mem, used, true)
  | i :: rest, mem, used =>
    match h.updateSlot oldDk newDk (rand i) mem i with
    | none => none
    | some (mem, .rewrapped) => updateSlots oldDk newDk rand rest mem (used + 1)
    | some (mem, .cleared) => updateSlots oldDk newDk rand rest mem used
    | some (mem, .failed) => some (mem, used, false)

/-- The status, the header and the key to seal it with. The results of the first two derivations are not looked at. -/
def updateKeySlots (env : CallEnv) (oldPass newPass : DcPass) : Option (Status × Bytes × Option Xts) :=
  if h.keySlotCount = 0 then none
  else
    let oldDk := (env.derive 0 oldPass h.salt).getD (env.stack 0)
    let newDk := (env.derive 1 newPass h.salt).getD (env.stack 1)
    match h.updateSlots oldDk.toList newDk.toList env.rand (List.range h.keySlotCount) h.bytes 0 with
    | none => none
    | some (mem, used, ended) =>
      let resl : Status := if ended then .ok else .slotNotOk
      if used = 0 then some (resl, mem, none)
      else if ¬ env.allocated then some (.nomem, mem, none)
      else
        match (env.derive 2 newPass h.salt).bind fun dk => env.setKey dk.toList h.alg1 with
        | none => some (.invalidParam, mem, none)
        | some key => some (resl, mem, some key)

/-! ## `dc_change_slot_pass` -/

/-- The descriptor of a slot that has got a password. -/
def activeInfo (info : Bytes) (kdf : Int) : Bytes :=
  let flags := infoFlags info
  let flags := if sfActive flags then flags else flags + 1
  let flags := if sfCorrupt flags then flags - 4 else flags
  info.take 4 ++ toLE 4 flags ++ toLE 2 0 ++ slice info 10 20 ++ toLE 1 (kdf % 256).toNat ++ info.drop 31

def changeSlotPass (env : CallEnv) (oldPass newPass : DcPass) : Option (Status × Bytes) :=
  if ¬ h.isV2 ∨ ¬ h.ffKeySlots then some (.invalidParam, h.bytes)
  else if newPass.slot < 1 ∨ h.keySlotCount < newPass.slot then some (.invalidParam, h.bytes)
  else if h.keySlotCount = 0 ∨ h.slotAreaLen = 0 ∨ h.slotInfoSize < slotInfoBytes then some (.invVolume, h.bytes)
  else
    let i := (newPass.slot - 1).toNat
    if h.slotOff i + h.slotSize > h.headLen then some (.invVolume, h.bytes)
    else if h.infoOff i + h.slotInfoSize > h.headLen then some (.invVolume, h.bytes)
    else
      match env.derive 0 oldPass h.salt with
      | none => some (.invalidParam, h.bytes)
      | some dk =>
        match env.derive 1 newPass h.salt with
        | none => some (.invalidParam, h.bytes)
        | some sk => do
          let info ← readAt h.bytes (h.infoOff i) h.slotInfoSize
          let mem ← writeAt h.bytes (h.infoOff i) (activeInfo info newPass.kdf)
          let mem ← writeAt mem (h.slotOff i) (xorKey sk.toList dk.toList)
          let mem ← h.writeSlotCrc mem i
          some (.ok, mem)

/-! ## Slots in use -/

/-- The flags of a slot are in the first of their bytes. -/
def slotFlags (mem : Bytes) (i : Nat) : Nat := ofLE (slice mem (h.infoOff i + 4) 1)

/-- The checksum of the descriptor with the slot. -/
def slotSum (mem : Bytes) (i : Nat) : UInt32 :=
  crc32 (slice mem (h.infoOff i + 4) (h.slotInfoSize - 4) ++ slice mem (h.slotOff i) h.slotSize)

/-- The slot is in use and its checksum is right. -/
structure IntactAt (mem : Bytes) (i : Nat) : Prop where
  active : sfActive (h.slotFlags mem i) = true
  clean : sfCorrupt (h.slotFlags mem i) = false
  sum : ofLE (slice mem (h.infoOff i) 4) = (h.slotSum mem i).toNat

/-- Slots that hold a key, with descriptors that have their flags, inside the header. -/
structure Regular : Prop where
  size : pkcsDeriveMax ≤ h.slotSize
  info : 5 ≤ h.slotInfoSize
  fit : dcBaseSize + h.slotsLen ≤ h.bytes.length

/-- A slot and its descriptor, which are what a turn of the loop may write to. -/
def Touched (i k : Nat) : Prop :=
  h.slotOff i ≤ k ∧ k < h.slotOff i + h.slotSize ∨ h.infoOff i ≤ k ∧ k < h.infoOff i + h.slotInfoSize

/-- The memory differs at most in a slot and its descriptor. -/
structure Frame (i : Nat) (mem mem' : Bytes) : Prop where
  length : mem'.length = mem.length
  same : ∀ k, ¬ h.Touched i k → mem'[k]? = mem[k]?

/-- A slot and its descriptor are as they were. -/
structure SameSlot (mem mem' : Bytes) (i : Nat) : Prop where
  slot : slice mem' (h.slotOff i) h.slotSize = slice mem (h.slotOff i) h.slotSize
  info : slice mem' (h.infoOff i) h.slotInfoSize = slice mem (h.infoOff i) h.slotInfoSize

section Regular

variable {h} {mem mem' : Bytes} {i j : Nat}

theorem SameSlot.trans {mem'' : Bytes} (h₁ : h.SameSlot mem mem' i) (h₂ : h.SameSlot mem' mem'' i) : h.SameSlot mem mem'' i :=
  ⟨h₂.slot.trans h₁.slot, h₂.info.trans h₁.info⟩

theorem Frame.trans {mem'' : Bytes} (h₁ : h.Frame i mem mem') (h₂ : h.Frame i mem' mem'') : h.Frame i mem mem'' :=
  ⟨h₂.length.trans h₁.length, fun k hk => (h₂.same k hk).trans (h₁.same k hk)⟩

theorem SameSlot.intactAt (hr : h.Regular) (hs : h.SameSlot mem mem' i) : h.IntactAt mem' i ↔ h.IntactAt mem i := by
  have hsub : ∀ o l, o + l ≤ h.slotInfoSize → slice mem' (h.infoOff i + o) l = slice mem (h.infoOff i + o) l := by
    intro o l hle
    rw [← slice_slice hle, ← slice_slice hle, hs.info]
  have hinfo := hr.info
  have hflags : h.slotFlags mem' i = h.slotFlags mem i := congrArg ofLE (hsub 4 1 hinfo)
  have hsum : h.slotSum mem' i = h.slotSum mem i := by
    unfold slotSum
    rw [hsub 4 (h.slotInfoSize - 4) (by omega), hs.slot]
  have hcrc : slice mem' (h.infoOff i) 4 = slice mem (h.infoOff i) 4 := hsub 0 4 (by omega)
  constructor
  · rintro ⟨h₁, h₂, h₃⟩
    exact ⟨hflags ▸ h₁, hflags ▸ h₂, by rw [← hcrc, h₃, hsum]⟩
  · rintro ⟨h₁, h₂, h₃⟩
    exact ⟨hflags.symm ▸ h₁, hflags.symm ▸ h₂, by rw [hcrc, h₃, hsum]⟩

/-- Slots lie one behind the other, and so do descriptors. -/
theorem slotOff_le_of_lt (hij : i < j) : h.slotOff i + h.slotSize ≤ h.slotOff j := by
  have hmul : h.slotSize * (i + 1) ≤ h.slotSize * j := Nat.mul_le_mul_left _ hij
  rw [Nat.mul_succ] at hmul
  unfold slotOff
  omega

theorem infoOff_le_of_lt (hij : i < j) : h.infoOff i + h.slotInfoSize ≤ h.infoOff j := by
  have hmul : h.slotInfoSize * (i + 1) ≤ h.slotInfoSize * j := Nat.mul_le_mul_left _ hij
  rw [Nat.mul_succ] at hmul
  unfold infoOff
  omega

/-- A turn does not touch another slot, nor the base. -/
theorem Frame.sameSlot (hr : h.Regular) (hf : h.Frame i mem mem') (hi : i < h.keySlotCount) (hj : j < h.keySlotCount) (hij : i ≠ j) :
    h.SameSlot mem mem' j := by
  have hinfo := hr.info
  have hslots := h.slotOff_add_le hi
  have hslots' := h.slotOff_add_le hj
  have hinfos := h.le_infoOff i
  have hinfos' := h.le_infoOff j
  constructor
  · apply slice_congr
    intro k hk hk'
    apply hf.same
    rintro (⟨h₁, h₂⟩ | ⟨h₁, -⟩)
    · obtain hlt | hlt := Nat.lt_or_gt_of_ne hij
      · have := slotOff_le_of_lt (h := h) hlt
        omega
      · have := slotOff_le_of_lt (h := h) hlt
        omega
    · omega
  · apply slice_congr
    intro k hk hk'
    apply hf.same
    rintro (⟨-, h₂⟩ | ⟨h₁, h₂⟩)
    · omega
    · obtain hlt | hlt := Nat.lt_or_gt_of_ne hij
      · have := infoOff_le_of_lt (h := h) hlt
        omega
      · have := infoOff_le_of_lt (h := h) hlt
        omega

theorem Frame.base (hf : h.Frame i mem mem') {k : Nat} (hk : k < dcBaseSize) : mem'[k]? = mem[k]? := by
  apply hf.same
  have : dcBaseSize ≤ h.slotOff i := Nat.le_add_right _ _
  have := h.le_infoOff i
  rintro (⟨h₁, -⟩ | ⟨h₁, -⟩) <;> omega

theorem Frame.of_writeAt {off : Nat} {data : Bytes} (hw : writeAt mem off data = some mem')
    (hin : ∀ k, off ≤ k → k < off + data.length → h.Touched i k) : h.Frame i mem mem' := by
  refine ⟨length_writeAt hw, ?_⟩
  intro k hk
  rw [getElem?_writeAt hw, if_neg]
  rintro ⟨h₁, h₂⟩
  exact hk (hin k h₁ h₂)

theorem crcAt_eq {off len : Nat} (hle : off + len ≤ mem.length) : crcAt mem off len = some (crc32 (slice mem off len)) := by
  unfold crcAt
  rw [if_neg (by omega), readAt_eq (by omega)]
  rfl

theorem readLE_eq {off w : Nat} (hle : off + w ≤ mem.length) : readLE mem off w = some (ofLE (slice mem off w)) := by
  rw [readLE, readAt_eq hle]
  rfl

/-- The checksums of the descriptor and of the slot make the one of both. -/
theorem slotSum_eq (hr : h.Regular) (hlen : mem.length = h.bytes.length) (hi : i < h.keySlotCount) :
    crcAt mem (h.infoOff i + 4) ((h.slotInfoSize : Int) - 4) = some (crc32 (slice mem (h.infoOff i + 4) (h.slotInfoSize - 4))) ∧
      crcAt mem (h.slotOff i) h.slotSize = some (crc32 (slice mem (h.slotOff i) h.slotSize)) ∧
        crc32Combine (crc32 (slice mem (h.infoOff i + 4) (h.slotInfoSize - 4))) (crc32 (slice mem (h.slotOff i) h.slotSize)) h.slotSize =
          h.slotSum mem i := by
  have hinfo := hr.info
  have hend := hr.fit
  have h₁ := h.infoOff_add_le hi
  have h₂ := h.slotOff_add_le hi
  have h₃ := h.le_infoOff i
  have hslot : (slice mem (h.slotOff i) h.slotSize).length = h.slotSize := length_slice (by omega)
  refine ⟨?_, crcAt_eq (by omega), ?_⟩
  · rw [show (h.slotInfoSize : Int) - 4 = ((h.slotInfoSize - 4 : Nat) : Int) by omega]
    exact crcAt_eq (by omega)
  · have hlt := h.slotAreaLen_lt
    have hsize : h.slotSize ≤ h.slotAreaLen := Nat.div_le_self _ _
    have hcombine := crc32Combine_crc32 (slice mem (h.infoOff i + 4) (h.slotInfoSize - 4)) (slice mem (h.slotOff i) h.slotSize)
      (by rw [hslot]; omega)
    rwa [hslot] at hcombine

/-! ## One turn -/

theorem ofLE_slice_one {off flags : Nat} (hread : readLE mem off 4 = some flags) : ofLE (slice mem off 1) = flags % 256 := by
  have hle : off + 4 ≤ mem.length := isSome_readLE.1 (by rw [hread]; rfl)
  rw [readLE_eq hle] at hread
  cases hb : mem[off]? with
  | none =>
    rw [List.getElem?_eq_none_iff] at hb
    omega
  | some b =>
    rw [slice_cons hb (by decide)] at hread ⊢
    rw [← Option.some.inj hread, slice_zero]
    change b.toNat + 256 * 0 = (b.toNat + 256 * _) % 256
    have := b.toNat_lt
    omega

theorem sfActive_mod (flags : Nat) : sfActive (flags % 256) = sfActive flags := by
  unfold sfActive
  rw [show flags % 256 % 2 = flags % 2 by omega]

theorem sfCorrupt_mod (flags : Nat) : sfCorrupt (flags % 256) = sfCorrupt flags := by
  unfold sfCorrupt
  rw [show flags % 256 / 4 % 2 = flags / 4 % 2 by omega]

/-- The flag that marks a slot as not intact is in the first byte: the others are written as they are. -/
theorem getElem?_writeAt_corrupt {off flags : Nat} (hread : readLE mem off 4 = some flags) (hclean : sfCorrupt flags = false)
    (hw : writeAt mem off (toLE 4 (flags + 4)) = some mem') {k : Nat} (hk : k ≠ off) : mem'[k]? = mem[k]? := by
  have hle : off + 4 ≤ mem.length := isSome_readLE.1 (by rw [hread]; rfl)
  have hbytes : slice mem off 4 = toLE 4 flags := by
    rw [readLE_eq hle] at hread
    have hback := toLE_ofLE (slice mem off 4)
    rw [length_slice hle, Option.some.inj hread] at hback
    exact hback.symm
  rw [getElem?_writeAt hw, length_toLE]
  by_cases hin : off ≤ k ∧ k < off + 4
  · have hcell : (slice mem off 4)[k - off]? = mem[k]? := by
      rw [getElem?_slice, if_pos (by omega)]
      congr 1
      omega
    have hdiv : (flags + 4) / 256 = flags / 256 := by
      unfold sfCorrupt at hclean
      have := of_decide_eq_false hclean
      omega
    obtain ⟨n, hn⟩ := Nat.exists_eq_add_one_of_ne_zero (show k - off ≠ 0 by omega)
    rw [if_pos hin, ← hcell, hbytes, hn]
    change (toLE 3 ((flags + 4) / 256))[n]? = (toLE 3 (flags / 256))[n]?
    rw [hdiv]
  · rw [if_neg hin]

section Turn

variable (hr : h.Regular) (hlen : mem.length = h.bytes.length) (hi : i < h.keySlotCount)
include hr hlen hi

theorem clearSlot_spec (rand : Nat → UInt8) : ∃ mem', h.clearSlot rand mem i = some (mem', .cleared) ∧ h.Frame i mem mem' := by
  have hinfo := hr.info
  have hend := hr.fit
  have h₁ := h.infoOff_add_le hi
  have h₂ := h.slotOff_add_le hi
  have h₃ := h.le_infoOff i
  obtain ⟨mem₁, hw₁⟩ := writeAt_eq mem (h.slotOff i) (dcRand rand h.slotSize) (by rw [length_dcRand]; omega)
  obtain ⟨mem₂, hw₂⟩ := writeAt_eq mem₁ (h.infoOff i) (toLE 4 0) (by rw [length_toLE, length_writeAt hw₁]; omega)
  refine ⟨mem₂, ?_, (Frame.of_writeAt hw₁ ?_).trans (Frame.of_writeAt hw₂ ?_)⟩
  · unfold clearSlot
    simp only [hw₁, hw₂, Option.bind_eq_bind, Option.bind_some]
  · intro k hk hk'
    rw [length_dcRand] at hk'
    exact .inl ⟨hk, hk'⟩
  · intro k hk hk'
    rw [length_toLE] at hk'
    exact .inr ⟨hk, by omega⟩

/-- The checksum written into a descriptor whose flags are those of a slot in use makes the slot intact. -/
theorem putSum_spec (hactive : sfActive (h.slotFlags mem i) = true) (hclean : sfCorrupt (h.slotFlags mem i) = false) :
    ∃ mem', writeAt mem (h.infoOff i) (toLE 4 (h.slotSum mem i).toNat) = some mem' ∧ h.Frame i mem mem' ∧ h.IntactAt mem' i ∧
      slice mem' (h.slotOff i) pkcsDeriveMax = slice mem (h.slotOff i) pkcsDeriveMax := by
  have hinfo := hr.info
  have hsize := hr.size
  have hend := hr.fit
  have h₁ := h.infoOff_add_le hi
  have h₂ := h.slotOff_add_le hi
  have h₃ := h.le_infoOff i
  obtain ⟨mem', hw⟩ := writeAt_eq mem (h.infoOff i) (toLE 4 (h.slotSum mem i).toNat) (by rw [length_toLE]; omega)
  have hdesc : ∀ l, slice mem' (h.infoOff i + 4) l = slice mem (h.infoOff i + 4) l := by
    intro l
    exact slice_writeAt hw (.inr (by rw [length_toLE]))
  have hslot : ∀ l, l ≤ h.slotSize → slice mem' (h.slotOff i) l = slice mem (h.slotOff i) l := by
    intro l hl
    exact slice_writeAt hw (.inl (by omega))
  have hflags : h.slotFlags mem' i = h.slotFlags mem i := congrArg ofLE (hdesc 1)
  refine ⟨mem', hw, Frame.of_writeAt hw ?_, ⟨?_, ?_, ?_⟩, hslot _ hsize⟩
  · intro k hk hk'
    rw [length_toLE] at hk'
    exact .inr ⟨hk, by omega⟩
  · rwa [hflags]
  · rwa [hflags]
  · have hself := slice_writeAt_self hw
    rw [length_toLE] at hself
    have hsum : h.slotSum mem' i = h.slotSum mem i := by
      unfold slotSum
      rw [hdesc, hslot _ (Nat.le_refl _)]
    rw [hself, hsum, ofLE_toLE_of_lt (h.slotSum mem i).toNat_lt]

/-- A slot of the known type gets the new key. -/
theorem swapSlotKey_spec {oldDk newDk : Bytes} (hold : oldDk.length = pkcsDeriveMax) (hnew : newDk.length = pkcsDeriveMax)
    (htype : readLE mem (h.infoOff i + 8) 2 = some 0) (hintact : h.IntactAt mem i) :
    ∃ mem', h.swapSlotKey oldDk newDk mem i (crc32 (slice mem (h.infoOff i + 4) (h.slotInfoSize - 4))) = some (mem', .rewrapped) ∧
      h.Frame i mem mem' ∧ h.IntactAt mem' i ∧
        slice mem' (h.slotOff i) pkcsDeriveMax = xorKey (xorKey (slice mem (h.slotOff i) pkcsDeriveMax) oldDk) newDk := by
  have hsize := hr.size
  have hend := hr.fit
  have h₁ := h.infoOff_add_le hi
  have h₂ := h.slotOff_add_le hi
  have h₃ := h.le_infoOff i
  have hkey : (xorKey (xorKey (slice mem (h.slotOff i) pkcsDeriveMax) oldDk) newDk).length = pkcsDeriveMax := by
    unfold xorKey
    rw [List.length_zipWith, List.length_zipWith, length_slice (by omega), hold, hnew]
    rfl
  obtain ⟨mem₁, hw₁⟩ := writeAt_eq mem (h.slotOff i) (xorKey (xorKey (slice mem (h.slotOff i) pkcsDeriveMax) oldDk) newDk)
    (by rw [hkey]; omega)
  have hlen₁ := (length_writeAt hw₁).trans hlen
  obtain ⟨-, hcrc, hsum⟩ := slotSum_eq hr hlen₁ hi
  have hdesc : ∀ l, slice mem₁ (h.infoOff i + 4) l = slice mem (h.infoOff i + 4) l := by
    intro l
    exact slice_writeAt hw₁ (.inr (by omega))
  have hflags : h.slotFlags mem₁ i = h.slotFlags mem i := congrArg ofLE (hdesc 1)
  obtain ⟨mem₂, hw₂, hframe, hintact₂, hslot⟩ := putSum_spec hr hlen₁ hi (by rw [hflags, hintact.active]) (by rw [hflags, hintact.clean])
  refine ⟨mem₂, ?_, (Frame.of_writeAt hw₁ ?_).trans hframe, hintact₂, ?_⟩
  · unfold swapSlotKey
    simp only [htype, readAt_eq (show h.slotOff i + pkcsDeriveMax ≤ mem.length by omega), hw₁, hcrc, Option.bind_eq_bind,
      Option.bind_some, ne_eq, not_true_eq_false, if_false]
    rw [← hdesc, hsum, hw₂]
    rfl
  · intro k hk hk'
    rw [hkey] at hk'
    exact .inl ⟨hk, by omega⟩
  · have hself := slice_writeAt_self hw₁
    rw [hkey] at hself
    rw [hslot, hself]

theorem updateSlot_of_intactAt {oldDk newDk : Bytes} {rand : Nat → UInt8} {flags : Nat}
    (hread : readLE mem (h.infoOff i + 4) 4 = some flags) (hintact : h.IntactAt mem i) :
    h.updateSlot oldDk newDk rand mem i =
      h.swapSlotKey oldDk newDk mem i (crc32 (slice mem (h.infoOff i + 4) (h.slotInfoSize - 4))) := by
  have hflags : h.slotFlags mem i = flags % 256 := ofLE_slice_one hread
  have hactive : sfActive flags ∧ ¬ sfCorrupt flags := by
    have h₁ := hintact.active
    have h₂ := hintact.clean
    rw [hflags, sfActive_mod] at h₁
    rw [hflags, sfCorrupt_mod] at h₂
    exact ⟨h₁, by rw [h₂]; exact Bool.noConfusion⟩
  obtain ⟨hinfoCrc, hslotCrc, hsum⟩ := slotSum_eq hr hlen hi
  have hcrc : readLE mem (h.infoOff i) 4 = some (h.slotSum mem i).toNat := by
    have hinfo := hr.info
    have hend := hr.fit
    have h₁ := h.infoOff_add_le hi
    rw [readLE_eq (by omega), hintact.sum]
  unfold updateSlot
  simp only [hread, hinfoCrc, hslotCrc, hcrc, Option.bind_eq_bind, Option.bind_some]
  rw [if_pos hactive, if_pos (by rw [hsum])]

theorem updateSlot_of_not (oldDk newDk : Bytes) (rand : Nat → UInt8) {flags : Nat}
    (hread : readLE mem (h.infoOff i + 4) 4 = some flags) (hintact : ¬ h.IntactAt mem i) :
    ∃ mem', h.updateSlot oldDk newDk rand mem i = some (mem', .cleared) ∧ h.Frame i mem mem' := by
  have hflags : h.slotFlags mem i = flags % 256 := ofLE_slice_one hread
  obtain ⟨hinfoCrc, hslotCrc, hsum⟩ := slotSum_eq hr hlen hi
  have hinfo := hr.info
  have hend := hr.fit
  have h₁ := h.infoOff_add_le hi
  have hcrc : readLE mem (h.infoOff i) 4 = some (ofLE (slice mem (h.infoOff i) 4)) := readLE_eq (by omega)
  unfold updateSlot
  simp only [hread, hinfoCrc, hslotCrc, hcrc, Option.bind_eq_bind, Option.bind_some]
  by_cases hactive : sfActive flags ∧ ¬ sfCorrupt flags
  · have hclean : sfCorrupt flags = false := Bool.eq_false_of_not_eq_true hactive.2
    have hne : ofLE (slice mem (h.infoOff i) 4) ≠ (h.slotSum mem i).toNat := fun heq =>
      hintact ⟨by rw [hflags, sfActive_mod]; exact hactive.1, by rw [hflags, sfCorrupt_mod]; exact hclean, heq⟩
    have hroom : h.infoOff i + 4 + 4 ≤ mem.length := isSome_readLE.1 (by rw [hread]; rfl)
    obtain ⟨mem₁, hw₁⟩ := writeAt_eq mem (h.infoOff i + 4) (toLE 4 (flags + 4)) (by rw [length_toLE]; omega)
    obtain ⟨mem₂, hclear, hframe⟩ := clearSlot_spec hr ((length_writeAt hw₁).trans hlen) hi rand
    refine ⟨mem₂, ?_, Frame.trans ⟨length_writeAt hw₁, ?_⟩ hframe⟩
    · rw [if_pos hactive, if_neg (by rw [hsum]; exact hne), hw₁]
      exact hclear
    · intro k hk
      refine getElem?_writeAt_corrupt hread hclean hw₁ ?_
      rintro rfl
      exact hk (.inr ⟨by omega, by omega⟩)
  · rw [if_neg hactive]
    exact clearSlot_spec hr hlen hi rand

/-- What a turn does. -/
theorem updateSlot_cases {oldDk newDk : Bytes} (hold : oldDk.length = pkcsDeriveMax) (hnew : newDk.length = pkcsDeriveMax)
    {rand : Nat → UInt8} {turn : Turn} (hrun : h.updateSlot oldDk newDk rand mem i = some (mem', turn)) :
    h.Frame i mem mem' ∧
      ((turn = .rewrapped ∧ h.IntactAt mem i ∧ h.IntactAt mem' i ∧
          slice mem' (h.slotOff i) pkcsDeriveMax = xorKey (xorKey (slice mem (h.slotOff i) pkcsDeriveMax) oldDk) newDk) ∨
        (turn = .failed ∧ h.IntactAt mem i) ∨ (turn = .cleared ∧ ¬ h.IntactAt mem i)) := by
  cases hread : readLE mem (h.infoOff i + 4) 4 with
  | none =>
    unfold updateSlot at hrun
    rw [hread] at hrun
    cases hrun
  | some flags =>
    by_cases hintact : h.IntactAt mem i
    · rw [updateSlot_of_intactAt hr hlen hi hread hintact] at hrun
      cases htype : readLE mem (h.infoOff i + 8) 2 with
      | none =>
        unfold swapSlotKey at hrun
        rw [htype] at hrun
        cases hrun
      | some type =>
        by_cases h0 : type = 0
        · obtain ⟨mem₁, hswap, hframe, hintact₁, hkey⟩ := swapSlotKey_spec hr hlen hi hold hnew (h0 ▸ htype) hintact
          cases hswap.symm.trans hrun
          exact ⟨hframe, .inl ⟨rfl, hintact, hintact₁, hkey⟩⟩
        · unfold swapSlotKey at hrun
          simp only [htype, Option.bind_eq_bind, Option.bind_some] at hrun
          rw [if_pos h0] at hrun
          cases hrun
          exact ⟨⟨rfl, fun _ _ => rfl⟩, .inr (.inl ⟨rfl, hintact⟩)⟩
    · obtain ⟨mem₁, hclear, hframe⟩ := updateSlot_of_not hr hlen hi oldDk newDk rand hread hintact
      cases hclear.symm.trans hrun
      exact ⟨hframe, .inr (.inr ⟨rfl, hintact⟩)⟩

/-- A turn works out where the flags can be read, and the type of a slot in use, which is the known one. -/
theorem updateSlot_runs {oldDk newDk : Bytes} (hold : oldDk.length = pkcsDeriveMax) (hnew : newDk.length = pkcsDeriveMax)
    (rand : Nat → UInt8) (hread : (readLE mem (h.infoOff i + 4) 4).isSome)
    (htype : h.IntactAt mem i → readLE mem (h.infoOff i + 8) 2 = some 0) :
    ∃ mem' turn, h.updateSlot oldDk newDk rand mem i = some (mem', turn) ∧ turn ≠ .failed := by
  obtain ⟨flags, hread⟩ := Option.isSome_iff_exists.1 hread
  by_cases hintact : h.IntactAt mem i
  · obtain ⟨mem₁, hswap, -⟩ := swapSlotKey_spec hr hlen hi hold hnew (htype hintact) hintact
    exact ⟨mem₁, .rewrapped, (updateSlot_of_intactAt hr hlen hi hread hintact).trans hswap, by decide⟩
  · obtain ⟨mem₁, hclear, -⟩ := updateSlot_of_not hr hlen hi oldDk newDk rand hread hintact
    exact ⟨mem₁, .cleared, hclear, by decide⟩

end Turn

/-! ## The loop -/

/-- What the loop leaves of the slots it goes through, and of the others. -/
structure Looped (oldDk newDk : Bytes) (is : List Nat) (mem : Bytes) (used : Nat) (mem' : Bytes) (used' : Nat) (ended : Bool) : Prop where
  length : mem'.length = mem.length
  used_le : used ≤ used'
  base : ∀ k < dcBaseSize, mem'[k]? = mem[k]?
  others : ∀ j < h.keySlotCount, j ∉ is → h.SameSlot mem mem' j
  rewrapped : ended = true → ∀ j ∈ is, h.IntactAt mem j → used < used' ∧ h.IntactAt mem' j ∧
    slice mem' (h.slotOff j) pkcsDeriveMax = xorKey (xorKey (slice mem (h.slotOff j) pkcsDeriveMax) oldDk) newDk

theorem SameSlot.key (hr : h.Regular) (hs : h.SameSlot mem mem' i) :
    slice mem' (h.slotOff i) pkcsDeriveMax = slice mem (h.slotOff i) pkcsDeriveMax := by
  have hsub := @slice_slice mem' (h.slotOff i) h.slotSize 0 pkcsDeriveMax (by have := hr.size; omega)
  have hsub' := @slice_slice mem (h.slotOff i) h.slotSize 0 pkcsDeriveMax (by have := hr.size; omega)
  exact hsub.symm.trans ((congrArg (slice · 0 pkcsDeriveMax) hs.slot).trans hsub')

/-- A turn, and the turns after it. -/
theorem Looped.cons (hr : h.Regular) {oldDk newDk : Bytes} {rest : List Nat} {mem₁ : Bytes} {used used₁ used' : Nat} {ended : Bool}
    (hi : i < h.keySlotCount) (hrest : ∀ j ∈ rest, j < h.keySlotCount) (hnot : i ∉ rest) (hf : h.Frame i mem mem₁) (hused : used ≤ used₁)
    (hhead : h.IntactAt mem i → used < used₁ ∧ h.IntactAt mem₁ i ∧
      slice mem₁ (h.slotOff i) pkcsDeriveMax = xorKey (xorKey (slice mem (h.slotOff i) pkcsDeriveMax) oldDk) newDk)
    (hl : h.Looped oldDk newDk rest mem₁ used₁ mem' used' ended) : h.Looped oldDk newDk (i :: rest) mem used mem' used' ended := by
  refine ⟨hl.length.trans hf.length, Nat.le_trans hused hl.used_le, ?_, ?_, ?_⟩
  · intro k hk
    exact (hl.base k hk).trans (hf.base hk)
  · intro j hj hmem
    exact (hf.sameSlot hr hi hj fun h => hmem (h ▸ List.mem_cons_self)).trans
      (hl.others j hj fun h => hmem (List.mem_cons_of_mem _ h))
  · intro hended j hj hintact
    obtain rfl | hj := List.mem_cons.1 hj
    · obtain ⟨hlt, hintact₁, hkey⟩ := hhead hintact
      have hsame := hl.others j hi hnot
      refine ⟨Nat.lt_of_lt_of_le hlt hl.used_le, (hsame.intactAt hr).2 hintact₁, ?_⟩
      rw [hsame.key hr, hkey]
    · have hsame := hf.sameSlot hr hi (hrest j hj) fun h => hnot (h ▸ hj)
      obtain ⟨hlt, hintact', hkey⟩ := hl.rewrapped hended j hj ((hsame.intactAt hr).2 hintact)
      exact ⟨Nat.lt_of_le_of_lt hused hlt, hintact', by rw [hkey, hsame.key hr]⟩

theorem updateSlots_looped (hr : h.Regular) {oldDk newDk : Bytes} (hold : oldDk.length = pkcsDeriveMax)
    (hnew : newDk.length = pkcsDeriveMax) {rand : Nat → Nat → UInt8} : ∀ {is : List Nat} {mem mem' : Bytes} {used used' : Nat}
    {ended : Bool}, mem.length = h.bytes.length → is.Nodup → (∀ i ∈ is, i < h.keySlotCount) →
      h.updateSlots oldDk newDk rand is mem used = some (mem', used', ended) → h.Looped oldDk newDk is mem used mem' used' ended
  | [], _, _, _, _, _, _, _, _, hrun => by
    cases hrun
    exact ⟨rfl, Nat.le_refl _, fun _ _ => rfl, fun _ _ _ => ⟨rfl, rfl⟩, fun _ _ hj => (by cases hj)⟩
  | i :: rest, mem, mem', used, used', ended, hlen, hnodup, hlt, hrun => by
    have hi := hlt i List.mem_cons_self
    have hrest := fun j hj => hlt j (List.mem_cons_of_mem i hj)
    obtain ⟨hnot, hnodup⟩ := List.nodup_cons.1 hnodup
    unfold updateSlots at hrun
    cases hturn : h.updateSlot oldDk newDk (rand i) mem i with
    | none =>
      rw [hturn] at hrun
      cases hrun
    | some out =>
      obtain ⟨mem₁, turn⟩ := out
      obtain ⟨hframe, hcases⟩ := updateSlot_cases hr hlen hi hold hnew hturn
      rw [hturn] at hrun
      obtain ⟨rfl, hintact, hintact₁, hkey⟩ | ⟨rfl, hintact⟩ | ⟨rfl, hintact⟩ := hcases
      · exact Looped.cons hr hi hrest hnot hframe (Nat.le_succ used) (fun _ => ⟨Nat.lt_succ_self used, hintact₁, hkey⟩)
          (updateSlots_looped hr hold hnew (hframe.length.trans hlen) hnodup hrest hrun)
      · cases hrun
        refine ⟨hframe.length, Nat.le_refl _, fun k hk => hframe.base hk, ?_, fun hended => (by cases hended)⟩
        intro j hj hmem
        exact hframe.sameSlot hr hi hj fun h => hmem (h ▸ List.mem_cons_self)
      · exact Looped.cons hr hi hrest hnot hframe (Nat.le_refl used) (fun h => absurd h hintact)
          (updateSlots_looped hr hold hnew (hframe.length.trans hlen) hnodup hrest hrun)

theorem Frame.type (hr : h.Regular) (hf : h.Frame i mem mem') (hi : i < h.keySlotCount) (hij : i < j) : readLE mem' (h.infoOff j + 8) 2 = readLE mem (h.infoOff j + 8) 2 := by
  have hslice : slice mem' (h.infoOff j + 8) 2 = slice mem (h.infoOff j + 8) 2 := by
    apply slice_congr
    intro k hk hk'
    apply hf.same
    have h₁ := infoOff_le_of_lt (h := h) hij
    have h₂ := h.slotOff_add_le hi
    have h₃ := h.le_infoOff j
    have h₄ := hr.info
    rintro (⟨-, hlt⟩ | ⟨-, hlt⟩) <;> omega
  unfold readLE readAt
  rw [hf.length, hslice]

/-- The loop comes to its end if the flags of all slots can be read, and all slots in use are of the known type. -/
theorem updateSlots_runs (hr : h.Regular) {oldDk newDk : Bytes} (hold : oldDk.length = pkcsDeriveMax)
    (hnew : newDk.length = pkcsDeriveMax) (rand : Nat → Nat → UInt8) : ∀ {is : List Nat} {mem : Bytes} (used : Nat),
    mem.length = h.bytes.length → is.Pairwise (· < ·) → (∀ i ∈ is, i < h.keySlotCount) →
      (∀ i ∈ is, h.infoOff i + 8 ≤ h.bytes.length) → (∀ i ∈ is, h.IntactAt mem i → readLE mem (h.infoOff i + 8) 2 = some 0) →
        ∃ mem' used', h.updateSlots oldDk newDk rand is mem used = some (mem', used', true)
  | [], mem, used, _, _, _, _, _ => ⟨mem, used, rfl⟩
  | i :: rest, mem, used, hlen, hsorted, hlt, hroom, htype => by
    have hi := hlt i List.mem_cons_self
    have hrest := fun j hj => hlt j (List.mem_cons_of_mem i hj)
    obtain ⟨hfirst, hsorted⟩ := List.pairwise_cons.1 hsorted
    have hread : (readLE mem (h.infoOff i + 4) 4).isSome := by
      rw [isSome_readLE, hlen]
      exact hroom i List.mem_cons_self
    obtain ⟨mem₁, turn, hturn, hne⟩ := updateSlot_runs hr hlen hi hold hnew (rand i) hread (htype i List.mem_cons_self)
    obtain ⟨hframe, -⟩ := updateSlot_cases hr hlen hi hold hnew hturn
    have hnext : ∀ j ∈ rest, h.IntactAt mem₁ j → readLE mem₁ (h.infoOff j + 8) 2 = some 0 := by
      intro j hj hintact
      have hij := hfirst j hj
      have hsame := hframe.sameSlot hr hi (hrest j hj) (Nat.ne_of_lt hij)
      rw [hframe.type hr hi hij]
      exact htype j (List.mem_cons_of_mem i hj) ((hsame.intactAt hr).1 hintact)
    have hmore := fun used => updateSlots_runs hr hold hnew rand used (hframe.length.trans hlen) hsorted hrest
      (fun j hj => hroom j (List.mem_cons_of_mem i hj)) hnext
    unfold updateSlots
    rw [hturn]
    cases turn with
    | rewrapped => exact hmore (used + 1)
    | cleared => exact hmore used
    | failed => exact absurd rfl hne

/-- A turn that worked out has read the flags, and the type of a slot in use was the known one. -/
theorem updateSlot_needs (hr : h.Regular) (hlen : mem.length = h.bytes.length) (hi : i < h.keySlotCount) {oldDk newDk : Bytes}
    {rand : Nat → UInt8} {turn : Turn} (hrun : h.updateSlot oldDk newDk rand mem i = some (mem', turn)) (hne : turn ≠ .failed) :
    h.infoOff i + 8 ≤ mem.length ∧ (h.IntactAt mem i → readLE mem (h.infoOff i + 8) 2 = some 0) := by
  cases hread : readLE mem (h.infoOff i + 4) 4 with
  | none =>
    unfold updateSlot at hrun
    rw [hread] at hrun
    cases hrun
  | some flags =>
    have hroom : h.infoOff i + 4 + 4 ≤ mem.length := isSome_readLE.1 (by rw [hread]; rfl)
    refine ⟨hroom, ?_⟩
    intro hintact
    rw [updateSlot_of_intactAt hr hlen hi hread hintact] at hrun
    unfold swapSlotKey at hrun
    cases htype : readLE mem (h.infoOff i + 8) 2 with
    | none =>
      rw [htype] at hrun
      cases hrun
    | some type =>
      by_cases h0 : type = 0
      · rw [h0]
      · simp only [htype, Option.bind_eq_bind, Option.bind_some] at hrun
        rw [if_pos h0] at hrun
        cases hrun
        exact absurd rfl hne

/-- A loop that came to its end has read the flags of all slots, and all slots in use are of the known type. -/
theorem updateSlots_needs (hr : h.Regular) {oldDk newDk : Bytes} (hold : oldDk.length = pkcsDeriveMax)
    (hnew : newDk.length = pkcsDeriveMax) {rand : Nat → Nat → UInt8} : ∀ {is : List Nat} {mem mem' : Bytes} {used used' : Nat},
    mem.length = h.bytes.length → is.Pairwise (· < ·) → (∀ i ∈ is, i < h.keySlotCount) →
      h.updateSlots oldDk newDk rand is mem used = some (mem', used', true) →
        ∀ i ∈ is, h.infoOff i + 8 ≤ h.bytes.length ∧ (h.IntactAt mem i → readLE mem (h.infoOff i + 8) 2 = some 0)
  | [], _, _, _, _, _, _, _, _ => fun i hi => (by cases hi)
  | i :: rest, mem, mem', used, used', hlen, hsorted, hlt, hrun => by
    have hi := hlt i List.mem_cons_self
    have hrest := fun j hj => hlt j (List.mem_cons_of_mem i hj)
    obtain ⟨hfirst, hsorted⟩ := List.pairwise_cons.1 hsorted
    unfold updateSlots at hrun
    cases hturn : h.updateSlot oldDk newDk (rand i) mem i with
    | none =>
      rw [hturn] at hrun
      cases hrun
    | some out =>
      obtain ⟨mem₁, turn⟩ := out
      rw [hturn] at hrun
      obtain ⟨hframe, -⟩ := updateSlot_cases hr hlen hi hold hnew hturn
      have hmore : turn ≠ .failed ∧ ∃ used, h.updateSlots oldDk newDk rand rest mem₁ used = some (mem', used', true) := by
        cases turn with
        | rewrapped => exact ⟨Turn.noConfusion, _, hrun⟩
        | cleared => exact ⟨Turn.noConfusion, _, hrun⟩
        | failed => cases hrun
      obtain ⟨hne, used₁, hrun⟩ := hmore
      have hhead := updateSlot_needs hr hlen hi hturn hne
      have htail := updateSlots_needs hr hold hnew (hframe.length.trans hlen) hsorted hrest hrun
      intro j hj
      obtain rfl | hj := List.mem_cons.1 hj
      · exact ⟨hlen ▸ hhead.1, hhead.2⟩
      · have hij := hfirst j hj
        have hsame := hframe.sameSlot hr hi (hrest j hj) (Nat.ne_of_lt hij)
        refine ⟨(htail j hj).1, ?_⟩
        intro hintact
        rw [← hframe.type hr hi hij]
        exact (htail j hj).2 ((hsame.intactAt hr).2 hintact)

end Regular

end DcHeader

end MajorPrivacy.Volume

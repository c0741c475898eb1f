/-
The body of a `CVariant` byte for byte (Variant.h, Variant.cpp): the payload size and the data field lie in the memory
that an embedded payload takes. A variant that was read is encoded to what reads the same, except for an empty one that
was read with a payload; a variant that was moved from is empty, but keeps the payload size that is noted in its body.
-/
import MajorPrivacy.Lib.Memory
import MajorPrivacy.Variant.Encode
import MajorPrivacy.Variant.Object

namespace MajorPrivacy.Variant

open LittleEndian

/-! ## The body -/

/-- `VAR_TYPE_MAP`, `VAR_TYPE_LIST` and `VAR_TYPE_INDEX`. -/
def isContainerType (type : EType) : Bool := type = varTypeMap || type = varTypeList || type = varTypeIndex

/-- A `CVariant`: the pool, the type, the flags and the bytes from `m_Embedded` on; `m_p` is what the pointer in the data
field points to, for a container or a string the payload it stands for. -/
@[ext] structure VariantBody where
  m_pMem : Option Nat
  m_Type : EType
  m_uEmbeddedSize : Nat
  m_bContainer : Bool
  m_bRawPayload : Bool
  m_bDerived : Bool
  m_bReadOnly : Bool
  m_Embedded : Bytes
  m_p : Option Bytes
  sized : m_Embedded.length = varEmbeddedSize
  deriving DecidableEq

namespace VariantBody

/-- The offsets of `m_uPayloadSize` and `m_p` from `m_Embedded`. -/
def payloadSizeOffset : Nat := 2
def dataOffset : Nat := 6

def m_uPayloadSize (v : VariantBody) : Nat := ofLE (Memory.slice v.m_Embedded payloadSizeOffset 4)

/-- `MemCopy` to a place in the body. -/
def write (v : VariantBody) (off : Nat) (bytes : Bytes) : VariantBody :=
  { v with m_Embedded := Memory.overwrite v.m_Embedded off bytes, sized := Memory.length_overwrite.trans v.sized }

/-- `m_uPayloadSize = (uint32)Size`. -/
def setPayloadSize (v : VariantBody) (size : Nat) : VariantBody := v.write payloadSizeOffset (toLE 4 size)

/-- `m_uFlags = 0`. -/
def clearFlags (v : VariantBody) : VariantBody :=
  { v with m_uEmbeddedSize := 0, m_bContainer := false, m_bRawPayload := false, m_bDerived := false, m_bReadOnly := false }

/-- `CVariant::GetSize`. -/
def getSize (v : VariantBody) : Nat :=
  if v.m_uEmbeddedSize ≠ 0 then v.m_uEmbeddedSize
  else if v.m_bContainer = true ∧ (v.m_Type = varTypeAscii ∨ v.m_Type = varTypeUtf8 ∨ v.m_Type = varTypeUnicode) then
    (v.m_p.getD []).length
  else v.m_uPayloadSize

/-- `CVariant::MkPayload`: `GetSize` bytes from `GetData` on, or what a container holds. Nothing when the bytes reach out
of the body. -/
def payload (v : VariantBody) : Option Bytes :=
  if v.m_uEmbeddedSize ≠ 0 then Memory.readAt v.m_Embedded 0 v.m_uEmbeddedSize
  else if v.m_bRawPayload then v.m_p.bind fun raw => Memory.readAt raw 0 v.m_uPayloadSize
  else if v.m_bContainer then v.m_p
  else Memory.readAt v.m_Embedded dataOffset v.m_uPayloadSize

/-- A payload is stored by its size. -/
def place (v : VariantBody) (value : Bytes) : VariantBody :=
  if value.length ≤ varDataSize then (v.setPayloadSize value.length).write dataOffset value
  else if value.length ≤ varEmbeddedSize then { v.write 0 value with m_uEmbeddedSize := value.length }
  else { v.setPayloadSize value.length with m_bRawPayload := true, m_p := some value }

/-- `CVariant::InitValue` from a value that is not taken over. -/
def initValue (v : VariantBody) (type : EType) (value : Bytes) : VariantBody :=
  let v := { v.clearFlags with m_Type := type }
  if type = varTypeEmpty ∨ value = [] then v.write 0 (List.replicate varEmbeddedSize 0)
  else v.place value

/-- `CVariant::DetachPayload`; what is freed is not followed. -/
def detachPayload (v : VariantBody) : VariantBody :=
  if v.m_uEmbeddedSize ≠ 0 then { v with m_uEmbeddedSize := 0 }
  else if v.m_bRawPayload then
    if v.m_bDerived then { v.setPayloadSize 0 with m_bRawPayload := false, m_bDerived := false }
    else { v.setPayloadSize 0 with m_bRawPayload := false, m_p := none }
  else if v.m_bContainer then { v.setPayloadSize 0 with m_bContainer := false, m_p := none }
  else v

/-- `CVariant::Clear`. -/
def clear (v : VariantBody) : VariantBody := v.detachPayload.initValue varTypeEmpty []

/-- `CVariant(pMemPool)`. -/
def new (m_pMem : Option Nat) : VariantBody :=
  ⟨m_pMem, varTypeEmpty, 0, false, false, false, false, List.replicate varEmbeddedSize 0, none, rfl⟩

/-- `CVariant::InitFromContainer`. -/
def initFromContainer (v : VariantBody) (content : Bytes) (type : EType) : VariantBody :=
  { v with m_Type := type, m_uEmbeddedSize := 0, m_bRawPayload := false, m_bContainer := true, m_p := some content }

/-- `CVariant::InitFromBuffer`. -/
def initFromBuffer (v : VariantBody) (content : Bytes) (size : Nat) : VariantBody :=
  { v.clearFlags.setPayloadSize size with m_Type := varTypeBytes, m_bContainer := true, m_p := some content }

/-- `CVariant::InitFromStringA` and `CVariant::InitFromStringW`; the payload size is not noted. -/
def initFromString (v : VariantBody) (content : Bytes) (type : EType) : VariantBody :=
  { v.clearFlags with m_Type := type, m_bContainer := true, m_p := some content }

/-- `CVariant::Clone` into `v`. -/
def cloneFrom (v from_ : VariantBody) : Option VariantBody :=
  if ¬ from_.m_bContainer then from_.payload.map (v.initValue from_.m_Type)
  else from_.m_p.map fun content =>
    if isContainerType from_.m_Type then v.initFromContainer content from_.m_Type
    else if from_.m_Type = varTypeBytes then v.initFromBuffer content from_.m_uPayloadSize
    else if from_.m_Type = varTypeAscii ∨ from_.m_Type = varTypeUtf8 then v.initFromString content varTypeAscii
    else if from_.m_Type = varTypeUnicode then v.initFromString content varTypeUnicode
    else v.initValue varTypeEmpty []

/-- The pool of the other variant is taken over where there is none. -/
def adopt (v from_ : VariantBody) : VariantBody := { v with m_pMem := v.m_pMem.or from_.m_pMem }

/-- The variant that `CVariant::InitMove` or `CVariant::InitAssign` cannot share its payload with. -/
def Foreign (v from_ : VariantBody) : Prop := (v.adopt from_).m_pMem ≠ from_.m_pMem ∨ from_.m_bDerived = true

instance (v from_ : VariantBody) : Decidable (v.Foreign from_) := inferInstanceAs (Decidable (_ ∨ _))

/-- `CVariant::InitMove` into `v`: both variants afterwards. -/
def initMove (v from_ : VariantBody) : Option (VariantBody × VariantBody) :=
  if v.Foreign from_ then ((v.adopt from_).cloneFrom from_).map fun v => (v, from_)
  else
    let v := { v.adopt from_ with
      m_Type := from_.m_Type, m_uEmbeddedSize := from_.m_uEmbeddedSize, m_bContainer := from_.m_bContainer,
      m_bRawPayload := from_.m_bRawPayload, m_bDerived := from_.m_bDerived, m_bReadOnly := from_.m_bReadOnly }
    let v :=
      if v.m_uEmbeddedSize ≠ 0 then v.write 0 (from_.m_Embedded.take v.m_uEmbeddedSize)
      else
        { (v.setPayloadSize from_.m_uPayloadSize).write dataOffset (from_.m_Embedded.drop dataOffset) with m_p := from_.m_p }
    some (v, { from_.clearFlags.write dataOffset (List.replicate varDataSize 0) with m_Type := varTypeEmpty, m_p := none })

/-- `CVariant::InitAssign` into `v`. -/
def initAssign (v from_ : VariantBody) : Option VariantBody :=
  if from_.m_Type = varTypeEmpty then some ((v.adopt from_).initValue varTypeEmpty [])
  else if v.Foreign from_ then (v.adopt from_).cloneFrom from_
  else if ¬ from_.m_bContainer then from_.payload.map ((v.adopt from_).initValue from_.m_Type)
  else some { (v.adopt from_).clearFlags.setPayloadSize from_.m_uPayloadSize with
    m_Type := from_.m_Type, m_bContainer := true, m_p := from_.m_p }

/-- `CVariant::FromPacket`: the variant afterwards, and the rest of the packet or an error. -/
def fromPacket (v : VariantBody) (packet : Bytes) (bDerived : Bool) : VariantBody × Except EResult Bytes :=
  let v := v.clear
  match readHeader packet with
  | none => (v, .error .eErrInvalidHeader)
  | some (type, size, left) =>
    let v := { v with m_Type := type }
    if size = invalidSize then (v, .error .eErrInvalidHeader)
    else match readData left size with
      | none => (v, .error .eErrBufferShort)
      | some (data, left) =>
        let v := { v with m_bReadOnly := true }.place data
        ({ v with m_bDerived := v.m_bRawPayload && bDerived }, .ok left)

/-- `CVariant::ToPacket`. -/
def toPacket (v : VariantBody) : Option Bytes := v.payload.map (Variant.toPacket v.m_Type)

/-! ## Reading and writing the body -/

section Access

variable {v : VariantBody}

theorem m_uPayloadSize_lt (v : VariantBody) : v.m_uPayloadSize < 2 ^ 32 := by
  have h := ofLE_lt (Memory.slice v.m_Embedded payloadSizeOffset 4)
  have hsized := v.sized
  rw [Memory.length_slice (by rw [hsized]; decide)] at h
  exact h

theorem m_uPayloadSize_setPayloadSize {size : Nat} (h : size < 2 ^ 32) : (v.setPayloadSize size).m_uPayloadSize = size := by
  have hslice : Memory.slice (v.setPayloadSize size).m_Embedded payloadSizeOffset 4 = toLE 4 size := by
    have hroom : payloadSizeOffset + (toLE 4 size).length ≤ v.m_Embedded.length := by
      rw [length_toLE, v.sized]
      decide
    have hself := Memory.slice_overwrite_self hroom
    rwa [length_toLE] at hself
  unfold m_uPayloadSize
  rw [hslice]
  exact ofLE_toLE_of_lt h

/-- The data field is behind the payload size. -/
theorem m_uPayloadSize_write (bytes : Bytes) : (v.write dataOffset bytes).m_uPayloadSize = v.m_uPayloadSize := by
  unfold m_uPayloadSize write
  rw [Memory.slice_overwrite (.inl (by decide))]

theorem readAt_write {off : Nat} {bytes : Bytes} (h : off + bytes.length ≤ varEmbeddedSize) :
    Memory.readAt (v.write off bytes).m_Embedded off bytes.length = some bytes := by
  rw [Memory.readAt_eq (by rw [(v.write off bytes).sized]; exact h)]
  exact congrArg some (Memory.slice_overwrite_self (by rw [v.sized]; exact h))

end Access

/-! ## Payloads -/

/-- What holds of a variant after any calls. -/
structure Sound (v : VariantBody) : Prop where
  embedded : v.m_uEmbeddedSize ≤ varEmbeddedSize
  raw : v.m_bRawPayload = true → v.m_uEmbeddedSize = 0 ∧ ∃ raw, v.m_p = some raw ∧ raw.length = v.m_uPayloadSize
  container : v.m_bContainer = true → v.m_Type ≠ varTypeEmpty

/-- An empty variant has no payload size. -/
def Tidy (v : VariantBody) : Prop := v.m_Type = varTypeEmpty → v.m_uEmbeddedSize = 0 ∧ v.m_uPayloadSize = 0

section Stored

variable {v : VariantBody}

theorem payload_embedded (h : v.m_uEmbeddedSize ≠ 0) : v.payload = Memory.readAt v.m_Embedded 0 v.m_uEmbeddedSize := if_pos h

theorem payload_raw (hembedded : v.m_uEmbeddedSize = 0) (h : v.m_bRawPayload = true) :
    v.payload = v.m_p.bind fun raw => Memory.readAt raw 0 v.m_uPayloadSize := by
  unfold payload
  rw [if_neg (not_not.2 hembedded), if_pos h]

theorem payload_data (hembedded : v.m_uEmbeddedSize = 0) (hraw : v.m_bRawPayload = false) (hcontainer : v.m_bContainer = false) :
    v.payload = Memory.readAt v.m_Embedded dataOffset v.m_uPayloadSize := by
  unfold payload
  rw [if_neg (not_not.2 hembedded), if_neg (ne_true_of_eq_false hraw), if_neg (ne_true_of_eq_false hcontainer)]

end Stored

section Place

variable {v : VariantBody} {value : Bytes} (hembedded : v.m_uEmbeddedSize = 0) (hraw : v.m_bRawPayload = false)
  (hlen : value.length < 2 ^ 32)
include hembedded hraw hlen

theorem sound_place (hcontainer : v.m_bContainer = false) : (v.place value).Sound := by
  unfold place
  by_cases hdata : value.length ≤ varDataSize
  · rw [if_pos hdata]
    refine ⟨?_, fun h => ?_, fun h => ?_⟩
    · show v.m_uEmbeddedSize ≤ _
      omega
    · exact absurd (hraw.symm.trans h) Bool.false_ne_true
    · exact absurd (hcontainer.symm.trans h) Bool.false_ne_true
  rw [if_neg hdata]
  by_cases hfits : value.length ≤ varEmbeddedSize
  · rw [if_pos hfits]
    refine ⟨hfits, fun h => ?_, fun h => ?_⟩
    · exact absurd (hraw.symm.trans h) Bool.false_ne_true
    · exact absurd (hcontainer.symm.trans h) Bool.false_ne_true
  · rw [if_neg hfits]
    refine ⟨?_, fun _ => ⟨hembedded, value, rfl, (m_uPayloadSize_setPayloadSize hlen).symm⟩, fun h => ?_⟩
    · show v.m_uEmbeddedSize ≤ _
      omega
    · exact absurd (hcontainer.symm.trans h) Bool.false_ne_true

/-- What is placed is read back. -/
theorem payload_place (hcontainer : v.m_bContainer = false) : (v.place value).payload = some value := by
  unfold place
  by_cases hdata : value.length ≤ varDataSize
  · rw [if_pos hdata]
    have hroom : dataOffset + value.length ≤ varEmbeddedSize := by
      unfold dataOffset varEmbeddedSize
      unfold varDataSize at hdata
      omega
    have hsize : ((v.setPayloadSize value.length).write dataOffset value).m_uPayloadSize = value.length :=
      (m_uPayloadSize_write _).trans (m_uPayloadSize_setPayloadSize hlen)
    refine (payload_data (v := (v.setPayloadSize value.length).write dataOffset value) hembedded hraw hcontainer).trans ?_
    rw [hsize]
    exact readAt_write hroom
  rw [if_neg hdata]
  by_cases hfits : value.length ≤ varEmbeddedSize
  · rw [if_pos hfits]
    have hne : value.length ≠ 0 := by omega
    exact (payload_embedded hne).trans (readAt_write (by omega))
  · rw [if_neg hfits]
    refine (payload_raw (v := { v.setPayloadSize value.length with m_bRawPayload := true, m_p := some value }) hembedded rfl).trans ?_
    show Memory.readAt value 0 (v.setPayloadSize value.length).m_uPayloadSize = some value
    rw [m_uPayloadSize_setPayloadSize hlen, Memory.readAt_eq (by omega), Memory.slice_full, List.take_length]

end Place

/-! ## Packets -/

/-- A header of an empty variant with a length field, which says more than 0. -/
def EmptyWithSize : Bytes → Prop
  | [] => False
  | type :: rest => type &&& varTypeMask = varTypeEmpty ∧ type &&& varLenField ≠ 0 ∧
      fieldSize (fieldWidth (type &&& varLenMask)) rest ≠ 0

theorem readHeader_field {type : UInt8} {rest : Bytes} (hf : type &&& varLenField ≠ 0) :
    readHeader (type :: rest) = (readValue (fieldWidth (type &&& varLenMask)) rest).bind fun (size, left) =>
      if left.length < size then none else some (type &&& varTypeMask, size, left) := by
  have hval : (if type &&& varLenMask = varLen8 then readValue 1 rest
      else if type &&& varLenMask = varLen16 then readValue 2 rest else readValue 4 rest) =
      readValue (fieldWidth (type &&& varLenMask)) rest := by
    unfold fieldWidth
    split_ifs <;> rfl
  unfold readHeader
  simp only [if_pos hf, hval]
  cases readValue (fieldWidth (type &&& varLenMask)) rest <;> rfl

theorem readHeader_fixed {type : UInt8} {rest : Bytes} (hf : ¬ type &&& varLenField ≠ 0) :
    readHeader (type :: rest) =
      if rest.length < fixedSize type then none else some (type &&& varTypeMask, fixedSize type, rest) := by
  have hfix : (if type &&& varTypeMask = varTypeEmpty then some (0, rest)
      else some (implicitSize (type &&& varLenMask), rest)) = some (fixedSize type, rest) := by
    unfold fixedSize
    split_ifs <;> rfl
  unfold readHeader
  simp only [if_neg hf, hfix]

theorem fieldWidth_le (code : UInt8) : fieldWidth code ≤ 4 := by
  unfold fieldWidth
  split_ifs <;> omega

/-- What a header says: a type, a size the rest has, and a size of an empty variant only by a length field. -/
theorem readHeader_spec {packet left : Bytes} {type : EType} {size : Nat} (h : readHeader packet = some (type, size, left)) :
    type &&& varTypeMask = type ∧ size ≤ left.length ∧ size < 2 ^ 32 ∧ (type = varTypeEmpty ∧ size ≠ 0 ↔ EmptyWithSize packet) := by
  obtain _ | ⟨b, rest⟩ := packet
  · exact nomatch h
  by_cases hf : b &&& varLenField ≠ 0
  · rw [readHeader_field hf, readValue_eq] at h
    by_cases hw : fieldWidth (b &&& varLenMask) ≤ rest.length
    case neg =>
      rw [if_neg hw] at h
      exact nomatch h
    rw [if_pos hw, Option.bind_some] at h
    dsimp only at h
    by_cases hfits : (rest.drop (fieldWidth (b &&& varLenMask))).length < fieldSize (fieldWidth (b &&& varLenMask)) rest
    · rw [if_pos hfits] at h
      exact nomatch h
    rw [if_neg hfits] at h
    cases h
    have hlt := fieldSize_lt hw
    have hpow : 256 ^ fieldWidth (b &&& varLenMask) ≤ 256 ^ 4 := Nat.pow_le_pow_right (by omega) (fieldWidth_le _)
    refine ⟨type_idem b, by omega, by omega, ?_⟩
    exact ⟨fun ⟨he, hn⟩ => ⟨he, hf, hn⟩, fun ⟨he, _, hn⟩ => ⟨he, hn⟩⟩
  · rw [readHeader_fixed hf] at h
    by_cases hfits : rest.length < fixedSize b
    · rw [if_pos hfits] at h
      exact nomatch h
    rw [if_neg hfits] at h
    cases h
    have hlt : fixedSize b < 2 ^ 32 := by
      unfold fixedSize implicitSize
      split_ifs <;> omega
    refine ⟨type_idem b, by omega, hlt, ⟨fun ⟨he, hn⟩ => ?_, fun h => absurd h.2.1 hf⟩⟩
    exact absurd (if_pos he) hn

/-- After `FromPacket` has failed the variant is cleared, but for its type; otherwise it has the payload. -/
theorem fromPacket_cases (v : VariantBody) (packet : Bytes) (bDerived : Bool) :
    (∃ type e, v.fromPacket packet bDerived = ({ v.clear with m_Type := type }, .error e)) ∨
      ∃ type data left w, readHeader packet = some (type, data.length, data ++ left) ∧ data.length < invalidSize ∧
        v.fromPacket packet bDerived = (w, .ok left) ∧
        w = { { v.clear with m_Type := type, m_bReadOnly := true }.place data with
          m_bDerived := ({ v.clear with m_Type := type, m_bReadOnly := true }.place data).m_bRawPayload && bDerived } := by
  unfold fromPacket
  obtain hheader | ⟨⟨type, size, rest⟩, hheader⟩ := Option.eq_none_or_eq_some (readHeader packet)
  · simp only [hheader]
    exact .inl ⟨v.clear.m_Type, _, rfl⟩
  obtain ⟨-, hle, hlt, -⟩ := readHeader_spec hheader
  simp only [hheader]
  by_cases hinvalid : size = invalidSize
  · rw [if_pos hinvalid]
    exact .inl ⟨type, _, rfl⟩
  rw [if_neg hinvalid]
  have hdata : (rest.take size).length = size := List.length_take_of_le hle
  have hread : readData rest size = some (rest.take size, rest.drop size) := if_pos hle
  rw [hread]
  refine .inr ⟨type, rest.take size, rest.drop size, _, ?_, ?_, rfl, rfl⟩
  · rw [hdata, List.take_append_drop]
  · rw [hdata]
    unfold invalidSize at hinvalid ⊢
    omega

/-! ## Sound and tidy bodies -/

section Kept

variable {v w : VariantBody}

theorem sound_new (m_pMem : Option Nat) : (new m_pMem).Sound := ⟨Nat.zero_le _, nofun, nofun⟩

theorem sound_initValue {type : EType} {value : Bytes} (hlen : value.length < 2 ^ 32) : (v.initValue type value).Sound := by
  unfold initValue
  dsimp only
  by_cases hnone : type = varTypeEmpty ∨ value = []
  · rw [if_pos hnone]
    exact ⟨Nat.zero_le _, nofun, nofun⟩
  · rw [if_neg hnone]
    exact sound_place rfl rfl hlen rfl

theorem tidy_initValue {type : EType} {value : Bytes} : (v.initValue type value).Tidy := by
  unfold initValue
  dsimp only
  by_cases hnone : type = varTypeEmpty ∨ value = []
  · rw [if_pos hnone]
    refine fun _ => ⟨rfl, ?_⟩
    have hzero : Memory.overwrite v.m_Embedded 0 (List.replicate varEmbeddedSize 0) = List.replicate varEmbeddedSize 0 := by
      have hroom : 0 + (List.replicate varEmbeddedSize (0 : UInt8)).length ≤ v.m_Embedded.length := by
        rw [List.length_replicate, v.sized]
        decide
      have hself := Memory.slice_overwrite_self hroom
      rw [Memory.slice_full, List.take_of_length_le] at hself
      · exact hself
      · rw [Memory.length_overwrite, v.sized, List.length_replicate]
    show ofLE (Memory.slice (Memory.overwrite v.m_Embedded 0 (List.replicate varEmbeddedSize 0)) payloadSizeOffset 4) = 0
    rw [hzero]
    decide
  · rw [if_neg hnone]
    intro hempty
    have htype : ({ v.clearFlags with m_Type := type }.place value).m_Type = type := by
      unfold place
      split_ifs <;> rfl
    exact absurd (.inl (htype.symm.trans hempty)) hnone

theorem getSize_eq (hcontainer : v.m_bContainer = false) :
    v.getSize = if v.m_uEmbeddedSize ≠ 0 then v.m_uEmbeddedSize else v.m_uPayloadSize := by
  have hstring : ¬ (v.m_bContainer = true ∧ (v.m_Type = varTypeAscii ∨ v.m_Type = varTypeUtf8 ∨ v.m_Type = varTypeUnicode)) :=
    fun h => ne_true_of_eq_false hcontainer h.1
  unfold getSize
  rw [if_neg hstring]

/-- The payload has the size that is announced. -/
theorem length_payload {value : Bytes} (hcontainer : v.m_bContainer = false) (hvalue : v.payload = some value) :
    value.length = v.getSize := by
  have hread : ∀ {mem : Bytes} {off n : Nat}, Memory.readAt mem off n = some value → value.length = n := by
    intro mem off n hread
    obtain ⟨hle, heq⟩ := Option.ite_none_right_eq_some.1 hread
    rw [← Option.some.inj heq, Memory.length_slice hle]
  rw [getSize_eq hcontainer]
  by_cases hembedded : v.m_uEmbeddedSize = 0
  · rw [if_neg (not_not.2 hembedded)]
    obtain hraw | hraw := Bool.eq_false_or_eq_true v.m_bRawPayload
    · rw [payload_raw hembedded hraw] at hvalue
      obtain ⟨raw, -, hvalue⟩ := Option.bind_eq_some_iff.1 hvalue
      exact hread hvalue
    · rw [payload_data hembedded hraw hcontainer] at hvalue
      exact hread hvalue
  · rw [if_pos hembedded]
    rw [payload_embedded hembedded] at hvalue
    exact hread hvalue

theorem payload_of_getSize (h : v.Sound) (hcontainer : v.m_bContainer = false) (hsize : v.getSize = 0) : v.payload = some [] := by
  rw [getSize_eq hcontainer] at hsize
  have hembedded : v.m_uEmbeddedSize = 0 := by
    by_contra hne
    rw [if_pos hne] at hsize
    exact hne hsize
  rw [if_neg (not_not.2 hembedded)] at hsize
  obtain hraw | hraw := Bool.eq_false_or_eq_true v.m_bRawPayload
  · obtain ⟨-, raw, hp, -⟩ := h.raw hraw
    rw [payload_raw hembedded hraw, hp, Option.bind_some, hsize, Memory.readAt_eq (by omega), Memory.slice_zero]
  · rw [payload_data hembedded hraw hcontainer, hsize, Memory.readAt_eq (by rw [v.sized]; decide), Memory.slice_zero]

theorem getSize_lt (h : v.Sound) (hcontainer : v.m_bContainer = false) : v.getSize < 2 ^ 32 := by
  have hroom := h.embedded
  have hsize := m_uPayloadSize_lt v
  unfold varEmbeddedSize at hroom
  rw [getSize_eq hcontainer]
  split_ifs <;> omega

section Holding

variable {content : Bytes} {type : EType} (htype : type ≠ varTypeEmpty)
include htype

theorem kept_initFromContainer : (v.initFromContainer content type).Sound ∧ (v.initFromContainer content type).Tidy :=
  ⟨⟨Nat.zero_le _, nofun, fun _ => htype⟩, fun h => absurd h htype⟩

theorem kept_initFromString : (v.initFromString content type).Sound ∧ (v.initFromString content type).Tidy :=
  ⟨⟨Nat.zero_le _, nofun, fun _ => htype⟩, fun h => absurd h htype⟩

end Holding

theorem kept_initFromBuffer {content : Bytes} {size : Nat} :
    (v.initFromBuffer content size).Sound ∧ (v.initFromBuffer content size).Tidy := by
  have htype : varTypeBytes ≠ varTypeEmpty := by decide
  exact ⟨⟨Nat.zero_le _, nofun, fun _ => htype⟩, fun h => absurd h htype⟩

theorem kept_cloneFrom {v' : VariantBody} (hw : w.Sound) (h : v.cloneFrom w = some v') : v'.Sound ∧ v'.Tidy := by
  unfold cloneFrom at h
  obtain hcontainer | hcontainer := Bool.eq_false_or_eq_true w.m_bContainer
  · rw [if_neg (not_not.2 hcontainer)] at h
    obtain ⟨content, -, rfl⟩ := Option.map_eq_some_iff.1 h
    have htype : w.m_Type ≠ varTypeEmpty := hw.container hcontainer
    by_cases hc : isContainerType w.m_Type = true
    · rw [if_pos hc]
      exact kept_initFromContainer htype
    rw [if_neg hc]
    by_cases hbytes : w.m_Type = varTypeBytes
    · rw [if_pos hbytes]
      exact kept_initFromBuffer
    rw [if_neg hbytes]
    by_cases hascii : w.m_Type = varTypeAscii ∨ w.m_Type = varTypeUtf8
    · rw [if_pos hascii]
      exact kept_initFromString (by decide)
    rw [if_neg hascii]
    by_cases hunicode : w.m_Type = varTypeUnicode
    · rw [if_pos hunicode]
      exact kept_initFromString (by decide)
    · rw [if_neg hunicode]
      exact ⟨sound_initValue (by decide), tidy_initValue⟩
  · rw [if_pos (by rw [hcontainer]; exact Bool.false_ne_true)] at h
    obtain ⟨value, hvalue, rfl⟩ := Option.map_eq_some_iff.1 h
    exact ⟨sound_initValue (by rw [length_payload hcontainer hvalue]; exact getSize_lt hw hcontainer), tidy_initValue⟩

theorem kept_initAssign {v' : VariantBody} (hw : w.Sound) (h : v.initAssign w = some v') : v'.Sound ∧ v'.Tidy := by
  unfold initAssign at h
  by_cases hempty : w.m_Type = varTypeEmpty
  · rw [if_pos hempty] at h
    cases h
    exact ⟨sound_initValue (by decide), tidy_initValue⟩
  rw [if_neg hempty] at h
  by_cases hforeign : v.Foreign w
  · rw [if_pos hforeign] at h
    exact kept_cloneFrom hw h
  rw [if_neg hforeign] at h
  obtain hcontainer | hcontainer := Bool.eq_false_or_eq_true w.m_bContainer
  · rw [if_neg (not_not.2 hcontainer)] at h
    cases h
    exact ⟨⟨Nat.zero_le _, nofun, fun _ => hempty⟩, fun h => absurd h hempty⟩
  · rw [if_pos (by rw [hcontainer]; exact Bool.false_ne_true)] at h
    obtain ⟨value, hvalue, rfl⟩ := Option.map_eq_some_iff.1 h
    exact ⟨sound_initValue (by rw [length_payload hcontainer hvalue]; exact getSize_lt hw hcontainer), tidy_initValue⟩

/-- A moved variant has all of the other, which is empty then but for the payload size in its body. -/
theorem kept_initMove {v' w' : VariantBody} (hw : w.Sound) (h : v.initMove w = some (v', w')) :
    v'.Sound ∧ (w.Tidy → v'.Tidy) ∧ w'.Sound ∧
      (if v.Foreign w then w' = w else w'.m_Type = varTypeEmpty ∧ w'.getSize = w.m_uPayloadSize ∧
        w'.m_uEmbeddedSize = 0 ∧ w'.m_uPayloadSize = w.m_uPayloadSize) := by
  unfold initMove at h
  by_cases hforeign : v.Foreign w
  · rw [if_pos hforeign] at h
    obtain ⟨v'', hclone, heq⟩ := Option.map_eq_some_iff.1 h
    cases heq
    obtain ⟨hs, ht⟩ := kept_cloneFrom hw hclone
    rw [if_pos hforeign]
    exact ⟨hs, fun _ => ht, hw, rfl⟩
  rw [if_neg hforeign] at h
  dsimp only at h
  cases h
  have hsource : (w.clearFlags.write dataOffset (List.replicate varDataSize 0)).m_uPayloadSize = w.m_uPayloadSize :=
    m_uPayloadSize_write _
  rw [if_neg hforeign]
  refine ⟨?_, ?_, ⟨Nat.zero_le _, nofun, nofun⟩, rfl, hsource, rfl, hsource⟩
  · by_cases hembedded : w.m_uEmbeddedSize = 0
    · rw [if_neg (not_not.2 hembedded)]
      refine ⟨hw.embedded, fun hraw => ?_, hw.container⟩
      obtain ⟨-, raw, hp, hlen⟩ := hw.raw hraw
      refine ⟨hembedded, raw, hp, hlen.trans ?_⟩
      exact ((m_uPayloadSize_write _).trans (m_uPayloadSize_setPayloadSize (m_uPayloadSize_lt w))).symm
    · rw [if_pos hembedded]
      exact ⟨hw.embedded, fun hraw => absurd (hw.raw hraw).1 hembedded, hw.container⟩
  · intro htidy
    by_cases hembedded : w.m_uEmbeddedSize = 0
    · rw [if_neg (not_not.2 hembedded)]
      intro hempty
      refine ⟨hembedded, ?_⟩
      exact ((m_uPayloadSize_write _).trans (m_uPayloadSize_setPayloadSize (m_uPayloadSize_lt w))).trans (htidy hempty).2
    · rw [if_pos hembedded]
      exact fun hempty => absurd (htidy hempty).1 hembedded

theorem kept_fromPacket (packet : Bytes) (bDerived : Bool) :
    (v.fromPacket packet bDerived).1.Sound ∧ (¬ EmptyWithSize packet → (v.fromPacket packet bDerived).1.Tidy) := by
  have hclear : v.clear.Sound := sound_initValue (by decide)
  obtain ⟨type, e, heq⟩ | ⟨type, data, left, w, hheader, hlen, heq, rfl⟩ := fromPacket_cases v packet bDerived
  · rw [heq]
    refine ⟨⟨Nat.zero_le _, nofun, nofun⟩, fun _ _ => tidy_initValue rfl⟩
  · rw [heq]
    have hs : ({ v.clear with m_Type := type, m_bReadOnly := true }.place data).Sound :=
      sound_place rfl rfl (by unfold invalidSize at hlen; omega) rfl
    refine ⟨⟨hs.embedded, hs.raw, hs.container⟩, fun htidy hempty => ?_⟩
    obtain ⟨-, -, -, hiff⟩ := readHeader_spec hheader
    have htype : ({ v.clear with m_Type := type, m_bReadOnly := true }.place data).m_Type = type := by
      unfold place
      split_ifs <;> rfl
    have hnil : data.length = 0 := by
      by_contra hne
      exact htidy (hiff.1 ⟨htype.symm.trans hempty, hne⟩)
    obtain rfl := List.length_eq_zero_iff.1 hnil
    refine ⟨rfl, ?_⟩
    exact (m_uPayloadSize_write _).trans (m_uPayloadSize_setPayloadSize (by decide))

end Kept

/-- The variants that any calls make. When `tidy`, no empty variant is read with a payload, and none is moved from that has
a payload size in its body. -/
inductive Made (tidy : Prop) : VariantBody → Prop
  | new (m_pMem : Option Nat) : Made tidy (new m_pMem)
  | value {v : VariantBody} (hv : Made tidy v) (type : EType) {value : Bytes} (hlen : value.length < 2 ^ 32) :
    Made tidy (v.detachPayload.initValue type value)
  | clear {v : VariantBody} (hv : Made tidy v) : Made tidy v.clear
  | unfrozen {v : VariantBody} (hv : Made tidy v) : Made tidy { v with m_bReadOnly := false }
  | container {v : VariantBody} (hv : Made tidy v) {type : EType} (htype : isContainerType type = true) (content : Bytes) :
    Made tidy (v.initFromContainer content type)
  | buffer {v : VariantBody} (hv : Made tidy v) (content : Bytes) (size : Nat) : Made tidy (v.detachPayload.initFromBuffer content size)
  | string {v : VariantBody} (hv : Made tidy v) {type : EType}
    (htype : type = varTypeAscii ∨ type = varTypeUtf8 ∨ type = varTypeUnicode) (content : Bytes) :
    Made tidy (v.detachPayload.initFromString content type)
  | packet {v : VariantBody} (hv : Made tidy v) {packet : Bytes} (htidy : tidy → ¬ EmptyWithSize packet) (bDerived : Bool) :
    Made tidy (v.fromPacket packet bDerived).1
  | assigned {v w v' : VariantBody} (hv : Made tidy v) (hw : Made tidy w) (h : v.clear.initAssign w = some v') : Made tidy v'
  | movedTo {v w v' w' : VariantBody} (hv : Made tidy v) (hw : Made tidy w) (h : v.clear.initMove w = some (v', w')) : Made tidy v'
  | movedFrom {v w v' w' : VariantBody} (hv : Made tidy v) (hw : Made tidy w) (h : v.clear.initMove w = some (v', w'))
    (htidy : tidy → ¬ v.clear.Foreign w → w.m_uPayloadSize = 0) : Made tidy w'

theorem Made.kept {tidy : Prop} {v : VariantBody} (h : Made tidy v) : v.Sound ∧ (tidy → v.Tidy) := by
  induction h with
  | new m_pMem => exact ⟨sound_new m_pMem, fun _ _ => ⟨rfl, rfl⟩⟩
  | value _ type hlen => exact ⟨sound_initValue hlen, fun _ => tidy_initValue⟩
  | clear _ => exact ⟨sound_initValue (by decide), fun _ => tidy_initValue⟩
  | unfrozen _ ih => exact ⟨⟨ih.1.embedded, ih.1.raw, ih.1.container⟩, fun htidy => ih.2 htidy⟩
  | @container v _ type htype content =>
    have hne : type ≠ varTypeEmpty := by
      rintro rfl
      exact absurd htype (by decide)
    obtain ⟨hs, ht⟩ := kept_initFromContainer (v := v) hne
    exact ⟨hs, fun _ => ht⟩
  | buffer _ content size =>
    obtain ⟨hs, ht⟩ := kept_initFromBuffer
    exact ⟨hs, fun _ => ht⟩
  | @string v _ type htype content =>
    have hne : type ≠ varTypeEmpty := by
      obtain rfl | rfl | rfl := htype <;> decide
    obtain ⟨hs, ht⟩ := kept_initFromString (v := v.detachPayload) hne
    exact ⟨hs, fun _ => ht⟩
  | packet _ htidy bDerived =>
    obtain ⟨hs, ht⟩ := kept_fromPacket _ bDerived
    exact ⟨hs, fun h => ht (htidy h)⟩
  | assigned _ _ h _ ihw =>
    obtain ⟨hs, ht⟩ := kept_initAssign ihw.1 h
    exact ⟨hs, fun _ => ht⟩
  | movedTo _ _ h _ ihw =>
    obtain ⟨hs, ht, -, -⟩ := kept_initMove ihw.1 h
    exact ⟨hs, fun htidy => ht (ihw.2 htidy)⟩
  | @movedFrom v w v' w' _ _ h htidy _ ihw =>
    obtain ⟨-, -, hs, heq⟩ := kept_initMove ihw.1 h
    refine ⟨hs, fun ht => ?_⟩
    by_cases hforeign : v.clear.Foreign w
    · rw [if_pos hforeign] at heq
      rw [heq]
      exact ihw.2 ht
    · rw [if_neg hforeign] at heq
      obtain ⟨-, -, hembedded, hsize⟩ := heq
      exact fun _ => ⟨hembedded, hsize.trans (htidy ht hforeign)⟩

/-! ## Encoded again -/

/-- The packet is read as a variant of the type and with the payload, whoever reads it, and nothing is left of it. -/
def ReadsAs (packet : Bytes) (type : EType) (value : Bytes) : Prop :=
  ∀ (v : VariantBody) (bDerived : Bool), ∃ w, v.fromPacket packet bDerived = (w, .ok []) ∧ w.m_Type = type ∧ w.payload = some value

/-- The variant is encoded to a packet that is read as the same. -/
def Reencodes (v : VariantBody) : Prop :=
  ∃ packet value, v.payload = some value ∧ v.toPacket = some packet ∧ ReadsAs packet v.m_Type value

/-- The variant is encoded to a packet that is read as an empty variant, with nothing left of it. -/
def EncodesEmpty (v : VariantBody) : Prop :=
  ∃ packet, v.toPacket = some packet ∧ ∀ (u : VariantBody) (bDerived : Bool), ∃ w,
    u.fromPacket packet bDerived = (w, .ok []) ∧ w.m_Type = varTypeEmpty

section Encoded

variable {v : VariantBody}

/-- What a packet with a readable header is read as. -/
theorem fromPacket_of_header {packet data left : Bytes} {type : EType} (bDerived : Bool)
    (hheader : readHeader packet = some (type, data.length, data ++ left)) (hlen : data.length < invalidSize) :
    ∃ w, v.fromPacket packet bDerived = (w, .ok left) ∧ w.m_Type = type ∧ w.payload = some data := by
  have hread : readData (data ++ left) data.length = some (data, left) := by
    unfold readData
    rw [if_pos (by rw [List.length_append]; omega), List.take_left, List.drop_left]
  unfold fromPacket
  simp only [hheader, if_neg (Nat.ne_of_lt hlen), hread]
  refine ⟨_, rfl, ?_, ?_⟩
  · show ({ v.clear with m_Type := type, m_bReadOnly := true }.place data).m_Type = type
    unfold place
    split_ifs <;> rfl
  · exact payload_place (v := { v.clear with m_Type := type, m_bReadOnly := true }) rfl rfl
      (by unfold invalidSize at hlen; omega) rfl

theorem readsAs_toPacket {type : EType} {value : Bytes} (htype : type &&& varTypeMask = type) (hlen : value.length < invalidSize)
    (hempty : type = varTypeEmpty → value = []) : ReadsAs (Variant.toPacket type value) type value := by
  intro v bDerived
  have hheader : Header type value.length (packetHeader type value.length) :=
    packetHeader_header htype (by unfold invalidSize at hlen; omega) fun he => List.length_eq_zero_iff.2 (hempty he)
  refine fromPacket_of_header bDerived ?_ hlen
  rw [List.append_nil]
  exact (hheader.readHeader value).trans (if_neg (Nat.lt_irrefl _))

/-- Of an empty variant only the type byte is read. -/
theorem left_fromPacket_empty (v : VariantBody) (value : Bytes) : ∃ w,
    v.fromPacket (Variant.toPacket varTypeEmpty value) false = (w, .ok value) := by
  have hheader : readHeader (Variant.toPacket varTypeEmpty value) = some (varTypeEmpty, List.length ([] : Bytes), [] ++ value) := rfl
  obtain ⟨w, hw, -⟩ := fromPacket_of_header (v := v) false hheader (by decide)
  exact ⟨w, hw⟩

theorem encodesEmpty_iff (hsound : v.Sound) (hempty : v.m_Type = varTypeEmpty) : EncodesEmpty v ↔ v.getSize = 0 := by
  have hcontainer : v.m_bContainer = false := eq_false_of_ne_true fun h => hsound.container h hempty
  constructor
  · rintro ⟨packet, hpacket, hreads⟩
    obtain ⟨value, hvalue, rfl⟩ := Option.map_eq_some_iff.1 hpacket
    rw [hempty] at hreads
    obtain ⟨w, hw, -⟩ := hreads v false
    obtain ⟨w', hw'⟩ := left_fromPacket_empty v value
    -- the payload is what is left behind the type byte
    have hnil : value = [] := by
      rw [hw] at hw'
      exact (Except.ok.inj (Prod.mk.inj hw').2).symm
    rw [← length_payload hcontainer hvalue, hnil]
    rfl
  · intro hsize
    refine ⟨Variant.toPacket varTypeEmpty [], ?_, fun u bDerived => ?_⟩
    · unfold toPacket
      rw [payload_of_getSize hsound hcontainer hsize, hempty]
      rfl
    · have hreads : ReadsAs (Variant.toPacket varTypeEmpty []) varTypeEmpty [] := readsAs_toPacket (by decide) (by decide) fun _ => rfl
      obtain ⟨w, hw, htype, -⟩ := hreads u bDerived
      exact ⟨w, hw, htype⟩

theorem reencodes_fromPacket_iff {packet left : Bytes} {bDerived : Bool} {w : VariantBody} (h : v.fromPacket packet bDerived = (w, .ok left)) :
    Reencodes w ↔ ¬ EmptyWithSize packet := by
  obtain ⟨type, e, heq⟩ | ⟨type, data, left', w', hheader, hlen, heq, -⟩ := fromPacket_cases v packet bDerived
  · rw [heq] at h
    exact nomatch (Prod.mk.inj h).2
  obtain ⟨htype, -, -, hiff⟩ := readHeader_spec hheader
  obtain ⟨u, hu, hutype, hvalue⟩ := fromPacket_of_header (v := v) bDerived hheader hlen
  obtain rfl : u = w := (Prod.mk.inj (hu.symm.trans h)).1
  have hpacket : u.toPacket = some (Variant.toPacket type data) := by
    unfold toPacket
    rw [hvalue, hutype]
    rfl
  rw [← hiff]
  constructor
  · rintro ⟨again, value, hvalue', hagain, hreads⟩ ⟨hempty, hne⟩
    obtain rfl := Option.some.inj (hvalue.symm.trans hvalue')
    obtain rfl := Option.some.inj (hpacket.symm.trans hagain)
    subst hempty
    obtain ⟨w₁, hw₁, -⟩ := hreads u false
    obtain ⟨w₂, hw₂⟩ := left_fromPacket_empty u data
    rw [hw₁] at hw₂
    exact hne (congrArg List.length (Except.ok.inj (Prod.mk.inj hw₂).2).symm)
  · intro hnot
    refine ⟨_, data, hvalue, hpacket, ?_⟩
    rw [hutype]
    refine readsAs_toPacket htype hlen fun hempty => ?_
    by_contra hne
    exact hnot ⟨hempty, fun hzero => hne (List.length_eq_zero_iff.1 hzero)⟩

end Encoded

/-- A packet that was read is encoded to what reads the same exactly when it is no empty variant with a payload. An empty
variant is encoded to one exactly when it has no payload size; one that was moved from keeps the payload size in its body.
So all empty variants are, where none is read with a payload and none is moved from with a payload size. -/
theorem reencodes_iff (v : VariantBody) :
    (∀ (w : VariantBody) (packet left : Bytes) (bDerived : Bool), v.fromPacket packet bDerived = (w, .ok left) →
      (Reencodes w ↔ ¬ EmptyWithSize packet)) ∧
    (Made False v → v.m_Type = varTypeEmpty → (EncodesEmpty v ↔ v.getSize = 0)) ∧
    (∀ w v' w' : VariantBody, Made False w → ¬ v.clear.Foreign w → v.clear.initMove w = some (v', w') →
      w'.m_Type = varTypeEmpty ∧ (EncodesEmpty w' ↔ w.m_uPayloadSize = 0)) ∧
    (Made True v → v.m_Type = varTypeEmpty → EncodesEmpty v) := by
  refine ⟨fun w packet left bDerived h => reencodes_fromPacket_iff h, fun hv => encodesEmpty_iff hv.kept.1, ?_, ?_⟩
  · intro w v' w' hw hforeign hmove
    obtain ⟨-, -, hs, heq⟩ := kept_initMove hw.kept.1 hmove
    rw [if_neg hforeign] at heq
    obtain ⟨hempty, hsize, -⟩ := heq
    rw [encodesEmpty_iff hs hempty, hsize]
    exact ⟨hempty, Iff.rfl⟩
  · intro hv hempty
    obtain ⟨hs, ht⟩ := hv.kept
    obtain ⟨hembedded, hsize⟩ := ht trivial hempty
    rw [encodesEmpty_iff hs hempty, getSize_eq (eq_false_of_ne_true fun h => hs.container h hempty),
      if_neg (not_not.2 hembedded), hsize]

/-- A string of three letters, moved from. -/
def movedLetters : Option (VariantBody × VariantBody) :=
  (new none).clear.initMove ((new none).detachPayload.initValue varTypeAscii [0x61, 0x62, 0x63])

/-- An empty variant that was read with a payload, and one that was moved from, are encoded with bytes behind the type. -/
theorem not_reencodes :
    (∃ v, (new none).fromPacket [varLenField, 1, 7] false = (v, .ok []) ∧ ¬ Reencodes v) ∧
      ∃ v w, movedLetters = some (v, w) ∧ Made False w ∧ w.m_Type = varTypeEmpty ∧ w.toPacket = some [0, 0, 0, 0] ∧ ¬ EncodesEmpty w := by
  have hmade : Made False ((new none).detachPayload.initValue varTypeAscii [0x61, 0x62, 0x63]) :=
    .value (.new none) varTypeAscii (by decide)
  constructor
  · have hheader : readHeader [varLenField, 1, 7] = some (varTypeEmpty, List.length [(7 : UInt8)], [7] ++ []) := by decide
    obtain ⟨v, hv, -⟩ := fromPacket_of_header (v := new none) false hheader (by decide)
    exact ⟨v, hv, fun h => (reencodes_fromPacket_iff hv).1 h ⟨by decide, by decide, by decide⟩⟩
  · obtain ⟨⟨v, w⟩, hmove⟩ := Option.isSome_iff_exists.1 (show movedLetters.isSome = true by decide)
    have hpacket := congrArg (Option.map fun moved => moved.2.toPacket) hmove
    obtain ⟨-, -, hs, heq⟩ := kept_initMove hmade.kept.1 hmove
    rw [if_neg (by decide)] at heq
    refine ⟨v, w, hmove, .movedFrom (.new none) hmade hmove nofun, heq.1, ?_, fun h => ?_⟩
    · exact (Option.some.inj hpacket).symm.trans (by decide)
    · rw [encodesEmpty_iff hs heq.1, heq.2.1] at h
      exact absurd h (by decide)

end VariantBody

end MajorPrivacy.Variant

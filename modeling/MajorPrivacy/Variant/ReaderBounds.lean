/-
The C reader (SVariant.c) over the memory it is given. A pointer is an offset, and a read at an offset outside of the
buffer is a fault. No sequence of calls on the variants obtained from a buffer faults; `Variant_ToInt` copies a number
as long as it is stored, also into a shorter target.
-/
import MajorPrivacy.Variant.SVariant
import MajorPrivacy.Lib.Memory
import MajorPrivacy.Lib.Succeeds

namespace MajorPrivacy.Variant

open LittleEndian

/-! ## The buffer -/

/-- A byte outside of the buffer is read, or a loop does not end. -/
inductive Trespass
  | outside | endless
  deriving DecidableEq

/-- `VARIANT`, as a reader uses it. -/
structure VARIANT where
  uType : EType
  uSize : Nat
  pData : Nat
  deriving DecidableEq

/-- `VARIANT_IT`. -/
structure VARIANT_IT where
  ptr : Nat
  stop : Nat
  deriving DecidableEq

section Reader

variable (mem : Bytes)

/-- `n` bytes from an offset on. -/
def bytesAt (ptr n : Nat) : Except Trespass Bytes :=
  match Memory.readAt mem ptr n with
  | some bytes => .ok bytes
  | none => .error .outside

def byteAt (ptr : Nat) : Except Trespass UInt8 :=
  match mem[ptr]? with
  | some b => .ok b
  | none => .error .outside

/-- `Variant_ReadSize`: the length and the pointer behind the header. -/
def readSizeAt (ptr size : Nat) : Except Trespass (Nat × Nat) := do
  let type ← byteAt mem ptr
  let ptr := ptr + 1
  let field (w : Nat) : Except Trespass (Nat × Nat) := return (ofLE (← bytesAt mem ptr w), ptr + w)
  if type &&& varLenField ≠ 0 then
    if type &&& varLenMask = varLen8 ∧ size ≥ 1 + 1 then field 1
    else if type &&& varLenMask = varLen16 ∧ size ≥ 1 + 2 then field 2
    else if type &&& varLenMask = varLen32 ∧ size ≥ 1 + 4 then field 4
    else return (invalidSize, ptr)
  else if type &&& varTypeMask = varTypeEmpty then return (0, ptr)
  else return (implicitSize (type &&& varLenMask), ptr)

/-- `Variant_FromBuffer`: the variant and the number of bytes read, or nothing for 0. -/
def fromBufferAt (buffer uSize : Nat) : Except Trespass (Option (VARIANT × Nat)) :=
  if uSize < 1 ∨ uSize > ulongMax then return none
  else do
    let type ← byteAt mem buffer
    let (length, pData) ← readSizeAt mem buffer uSize
    if length = invalidSize ∨ length > buffer + uSize - pData then return none
    else return some (⟨type &&& varTypeMask, length, pData⟩, pData - buffer + length)

/-! ## Look-ups -/

/-- `name_len == cur_len && memcmp(cur_name, name, name_len) == 0`. -/
def isNameAt (name : Bytes) (ptr curLen : Nat) : Except Trespass Bool :=
  if name.length = curLen then (fun curName => decide (curName = name)) <$> bytesAt mem ptr curLen else pure false

/-- The loop of `Variant_Find`. -/
def findAt (name : Bytes) (stop : Nat) : Nat → Nat → Except Trespass (Option VARIANT)
  | 0, _ => throw .endless
  | fuel + 1, ptr =>
    if ptr < stop then do
      let curLen := (← byteAt mem ptr).toNat
      let ptr := ptr + 1
      if ptr + curLen ≥ stop then return none
      else
        let found ← isNameAt mem name ptr curLen
        let ptr := ptr + curLen
        if found then return (← fromBufferAt mem ptr (stop - ptr)).map (·.1)
        else
          let (length, ptr) ← readSizeAt mem ptr (stop - ptr)
          findAt name stop fuel (ptr + length)
    else return none

/-- `Variant_Find`. -/
def VARIANT.find (var : VARIANT) (name : Bytes) : Except Trespass (Option VARIANT) :=
  if var.uSize = 0 ∨ var.uType ≠ varTypeMap then return none
  else findAt mem name (var.pData + var.uSize) (var.uSize + 1) var.pData

/-- The loop of `Variant_Get`. -/
def getAt (index : Nat) (stop : Nat) : Nat → Nat → Except Trespass (Option VARIANT)
  | 0, _ => throw .endless
  | fuel + 1, ptr =>
    if ptr < stop then
      if ptr + 4 ≥ stop then return none
      else do
        let curIndex := ofLE (← bytesAt mem ptr 4)
        let ptr := ptr + 4
        if curIndex = index then return (← fromBufferAt mem ptr (stop - ptr)).map (·.1)
        else
          let (length, ptr) ← readSizeAt mem ptr (stop - ptr)
          getAt index stop fuel (ptr + length)
    else return none

/-- `Variant_Get`. -/
def VARIANT.get (var : VARIANT) (index : Nat) : Except Trespass (Option VARIANT) :=
  if var.uSize = 0 ∨ var.uType ≠ varTypeIndex then return none
  else getAt mem index (var.pData + var.uSize) (var.uSize + 1) var.pData

/-- The loop of `Variant_At`. -/
def listAt (stop : Nat) : Nat → Int → Nat → Except Trespass (Option VARIANT)
  | 0, _, _ => throw .endless
  | fuel + 1, pos, ptr =>
    if ptr < stop then
      if pos = 0 then return (← fromBufferAt mem ptr (stop - ptr)).map (·.1)
      else do
        let (length, ptr) ← readSizeAt mem ptr (stop - ptr)
        listAt stop fuel (pos - 1) (ptr + length)
    else return none

/-- `Variant_At`. -/
def VARIANT.at (var : VARIANT) (pos : Int) : Except Trespass (Option VARIANT) :=
  if var.uSize = 0 ∨ var.uType ≠ varTypeList then return none
  else listAt mem (var.pData + var.uSize) (var.uSize + 1) pos var.pData

/-- `Variant_Begin`. -/
def VARIANT.begin (var : VARIANT) : Option VARIANT_IT :=
  if var.uSize = 0 ∨ var.uType ≠ varTypeList then none
  else some ⟨var.pData, var.pData + var.uSize⟩

/-- `Variant_Next`. -/
def VARIANT_IT.next (it : VARIANT_IT) : Except Trespass (Option (VARIANT × VARIANT_IT)) := do
  return (← fromBufferAt mem it.ptr (it.stop - it.ptr)).map fun (var, read) => (var, ⟨it.ptr + read, it.stop⟩)

/-- Some byte of the number from `size` on is not zero. -/
def VARIANT.isWiderAt (var : VARIANT) (size : Nat) : Except Trespass Bool :=
  if var.uSize > size then (fun rest => rest.any (· ≠ 0)) <$> bytesAt mem (var.pData + size) (var.uSize - size) else pure false

/-- `Variant_ToInt`: the bytes that are in the target afterwards. -/
def VARIANT.toInt (var : VARIANT) (size : Nat) : Except Trespass (Option Bytes) :=
  if var.uSize = 0 ∨ var.uType ≠ varTypeSInt ∧ var.uType ≠ varTypeUInt then return none
  else do
    -- what does not fit the target has to be zero
    if ← var.isWiderAt mem size then return none
    else
      let data ← bytesAt mem var.pData var.uSize
      return some (data ++ List.replicate (size - var.uSize) 0)

end Reader

/-! ## Reads stay inside -/

/-- What a variant holds. -/
def VARIANT.content (mem : Bytes) (var : VARIANT) : EType × Bytes := (var.uType, Memory.slice mem var.pData var.uSize)

/-- The payload is in the buffer. -/
def VARIANT.Inside (mem : Bytes) (var : VARIANT) : Prop := var.pData + var.uSize ≤ mem.length

section Reads

variable {mem : Bytes} {ptr size n : Nat}

theorem succeeds_byteAt (h : ptr < mem.length) : Succeeds (byteAt mem ptr) fun b => mem[ptr]? = some b := by
  refine ⟨mem[ptr], ?_, List.getElem?_eq_getElem h⟩
  unfold byteAt
  rw [List.getElem?_eq_getElem h]

theorem succeeds_bytesAt (h : ptr + n ≤ mem.length) : Succeeds (bytesAt mem ptr n) fun bytes => bytes = Memory.slice mem ptr n := by
  refine ⟨_, ?_, rfl⟩
  unfold bytesAt
  rw [Memory.readAt_eq h]

/-- The header is read as from the list of the bytes. -/
theorem succeeds_readSizeAt (hsize : 0 < size) (h : ptr + size ≤ mem.length) :
    Succeeds (readSizeAt mem ptr size) fun r => ptr < r.2 ∧ r.2 ≤ ptr + size ∧
      variantReadSize (Memory.slice mem ptr size) size = (r.1, Memory.slice mem r.2 (ptr + size - r.2)) := by
  unfold readSizeAt
  refine (succeeds_byteAt (by omega)).bind fun type htype => ?_
  have hslice : Memory.slice mem ptr size = type :: Memory.slice mem (ptr + 1) (size - 1) := Memory.slice_cons htype hsize
  have hfield : ∀ w, w ≤ size - 1 → Succeeds
      ((do return (ofLE (← bytesAt mem (ptr + 1) w), ptr + 1 + w) : Except Trespass (Nat × Nat))) fun r => ptr < r.2 ∧ r.2 ≤ ptr + size ∧
        (ofLE ((Memory.slice mem (ptr + 1) (size - 1)).take w), (Memory.slice mem (ptr + 1) (size - 1)).drop w) =
          (r.1, Memory.slice mem r.2 (ptr + size - r.2)) := by
    intro w hw
    refine (succeeds_bytesAt (by omega)).bind fun bytes hbytes => .pure ⟨by omega, by omega, ?_⟩
    rw [hbytes, Memory.take_slice hw, Memory.drop_slice, show size - 1 - w = ptr + size - (ptr + 1 + w) by omega]
  have hnext : ∀ length, Succeeds (pure (length, ptr + 1) : Except Trespass (Nat × Nat)) fun r => ptr < r.2 ∧ r.2 ≤ ptr + size ∧
      (length, Memory.slice mem (ptr + 1) (size - 1)) = (r.1, Memory.slice mem r.2 (ptr + size - r.2)) := by
    intro length
    refine .pure ⟨by omega, by omega, ?_⟩
    rw [show size - 1 = ptr + size - (ptr + 1) by omega]
  rw [hslice]
  unfold variantReadSize
  dsimp only
  by_cases hfieldBit : type &&& varLenField ≠ 0
  · simp only [if_pos hfieldBit]
    by_cases h8 : type &&& varLenMask = varLen8 ∧ size ≥ 1 + 1
    · simp only [if_pos h8]
      exact hfield 1 (by omega)
    by_cases h16 : type &&& varLenMask = varLen16 ∧ size ≥ 1 + 2
    · simp only [if_neg h8, if_pos h16]
      exact hfield 2 (by omega)
    by_cases h32 : type &&& varLenMask = varLen32 ∧ size ≥ 1 + 4
    · simp only [if_neg h8, if_neg h16, if_pos h32]
      exact hfield 4 (by omega)
    · simp only [if_neg h8, if_neg h16, if_neg h32]
      exact hnext _
  · simp only [if_neg hfieldBit]
    by_cases hempty : type &&& varTypeMask = varTypeEmpty
    · simp only [if_pos hempty]
      exact hnext _
    · simp only [if_neg hempty]
      exact hnext _

theorem variantFromBuffer_eq {buffer rest : Bytes} {type : UInt8} (h : buffer = type :: rest) :
    variantFromBuffer buffer =
      if buffer.length > ulongMax then none
      else if (variantReadSize buffer buffer.length).1 = invalidSize ∨
          (variantReadSize buffer buffer.length).1 > (variantReadSize buffer buffer.length).2.length then none
      else some ⟨type &&& varTypeMask, (variantReadSize buffer buffer.length).2.take (variantReadSize buffer buffer.length).1,
        buffer.length - (variantReadSize buffer buffer.length).2.length + (variantReadSize buffer buffer.length).1⟩ := by
  subst h
  rfl

/-- A variant is read as from the list of the bytes, and lies in them. -/
theorem succeeds_fromBufferAt (h : ptr + size ≤ mem.length) :
    Succeeds (fromBufferAt mem ptr size) fun r =>
      variantFromBuffer (Memory.slice mem ptr size) = r.map (fun r => ⟨r.1.uType, (r.1.content mem).2, r.2⟩) ∧
        ∀ e ∈ r, ptr + e.2 ≤ ptr + size ∧ e.1.pData + e.1.uSize = ptr + e.2 := by
  have hlen : (Memory.slice mem ptr size).length = size := Memory.length_slice h
  unfold fromBufferAt
  by_cases hbad : size < 1 ∨ size > ulongMax
  · rw [if_pos hbad]
    refine .pure ⟨?_, fun e he => nomatch he⟩
    unfold variantFromBuffer
    split
    · rfl
    · rename_i hslice
      have hpos : 0 < size := by
        rw [hslice, List.length_cons] at hlen
        omega
      exact if_pos (by omega)
  · rw [if_neg hbad]
    rw [not_or] at hbad
    refine (succeeds_byteAt (by omega)).bind fun type htype => ?_
    refine (succeeds_readSizeAt (by omega) h).bind fun r ⟨hlt, hle, hread⟩ => ?_
    obtain ⟨length, pData⟩ := r
    dsimp only at hlt hle hread ⊢
    have hdata : (Memory.slice mem pData (ptr + size - pData)).length = ptr + size - pData := Memory.length_slice (by omega)
    have hlist : variantFromBuffer (Memory.slice mem ptr size) =
        if length = invalidSize ∨ length > ptr + size - pData then none
        else some ⟨type &&& varTypeMask, Memory.slice mem pData length, pData - ptr + length⟩ := by
      have hslice : Memory.slice mem ptr size = type :: Memory.slice mem (ptr + 1) (size - 1) := Memory.slice_cons htype (by omega)
      rw [variantFromBuffer_eq hslice, hlen, if_neg hbad.2, hread]
      dsimp only
      rw [hdata]
      refine ite_congr rfl (fun _ => rfl) fun hfits => ?_
      rw [not_or] at hfits
      rw [Memory.take_slice (by omega), show size - (ptr + size - pData) + length = pData - ptr + length by omega]
    rw [hlist]
    by_cases hfails : length = invalidSize ∨ length > ptr + size - pData
    · rw [if_pos hfails, if_pos hfails]
      exact .pure ⟨rfl, fun e he => nomatch he⟩
    · rw [if_neg hfails, if_neg hfails]
      rw [not_or] at hfails
      refine .pure ⟨rfl, fun e he => ?_⟩
      cases he
      dsimp only
      omega

/-! ## Look-ups stay inside -/

/-- What is found in the list of the bytes is found in the buffer, and lies in it. -/
def FoundAt (mem : Bytes) (found : Option Decoded) (r : Option VARIANT) : Prop :=
  found.map (fun d => (d.type, d.payload)) = r.map (VARIANT.content mem) ∧ ∀ var ∈ r, var.Inside mem

theorem foundAt_none : FoundAt mem none none := ⟨rfl, fun _ h => nomatch h⟩

theorem succeeds_element {stop : Nat} (hstop : stop ≤ mem.length) (hptr : ptr ≤ stop) :
    Succeeds (do return (← fromBufferAt mem ptr (stop - ptr)).map (·.1) : Except Trespass (Option VARIANT))
      (FoundAt mem (variantFromBuffer (Memory.slice mem ptr (stop - ptr)))) := by
  refine (succeeds_fromBufferAt (by omega)).bind fun r ⟨hlist, hinside⟩ => .pure ?_
  rw [hlist]
  refine ⟨?_, fun var hvar => ?_⟩
  · rw [Option.map_map, Option.map_map]
    rfl
  · obtain ⟨e, he, rfl⟩ := Option.mem_map.1 hvar
    obtain ⟨hle, heq⟩ := hinside e he
    unfold VARIANT.Inside
    omega

/-- The next element is behind the header and the payload of this one. -/
theorem succeeds_skip {stop : Nat} (hstop : stop ≤ mem.length) (hptr : ptr < stop) :
    Succeeds (readSizeAt mem ptr (stop - ptr)) fun r => ptr < r.2 + r.1 ∧
      (variantReadSize (Memory.slice mem ptr (stop - ptr)) (Memory.slice mem ptr (stop - ptr)).length).2.drop
        (variantReadSize (Memory.slice mem ptr (stop - ptr)) (Memory.slice mem ptr (stop - ptr)).length).1 =
          Memory.slice mem (r.2 + r.1) (stop - (r.2 + r.1)) := by
  refine (succeeds_readSizeAt (by omega) (by omega)).mono fun r ⟨hlt, hle, hread⟩ => ⟨by omega, ?_⟩
  rw [Memory.length_slice (by omega), hread, Memory.drop_slice, show ptr + (stop - ptr) - r.2 - r.1 = stop - (r.2 + r.1) by omega]

theorem succeeds_isNameAt (name : Bytes) {curLen : Nat} (h : ptr + curLen ≤ mem.length) : Succeeds (isNameAt mem name ptr curLen)
    fun found => found = true ↔ name.length = curLen ∧ Memory.slice mem ptr curLen = name := by
  refine .ite (fun hsame => (succeeds_bytesAt h).map fun bytes hbytes => ?_) fun hother => .pure ?_
  · rw [hbytes, decide_eq_true_eq]
    exact (and_iff_right hsame).symm
  · exact iff_of_false Bool.false_ne_true fun h => hother h.1

theorem succeeds_findAt {stop : Nat} (hstop : stop ≤ mem.length) (name : Bytes) : ∀ fuel ptr, stop - ptr < fuel →
    Succeeds (findAt mem name stop fuel ptr) (FoundAt mem (variantFindLoop name fuel (Memory.slice mem ptr (stop - ptr))))
  | 0, _, h => absurd h (Nat.not_lt_zero _)
  | fuel + 1, ptr, hfuel => by
    unfold findAt
    by_cases hptr : ptr < stop
    case neg =>
      rw [if_neg hptr, Nat.sub_eq_zero_of_le (Nat.le_of_not_lt hptr), Memory.slice_zero]
      exact .pure foundAt_none
    rw [if_pos hptr]
    refine (succeeds_byteAt (by omega)).bind fun curLen hbyte => ?_
    rw [Memory.slice_cons hbyte (by omega)]
    unfold variantFindLoop
    have hlen : (Memory.slice mem (ptr + 1) (stop - ptr - 1)).length = stop - ptr - 1 := Memory.length_slice (by omega)
    dsimp only
    rw [hlen]
    by_cases hend : ptr + 1 + curLen.toNat ≥ stop
    · rw [if_pos hend, if_pos (by omega)]
      exact .pure foundAt_none
    rw [if_neg hend, if_neg (by omega), Memory.take_slice (by omega), Memory.drop_slice,
      show stop - ptr - 1 - curLen.toNat = stop - (ptr + 1 + curLen.toNat) by omega]
    refine (succeeds_isNameAt name (by omega)).bind fun found hfound => ?_
    by_cases hsame : found = true
    · rw [if_pos hsame, if_pos (hfound.1 hsame)]
      exact succeeds_element hstop (by omega)
    · rw [if_neg hsame, if_neg fun h => hsame (hfound.2 h)]
      refine (succeeds_skip hstop (by omega)).bind fun r ⟨hlt, hdrop⟩ => ?_
      have hrec := succeeds_findAt hstop name fuel (r.2 + r.1) (by omega)
      rw [← hdrop] at hrec
      exact hrec

theorem succeeds_getAt {stop : Nat} (hstop : stop ≤ mem.length) (index : Nat) : ∀ fuel ptr, stop - ptr < fuel →
    Succeeds (getAt mem index stop fuel ptr) (FoundAt mem (variantGetLoop index fuel (Memory.slice mem ptr (stop - ptr))))
  | 0, _, h => absurd h (Nat.not_lt_zero _)
  | fuel + 1, ptr, hfuel => by
    unfold getAt variantGetLoop
    by_cases hptr : ptr < stop
    case neg =>
      rw [if_neg hptr, Nat.sub_eq_zero_of_le (Nat.le_of_not_lt hptr), Memory.slice_zero]
      exact .pure foundAt_none
    have hlen : (Memory.slice mem ptr (stop - ptr)).length = stop - ptr := Memory.length_slice (by omega)
    rw [if_pos hptr, hlen]
    by_cases hend : ptr + 4 ≥ stop
    · rw [if_pos hend, if_pos (by omega)]
      exact .pure foundAt_none
    rw [if_neg hend, if_neg (by omega)]
    refine (succeeds_bytesAt (by omega)).bind fun curIndex hcur => ?_
    dsimp only
    rw [hcur, Memory.take_slice (by omega), Memory.drop_slice, show stop - ptr - 4 = stop - (ptr + 4) by omega]
    by_cases hsame : ofLE (Memory.slice mem ptr 4) = index
    · rw [if_pos hsame, if_pos hsame]
      exact succeeds_element hstop (by omega)
    · rw [if_neg hsame, if_neg hsame]
      refine (succeeds_skip hstop (by omega)).bind fun r ⟨hlt, hdrop⟩ => ?_
      have hrec := succeeds_getAt hstop index fuel (r.2 + r.1) (by omega)
      rw [← hdrop] at hrec
      exact hrec

theorem succeeds_listAt {stop : Nat} (hstop : stop ≤ mem.length) : ∀ fuel pos ptr, stop - ptr < fuel →
    Succeeds (listAt mem stop fuel pos ptr) (FoundAt mem (variantAtLoop fuel pos (Memory.slice mem ptr (stop - ptr))))
  | 0, _, _, h => absurd h (Nat.not_lt_zero _)
  | fuel + 1, pos, ptr, hfuel => by
    unfold listAt variantAtLoop
    by_cases hptr : ptr < stop
    case neg =>
      rw [if_neg hptr, Nat.sub_eq_zero_of_le (Nat.le_of_not_lt hptr), Memory.slice_zero, if_pos rfl]
      exact .pure foundAt_none
    have hlen : (Memory.slice mem ptr (stop - ptr)).length = stop - ptr := Memory.length_slice (by omega)
    have hne : Memory.slice mem ptr (stop - ptr) ≠ [] := List.ne_nil_of_length_pos (by omega)
    rw [if_pos hptr, if_neg hne]
    by_cases hpos : pos = 0
    · rw [if_pos hpos, if_pos hpos]
      exact succeeds_element hstop (by omega)
    · rw [if_neg hpos, if_neg hpos]
      refine (succeeds_skip hstop hptr).bind fun r ⟨hlt, hdrop⟩ => ?_
      have hrec := succeeds_listAt hstop fuel (pos - 1) (r.2 + r.1) (by omega)
      rw [← hdrop] at hrec
      exact hrec

variable {var : VARIANT} (hvar : var.Inside mem)
include hvar

theorem length_content : (var.content mem).2.length = var.uSize := Memory.length_slice hvar

/-- `Variant_Find` finds what the list of the bytes has under the name. -/
theorem succeeds_find (name : Bytes) :
    Succeeds (var.find mem name) (FoundAt mem (variantFind var.uType (var.content mem).2 name)) := by
  unfold VARIANT.find variantFind
  rw [length_content hvar]
  by_cases hnone : var.uSize = 0 ∨ var.uType ≠ varTypeMap
  · rw [if_pos hnone, if_pos hnone]
    exact .pure foundAt_none
  · rw [if_neg hnone, if_neg hnone]
    have hloop := succeeds_findAt hvar name (var.uSize + 1) var.pData (by omega)
    rw [Nat.add_sub_cancel_left] at hloop
    exact hloop

theorem succeeds_get (index : Nat) :
    Succeeds (var.get mem index) (FoundAt mem (variantGet var.uType (var.content mem).2 index)) := by
  unfold VARIANT.get variantGet
  rw [length_content hvar]
  by_cases hnone : var.uSize = 0 ∨ var.uType ≠ varTypeIndex
  · rw [if_pos hnone, if_pos hnone]
    exact .pure foundAt_none
  · rw [if_neg hnone, if_neg hnone]
    have hloop := succeeds_getAt hvar index (var.uSize + 1) var.pData (by omega)
    rw [Nat.add_sub_cancel_left] at hloop
    exact hloop

theorem succeeds_at (pos : Int) :
    Succeeds (var.at mem pos) (FoundAt mem (variantAt var.uType (var.content mem).2 pos)) := by
  unfold VARIANT.at variantAt
  rw [length_content hvar]
  by_cases hnone : var.uSize = 0 ∨ var.uType ≠ varTypeList
  · rw [if_pos hnone, if_pos hnone]
    exact .pure foundAt_none
  · rw [if_neg hnone, if_neg hnone]
    have hloop := succeeds_listAt hvar (var.uSize + 1) pos var.pData (by omega)
    rw [Nat.add_sub_cancel_left] at hloop
    exact hloop

/-- A number is stored whole, whatever the target holds, unless what does not fit is not zero. -/
theorem succeeds_toInt (size : Nat) : Succeeds (var.toInt mem size) fun r =>
    r = if (var.uSize = 0 ∨ var.uType ≠ varTypeSInt ∧ var.uType ≠ varTypeUInt) ∨ ∃ b ∈ (var.content mem).2.drop size, b ≠ 0 then none
      else some ((var.content mem).2 ++ List.replicate (size - var.uSize) 0) := by
  unfold VARIANT.toInt
  have hin : var.pData + var.uSize ≤ mem.length := hvar
  by_cases hnone : var.uSize = 0 ∨ var.uType ≠ varTypeSInt ∧ var.uType ≠ varTypeUInt
  · rw [if_pos hnone]
    exact .pure (if_pos (.inl hnone)).symm
  rw [if_neg hnone]
  have hwider : Succeeds (var.isWiderAt mem size) fun wider => wider = true ↔ ∃ b ∈ (var.content mem).2.drop size, b ≠ 0 := by
    refine .ite (fun hlong => (succeeds_bytesAt (by omega)).map fun rest hrest => ?_) fun hshort => .pure ?_
    · rw [hrest, List.any_eq_true, VARIANT.content, Memory.drop_slice]
      simp only [decide_eq_true_eq]
    · have hnil : (var.content mem).2.drop size = [] := List.drop_eq_nil_of_le (by rw [length_content hvar]; omega)
      rw [hnil]
      simp
  refine hwider.bind fun wider hwider => ?_
  by_cases hw : wider = true
  · rw [if_pos hw]
    exact .pure (if_pos (.inr (hwider.1 hw))).symm
  · rw [if_neg hw]
    refine (succeeds_bytesAt hin).bind fun data hdata => .pure ?_
    rw [if_neg (not_or.2 ⟨hnone, fun h => hw (hwider.2 h)⟩), hdata]
    rfl

end Reads

/-! ## Calls -/

/-- A call on a variant or an iterator that was obtained before. -/
inductive ReaderCall
  | find (var : Nat) (name : Bytes)
  | get (var : Nat) (index : Nat)
  | at (var : Nat) (pos : Int)
  | begin (var : Nat)
  | next (it : Nat)
  | toInt (var : Nat) (size : Nat)

/-- A target, with the number of bytes that were requested. -/
structure Target where
  size : Nat
  written : Bytes

/-- The variants and iterators obtained so far, and the targets. -/
structure Held where
  vars : List VARIANT
  its : List VARIANT_IT
  targets : List Target

section Calls

variable (mem : Bytes)

def Held.withVar (s : Held) (var : Option VARIANT) : Held := { s with vars := s.vars ++ var.toList }

/-- A call; there is none on what was not obtained. -/
def Held.step (s : Held) : ReaderCall → Except Trespass Held
  | .find i name => match s.vars[i]? with
    | some var => s.withVar <$> var.find mem name
    | none => return s
  | .get i index => match s.vars[i]? with
    | some var => s.withVar <$> var.get mem index
    | none => return s
  | .at i pos => match s.vars[i]? with
    | some var => s.withVar <$> var.at mem pos
    | none => return s
  | .begin i => match s.vars[i]? with
    | some var => return { s with its := s.its ++ var.begin.toList }
    | none => return s
  | .next j => match s.its[j]? with
    | some it => do
      match ← it.next mem with
      | some (var, it) => return { s with vars := s.vars ++ [var], its := s.its.set j it }
      | none => return s
    | none => return s
  | .toInt i size => match s.vars[i]? with
    | some var => do
      match ← var.toInt mem size with
      | some written => return { s with targets := s.targets ++ [⟨size, written⟩] }
      | none => return s
    | none => return s

/-- The buffer is read, and then the calls are made. -/
def readAll (calls : List ReaderCall) : Except Trespass Held := do
  let s : Held := ⟨((← fromBufferAt mem 0 mem.length).map (·.1)).toList, [], []⟩
  calls.foldlM (Held.step mem) s

end Calls

/-- A number is longer than the target, and what does not fit is zero. -/
def VARIANT.Overlong (mem : Bytes) (var : VARIANT) (size : Nat) : Prop :=
  (var.uType = varTypeSInt ∨ var.uType = varTypeUInt) ∧ size < var.uSize ∧ ∀ b ∈ (var.content mem).2.drop size, b = 0

/-- The call copies a number that is longer than its target. -/
def Held.Spills (mem : Bytes) (s : Held) : ReaderCall → Prop
  | .toInt i size => ∃ var ∈ s.vars[i]?, var.Overlong mem size
  | _ => False

/-- No more than was requested has been written. -/
def Held.WithinTargets (s : Held) : Prop := ∀ t ∈ s.targets, t.written.length ≤ t.size

/-! ## Runs stay inside -/

/-- What is held points into the buffer. -/
structure Held.Inside (mem : Bytes) (s : Held) : Prop where
  vars : ∀ var ∈ s.vars, var.Inside mem
  its : ∀ it ∈ s.its, it.ptr ≤ it.stop ∧ it.stop ≤ mem.length

section Runs

variable {mem : Bytes} {s : Held}

theorem Held.Inside.withVar {var : Option VARIANT} (h : s.Inside mem) (hvar : ∀ v ∈ var, v.Inside mem) : (s.withVar var).Inside mem := by
  refine ⟨fun v hv => ?_, h.its⟩
  obtain hv | hv := List.mem_append.1 hv
  · exact h.vars v hv
  · exact hvar v (Option.mem_toList.1 hv)

/-- What a look-up finds is held; nothing is written. -/
theorem succeeds_lookup {x : Except Trespass (Option VARIANT)} {found : Option Decoded} {call : ReaderCall}
    (hcall : ¬ s.Spills mem call) (h : s.Inside mem) (hx : Succeeds x (FoundAt mem found)) :
    Succeeds (s.withVar <$> x) fun s' => s'.Inside mem ∧ (s'.WithinTargets ↔ s.WithinTargets ∧ ¬ s.Spills mem call) :=
  hx.map fun _ hfound => ⟨h.withVar hfound.2, (and_iff_left hcall).symm⟩

/-- A call without its variant or its iterator changes nothing. -/
theorem succeeds_skipped {call : ReaderCall} (hcall : ¬ s.Spills mem call) (h : s.Inside mem) :
    Succeeds (pure s : Except Trespass Held) fun s' =>
      s'.Inside mem ∧ (s'.WithinTargets ↔ s.WithinTargets ∧ ¬ s.Spills mem call) :=
  .pure ⟨h, (and_iff_left hcall).symm⟩

theorem VARIANT.inside_begin {var : VARIANT} (hvar : var.Inside mem) : ∀ it ∈ var.begin, it.ptr ≤ it.stop ∧ it.stop ≤ mem.length := by
  intro it hit
  unfold VARIANT.begin at hit
  by_cases hnone : var.uSize = 0 ∨ var.uType ≠ varTypeList
  · rw [if_pos hnone] at hit
    exact nomatch hit
  · rw [if_neg hnone] at hit
    obtain rfl := Option.mem_some.1 hit
    exact ⟨Nat.le_add_right _ _, hvar⟩

/-- `Variant_Next` gives an element of the buffer and goes on behind it. -/
theorem succeeds_next {it : VARIANT_IT} (hit : it.ptr ≤ it.stop ∧ it.stop ≤ mem.length) :
    Succeeds (it.next mem) fun r => ∀ e ∈ r, e.1.Inside mem ∧ e.2.ptr ≤ e.2.stop ∧ e.2.stop ≤ mem.length := by
  refine (succeeds_fromBufferAt (by omega)).bind fun r ⟨_, hinside⟩ => .pure fun e he => ?_
  obtain ⟨d, hd, rfl⟩ := Option.mem_map.1 he
  obtain ⟨hle, heq⟩ := hinside d hd
  have hvar : d.1.pData + d.1.uSize ≤ mem.length := by omega
  refine ⟨hvar, ?_, hit.2⟩
  show it.ptr + d.2 ≤ it.stop
  omega

/-- The bytes that are written fit the target unless the number is longer. -/
theorem written_le_iff {var : VARIANT} (hvar : var.Inside mem) {size : Nat} {written : Bytes}
    (hnumber : var.uType = varTypeSInt ∨ var.uType = varTypeUInt) (hzero : ∀ b ∈ (var.content mem).2.drop size, b = 0)
    (hwritten : written = (var.content mem).2 ++ List.replicate (size - var.uSize) 0) :
    written.length ≤ size ↔ ¬ var.Overlong mem size := by
  rw [hwritten, List.length_append, List.length_replicate, length_content hvar]
  constructor
  · intro hle hover
    have hlt := hover.2.1
    omega
  · intro hfits
    have hle : ¬ size < var.uSize := fun hlt => hfits ⟨hnumber, hlt, hzero⟩
    omega

theorem Held.Inside.succeeds_step (h : s.Inside mem) (call : ReaderCall) : Succeeds (s.step mem call) fun s' =>
    s'.Inside mem ∧ (s'.WithinTargets ↔ s.WithinTargets ∧ ¬ s.Spills mem call) := by
  cases call with
  | find i name =>
    unfold Held.step
    obtain hvar | ⟨var, hvar⟩ := Option.eq_none_or_eq_some s.vars[i]?
    · simp only [hvar]
      exact succeeds_skipped id h
    · simp only [hvar]
      exact succeeds_lookup id h (succeeds_find (h.vars var (List.mem_of_getElem? hvar)) name)
  | get i index =>
    unfold Held.step
    obtain hvar | ⟨var, hvar⟩ := Option.eq_none_or_eq_some s.vars[i]?
    · simp only [hvar]
      exact succeeds_skipped id h
    · simp only [hvar]
      exact succeeds_lookup id h (succeeds_get (h.vars var (List.mem_of_getElem? hvar)) index)
  | «at» i pos =>
    unfold Held.step
    obtain hvar | ⟨var, hvar⟩ := Option.eq_none_or_eq_some s.vars[i]?
    · simp only [hvar]
      exact succeeds_skipped id h
    · simp only [hvar]
      exact succeeds_lookup id h (succeeds_at (h.vars var (List.mem_of_getElem? hvar)) pos)
  | begin i =>
    unfold Held.step
    obtain hvar | ⟨var, hvar⟩ := Option.eq_none_or_eq_some s.vars[i]?
    · simp only [hvar]
      exact succeeds_skipped id h
    · simp only [hvar]
      refine .pure ⟨⟨h.vars, fun it hit => ?_⟩, (and_iff_left id).symm⟩
      obtain hit | hit := List.mem_append.1 hit
      · exact h.its it hit
      · exact VARIANT.inside_begin (h.vars var (List.mem_of_getElem? hvar)) it (Option.mem_toList.1 hit)
  | next j =>
    unfold Held.step
    obtain hit | ⟨it, hit⟩ := Option.eq_none_or_eq_some s.its[j]?
    · simp only [hit]
      exact succeeds_skipped id h
    · simp only [hit]
      refine (succeeds_next (h.its it (List.mem_of_getElem? hit))).bind fun r hr => ?_
      obtain _ | ⟨var, it'⟩ := r
      · exact succeeds_skipped id h
      · obtain ⟨hvar, hit'⟩ := hr _ rfl
        refine .pure ⟨⟨fun v hv => ?_, fun i hi => ?_⟩, (and_iff_left id).symm⟩
        · obtain hv | hv := List.mem_append.1 hv
          · exact h.vars v hv
          · rw [List.mem_singleton.1 hv]
            exact hvar
        · obtain hi | rfl := List.mem_or_eq_of_mem_set hi
          · exact h.its i hi
          · exact hit'
  | toInt i size =>
    unfold Held.step
    obtain hvar | ⟨var, hvar⟩ := Option.eq_none_or_eq_some s.vars[i]?
    · simp only [hvar]
      refine succeeds_skipped (fun hspills => ?_) h
      obtain ⟨var, hmem, -⟩ := hspills
      rw [hvar] at hmem
      exact nomatch hmem
    · simp only [hvar]
      have hinside := h.vars var (List.mem_of_getElem? hvar)
      have hspills : s.Spills mem (.toInt i size) ↔ var.Overlong mem size := by
        simp only [Held.Spills, hvar, Option.mem_def, Option.some.injEq, exists_eq_left']
      refine (succeeds_toInt hinside size).bind fun r hr => ?_
      by_cases hnone : (var.uSize = 0 ∨ var.uType ≠ varTypeSInt ∧ var.uType ≠ varTypeUInt) ∨ ∃ b ∈ (var.content mem).2.drop size, b ≠ 0
      · rw [if_pos hnone] at hr
        rw [hr]
        refine succeeds_skipped (fun hs => ?_) h
        obtain ⟨hnumber, hlt, hzero⟩ := hspills.1 hs
        obtain (hempty | ⟨hsint, huint⟩) | ⟨b, hb, hne⟩ := hnone
        · omega
        · exact hnumber.elim hsint huint
        · exact hne (hzero b hb)
      · rw [if_neg hnone] at hr
        rw [hr]
        obtain ⟨hsome, hzero⟩ := not_or.1 hnone
        have hnumber : var.uType = varTypeSInt ∨ var.uType = varTypeUInt := by
          by_contra hother
          exact hsome (.inr (not_or.1 hother))
        have hfits := written_le_iff hinside hnumber (fun b hb => by_contra fun hne => hzero ⟨b, hb, hne⟩) rfl
        refine .pure ⟨⟨h.vars, h.its⟩, ?_⟩
        rw [hspills, ← hfits]
        unfold Held.WithinTargets
        rw [List.forall_mem_append, List.forall_mem_singleton]

/-- The reader never leaves the buffer and always comes to an end. It writes no more than was requested unless some call
copies a number that is longer than its target, with only zeros in what does not fit. -/
theorem readAll_withinTargets_iff (mem : Bytes) (calls : List ReaderCall) : ∃ s, readAll mem calls = .ok s ∧
    (s.WithinTargets ↔ ∀ pre call post t, calls = pre ++ call :: post → readAll mem pre = .ok t → ¬ t.Spills mem call) := by
  have hwhole : 0 + mem.length ≤ mem.length := by omega
  obtain ⟨r, hread, -, hinside⟩ := succeeds_fromBufferAt hwhole
  let s₀ : Held := ⟨(r.map (·.1)).toList, [], []⟩
  have hrun : ∀ calls, readAll mem calls = calls.foldlM (Held.step mem) s₀ := by
    intro calls
    unfold readAll
    rw [hread]
    rfl
  have hstart : s₀.Inside mem := by
    refine ⟨fun var hvar => ?_, fun it hit => nomatch hit⟩
    obtain ⟨e, he, rfl⟩ := Option.mem_map.1 (Option.mem_toList.1 hvar)
    obtain ⟨hle, heq⟩ := hinside e he
    show e.1.pData + e.1.uSize ≤ mem.length
    omega
  obtain ⟨s, hs, -, hG⟩ := Succeeds.foldlM (fun s call (h : Held.Inside mem s) => h.succeeds_step call) calls s₀ hstart
  refine ⟨s, (hrun calls).trans hs, ?_⟩
  rw [hG]
  simp only [hrun]
  exact and_iff_right fun t ht => nomatch ht

end Runs

/-- An eight-byte 5 is copied whole into a target of four bytes. -/
def overlongNumber : Bytes := [varTypeSInt ||| varLen64, 5, 0, 0, 0, 0, 0, 0, 0]

theorem not_withinTargets_overlongNumber :
    ∃ s, readAll overlongNumber [.toInt 0 4] = .ok s ∧ s.targets = [⟨4, [5, 0, 0, 0, 0, 0, 0, 0]⟩] ∧ ¬ s.WithinTargets := by
  refine ⟨⟨[⟨varTypeSInt, 8, 1⟩], [], [⟨4, [5, 0, 0, 0, 0, 0, 0, 0]⟩]⟩, rfl, rfl, fun h => ?_⟩
  exact absurd (h _ (List.mem_singleton.2 rfl)) (by decide)

end MajorPrivacy.Variant

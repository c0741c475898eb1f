/-
Packed variants in C (SVariant.c): decoding, encoding and the look-ups of the reader. A pointer
into a buffer is the list of the bytes from there to the end the caller passes along.
-/
import MajorPrivacy.Variant.Packet

namespace MajorPrivacy.Variant

open LittleEndian

/-- `UCHAR_MAX`, `USHRT_MAX` and the 32-bit `ULONG_MAX` of the Windows compilers. -/
def ucharMax : Nat := 0xFF
def ushrtMax : Nat := 0xFFFF
def ulongMax : Nat := 0xFFFFFFFF

/-! ## Decoding -/

/-- `Variant_ReadSize`: the length, `(uint32)-1` when there is none, and the advanced pointer. -/
def variantReadSize (ptr : Bytes) (size : Nat) : Nat × Bytes :=
  match ptr with
  | [] => (invalidSize, [])
  | type :: ptr =>
    if type &&& varLenField ≠ 0 then
      if type &&& varLenMask = varLen8 ∧ size ≥ 1 + 1 then (ofLE (ptr.take 1), ptr.drop 1)
      else if type &&& varLenMask = varLen16 ∧ size ≥ 1 + 2 then (ofLE (ptr.take 2), ptr.drop 2)
      else if type &&& varLenMask = varLen32 ∧ size ≥ 1 + 4 then (ofLE (ptr.take 4), ptr.drop 4)
      else (invalidSize, ptr)
    else if type &&& varTypeMask = varTypeEmpty then (0, ptr)
    else (implicitSize (type &&& varLenMask), ptr)

/-- `Variant_FromBuffer`; it returns the consumed bytes, 0 for failure. -/
def variantFromBuffer (buffer : Bytes) : Option Decoded :=
  match buffer with
  | [] => none
  | type :: _ =>
    if buffer.length > ulongMax then none
    else
      let (length, data) := variantReadSize buffer buffer.length
      if length = invalidSize ∨ length > data.length then none
      else some ⟨type &&& varTypeMask, data.take length, buffer.length - data.length + length⟩

/-! ## Encoding -/

/-- `Variant_WriteSize`: the header in front of `size` bytes. -/
def variantWriteSize (type : UInt8) (size : Nat) : Bytes :=
  let type := type &&& varTypeMask
  if type = varTypeEmpty then [type]
  else if size = 1 then [type ||| varLen8]
  else if size = 2 then [type ||| varLen16]
  else if size = 4 then [type ||| varLen32]
  else if size = 8 then [type ||| varLen64]
  else if size ≥ ushrtMax then (type ||| varLenField ||| varLen32) :: toLE 4 size
  else if size ≥ ucharMax then (type ||| varLenField ||| varLen16) :: toLE 2 size
  else (type ||| varLenField ||| varLen8) :: toLE 1 size

/-- `Variant_WriteRaw`. -/
def variantWriteRaw (type : UInt8) (data : Bytes) : Bytes :=
  variantWriteSize type data.length ++ data

/-- `Variant_ToBuffer` into a buffer of `maxSize` bytes; the room it asks for is a 32-bit sum. -/
def variantToBuffer (type : UInt8) (data : Bytes) (maxSize : Nat) : Option Bytes :=
  if maxSize < (1 + 4 + data.length) % 2 ^ 32 then none
  else some (variantWriteRaw (type &&& varTypeMask) data)

/-- The header `Variant_Finish` puts in front of `size` bytes in a container with room for
`maxSize`; a static variant has no room of its own. -/
def finishHeader (type : UInt8) (maxSize size : Nat) : Bytes :=
  let type := type &&& varTypeMask
  if maxSize ≥ ushrtMax then (type ||| varLenField ||| varLen32) :: toLE 4 size
  else if maxSize ≥ ucharMax then (type ||| varLenField ||| varLen16) :: toLE 2 size
  else (type ||| varLenField ||| varLen8) :: toLE 1 size

/-! ## Look-ups -/

/-- The loop of `Variant_Find`. In `ptr += Variant_ReadSize(&ptr, ...)` the call comes first. -/
def variantFindLoop (name : Bytes) : Nat → Bytes → Option Decoded
  | 0, _ => none
  | _ + 1, [] => none
  | fuel + 1, curLen :: ptr =>
    if ptr.length ≤ curLen.toNat then none
    else
      let curName := ptr.take curLen.toNat
      let ptr := ptr.drop curLen.toNat
      if name.length = curLen.toNat ∧ curName = name then variantFromBuffer ptr
      else
        let (length, ptr) := variantReadSize ptr ptr.length
        variantFindLoop name fuel (ptr.drop length)

/-- `Variant_Find`. -/
def variantFind (type : EType) (data name : Bytes) : Option Decoded :=
  if data.length = 0 ∨ type ≠ varTypeMap then none
  else variantFindLoop name (data.length + 1) data

/-- The loop of `Variant_Get`. -/
def variantGetLoop (index : Nat) : Nat → Bytes → Option Decoded
  | 0, _ => none
  | fuel + 1, ptr =>
    if ptr.length ≤ 4 then none
    else
      let curIndex := ofLE (ptr.take 4)
      let ptr := ptr.drop 4
      if curIndex = index then variantFromBuffer ptr
      else
        let (length, ptr) := variantReadSize ptr ptr.length
        variantGetLoop index fuel (ptr.drop length)

/-- `Variant_Get`. -/
def variantGet (type : EType) (data : Bytes) (index : Nat) : Option Decoded :=
  if data.length = 0 ∨ type ≠ varTypeIndex then none
  else variantGetLoop index (data.length + 1) data

/-- The loop of `Variant_At`; `pos` counts down and is never 0 again once it is negative. -/
def variantAtLoop : Nat → Int → Bytes → Option Decoded
  | 0, _, _ => none
  | fuel + 1, pos, ptr =>
    if ptr = [] then none
    else if pos = 0 then variantFromBuffer ptr
    else
      let (length, ptr) := variantReadSize ptr ptr.length
      variantAtLoop fuel (pos - 1) (ptr.drop length)

/-- `Variant_At`. -/
def variantAt (type : EType) (data : Bytes) (pos : Int) : Option Decoded :=
  if data.length = 0 ∨ type ≠ varTypeList then none
  else variantAtLoop (data.length + 1) pos data

end MajorPrivacy.Variant

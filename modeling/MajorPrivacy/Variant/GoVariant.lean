/-
Packed variants in Go (variant.go): decoding, encoding and the look-ups. A slice from an offset to
the end is the list of its bytes.
-/
import MajorPrivacy.Variant.Packet

namespace MajorPrivacy.Variant

open LittleEndian

inductive GoError
  | errInvalidFormat
  | errBufferTooSmall
  | errTypeMismatch
  | errNotFound
  deriving DecidableEq, Repr

/-! ## Decoding -/

/-- `readSize`: the length and the number of bytes of the length field. -/
def goReadSize (buffer : Bytes) (typeByte : UInt8) : Except GoError (Nat × Nat) :=
  if typeByte &&& varTypeMask = varTypeEmpty then .ok (0, 0)
  else if typeByte &&& varLenField ≠ 0 then
    if typeByte &&& varLenMask = varLen8 then
      if buffer.length < 2 then .error .errBufferTooSmall
      else .ok (ofLE ((buffer.drop 1).take 1), 1)
    else if typeByte &&& varLenMask = varLen16 then
      if buffer.length < 3 then .error .errBufferTooSmall
      else .ok (ofLE ((buffer.drop 1).take 2), 2)
    else if typeByte &&& varLenMask = varLen32 then
      if buffer.length < 5 then .error .errBufferTooSmall
      else .ok (ofLE ((buffer.drop 1).take 4), 4)
    else .error .errInvalidFormat
  else .ok (implicitSize (typeByte &&& varLenMask), 0)

/-- `FromBuffer`. -/
def goFromBuffer (buffer : Bytes) : Except GoError Decoded :=
  match buffer with
  | [] => .error .errInvalidFormat
  | typeByte :: _ =>
    match goReadSize buffer typeByte with
    | .error e => .error e
    | .ok (length, bytesRead) =>
      let offset := 1 + bytesRead
      if offset + length > buffer.length then .error .errBufferTooSmall
      else .ok ⟨typeByte &&& varTypeMask, (buffer.drop offset).take length, offset + length⟩

/-! ## Encoding -/

/-- The header `writeToBuffer` puts in front of `dataLen` bytes. -/
def goHeader (varType : EType) (dataLen : Nat) : Bytes :=
  if varType = varTypeEmpty then [varTypeEmpty]
  else if dataLen = 1 then [varType ||| varLen8]
  else if dataLen = 2 then [varType ||| varLen16]
  else if dataLen = 4 then [varType ||| varLen32]
  else if dataLen = 8 then [varType ||| varLen64]
  else if dataLen ≥ 65535 then (varType ||| varLenField ||| varLen32) :: toLE 4 dataLen
  else if dataLen ≥ 255 then (varType ||| varLenField ||| varLen16) :: toLE 2 dataLen
  else (varType ||| varLenField ||| varLen8) :: toLE 1 dataLen

/-- `ToBuffer`. -/
def goToBuffer (varType : EType) (data : Bytes) : Bytes :=
  goHeader varType data.length ++ data

/-! ## Look-ups -/

/-- The loop of `Find`. -/
def goFindLoop (name : Bytes) : Nat → Bytes → Except GoError Decoded
  | 0, _ => .error .errNotFound
  | _ + 1, [] => .error .errNotFound
  | fuel + 1, keyLen :: data =>
    if keyLen.toNat > data.length then .error .errNotFound
    else
      let key := data.take keyLen.toNat
      let data := data.drop keyLen.toNat
      if key = name then goFromBuffer data
      else match goFromBuffer data with
        | .error e => .error e
        | .ok skipped => goFindLoop name fuel (data.drop skipped.consumed)

/-- `Find`. -/
def goFind (varType : EType) (data name : Bytes) : Except GoError Decoded :=
  if varType ≠ varTypeMap then .error .errTypeMismatch
  else goFindLoop name (data.length + 1) data

/-- The loop of `Get`. -/
def goGetLoop (index : Nat) : Nat → Bytes → Except GoError Decoded
  | 0, _ => .error .errNotFound
  | fuel + 1, data =>
    if data.length < 4 then .error .errNotFound
    else
      let curIndex := ofLE (data.take 4)
      let data := data.drop 4
      if curIndex = index then goFromBuffer data
      else match goFromBuffer data with
        | .error e => .error e
        | .ok skipped => goGetLoop index fuel (data.drop skipped.consumed)

/-- `Get`. -/
def goGet (varType : EType) (data : Bytes) (index : Nat) : Except GoError Decoded :=
  if varType ≠ varTypeIndex then .error .errTypeMismatch
  else goGetLoop index (data.length + 1) data

/-- The loop of `At`; `pos - currentPos` is carried. -/
def goAtLoop : Nat → Int → Bytes → Except GoError Decoded
  | 0, _, _ => .error .errNotFound
  | fuel + 1, pos, data =>
    if data = [] then .error .errNotFound
    else if pos = 0 then goFromBuffer data
    else match goFromBuffer data with
      | .error e => .error e
      | .ok skipped => goAtLoop fuel (pos - 1) (data.drop skipped.consumed)

/-- `At`. -/
def goAt (varType : EType) (data : Bytes) (pos : Int) : Except GoError Decoded :=
  if varType ≠ varTypeList then .error .errTypeMismatch
  else goAtLoop (data.length + 1) pos data

end MajorPrivacy.Variant

/-
Packed variants in C++: `CVariant::ReadHeader`, the reading half of `FromPacket`, the writing half
of `ToPacket`, and the look-ups `CVariantReader` makes in an unparsed payload. A `CBuffer` that is
read is the list of the bytes left in it; one that is written is the list of the bytes written.
-/
import MajorPrivacy.Variant.Defs

namespace MajorPrivacy.Variant

open LittleEndian

/-- `CVariant::EResult`, without the value for success. -/
inductive EResult
  | eErrNotWritable
  | eErrInvalidName
  | eErrTypeMismatch
  | eErrNotFound
  | eErrBufferShort
  | eErrIsEmpty
  | eErrInvalidHeader
  | eErrBufferWriteFailed
  | eErrIndexOutOfBounds
  | eErrIntegerOverflow
  deriving DecidableEq, Repr

/-- What a decoder reports: the type, the payload and how many bytes it consumed. -/
structure Decoded where
  type : EType
  payload : Bytes
  consumed : Nat
  deriving DecidableEq, Repr

/-! ## Reading -/

/-- `CBuffer::ReadData`: the next `n` bytes and what is left behind them. -/
def readData (packet : Bytes) (n : Nat) : Option (Bytes × Bytes) :=
  if n ≤ packet.length then some (packet.take n, packet.drop n) else none

/-- `CBuffer::ReadValue` of an unsigned number of `w` bytes. -/
def readValue (w : Nat) (packet : Bytes) : Option (Nat × Bytes) :=
  (readData packet w).map fun (data, left) => (ofLE data, left)

/-- `CVariant::ReadHeader`: the type, the size of the payload and the bytes left behind the
header; `none` where the source returns `0xFFFFFFFF` itself. -/
def readHeader : Bytes → Option (EType × Nat × Bytes)
  | [] => none
  | type :: packet =>
    let read :=
      if type &&& varLenField ≠ 0 then
        if type &&& varLenMask = varLen8 then readValue 1 packet
        else if type &&& varLenMask = varLen16 then readValue 2 packet
        else readValue 4 packet -- VAR_LEN32 or packed, in either case the length is 32 bit
      else if type &&& varTypeMask = varTypeEmpty then some (0, packet)
      else some (implicitSize (type &&& varLenMask), packet)
    match read with
    | none => none
    | some (size, left) =>
      if left.length < size then none else some (type &&& varTypeMask, size, left)

/-- The reading half of `CVariant::FromPacket`: type, payload and the bytes left behind it. -/
def readPacket (packet : Bytes) : Except EResult (EType × Bytes × Bytes) :=
  match readHeader packet with
  | none => .error .eErrInvalidHeader
  | some (type, size, left) =>
    if size = invalidSize then .error .eErrInvalidHeader
    else match readData left size with
      | none => .error .eErrBufferShort
      | some (data, left) => .ok (type, data, left)

/-- `CVariant::FromPacket` as a decoder of byte strings. -/
def cppFromPacket (packet : Bytes) : Option Decoded :=
  match readPacket packet with
  | .ok (type, data, left) => some ⟨type, data, packet.length - left.length⟩
  | .error _ => none

/-! ## Writing -/

/-- The header `CVariant::ToPacket` writes in front of `length` bytes. -/
def packetHeader (type : EType) (length : Nat) : Bytes :=
  if type = varTypeEmpty then [type]
  else if length = 1 then [type ||| varLen8]
  else if length = 2 then [type ||| varLen16]
  else if length = 4 then [type ||| varLen32]
  else if length = 8 then [type ||| varLen64]
  else if length > 0xFFFF then (type ||| varLenField ||| varLen32) :: toLE 4 length
  else if length > 0xFF then (type ||| varLenField ||| varLen16) :: toLE 2 length
  else (type ||| varLenField ||| varLen8) :: toLE 1 length

/-- The static `CVariant::ToPacket`. -/
def toPacket (type : EType) (payload : Bytes) : Bytes :=
  packetHeader type payload.length ++ payload

/-! ## Look-ups in a payload that has not been parsed -/

/-- The loop of `CVariantReader::Find` by name. -/
def findNameLoop (name : Bytes) : Nat → Bytes → Except EResult (EType × Bytes)
  | 0, _ => .error .eErrNotFound
  | _ + 1, [] => .error .eErrNotFound
  | fuel + 1, len :: packet =>
    match readData packet len.toNat with
    | none => .error .eErrInvalidName
    | some (cur, packet) =>
      if cur.length = name.length ∧ name = cur then
        (readPacket packet).map fun (type, data, _) => (type, data)
      else match readHeader packet with
        | none => .error .eErrInvalidHeader
        | some (_, size, left) =>
          if size = invalidSize then .error .eErrInvalidHeader
          else match readData left size with
            | none => .error .eErrBufferShort
            | some (_, left) => findNameLoop name fuel left

/-- `CVariantReader::Find` by name on an unparsed map; the payload bounds the iterations. -/
def rawFindName (payload name : Bytes) : Except EResult (EType × Bytes) :=
  findNameLoop name (payload.length + 1) payload

/-- The loop of `CVariantReader::Find` by id. -/
def findIdLoop (id : Nat) : Nat → Bytes → Except EResult (EType × Bytes)
  | 0, _ => .error .eErrNotFound
  | fuel + 1, packet =>
    if packet = [] then .error .eErrNotFound
    else match readValue 4 packet with
      | none => .error .eErrBufferShort
      | some (index, packet) =>
        if index = id then (readPacket packet).map fun (type, data, _) => (type, data)
        else match readHeader packet with
          | none => .error .eErrInvalidHeader
          | some (_, size, left) =>
            if size = invalidSize then .error .eErrInvalidHeader
            else match readData left size with
              | none => .error .eErrBufferShort
              | some (_, left) => findIdLoop id fuel left

/-- `CVariantReader::Find` by id on an unparsed index. -/
def rawFindId (payload : Bytes) (id : Nat) : Except EResult (EType × Bytes) :=
  findIdLoop id (payload.length + 1) payload

/-- The loop of `CVariantReader::ReadRawList`: the elements handed to the callback, and the error
that ended it early. -/
def readRawListLoop : Nat → Bytes → List (EType × Bytes) × Option EResult
  | 0, _ => ([], none)
  | fuel + 1, packet =>
    if packet = [] then ([], none)
    else match readPacket packet with
      | .error e => ([], some e)
      | .ok (type, data, left) =>
        let (rest, e) := readRawListLoop fuel left
        ((type, data) :: rest, e)

def readRawList (payload : Bytes) : List (EType × Bytes) × Option EResult :=
  readRawListLoop (payload.length + 1) payload

/-- The loop of `CVariantReader::ReadRawIndex`. -/
def readRawIndexLoop : Nat → Bytes → List (Nat × EType × Bytes) × Option EResult
  | 0, _ => ([], none)
  | fuel + 1, packet =>
    if packet = [] then ([], none)
    else match readValue 4 packet with
      | none => ([], some .eErrBufferShort)
      | some (index, packet) =>
        match readPacket packet with
        | .error e => ([], some e)
        | .ok (type, data, left) =>
          let (rest, e) := readRawIndexLoop fuel left
          ((index, type, data) :: rest, e)

def readRawIndex (payload : Bytes) : List (Nat × EType × Bytes) × Option EResult :=
  readRawIndexLoop (payload.length + 1) payload

/-- The loop of `CVariantReader::ReadRawMap`. -/
def readRawMapLoop : Nat → Bytes → List (Bytes × EType × Bytes) × Option EResult
  | 0, _ => ([], none)
  | _ + 1, [] => ([], none)
  | fuel + 1, len :: packet =>
    match readData packet len.toNat with
    | none => ([], some .eErrInvalidName)
    | some (name, packet) =>
      match readPacket packet with
      | .error e => ([], some e)
      | .ok (type, data, left) =>
        let (rest, e) := readRawMapLoop fuel left
        ((name, type, data) :: rest, e)

def readRawMap (payload : Bytes) : List (Bytes × EType × Bytes) × Option EResult :=
  readRawMapLoop (payload.length + 1) payload

end MajorPrivacy.Variant

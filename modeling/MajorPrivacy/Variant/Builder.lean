/-
The in-place builder of SVariant.c: containers prepared one inside the other in one buffer. A
`VARIANT` that is being filled is kept on a stack, the innermost first; `pData` is an offset into
the buffer, and a write that would leave the buffer is a fault.
-/
import MajorPrivacy.Lib.Memory
import MajorPrivacy.Variant.Interop

namespace MajorPrivacy.Variant

open LittleEndian Memory

def varErrBadSize : UInt8 := 1
def varErrBadType : UInt8 := 2

/-- `VARIANT`, as `Variant_Init` sets it up. -/
structure SVariant where
  uType : UInt8
  bError : UInt8
  uSize : Nat
  uMaxSize : Nat
  pData : Nat
  deriving DecidableEq, Repr

/-- The header `Variant_Prepare` leaves room for, by the room there is. -/
def prepareHeaderSize (uMaxSize : Nat) : Nat :=
  if uMaxSize ≥ ushrtMax then 1 + 4 else if uMaxSize ≥ ucharMax then 1 + 2 else 1 + 1

/-- `Variant_Prepare`: the room is a 64-bit number and becomes a 32-bit one in the `VARIANT`. -/
def variantPrepare (uType : UInt8) (pBuffer uMaxSize : Nat) : SVariant :=
  let uMaxSize := (uMaxSize + 2 ^ 64 - (1 + 4)) % 2 ^ 64
  ⟨uType, 0, 0, uMaxSize % 2 ^ 32, pBuffer + prepareHeaderSize uMaxSize⟩

/-- `Variant_Finish` on a prepared variant: the bytes it takes with its header, 0 if it is in error
or empty. A prepared type has five bits, so the variant is not a static one. -/
def variantFinish (mem : Bytes) (pBuffer : Nat) (var : SVariant) : Option (Bytes × Nat) :=
  if var.bError ≠ 0 then some (mem, 0)
  else if var.uType ≠ varTypeEmpty then
    let header := finishHeader var.uType var.uMaxSize var.uSize
    (writeAt mem pBuffer header).map (·, header.length + var.uSize)
  else some (mem, 0)

/-! ## Entries -/

/-- What an entry goes under: a name in a map, an id in an index, nothing in a list. -/
inductive Key
  | name (name : Bytes)
  | id (index : UInt32)
  | none
  deriving DecidableEq, Repr

/-- The container the key belongs in. -/
def Key.container : Key → UInt8
  | .name _ => varTypeMap
  | .id _ => varTypeIndex
  | .none => varTypeList

/-- What is stored in front of the value. -/
def Key.bytes : Key → Bytes
  | .name n => nameKey n
  | .id index => idKey index
  | .none => []

/-- `Variant_InsertRaw`, `Variant_AddRaw` and `Variant_AppendRaw`, which differ in the key; whether
they returned a pointer. Without a value (`in` is NULL) only the key is stored. An `in` of -1 reserves
the value for the caller to fill in, which is as good as handing in what it fills in. -/
def insertRaw (mem : Bytes) (var : SVariant) (key : Key) (type : UInt8) (value : Option Bytes) :
    Option (Bytes × SVariant × Bool) :=
  let uType := if var.uType = varTypeEmpty then key.container else var.uType
  if uType ≠ key.container then some (mem, { var with bError := var.bError ||| varErrBadType }, false)
  else if (var.uMaxSize + 2 ^ 32 - var.uSize) % 2 ^ 32 < key.bytes.length + 1 + 4 + (value.getD []).length then
    some (mem, { var with uType := uType, bError := var.bError ||| varErrBadSize }, false)
  else
    let data := key.bytes ++ (value.map (variantWriteRaw type)).getD []
    (writeAt mem (var.pData + var.uSize) data).map fun mem =>
      (mem, { var with uType := uType, uSize := var.uSize + data.length }, true)

def variantInsertRaw (mem : Bytes) (var : SVariant) (name : Bytes) := insertRaw mem var (.name name)
def variantAddRaw (mem : Bytes) (var : SVariant) (index : UInt32) := insertRaw mem var (.id index)
def variantAppendRaw (mem : Bytes) (var : SVariant) := insertRaw mem var .none

/-- `Variant_PrepareEntry`. -/
def variantPrepareEntry (var : SVariant) (type : UInt8) : SVariant :=
  variantPrepare type (var.pData + var.uSize) ((var.uMaxSize + 2 ^ 32 - var.uSize) % 2 ^ 32)

/-- `Variant_PrepareInsert`, `Variant_PrepareAdd` and `Variant_PrepareAppend`: the container and the
variant prepared in it. -/
def variantPrepareKey (mem : Bytes) (var : SVariant) (key : Key) (type : UInt8) :
    Option (Bytes × SVariant × Option SVariant) :=
  (insertRaw mem var key 0 none).map fun (mem, var, ok) =>
    (mem, var, if ok then some (variantPrepareEntry var type) else none)

/-- `Variant_FinishEntry`. -/
def variantFinishEntry (mem : Bytes) (var out_var : SVariant) : Option (Bytes × SVariant) :=
  (variantFinish mem (var.pData + var.uSize) out_var).map fun (mem, len) =>
    (mem, { var with uSize := var.uSize + len })

/-! ## Runs -/

/-- A buffer and the variants being filled in it. -/
structure Builder where
  mem : Bytes
  stack : List SVariant

/-- The calls on the innermost variant. -/
inductive Call
  | insert (key : Key) (type : UInt8) (value : Option Bytes)
  | prepare (key : Key) (type : UInt8)
  | finishEntry
  deriving DecidableEq, Repr

inductive Fault
  /-- A write outside the buffer. -/
  | outside
  /-- A call that is not properly nested. -/
  | notNested
  deriving DecidableEq, Repr

/-- One call, and whether it reported success. -/
def Builder.step (b : Builder) : Call → Except Fault (Builder × Bool)
  | .insert key type value =>
    match b.stack with
    | [] => .error .notNested
    | var :: stack =>
      match insertRaw b.mem var key type value with
      | none => .error .outside
      | some (mem, var, ok) => .ok (⟨mem, var :: stack⟩, ok)
  | .prepare key type =>
    match b.stack with
    | [] => .error .notNested
    | var :: stack =>
      match variantPrepareKey b.mem var key type with
      | none => .error .outside
      | some (mem, var, none) => .ok (⟨mem, var :: stack⟩, false)
      | some (mem, var, some out_var) => .ok (⟨mem, out_var :: var :: stack⟩, true)
  | .finishEntry =>
    match b.stack with
    | out_var :: var :: stack =>
      match variantFinishEntry b.mem var out_var with
      | none => .error .outside
      | some (mem, var) => .ok (⟨mem, var :: stack⟩, true)
    | _ => .error .notNested

/-- `Variant_Prepare` at the beginning of a buffer. -/
def Builder.prepare (mem : Bytes) (type : UInt8) : Builder := ⟨mem, [variantPrepare type 0 mem.length]⟩

end MajorPrivacy.Variant

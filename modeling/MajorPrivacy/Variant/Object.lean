/-
`CVariant` objects (Variant.cpp): where a payload is stored, and how the payload of a container is
parsed into a table or a list of objects.
-/
import MajorPrivacy.Core.Table
import MajorPrivacy.Variant.Packet

namespace MajorPrivacy.Variant

open LittleEndian MajorPrivacy.Core

/-- `VAR_DATA_SIZE`. -/
def varDataSize : Nat := 8

/-- `VAR_EMBEDDED_SIZE`. -/
def varEmbeddedSize : Nat := 14

/-- Where an object has its payload: in its data field, in the whole of its body, in memory of its
own, in a shared buffer or string, or in a container; of a container the object has the address and
the payload size it noted before. -/
inductive Store
  | data (bytes : Bytes)
  | embedded (bytes : Bytes)
  | rawPayload (bytes : Bytes)
  | shared (bytes : Bytes)
  | container (addr : Nat) (uPayloadSize : Nat)
  deriving DecidableEq, Repr

structure CVariant where
  type : EType
  bReadOnly : Bool
  store : Store
  deriving DecidableEq, Repr

/-- An empty variant, as `Clear` leaves it. -/
def CVariant.empty : CVariant := ⟨varTypeEmpty, false, .data []⟩

/-- The storage for a payload by its size. -/
def storeOf (value : Bytes) : Store :=
  if value.length ≤ varDataSize then .data value
  else if value.length ≤ varEmbeddedSize then .embedded value
  else .rawPayload value

/-- `CVariant::InitValue` from a value that is not taken over. -/
def initValue (type : EType) (value : Bytes) : CVariant :=
  if type = varTypeEmpty ∨ value = [] then ⟨type, false, .data []⟩ else ⟨type, false, storeOf value⟩

/-- The object `CVariant::InitAssign` makes; of a container it shares, only its count changes. -/
def CVariant.copied (from_ : CVariant) : CVariant :=
  if from_.type = varTypeEmpty then .empty
  else match from_.store with
    | .data value | .embedded value | .rawPayload value => initValue from_.type value
    | .shared value => ⟨from_.type, false, .shared value⟩
    | .container addr uPayloadSize => ⟨from_.type, false, .container addr uPayloadSize⟩

/-- `CVariant::FromPacket` into an object of its own, with what is left of the packet. -/
def fromPacket (packet : Bytes) : Except EResult (CVariant × Bytes) :=
  (readPacket packet).map fun (type, data, left) => (⟨type, true, storeOf data⟩, left)

/-! ## Parsing a payload -/

/-- `SMap` and `SIndex` as `AllocMap` and `AllocIndex` make them. -/
def allocTable (K : Type) (bucketCount : Nat) : Table K CVariant := ⟨List.replicate bucketCount [], 0⟩

/-- `SList`: the elements and for how many there is room. -/
structure SList where
  data : List CVariant
  capacity : Nat
  deriving DecidableEq, Repr

def allocList (capacity : Nat) : SList := ⟨[], capacity⟩

/-- The loop of `GetMap`. The element is read as a view of the payload and copied into its entry at
once, which makes it an object of its own that can be written. -/
def parseMapLoop : Nat → Bytes → Table Bytes CVariant → Except EResult (Table Bytes CVariant)
  | 0, _, map => .ok map
  | _ + 1, [], map => .ok map
  | fuel + 1, len :: packet, map =>
    match readData packet len.toNat with
    | none => .error .eErrInvalidName
    | some (name, packet) =>
      match readPacket packet with
      | .error e => .error e
      | .ok (type, data, left) => parseMapLoop fuel left (map.insertValue name (initValue type data))

/-- The parsing half of `GetMap`; the payload bounds the iterations. -/
def parseMap (payload : Bytes) : Except EResult (Table Bytes CVariant) :=
  parseMapLoop (payload.length + 1) payload (allocTable Bytes 4)

/-- The loop of `GetIndex`. -/
def parseIndexLoop : Nat → Bytes → Table UInt32 CVariant → Except EResult (Table UInt32 CVariant)
  | 0, _, index => .ok index
  | fuel + 1, packet, index =>
    if packet = [] then .ok index
    else match readValue 4 packet with
      | none => .error .eErrBufferShort
      | some (id, packet) =>
        match readPacket packet with
        | .error e => .error e
        | .ok (type, data, left) => parseIndexLoop fuel left (index.insertValue (UInt32.ofNat id) (initValue type data))

def parseIndex (payload : Bytes) : Except EResult (Table UInt32 CVariant) :=
  parseIndexLoop (payload.length + 1) payload (allocTable UInt32 4)

/-- The growth of `ListAppend`: a full list is copied into one with half as much room again. -/
def SList.grow (list : SList) : SList :=
  if list.data.length ≥ list.capacity then ⟨list.data.map CVariant.copied, list.capacity * 3 / 2⟩ else list

/-- `ListAppend`. -/
def SList.append (list : SList) (value : CVariant) : SList :=
  ⟨list.grow.data ++ [value], list.grow.capacity⟩

/-- The loop of `GetList`. -/
def parseListLoop : Nat → Bytes → SList → Except EResult SList
  | 0, _, list => .ok list
  | fuel + 1, packet, list =>
    if packet = [] then .ok list
    else match readPacket packet with
      | .error e => .error e
      | .ok (type, data, left) => parseListLoop fuel left (list.append (initValue type data))

def parseList (payload : Bytes) : Except EResult SList :=
  parseListLoop (payload.length + 1) payload (allocList 4)

/-! ## Objects that are copied as they are -/

theorem copied_initValue (type : EType) (value : Bytes) : (initValue type value).copied = initValue type value := by
  unfold initValue
  by_cases h : type = varTypeEmpty ∨ value = []
  · rw [if_pos h]
    by_cases he : type = varTypeEmpty
    · subst he
      rfl
    · simp [CVariant.copied, he, initValue]
  · rw [if_neg h]
    obtain ⟨he, hv⟩ := not_or.1 h
    have hself : initValue type value = ⟨type, false, storeOf value⟩ := by rw [initValue, if_neg h]
    rw [← hself]
    have hstore : (initValue type value).store = storeOf value := by rw [hself]
    have htype : (initValue type value).type = type := by rw [hself]
    unfold CVariant.copied
    rw [htype, if_neg he, hstore]
    unfold storeOf
    split_ifs <;> rfl

/-- Growing a list copies its elements, which the objects of a packet are not changed by. -/
theorem data_append {list : SList} (h : ∀ v ∈ list.data, v.copied = v) (v : CVariant) :
    (list.append v).data = list.data ++ [v] := by
  unfold SList.append SList.grow
  split
  · rw [List.map_congr_left h, List.map_id']
  · rfl

end MajorPrivacy.Variant

/-
A `CVariant` with what it points at (Variant.cpp): the payload in its body or in memory of its own,
a buffer or string it shares, or a container of further variants. Nothing here writes to what is
shared, so a value is a tree; the object of a tree that is meant is its root.
-/
import MajorPrivacy.Core.Table
import MajorPrivacy.Variant.Packet
import MajorPrivacy.Variant.Text

namespace MajorPrivacy.Variant

open LittleEndian MajorPrivacy.Core

/-- What an object with a container keeps of the payload it was parsed from: `pRawPayload`, for which
the payload has to have had memory of its own, and `m_uPayloadSize`, which the body of an embedded
payload was laid over. -/
structure Parsed where
  bReadOnly : Bool
  pRawPayload : Option Bytes
  uPayloadSize : Nat
  deriving DecidableEq, Repr

/-- What is left of the payload a container was parsed from. `SetBuffer` allocates where it gets no
data, so `none` stands for bytes nobody has set. -/
def Parsed.payload (parsed : Parsed) : Option Bytes :=
  match parsed.pRawPayload with
  | some raw => some (raw.take parsed.uPayloadSize)
  | none => if parsed.uPayloadSize = 0 then some [] else none

inductive Content
  | flat (type : EType) (bReadOnly : Bool) (payload : Bytes)
  | buffer (data : Bytes)
  | strA (type : EType) (str : Bytes)
  | strW (str : List UInt16)
  | map (parsed : Parsed) (map : Table Bytes Content)
  | list (parsed : Parsed) (list : List Content)
  | index (parsed : Parsed) (index : Table UInt32 Content)

/-- The bytes of a string that its size, noted in 32 bits, says there are. -/
def sized (bytes : Bytes) : Bytes := bytes.take (bytes.length % 2 ^ 32)

namespace Content

theorem sizeOf_lt_of_mem_table {K : Type} [SizeOf K] {t : Table K Content} {e : K × Content} (h : e ∈ t.toList) :
    sizeOf e.2 < sizeOf t := by
  have ht := Table.sizeOf_lt_of_mem_toList h
  have he : sizeOf e.2 < sizeOf e := by
    rcases e with ⟨k, v⟩
    simp only [Prod.mk.sizeOf_spec]
    omega
  omega

/-- What holds of a value when it holds of the values in it holds of every value. -/
theorem induct {motive : Content → Prop} (flat : ∀ type ro payload, motive (.flat type ro payload))
    (buffer : ∀ data, motive (.buffer data)) (strA : ∀ type str, motive (.strA type str))
    (strW : ∀ str, motive (.strW str))
    (map : ∀ p t, (∀ e ∈ t.toList, motive e.2) → motive (.map p t))
    (list : ∀ p l, (∀ v ∈ l, motive v) → motive (.list p l))
    (index : ∀ p t, (∀ e ∈ t.toList, motive e.2) → motive (.index p t)) : ∀ v, motive v
  | .flat type ro payload => flat type ro payload
  | .buffer data => buffer data
  | .strA type str => strA type str
  | .strW str => strW str
  | .map p t => map p t fun e _ => induct flat buffer strA strW map list index e.2
  | .list p l => list p l fun v _ => induct flat buffer strA strW map list index v
  | .index p t => index p t fun e _ => induct flat buffer strA strW map list index e.2
  termination_by v => sizeOf v
  decreasing_by
    all_goals simp only [Content.map.sizeOf_spec, Content.list.sizeOf_spec, Content.index.sizeOf_spec]
    · have := sizeOf_lt_of_mem_table ‹_›; omega
    · have := List.sizeOf_lt_of_mem ‹_›; omega
    · have := sizeOf_lt_of_mem_table ‹_›; omega

/-! ## What an object says of itself -/

def getType : Content → EType
  | .flat type _ _ => type
  | .buffer _ => varTypeBytes
  | .strA type _ => type
  | .strW _ => varTypeUnicode
  | .map _ _ => varTypeMap
  | .list _ _ => varTypeList
  | .index _ _ => varTypeIndex

/-- The length byte and the characters `MkPayload` writes for a name. -/
def nameBytes (name : Bytes) : Bytes :=
  let Len := UInt8.ofNat name.length
  Len :: name.take Len.toNat

/-- Byte strings written one behind the other. -/
def writeAll : List (Option Bytes) → Option Bytes
  | [] => some []
  | bytes :: rest => bytes.bind fun bytes => (writeAll rest).map (bytes ++ ·)

/-- `MkPayload`: a container that is not read-only is serialised. -/
def mkPayload : Content → Option Bytes
  | .flat _ _ payload => some payload
  | .buffer data => some data
  | .strA _ str => some (sized str)
  | .strW str => some (sized (wideBytes str))
  | .map p t =>
    if p.bReadOnly then p.payload
    else writeAll (t.toList.attach.map fun ⟨e, _⟩ => (mkPayload e.2).map fun bytes => nameBytes e.1 ++ Variant.toPacket e.2.getType bytes)
  | .list p l =>
    if p.bReadOnly then p.payload
    else writeAll (l.map fun v => (mkPayload v).map fun bytes => Variant.toPacket v.getType bytes)
  | .index p t =>
    if p.bReadOnly then p.payload
    else writeAll (t.toList.attach.map fun ⟨e, _⟩ => (mkPayload e.2).map fun bytes =>
      toLE 4 e.1.toNat ++ Variant.toPacket e.2.getType bytes)
  termination_by v => sizeOf v
  decreasing_by
    all_goals simp only [Content.map.sizeOf_spec, Content.list.sizeOf_spec, Content.index.sizeOf_spec]
    · have := sizeOf_lt_of_mem_table ‹_›; omega
    · have := List.sizeOf_lt_of_mem ‹_›; omega
    · have := sizeOf_lt_of_mem_table ‹_›; omega

/-- `ToPacket`. -/
def toPacket (v : Content) : Option Bytes := v.mkPayload.map (Variant.toPacket v.getType)

/-- `Compare` of two values gives 0. -/
def compareEqual (l r : Content) : Prop := l.mkPayload = r.mkPayload

/-- The text of a payload by the type it has. -/
def stringOf (type : EType) (payload : Bytes) : Except EResult (List UInt16) :=
  if type = varTypeEmpty then .error .eErrIsEmpty
  else if type = varTypeUnicode then .ok (wideUnits payload)
  else if type = varTypeUtf8 then .ok (fromUtf8 payload)
  else if type = varTypeAscii ∨ type = varTypeBytes then .ok (widen payload)
  else .error .eErrTypeMismatch

/-- `GetStringW`; a wide string that is shared is attached as it is. -/
def getStringW : Content → Except EResult (List UInt16)
  | .flat type _ payload => stringOf type payload
  | .buffer data => stringOf varTypeBytes data
  | .strA type str => stringOf type (sized str)
  | .strW str => .ok str
  | .map _ _ | .list _ _ | .index _ _ => .error .eErrTypeMismatch

/-! ## Copies -/

/-- `InitValue` from a value that is not taken over. -/
def ofBytes (type : EType) (payload : Bytes) : Content :=
  if type = varTypeEmpty then .flat type false [] else .flat type false payload

/-- What a container made for a clone keeps. -/
def unparsed : Parsed := ⟨false, none, 0⟩

/-- `AllocMap` and `AllocIndex`. -/
def allocTable (K : Type) (bucketCount : Nat) : Table K Content := ⟨List.replicate bucketCount [], 0⟩

/-- `MapInsert` and `IndexInsert` without the look-up, entry by entry. -/
def insertAll {K : Type} [Hasher K] (entries : List (K × Content)) (t : Table K Content) : Table K Content :=
  entries.foldl (fun t e => t.insertValue e.1 e.2) t

/-- `Clone` with its `CloneMap`, `CloneList` and `CloneIndex` in full. A string gets back the default
of `InitFromStringA`, and `AllocStringW` takes its length for a size in bytes. -/
def clone : Content → Content
  | .flat type _ payload => ofBytes type payload
  | .buffer data => .buffer data
  | .strA _ str => .strA varTypeAscii str
  | .strW str => .strW (str.take (str.length / 2))
  | .map _ t => .map unparsed (insertAll (t.toList.attach.map fun ⟨e, _⟩ => (e.1, clone e.2)) (allocTable Bytes t.buckets.length))
  | .list _ l => .list unparsed (l.map fun v => clone v)
  | .index _ t => .index unparsed (insertAll (t.toList.attach.map fun ⟨e, _⟩ => (e.1, clone e.2)) (allocTable UInt32 t.buckets.length))
  termination_by v => sizeOf v
  decreasing_by
    all_goals simp only [Content.map.sizeOf_spec, Content.list.sizeOf_spec, Content.index.sizeOf_spec]
    · have := sizeOf_lt_of_mem_table ‹_›; omega
    · have := List.sizeOf_lt_of_mem ‹_›; omega
    · have := sizeOf_lt_of_mem_table ‹_›; omega

/-- `InitAssign` from a value of the same memory pool: what is shared stays so, the flags do not. -/
def shared : Content → Content
  | .flat type _ payload => ofBytes type payload
  | .buffer data => .buffer data
  | .strA type str => .strA type str
  | .strW str => .strW str
  | .map p t => .map { p with bReadOnly := false } t
  | .list p l => .list { p with bReadOnly := false } l
  | .index p t => .index { p with bReadOnly := false } t

/-- `FromPacket` into an object of its own. -/
def fromPacket (packet : Bytes) : Except EResult (Content × Bytes) :=
  (readPacket packet).map fun (type, data, left) => (.flat type true data, left)

/-- What `GetMap`, `GetList` and `GetIndex` make of a container that others hold too when it is to be
written: a full clone of it takes its place, and the flags of the object stay. -/
def exclusive : Content → Content
  | .map p t => .map ⟨p.bReadOnly, none, 0⟩
      (insertAll (t.toList.map fun e => (e.1, clone e.2)) (allocTable Bytes t.buckets.length))
  | .list p l => .list ⟨p.bReadOnly, none, 0⟩ (l.map clone)
  | .index p t => .index ⟨p.bReadOnly, none, 0⟩
      (insertAll (t.toList.map fun e => (e.1, clone e.2)) (allocTable UInt32 t.buckets.length))
  | v => v

/-! ### Equations -/

/-- The bytes of an entry of a map. -/
def mapEntry (e : Bytes × Content) : Option Bytes := e.2.toPacket.map (nameBytes e.1 ++ ·)

/-- The bytes of an entry of an index. -/
def indexEntry (e : UInt32 × Content) : Option Bytes := e.2.toPacket.map (toLE 4 e.1.toNat ++ ·)

theorem mkPayload_map (p : Parsed) (t : Table Bytes Content) :
    (map p t).mkPayload = if p.bReadOnly then p.payload else writeAll (t.toList.map mapEntry) := by
  have hl := List.attach_map_val (l := t.toList) (f := mapEntry)
  rw [mkPayload, ← hl]
  simp only [mapEntry, toPacket, Option.map_map, Function.comp_def]

theorem mkPayload_list (p : Parsed) (l : List Content) :
    (list p l).mkPayload = if p.bReadOnly then p.payload else writeAll (l.map toPacket) := by
  rw [mkPayload]
  rfl

theorem mkPayload_index (p : Parsed) (t : Table UInt32 Content) :
    (index p t).mkPayload = if p.bReadOnly then p.payload else writeAll (t.toList.map indexEntry) := by
  have hl := List.attach_map_val (l := t.toList) (f := indexEntry)
  rw [mkPayload, ← hl]
  simp only [indexEntry, toPacket, Option.map_map, Function.comp_def]

theorem clone_map (p : Parsed) (t : Table Bytes Content) :
    (map p t).clone = map unparsed (insertAll (t.toList.map fun e => (e.1, e.2.clone)) (allocTable Bytes t.buckets.length)) := by
  rw [clone, List.attach_map_val (l := t.toList) (f := fun e => (e.1, e.2.clone))]

theorem clone_list (p : Parsed) (l : List Content) : (list p l).clone = list unparsed (l.map clone) := by
  rw [clone]

theorem clone_index (p : Parsed) (t : Table UInt32 Content) :
    (index p t).clone =
      index unparsed (insertAll (t.toList.map fun e => (e.1, e.2.clone)) (allocTable UInt32 t.buckets.length)) := by
  rw [clone, List.attach_map_val (l := t.toList) (f := fun e => (e.1, e.2.clone))]

end Content

end MajorPrivacy.Variant

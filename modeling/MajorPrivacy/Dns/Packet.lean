/-
DNS packets as the service reads and writes them (DnsPacket.cpp): `parse`, which follows the pointers
that names may end in, and `build_packet`, which sets them. A pointer into the data is the list of
the bytes from there to the end.
-/
import MajorPrivacy.Lib.LittleEndian

namespace MajorPrivacy.Dns

open LittleEndian

/-- A `std::string`, which is what a label is kept in, and a `Name`. -/
abbrev Name := List Bytes

/-! ## Packets -/

/-- The record types that `read_reply` knows. -/
def Type.CNAME : UInt16 := 5
def Type.SOA : UInt16 := 6
def Type.NA : UInt16 := 2
def Type.PTR : UInt16 := 12
def Type.MX : UInt16 := 15
def Type.SRV : UInt16 := 33

-- The widths of the bit fields.
scoped instance neZero_two : NeZero 2 := ⟨by decide⟩
scoped instance neZero_eight : NeZero 8 := ⟨by decide⟩
scoped instance neZero_sixteen : NeZero 16 := ⟨by decide⟩

structure Query where
  q_name : Name
  q_type : UInt16
  q_class : UInt16
  deriving DecidableEq

structure Answer where
  r_name : Name
  r_type : UInt16
  r_class : UInt16
  r_ttl : UInt32
  r_data : Bytes
  deriving DecidableEq

/-- `Packet`: the fields of the header, bit fields included, and the four sections. -/
structure Packet where
  ID : UInt16
  QR : Fin 2
  OPCODE : Fin 16
  AA : Fin 2
  TC : Fin 2
  RD : Fin 2
  RA : Fin 2
  Z : Fin 8
  RCODE : Fin 16
  query : List Query
  answer : List Answer
  authority : List Answer
  additional : List Answer
  deriving DecidableEq

/-! ## Parsing -/

/-- How a call ends: with what it read, with `false`, or not within the steps it was given. -/
inductive Outcome (α : Type)
  | success (a : α)
  | failure
  | unfinished
  deriving DecidableEq

namespace Outcome

def bind {α β : Type} : Outcome α → (α → Outcome β) → Outcome β
  | success a, f => f a
  | failure, _ => failure
  | unfinished, _ => unfinished

instance : Monad Outcome where
  pure := success
  bind := Outcome.bind

@[simp] theorem bind_success {α β : Type} (a : α) (f : α → Outcome β) : (success a >>= f) = f a := rfl
@[simp] theorem bind_failure {α β : Type} (f : α → Outcome β) : (failure >>= f) = failure := rfl
@[simp] theorem bind_unfinished {α β : Type} (f : α → Outcome β) : (unfinished >>= f) = unfinished := rfl
@[simp] theorem pure_eq {α : Type} (a : α) : (pure a : Outcome α) = success a := rfl

end Outcome

open Outcome

def read16 : Bytes → Outcome (UInt16 × Bytes)
  | high :: low :: data => success (.ofNat (ofLE [low, high]), data)
  | _ => failure

def read32 : Bytes → Outcome (UInt32 × Bytes)
  | b₃ :: b₂ :: b₁ :: b₀ :: data => success (.ofNat (ofLE [b₀, b₁, b₂, b₃]), data)
  | _ => failure

/-- Where the two bytes of a pointer point. -/
def pointerOffset (len low : UInt8) : UInt16 := .ofNat (ofLE [low, len &&& 0x3f])

/-- `read_reference`; `offset` is 16 bits wide and wraps. -/
def readReference : Nat → UInt16 → UInt16 → Bytes → Name → Outcome Name
  | 0, _, _, _, _ => unfinished
  | fuel + 1, offset, last_offset, origin, name =>
    match origin[offset.toNat]? with
    | none => failure
    | some len =>
      let offset := offset + 1
      if len &&& 0xc0 = 0xc0 then
        if offset.toNat = origin.length then failure
        else
          let off := pointerOffset len (origin.getD offset.toNat 0)
          if last_offset ≠ 0 ∧ off = last_offset then failure -- reference loop
          else readReference fuel off off origin name
      else if len = 0 then success name
      else if origin.length - offset.toNat < len.toNat then failure
      else readReference fuel (offset + len.toUInt16) last_offset origin
        (name ++ [(origin.drop offset.toNat).take len.toNat])

/-- `read_name`. -/
def readName : Nat → Bytes → Bytes → Name → Outcome (Name × Bytes)
  | 0, _, _, _ => unfinished
  | _ + 1, [], _, _ => failure
  | fuel + 1, len :: data, origin, name =>
    if len &&& 0xc0 = 0xc0 then
      match data with
      | [] => failure
      | low :: data => do
        let name ← readReference fuel (pointerOffset len low) 0 origin name
        success (name, data)
    else if len = 0 then success (name, data)
    else if data.length < len.toNat then failure
    else readName fuel (data.drop len.toNat) origin (name ++ [data.take len.toNat])

def readQuery (fuel : Nat) (data origin : Bytes) : Outcome (Query × Bytes) := do
  let (q_name, data) ← readName fuel data origin []
  let (q_type, data) ← read16 data
  let (q_class, data) ← read16 data
  success (⟨q_name, q_type, q_class⟩, data)

/-- A name reassembled in uncompressed form. -/
def uncompressed (name : Name) : Bytes := (name.flatMap fun label => .ofNat label.length :: label) ++ [0]

/-- The switch of `read_reply`: the record data with the names in it decompressed. -/
def readData (fuel : Nat) (r_type : UInt16) (r_length : Nat) (data origin : Bytes) : Outcome Bytes :=
  if r_type = Type.CNAME ∨ r_type = Type.PTR ∨ r_type = Type.NA then do
    let (decompressedName, _) ← readName fuel data origin []
    success (uncompressed decompressedName)
  else if r_type = Type.MX then
    if r_length < 2 then failure
    else do
      let (decompressedName, _) ← readName fuel (data.drop 2) origin []
      success (data.take 2 ++ uncompressed decompressedName)
  else if r_type = Type.SOA then do
    let (mname, p) ← readName fuel data origin []
    let (rname, p) ← readName fuel p origin []
    if p.length < 20 then failure
    else success (uncompressed mname ++ uncompressed rname ++ p.take 20)
  else if r_type = Type.SRV then
    if r_length < 6 then failure
    else do
      let (decompressedName, _) ← readName fuel (data.drop 6) origin []
      success (data.take 6 ++ uncompressed decompressedName)
  else success (data.take r_length)

def readReply (fuel : Nat) (data origin : Bytes) : Outcome (Answer × Bytes) := do
  let (r_name, data) ← readName fuel data origin []
  let (r_type, data) ← read16 data
  let (r_class, data) ← read16 data
  let (r_ttl, data) ← read32 data
  let (r_length, data) ← read16 data
  if data.length < r_length.toNat then failure
  else
    let r_data ← readData fuel r_type r_length.toNat data origin
    success (⟨r_name, r_type, r_class, r_ttl, r_data⟩, data.drop r_length.toNat)

/-- The loop over the entries of a section. -/
def readMany {α : Type} (read : Bytes → Outcome (α × Bytes)) : Nat → Bytes → Outcome (List α × Bytes)
  | 0, data => success ([], data)
  | count + 1, data => do
    let (entry, data) ← read data
    let (entries, data) ← readMany read count data
    success (entry :: entries, data)

/-- `parse` into a new `Packet`. -/
def parse (fuel : Nat) (origin : Bytes) : Outcome Packet := do
  let (ID, data) ← read16 origin
  let (FLAGS, data) ← read16 data
  let (QDCOUNT, data) ← read16 data
  let (ANCOUNT, data) ← read16 data
  let (NSCOUNT, data) ← read16 data
  let (ARCOUNT, data) ← read16 data
  let flags := FLAGS.toNat
  let (query, data) ← readMany (readQuery fuel · origin) QDCOUNT.toNat data
  let (answer, data) ← readMany (readReply fuel · origin) ANCOUNT.toNat data
  let (authority, data) ← readMany (readReply fuel · origin) NSCOUNT.toNat data
  let (additional, data) ← readMany (readReply fuel · origin) ARCOUNT.toNat data
  if data ≠ [] then failure
  else success {
    ID := ID
    QR := .ofNat 2 (flags >>> 15)
    OPCODE := .ofNat 16 (flags >>> 11)
    AA := .ofNat 2 (flags >>> 10)
    TC := .ofNat 2 (flags >>> 9)
    RD := .ofNat 2 (flags >>> 8)
    RA := .ofNat 2 (flags >>> 7)
    Z := .ofNat 8 (flags >>> 4)
    RCODE := .ofNat 16 flags
    query := query
    answer := answer
    authority := authority
    additional := additional }

/-! ## Building -/

/-- `NameMap`: where the names that were written start. -/
abbrev NameMap := List (Bytes × UInt16)

def write16 (value : UInt16) : Bytes := (toLE 2 value.toNat).reverse

def write32 (value : UInt32) : Bytes := (toLE 4 value.toNat).reverse

/-- `build_name` of the labels from `off` on, which are given: the key of a name. -/
def buildName : Name → Bytes
  | [] => []
  | [label] => label
  | label :: labels => label ++ 0x2e :: buildName labels

/-- `write_name` from a position of the name on. -/
def writeName (blob : Bytes) : Name → NameMap → Bytes × NameMap
  | [], name_map => (blob ++ [0], name_map)
  | cur_label :: labels, name_map =>
    let n := buildName (cur_label :: labels)
    match name_map.lookup n with
    | none => -- not found, place
      let off := blob.length
      let name_map := if off &&& 0x3fff = off then (n, .ofNat off) :: name_map else name_map
      writeName (blob ++ .ofNat cur_label.length :: cur_label) labels name_map
    | some off => -- write reference
      (blob ++ [(0xc0 : UInt8) ||| (off >>> 8).toUInt8, off.toUInt8], name_map)

def writeQuery (data : Bytes) (query : Query) (name_map : NameMap) : Bytes × NameMap :=
  let (data, name_map) := writeName data query.q_name name_map
  (data ++ write16 query.q_type ++ write16 query.q_class, name_map)

def writeReply (data : Bytes) (answer : Answer) (name_map : NameMap) : Bytes × NameMap :=
  let (data, name_map) := writeName data answer.r_name name_map
  (data ++ write16 answer.r_type ++ write16 answer.r_class ++ write32 answer.r_ttl ++
    write16 (.ofNat answer.r_data.length) ++ answer.r_data, name_map)

/-- The loop over a section. -/
def writeMany {α : Type} (write : Bytes → α → NameMap → Bytes × NameMap) (data : Bytes) : List α → NameMap → Bytes × NameMap
  | [], name_map => (data, name_map)
  | entry :: entries, name_map =>
    let (data, name_map) := write data entry name_map
    writeMany write data entries name_map

def buildFlags (packet : Packet) : Nat :=
  packet.QR.val <<< 15 ||| packet.OPCODE.val <<< 11 ||| packet.AA.val <<< 10 ||| packet.TC.val <<< 9 |||
    packet.RD.val <<< 8 ||| packet.RA.val <<< 7 ||| packet.Z.val <<< 4 ||| packet.RCODE.val

def buildHeader (packet : Packet) : Bytes :=
  write16 packet.ID ++ write16 (.ofNat (buildFlags packet)) ++ write16 (.ofNat packet.query.length) ++
    write16 (.ofNat packet.answer.length) ++ write16 (.ofNat packet.authority.length) ++
    write16 (.ofNat packet.additional.length)

/-- `build_packet`; each section is written up to its count, which is 16 bits wide. -/
def buildPacket (packet : Packet) : Bytes :=
  let upTo {α : Type} (entries : List α) := entries.take (UInt16.ofNat entries.length).toNat
  let (data, name_map) := writeMany writeQuery (buildHeader packet) (upTo packet.query) []
  let (data, name_map) := writeMany writeReply data (upTo packet.answer) name_map
  let (data, name_map) := writeMany writeReply data (upTo packet.authority) name_map
  (writeMany writeReply data (upTo packet.additional) name_map).1

end MajorPrivacy.Dns

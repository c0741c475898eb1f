/-
`CVariantCacheT` (VariantCache.h): the cache a connection keeps per list, which turns the rounds of
the server into deltas. A reference to an entry is its key, since a table moves its nodes by
relinking them; `none` is what the source has no answer for, a round that is not open or a pointer
to an entry that is gone. Values are flat, as `StVariantWriter::Finish` leaves them.
-/
import MajorPrivacy.Core.Table
import MajorPrivacy.Variant.Packet

namespace MajorPrivacy.Cache

open MajorPrivacy.Core Variant LittleEndian

/-- A variant whose payload is one run of bytes. -/
structure FlatVariant where
  type : EType
  payload : Bytes
  deriving DecidableEq, Repr

/-- A key type: how `WriteKey` puts a key into a variant, and how a reader gets it back. -/
class CacheKey (K : Type) extends Hasher K where
  writeKey : K → FlatVariant
  readKey : FlatVariant → Option K
  readKey_writeKey : ∀ key, readKey (writeKey key) = some key

instance : CacheKey UInt64 where
  writeKey key := ⟨varTypeUInt, toLE 8 key.toNat⟩
  readKey value := some (UInt64.ofNat (ofLE value.payload))
  readKey_writeKey key := by
    have h : key.toNat < 256 ^ 8 := key.toNat_lt
    rw [ofLE_toLE_of_lt h, UInt64.ofNat_toNat]

/-- The characters of a wide string from its bytes. -/
def readWide : Bytes → List UInt16
  | lo :: hi :: rest => UInt16.ofNat (ofLE [lo, hi]) :: readWide rest
  | _ => []

theorem readWide_flatMap : ∀ str : List UInt16, readWide (str.flatMap fun c => toLE 2 c.toNat) = str
  | [] => rfl
  | c :: str => by
    have h : c.toNat < 256 ^ 2 := c.toNat_lt
    have hc : UInt16.ofNat (ofLE (toLE 2 c.toNat)) = c := by rw [ofLE_toLE_of_lt h, UInt16.ofNat_toNat]
    rw [List.flatMap_cons]
    show UInt16.ofNat (ofLE (toLE 2 c.toNat)) :: readWide (str.flatMap fun c => toLE 2 c.toNat) = c :: str
    rw [hc, readWide_flatMap str]

instance : CacheKey (List UInt16) where
  writeKey key := ⟨varTypeUnicode, key.flatMap fun c => toLE 2 c.toNat⟩
  readKey value := some (readWide value.payload)
  readKey_writeKey key := by rw [readWide_flatMap]

structure SEntry where
  fields : Table UInt32 FlatVariant
  seenRound : UInt64
  bSent : Bool

structure SScope (K : Type) where
  entries : Table K SEntry
  roundNr : UInt64
  token : UInt64

structure VariantCache (K : Type) where
  keyField : UInt32
  scopes : Table UInt64 (SScope K)
  /-- `m_pScope`: the scope whose node is pointed at. -/
  pScope : Option UInt64
  /-- `m_pLastEntry` and `m_LastId`, which are set together. -/
  lastEntry : Option K
  changed : Table K (Table UInt32 FlatVariant)
  bInRound : Bool
  scope : UInt64

/-- What `FinishRound` returns: the keys that are gone, and the changed entries, each an index of
fields with the key under the key field. -/
structure RoundResult where
  removed : List FlatVariant
  changed : List (List (UInt32 × FlatVariant))

namespace VariantCache

variable {K : Type} [CacheKey K] [DecidableEq K]

def init (keyField : UInt32) : VariantCache K :=
  ⟨keyField, .empty, none, none, .empty, false, 0⟩

def newEntry : SEntry := ⟨.empty, 0, false⟩

def newScope : SScope K := ⟨.empty, 0, 0⟩

/-! ## A round -/

def beginRound (c : VariantCache K) (scope : UInt64) : VariantCache K :=
  { c with
    scopes := (c.scopes.getOrAddValue scope newScope).write scope fun s => { s with roundNr := s.roundNr + 1 }
    pScope := some scope
    lastEntry := none
    changed := .empty
    bInRound := true
    scope := scope }

/-- `*m_pScope`. -/
def derefScope (c : VariantCache K) : Option (SScope K) :=
  c.pScope.bind c.scopes.findValue

/-- A write through `m_pScope`. -/
def writeScope (c : VariantCache K) (f : SScope K → SScope K) : VariantCache K :=
  match c.pScope with
  | some scope => { c with scopes := c.scopes.write scope f }
  | none => c

/-- The entry a reference stands for. -/
def derefEntry (c : VariantCache K) (id : K) : Option SEntry :=
  c.derefScope.bind fun s => s.entries.findValue id

/-- A write through a reference to an entry. -/
def writeEntryOf (c : VariantCache K) (id : K) (f : SEntry → SEntry) : VariantCache K :=
  c.writeScope fun s => { s with entries := s.entries.write id f }

/-- `GetEntry`: the entry of the last write, or a look-up that adds what is missing. -/
def getEntry (c : VariantCache K) (id : K) : Option (VariantCache K × SEntry) :=
  if c.lastEntry = some id then
    (c.derefEntry id).map fun entry => (c, entry)
  else
    c.derefScope.bind fun _ =>
      let c := { c.writeScope fun s => { s with entries := s.entries.getOrAddValue id newEntry } with
        lastEntry := some id }
      (c.derefEntry id).map fun entry => (c, entry)

/-- `Entry.SeenRound = m_pScope->RoundNr` behind every `GetEntry`. -/
def mention (c : VariantCache K) (id : K) : Option (VariantCache K × SEntry) :=
  (c.getEntry id).bind fun (c, entry) =>
    c.derefScope.map fun s => (c.writeEntryOf id fun e => { e with seenRound := s.roundNr }, entry)

def keep (c : VariantCache K) (id : K) : Option (VariantCache K × Bool) :=
  (c.mention id).map fun (c, entry) => (c, entry.bSent)

/-- `m_Changed.GetOrAddValue(Id).GetPtr()->GetOrAddValue(Field) = Value`. -/
def recordChange (c : VariantCache K) (id : K) (field : UInt32) (value : FlatVariant) : VariantCache K :=
  { c with changed := (c.changed.getOrAddValue id .empty).write id fun t => t.setValue field value }

/-- The end of a write that found a difference. -/
def store (c : VariantCache K) (id : K) (field : UInt32) (value : FlatVariant) : VariantCache K :=
  (c.writeEntryOf id fun e => { e with fields := e.fields.setValue field value }).recordChange id field value

/-- The common end of `Write` and `WriteRaw`: unless the value that is remembered is the same, the
new one is stored. -/
def storeUnless (same : FlatVariant → Bool) (id : K) (field : UInt32) (value : FlatVariant) :
    VariantCache K × SEntry → VariantCache K
  | (c, entry) =>
    match entry.fields.findValue field with
    | some old => if same old then c else c.store id field value
    | none => c.store id field value

/-- `Write` of a variant; `CVariant::Compare` looks at the payload alone. -/
def write (c : VariantCache K) (id : K) (field : UInt32) (value : FlatVariant) : Option (VariantCache K) :=
  if field = c.keyField then some c
  else (c.mention id).map (storeUnless (fun old => old.payload = value.payload) id field value)

/-- `WriteRaw`, where the other overloads of `Write` end up; it compares the type as well. -/
def writeRaw (c : VariantCache K) (id : K) (field : UInt32) (type : EType) (data : Bytes) : Option (VariantCache K) :=
  if field = c.keyField then some c
  else (c.mention id).map (storeUnless (fun old => old.type = type ∧ old.payload.length = data.length ∧ old.payload = data)
    id field ⟨type, data⟩)

/-- The fields `ReadRawIndex` hands to `WriteEntry`, those before an error included. -/
def entryFields (entry : FlatVariant) : List (UInt32 × FlatVariant) :=
  if entry.type = varTypeIndex then
    (readRawIndex entry.payload).1.map fun (index, type, data) => (UInt32.ofNat index, ⟨type, data⟩)
  else []

/-- The callback of `WriteEntry`, once for each field. -/
def writeFields (c : VariantCache K) (id : K) : List (UInt32 × FlatVariant) → Option (VariantCache K)
  | [] => some c
  | (field, data) :: rest =>
    if field ≠ c.keyField then (c.write id field data).bind fun c => writeFields c id rest
    else writeFields c id rest

def writeEntry (c : VariantCache K) (id : K) (entry : FlatVariant) : Option (VariantCache K) :=
  (c.keep id).bind fun (c, _) => c.writeFields id (entryFields entry)

def writeAlways (c : VariantCache K) (id : K) (field : UInt32) (value : FlatVariant) : Option (VariantCache K) :=
  if field = c.keyField then some c
  else (c.mention id).map fun (c, _) => c.recordChange id field value

/-! ## The end of a round -/

/-- The first loop of `FinishRound`: unseen entries are erased, and the keys of those that were
sent are kept. -/
def sweepLoop (roundNr : UInt64) : List (K × SEntry) → Table K SEntry → Table K SEntry × List K
  | [], entries => (entries, [])
  | (id, entry) :: rest, entries =>
    if entry.seenRound = roundNr then sweepLoop roundNr rest entries
    else
      let (swept, removed) := sweepLoop roundNr rest (entries.erase id)
      (swept, if entry.bSent then id :: removed else removed)

/-- `pEntry->bSent = true` for every entry that travels. -/
def markSent (ids : List K) (entries : Table K SEntry) : Table K SEntry :=
  ids.foldl (fun entries id => entries.write id fun e => { e with bSent := true }) entries

/-- One element of the list of changes: the key first, then the changed fields. -/
def changedEntry (keyField : UInt32) (id : K) (fields : Table UInt32 FlatVariant) : List (UInt32 × FlatVariant) :=
  (keyField, CacheKey.writeKey id) :: fields.toList

def finishRound (c : VariantCache K) : Option (VariantCache K × RoundResult) :=
  c.derefScope.map fun s =>
    let (swept, removed) := sweepLoop s.roundNr s.entries.toList s.entries
    let entries := markSent (c.changed.toList.map (·.1)) swept
    let result : RoundResult :=
      ⟨removed.map CacheKey.writeKey, c.changed.toList.map fun (id, fields) => changedEntry c.keyField id fields⟩
    let c := c.writeScope fun s => { s with entries := entries }
    let c := { c with changed := .empty, bInRound := false, lastEntry := none }
    let c :=
      if entries.isEmpty = true ∧ s.token = (0 : UInt64) ∧ c.scope ≠ (0 : UInt64) then
        { c with scopes := c.scopes.remove c.scope }
      else c
    ({ c with pScope := none }, result)

/-! ## Between rounds -/

def clear (c : VariantCache K) : VariantCache K :=
  { c with scopes := .empty, changed := .empty, pScope := none, lastEntry := none, bInRound := false }

/-- `Clear` of one scope. -/
def clearScope (c : VariantCache K) (scope : UInt64) : VariantCache K :=
  { c with scopes := c.scopes.remove scope, changed := .empty, lastEntry := none }

/-- An assignment to `ScopeToken(Scope)`. -/
def setScopeToken (c : VariantCache K) (scope token : UInt64) : VariantCache K :=
  { c with scopes := (c.scopes.getOrAddValue scope newScope).write scope fun s => { s with token := token } }

/-! ## Whole rounds -/

/-- What a caller may do inside a round. -/
inductive Op (K : Type)
  | keep (id : K)
  | write (id : K) (field : UInt32) (value : FlatVariant)
  | writeRaw (id : K) (field : UInt32) (type : EType) (data : Bytes)
  | writeEntry (id : K) (entry : FlatVariant)
  | writeAlways (id : K) (field : UInt32) (value : FlatVariant)

def step (c : VariantCache K) : Op K → Option (VariantCache K)
  | .keep id => (c.keep id).map (·.1)
  | .write id field value => c.write id field value
  | .writeRaw id field type data => c.writeRaw id field type data
  | .writeEntry id entry => c.writeEntry id entry
  | .writeAlways id field value => c.writeAlways id field value

def steps (c : VariantCache K) : List (Op K) → Option (VariantCache K)
  | [] => some c
  | op :: ops => (c.step op).bind fun c => steps c ops

/-- `BeginRound`, any number of operations, `FinishRound`. -/
def round (c : VariantCache K) (scope : UInt64) (ops : List (Op K)) : Option (VariantCache K × RoundResult) :=
  ((c.beginRound scope).steps ops).bind finishRound

end VariantCache

end MajorPrivacy.Cache

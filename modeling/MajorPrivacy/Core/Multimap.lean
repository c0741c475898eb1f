/-
`FW::Table` as its callers have it (Table.h): table objects, each with its memory pool, and the data
they share, counted in `Refs`. Every entry object has a number of its own, under which a log notes
when it was made, copied from and destroyed. Allocations succeed.
-/
import MajorPrivacy.Core.Table
import MajorPrivacy.Lib.RefHeap

namespace MajorPrivacy.Core

open RefHeap

/-! ## Objects -/

/-- The value in an `SBucketEntry`, with the number of the entry. -/
structure Entry (V : Type) where
  id : Nat
  value : V

/-- `FW::Table`: `m_pMem` and `m_ptr`. -/
structure TableObj where
  pMem : Option Nat
  ptr : Option Nat

inductive LogEntry
  | made (id : Nat)
  | read (id : Nat)
  | destroyed (id : Nat)
  deriving DecidableEq

instance (K V : Type) : Layout (Table K (Entry V)) TableObj := ⟨TableObj.ptr, fun _ => []⟩

/-- All tables, what they hold, and the log, the last event first. -/
structure Tables (K V : Type) where
  objs : List TableObj
  heap : Heap (Table K (Entry V))
  nextId : Nat
  log : List LogEntry

/-- `EInsertMode`. -/
inductive InsertMode
  | eNormal
  | eMulti
  | eNoReplace
  | eNoInsert
  deriving DecidableEq

section Data
variable {K V : Type}

/-- The numbers of the entries, in the order of a walk. -/
def Table.ids (t : Table K (Entry V)) : List Nat := t.toList.map (·.2.id)

/-- The loop of `RemoveImpl`: the chain that is left, and what was unlinked. -/
def unlinkLoop (match_ : K × V → Bool) (bAll : Bool) : List (K × V) → List (K × V) × List (K × V)
  | [] => ([], [])
  | entry :: next =>
    if match_ entry then
      if bAll then ((unlinkLoop match_ bAll next).1, entry :: (unlinkLoop match_ bAll next).2) else (next, [entry])
    else (entry :: (unlinkLoop match_ bAll next).1, (unlinkLoop match_ bAll next).2)

variable [Hasher K]

/-- The chain a key belongs to. -/
def Table.chain (t : Table K V) (key : K) : List (K × V) := t.buckets.getD (bucketIndex t.buckets key) []

/-- `RemoveImpl`; the count is left to the caller. -/
def Table.unlink (t : Table K V) (key : K) (match_ : K × V → Bool) (bAll : Bool) : Table K V :=
  ⟨t.buckets.modify (bucketIndex t.buckets key) fun chain => (unlinkLoop match_ bAll chain).1, t.count⟩

/-- The entries `RemoveImpl` destroys. -/
def Table.unlinked (t : Table K V) (key : K) (match_ : K × V → Bool) (bAll : Bool) : List (K × V) :=
  (unlinkLoop match_ bAll (t.chain key)).2

/-- An entry made from another one; numbers from `nextId` on are unused. -/
def Entry.fresh (nextId : Nat) (entry : Entry V) : Entry V := ⟨nextId + entry.id, entry.value⟩

/-- The copy `MakeExclusive` makes: the entries chained up in the order of the walk, which turns it
round, and inserted one by one, which turns it round again. -/
def Table.cloned (t : Table K (Entry V)) (nextId : Nat) : Table K (Entry V) :=
  ⟨(t.toList.reverse.map fun e => (e.1, e.2.fresh nextId)).foldl insertEntry (List.replicate t.buckets.length []),
    t.count⟩

/-- The insertions of `Merge`. -/
def Table.merge (t : Table K (Entry V)) (entries : List (K × Entry V)) (nextId : Nat) : Table K (Entry V) :=
  entries.foldl (fun t e => t.insertValue e.1 (e.2.fresh nextId)) t

end Data

namespace Tables

variable {K V : Type}

/-- What a table holds. -/
def data (w : Tables K V) (i : Nat) : Option (Table K (Entry V)) :=
  w.objs[i]?.bind fun obj =>
    match obj.ptr with
    | none => some .empty
    | some a => (w.heap.get a).map (·.body)

/-! ## Sharing -/

/-- `DetachData`. -/
def detachData (w : Tables K V) (i : Nat) : Option (Tables K V) :=
  w.objs[i]?.bind fun obj =>
    match obj.ptr with
    | none => some w
    | some a =>
      (w.heap.get a).bind fun c => (release w.heap [obj]).map fun heap =>
        { w with
          objs := w.objs.set i { obj with ptr := none }
          heap := heap
          log := if c.refs = 1 then c.body.ids.map LogEntry.destroyed ++ w.log else w.log }

/-- The second half of `AttachData`: the data of an object has one more holder. -/
def attachData (w : Tables K V) (i : Nat) (pMem : Option Nat) (other : TableObj) : Option (Tables K V) :=
  (share w.heap other).map fun heap => { w with objs := w.objs.set i ⟨pMem, other.ptr⟩, heap := heap }

variable [Hasher K]

/-- `MakeExclusive(pI)`. -/
def makeExclusive (w : Tables K V) (i : Nat) : Option (Tables K V) :=
  w.objs[i]?.bind fun obj =>
    match obj.ptr with
    | none =>
      some { w with
        objs := w.objs.set i { obj with ptr := some w.heap.length }
        heap := w.heap.alloc (Table.makeExclusive .empty) }
    | some a =>
      (w.heap.get a).bind fun c =>
        if c.refs > 1 then
          let body := c.body.cloned w.nextId
          let copied := { w with
            heap := w.heap.alloc body
            nextId := w.nextId + w.nextId
            log := body.ids.map LogEntry.made ++ c.body.ids.map LogEntry.read ++ w.log }
          (copied.detachData i).map fun w' =>
            { w' with objs := w'.objs.set i { obj with ptr := some w.heap.length } }
        else some w

/-- A change of the data of a table that is its only holder. -/
def modify (w : Tables K V) (i : Nat) (f : Table K (Entry V) → Table K (Entry V)) (nextId : Nat) (log : List LogEntry) :
    Option (Tables K V) :=
  w.objs[i]?.bind fun obj => obj.ptr.bind fun a => (w.heap.get a).map fun c =>
    { w with heap := w.heap.set a (some { c with body := f c.body }), nextId := nextId, log := log ++ w.log }

/-! ## The calls -/

/-- `InsertValue`. -/
def insertValue (w : Tables K V) (i : Nat) (key : K) (value : V) : Option (Tables K V) :=
  w.modify i (fun t => t.insertValue key ⟨w.nextId, value⟩) (w.nextId + 1) [.made w.nextId]

/-- `RemoveImpl` on a table, with what it makes of the count. -/
def removeImpl (w : Tables K V) (i : Nat) (key : K) (match_ : K × Entry V → Bool) (bAll bCount : Bool)
    (log : Nat → List LogEntry) : Option (Tables K V) :=
  (w.data i).bind fun t =>
    let gone := t.unlinked key match_ bAll
    w.modify i (fun t => ⟨(t.unlink key match_ bAll).buckets, if bCount then t.count - gone.length else t.count⟩) w.nextId
      (gone.flatMap fun e => log e.2.id)

variable [DecidableEq K]

/-- `Insert`. -/
def insert (w : Tables K V) (i : Nat) (key : K) (value : V) (mode : InsertMode) : Option (Tables K V) :=
  (w.makeExclusive i).bind fun w => (w.data i).bind fun t =>
    if mode ≠ .eMulti ∧ (t.findValue key).isSome then
      if mode = .eNoReplace then some w
      else w.modify i (fun t => t.write key fun entry => { entry with value := value }) w.nextId []
    else if mode = .eNoInsert then some w
    else w.insertValue i key value

/-- `Remove` of a key. -/
def remove (w : Tables K V) (i : Nat) (key : K) (bAll : Bool) : Option (Tables K V) :=
  (w.makeExclusive i).bind fun w => w.removeImpl i key (fun e => e.1 = key) bAll true fun id => [.destroyed id]

/-- `Remove` of a key and a value. -/
def removeValue [DecidableEq V] (w : Tables K V) (i : Nat) (key : K) (value : V) (bAll : Bool) : Option (Tables K V) :=
  (w.makeExclusive i).bind fun w =>
    w.removeImpl i key (fun e => e.1 = key && e.2.value = value) bAll true fun id => [.destroyed id]

/-- `Take`: the value is read behind the destructor call, and the count is left as it was. -/
def take (w : Tables K V) (i : Nat) (key : K) : Option (Tables K V) :=
  (w.makeExclusive i).bind fun w =>
    w.removeImpl i key (fun e => e.1 = key) false false fun id => [.read id, .destroyed id]

/-- `erase` of the entry an iterator stands on, the one at `index` under a key; an iterator at the end
stands on none. -/
def erase (w : Tables K V) (i : Nat) (key : K) (index : Nat) : Option (Tables K V) :=
  (w.data i).bind fun t =>
    if (valuesOf t.buckets key).length ≤ index then some w
    else (w.makeExclusive i).bind fun w => (w.data i).bind fun t =>
      (valuesOf t.buckets key)[index]?.bind fun entry =>
        w.removeImpl i key (fun e => e.2.id = entry.id) false false fun id => [.destroyed id]

/-- A look-up, and a walk: the values that are read. -/
def find (w : Tables K V) (i : Nat) (key : K) (index : Nat) : Option (Tables K V) :=
  (w.data i).map fun t =>
    { w with log := ((valuesOf t.buckets key)[index]?.toList.map fun entry => LogEntry.read entry.id) ++ w.log }

def walk (w : Tables K V) (i : Nat) : Option (Tables K V) :=
  (w.data i).map fun t => { w with log := t.ids.map LogEntry.read ++ w.log }

/-- `operator=`, with `Assign` and `Merge`. -/
def assign (w : Tables K V) (i j : Nat) : Option (Tables K V) :=
  w.objs[i]?.bind fun obj => w.objs[j]?.bind fun other =>
    if obj.ptr = other.ptr ∧ obj.pMem = other.pMem then some w
    else if obj.pMem ≠ none ∧ obj.pMem ≠ other.pMem then
      (w.detachData i).bind fun w => (w.makeExclusive i).bind fun w => (w.data j).bind fun t =>
        w.modify i (fun own => own.merge t.toList w.nextId) (w.nextId + w.nextId)
          ((t.toList.map fun e => LogEntry.made (e.2.fresh w.nextId).id) ++ t.ids.map LogEntry.read)
    else (w.detachData i).bind fun w => w.attachData i other.pMem other

/-- What may be done with tables. -/
inductive Op (K V : Type)
  | new (pMem : Option Nat)
  | insert (i : Nat) (key : K) (value : V) (mode : InsertMode)
  | remove (i : Nat) (key : K) (bAll : Bool)
  | removeValue (i : Nat) (key : K) (value : V) (bAll : Bool)
  | take (i : Nat) (key : K)
  | erase (i : Nat) (key : K) (index : Nat)
  | find (i : Nat) (key : K) (index : Nat)
  | walk (i : Nat)
  | makeExclusive (i : Nat)
  | assign (i j : Nat)
  | clear (i : Nat)

variable [DecidableEq V]

def step (w : Tables K V) : Op K V → Option (Tables K V)
  | .new pMem => some { w with objs := w.objs ++ [⟨pMem, none⟩] }
  | .insert i key value mode => w.insert i key value mode
  | .remove i key bAll => w.remove i key bAll
  | .removeValue i key value bAll => w.removeValue i key value bAll
  | .take i key => w.take i key
  | .erase i key index => w.erase i key index
  | .find i key index => w.find i key index
  | .walk i => w.walk i
  | .makeExclusive i => w.objs[i]?.bind fun obj => if obj.ptr = none then some w else w.makeExclusive i
  | .assign i j => w.assign i j
  | .clear i => w.detachData i

def run (w : Tables K V) : List (Op K V) → Option (Tables K V)
  | [] => some w
  | op :: ops => (w.step op).bind fun w => run w ops

def init : Tables K V := ⟨[], [], 0, []⟩

end Tables

/-! ## What the tables are for -/

/-- A multimap: the values of every key, the last one first. Copies into another memory pool turn
them round. -/
structure Multimap (K V : Type) where
  pMem : Option Nat
  values : K → List V

namespace Multimap

variable {K V : Type} [DecidableEq K]

def change (m : Multimap K V) (key : K) (f : List V → List V) : Multimap K V :=
  { m with values := fun k => if k = key then f (m.values k) else m.values k }

def insert (m : Multimap K V) (key : K) (value : V) (mode : InsertMode) : Multimap K V :=
  if mode ≠ .eMulti ∧ m.values key ≠ [] then
    if mode = .eNoReplace then m else m.change key fun l => value :: l.tail
  else if mode = .eNoInsert then m
  else m.change key fun l => value :: l

def assign (m other : Multimap K V) : Multimap K V :=
  if m.pMem ≠ none ∧ m.pMem ≠ other.pMem then { m with values := fun k => (other.values k).reverse } else other

variable [DecidableEq V]

/-- One call, on all multimaps. -/
def step (ms : List (Multimap K V)) : Tables.Op K V → List (Multimap K V)
  | .new pMem => ms ++ [⟨pMem, fun _ => []⟩]
  | .insert i key value mode => ms.modify i fun m => m.insert key value mode
  | .remove i key bAll => ms.modify i fun m => m.change key fun l => if bAll then [] else l.tail
  | .removeValue i key value bAll =>
    ms.modify i fun m => m.change key fun l => if bAll then l.filter (· ≠ value) else l.erase value
  | .take i key => ms.modify i fun m => m.change key List.tail
  | .erase i key index => ms.modify i fun m => m.change key fun l => l.eraseIdx index
  | .find _ _ _ | .walk _ | .makeExclusive _ => ms
  | .assign i j =>
    match ms[j]? with
    | some other => ms.modify i fun m => m.assign other
    | none => ms
  | .clear i => ms.modify i fun m => { m with values := fun _ => [] }

def run (ms : List (Multimap K V)) : List (Tables.Op K V) → List (Multimap K V)
  | [] => ms
  | op :: ops => run (step ms op) ops

end Multimap

end MajorPrivacy.Core

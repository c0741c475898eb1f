/-
The byte buffer of the framework: an object with its flags over memory it owns, borrows, or shares with
other objects through a reference counted block. A member function works on the memory and the object;
`none` is an access outside of what was allocated.
-/
import Mathlib.Algebra.Group.Nat.Defs
import MajorPrivacy.Lib.Memory

namespace MajorPrivacy.Buffer

open Memory

/-- `size_t` arithmetic. -/
@[irreducible] def sizeT (n : Nat) : Nat := n % 2 ^ 64

/-- A difference in `size_t`. -/
@[irreducible] def sizeSub (m n : Nat) : Nat := (m + 2 ^ 64 - n) % 2 ^ 64

/-- The `size_t` of -1. -/
@[irreducible] def npos : Nat := 2 ^ 64 - 1

/-- `BUFFER_MAX_PREALLOC`: 128 MB -/
def bufferMaxPrealloc : Nat := 0x08000000

/-- `sizeof(SBuffer)` -/
def sBufferSize : Nat := 16

/-! ## Memory -/

/-- A shared block with its count of references, `uCapacity` is the length of its data. Plain memory is a
block whose count nobody reads. -/
structure SBuffer where
  refs : Nat
  data : List UInt8

/-- The memory: the blocks in use, the number of the next request, which requests are granted, and what fresh
memory holds. -/
structure Heap where
  blocks : Nat → Option SBuffer
  next : Nat
  grants : Nat → Bool
  junk : Nat → Nat → UInt8

namespace Heap

def set (h : Heap) (i : Nat) (blk : Option SBuffer) : Heap :=
  { h with blocks := fun j => if j = i then blk else h.blocks j }

/-- The memory with one more block. -/
def add (h : Heap) (data : List UInt8) : Heap :=
  ⟨fun j => if j = h.next then some ⟨0, data⟩ else h.blocks j, h.next + 1, h.grants, h.junk⟩

def memAlloc (h : Heap) (size : Nat) : Option Nat × Heap :=
  if h.grants h.next then (some h.next, h.add ((List.range size).map (h.junk h.next)))
  else (none, { h with next := h.next + 1 })

/-- `MemCopy` to a block. -/
def write (h : Heap) (i off : Nat) (data : List UInt8) : Option Heap :=
  match h.blocks i with
  | none => none
  | some blk => (writeAt blk.data off data).map fun data => h.set i (some { blk with data })

/-- The `memset` of the block's own fields overruns the block if its size wraps around. -/
def makeData (h : Heap) (uCapacity : Nat) : Option (Option Nat × Heap) :=
  if sBufferSize + uCapacity < 2 ^ 64 then some (h.memAlloc uCapacity) else none

end Heap

/-! ## The object -/

structure CBuffer where
  bDerived : Bool
  bDetachable : Bool
  bFixed : Bool
  bReadOnly : Bool
  uPreAllocated : Nat
  p : Option Nat
  uSize : Nat
  uPosition : Nat

namespace CBuffer

/-- `CBuffer()` -/
def empty : CBuffer := ⟨false, false, false, false, 0, none, 0, 0⟩

def isContainerized (x : CBuffer) : Bool := !x.bDerived && !x.bDetachable && x.p.isSome

variable (h : Heap) (x : CBuffer)

def block : Option SBuffer := x.p.bind h.blocks

/-- All of the memory of the object. -/
def data : List UInt8 := ((x.block h).map (·.data)).getD []

def getCapacity : Nat :=
  if x.isContainerized then (x.data h).length else sizeT (x.uSize + x.uPreAllocated)

/-- The bytes that can be read through the object. -/
def view : List UInt8 := slice (x.data h) 0 x.uSize

/-- Whether `m_p.Buffer->Refs > 1`. -/
def shared : Bool := x.isContainerized && (x.block h).any (1 < ·.refs)

/-- `len` bytes from `GetBuffer() + off` on. -/
def peek (off len : Nat) : Option (List UInt8) :=
  if len = 0 then some [] else (x.block h).bind fun blk => readAt blk.data off len

/-- `MemCopy(GetBuffer() + off, ..)` -/
def poke (off : Nat) (data : List UInt8) : Option Heap :=
  if data = [] then some h else x.p.bind fun i => h.write i off data

/-- `MemMove(GetBuffer() + dst, GetBuffer() + src, len)` -/
def memMove (dst src len : Nat) : Option Heap := (x.peek h src len).bind (x.poke h dst)

/-- Whether the pointer `GetBuffer() + off` is one. -/
def pointer (off : Nat) : Bool := x.p.isSome || off != 0

end CBuffer

/-- What a member function works on. -/
abbrev St := Heap × CBuffer

def detachData : St → Option St
  | (h, x) =>
    match x.p with
    | none => some (h, x)
    | some i =>
      match h.blocks i with
      | none => none
      | some blk =>
        let h' :=
          if x.isContainerized then h.set i (if blk.refs = 1 then none else some { blk with refs := blk.refs - 1 })
          else if x.bDetachable then h.set i none
          else h
        some (h', ⟨false, false, false, false, 0, none, x.uSize, x.uPosition⟩)

def attachData (st : St) (i : Nat) : Option St :=
  match detachData st with
  | none => none
  | some (h, x) =>
    match h.blocks i with
    | none => none
    | some blk => some (h.set i (some { blk with refs := blk.refs + 1 }), { x with p := some i })

/-! ## Sizes -/

/-- The bytes of the object copied to a new block. -/
def copyTo (h : Heap) (x : CBuffer) (i : Nat) : Option Heap :=
  if x.p.isSome then (x.peek h 0 x.uSize).bind (h.write i 0) else some h

def reAllocDetachable (st : St) (uCapacity : Nat) : Option (St × Bool) :=
  match st.1.memAlloc uCapacity with
  | (none, h) => some ((h, st.2), false)
  | (some i, h) =>
    (copyTo h st.2 i).bind fun h =>
      (detachData (h, st.2)).map fun st => ((st.1, { st.2 with p := some i, bDetachable := true }), true)

def reAllocShared (st : St) (uCapacity : Nat) : Option (St × Bool) :=
  match st.1.makeData uCapacity with
  | none => none
  | some (none, h) => some ((h, st.2), false)
  | some (some i, h) =>
    (copyTo h st.2 i).bind fun h => (attachData (h, st.2) i).map fun st => (st, true)

def reAllocBuffer (st : St) (uCapacity : Nat) : Option (St × Bool) :=
  if st.2.bDetachable then reAllocDetachable st uCapacity else reAllocShared st uCapacity

/-- The second half of `SetSize`: the size is set, and memory far beyond it is given back. -/
def putSize (st : St) (uSize uPreAlloc uCapacity : Nat) : Option (St × Bool) :=
  let x := { st.2 with uSize, uPosition := min st.2.uPosition uSize }
  if bufferMaxPrealloc < sizeSub uCapacity uSize ∧ uPreAlloc < bufferMaxPrealloc then
    (reAllocBuffer (st.1, x) (sizeT (bufferMaxPrealloc + uSize))).map fun r => (r.1, true)
  else if x.bDetachable then
    some ((st.1, { x with uPreAllocated := sizeSub uCapacity uSize % 2 ^ 32 }), true)
  else
    some ((st.1, x), true)

/-- The result of the reallocation is not looked at. -/
def setSize (st : St) (uSize : Nat) (bExpend : Bool) (uPreAlloc : Nat) : Option (St × Bool) :=
  let uCapacity := st.2.getCapacity st.1
  if uPreAlloc = npos ∨ uCapacity < sizeT (uSize + uPreAlloc) then
    if !bExpend || st.2.bReadOnly then some (st, false)
    else
      let uCapacity := if uPreAlloc = npos then uSize else sizeT (uSize + uPreAlloc)
      (reAllocBuffer st uCapacity).bind fun r => putSize r.1 uSize uPreAlloc uCapacity
  else
    putSize st uSize uPreAlloc uCapacity

/-- The memory to ask for beyond what is written. -/
def preAlloc (uLength uSize : Nat) : Nat := max (max (sizeT (uLength * 2)) uSize) 16

def prepareWrite (st : St) (uOffset uLength : Nat) : Option (St × Bool) :=
  let x := st.2
  if x.bReadOnly then some (st, false)
  else
    let uEndOffset := sizeT (uOffset + uLength)
    let uCapacity := x.getCapacity st.1
    if uCapacity < uEndOffset ∨ x.shared st.1 = true then
      if x.bFixed then some (st, false)
      else setSize st uEndOffset true (if uCapacity < uEndOffset then preAlloc uLength x.uSize else 0)
    else if x.uSize < uEndOffset then
      let uPreAllocated :=
        if x.bDetachable then (x.uPreAllocated + 2 ^ 32 - (uEndOffset - x.uSize) % 2 ^ 32) % 2 ^ 32 else x.uPreAllocated
      some ((st.1, { x with uSize := uEndOffset, uPreAllocated }), true)
    else
      some (st, true)

/-! ## Mutators -/

/-- `pData` with its length: the bytes, or a null pointer. -/
inductive Src where
  | data (bytes : List UInt8)
  | null (uLength : Nat)
  deriving Repr, DecidableEq

namespace Src

def uLength : Src → Nat
  | data bytes => bytes.length
  | null uLength => uLength

/-- What is copied. -/
def bytes : Src → List UInt8
  | data bytes => bytes
  | null _ => []

/-- What is copied, zeros in place of a null pointer. -/
def bytesOrZero : Src → List UInt8
  | data bytes => bytes
  | null uLength => List.replicate uLength 0

end Src

/-- A write that goes to `uOffset`, of an object that is ready for it. -/
def putAt (st : St) (uOffset : Nat) (data : List UInt8) : Option (St × Bool) :=
  (st.2.poke st.1 uOffset data).map fun h => ((h, st.2), st.2.pointer uOffset)

def setPosition (st : St) (uPosition : Nat) : Option (St × Bool) :=
  if uPosition = npos then some ((st.1, { st.2 with uPosition := st.2.uSize }), true)
  else if st.2.uSize < uPosition then some (st, false)
  else some ((st.1, { st.2 with uPosition }), true)

def writeData (st : St) (src : Src) : Option (St × Bool) :=
  (prepareWrite st st.2.uPosition src.uLength).bind fun
    | (st, false) => some (st, false)
    | (st, true) =>
      (putAt st st.2.uPosition src.bytes).map fun r =>
        ((r.1.1, { r.1.2 with uPosition := sizeT (r.1.2.uPosition + src.uLength) }), r.2)

def setDataAt (st : St) (uOffset : Nat) (src : Src) : Option (St × Bool) :=
  let uOffset := if uOffset = npos then st.2.uSize else uOffset
  (prepareWrite st uOffset src.uLength).bind fun
    | (st, false) => some (st, false)
    | (st, true) => putAt st uOffset src.bytesOrZero

def insertData (st : St) (uOffset : Nat) (src : Src) : Option (St × Bool) :=
  let uSize := st.2.uSize
  (prepareWrite st uSize src.uLength).bind fun
    | (st, false) => some (st, false)
    | (st, true) =>
      (st.2.memMove st.1 (sizeT (uOffset + src.uLength)) uOffset (sizeSub uSize uOffset)).bind fun h =>
        putAt (h, st.2) uOffset src.bytes

def appendData (st : St) (data : List UInt8) : Option (St × Bool) :=
  let uOffset := st.2.uSize
  (prepareWrite st uOffset data.length).bind fun
    | (st, false) => some (st, false)
    | (st, true) => (putAt st uOffset data).map fun r => (r.1, true)

def removeData (st : St) (uOffset uLength : Nat) : Option (St × Bool) :=
  let uSize := st.2.uSize
  if st.2.bReadOnly then some (st, false)
  else if uLength ≠ npos ∧ uSize < sizeT (uOffset + uLength) then some (st, false)
  else
    let uLength := if uLength = npos then uSize else uLength
    (st.2.memMove st.1 uOffset (sizeT (uOffset + uLength)) (sizeSub (sizeSub uSize uOffset) uLength)).map
      fun h => ((h, { st.2 with uSize := sizeSub uSize uLength }), true)

def replaceData (st : St) (uOffset uOldLength : Nat) (src : Src) : Option (St × Bool) :=
  (removeData st uOffset uOldLength).bind fun
    | (st, false) => some (st, false)
    | (st, true) => insertData st uOffset src

def shiftData (st : St) (uOffset : Nat) : Option (St × Bool) :=
  if st.2.p = none ∨ st.2.uSize < uOffset then some (st, false)
  else
    let x := { st.2 with uSize := st.2.uSize - uOffset }
    (x.memMove st.1 0 uOffset x.uSize).map fun h =>
      ((h, { x with uPosition := if uOffset < x.uPosition then x.uPosition - uOffset else 0 }), true)

/-- A call of a mutator. -/
inductive Op where
  | writeData (src : Src)
  | setDataAt (uOffset : Nat) (src : Src)
  | insertData (uOffset : Nat) (src : Src)
  | appendData (data : List UInt8)
  | removeData (uOffset uLength : Nat)
  | replaceData (uOffset uOldLength : Nat) (src : Src)
  | shiftData (uOffset : Nat)
  | setPosition (uPosition : Nat)
  deriving Repr, DecidableEq

def Op.run (st : St) : Op → Option (St × Bool)
  | writeData src => Buffer.writeData st src
  | setDataAt uOffset src => Buffer.setDataAt st uOffset src
  | insertData uOffset src => Buffer.insertData st uOffset src
  | appendData data => Buffer.appendData st data
  | removeData uOffset uLength => Buffer.removeData st uOffset uLength
  | replaceData uOffset uOldLength src => Buffer.replaceData st uOffset uOldLength src
  | shiftData uOffset => Buffer.shiftData st uOffset
  | setPosition uPosition => Buffer.setPosition st uPosition

/-! ## Copies -/

/-- `AllocBuffer(uLength, true)`: memory of its own, in use in full. -/
def allocUsed (st : St) (uLength : Nat) : Option St :=
  (detachData st).map fun st =>
    let r := st.1.memAlloc uLength
    (r.2, { st.2 with p := r.1, bDetachable := true, uSize := uLength, bFixed := false, uPosition := 0 })

/-- `CopyBuffer(Other.GetBuffer(), Other.GetSize())` -/
def copyBuffer (st : St) (other : CBuffer) : Option St :=
  (allocUsed st other.uSize).bind fun st =>
    (other.peek st.1 0 other.uSize).bind fun data => (st.2.poke st.1 0 data).map fun h => (h, st.2)

/-- `Assign`, of another object with the same allocator or with another one. -/
def assign (samePool : Bool) (st : St) (other : CBuffer) : Option St :=
  if !samePool || !other.isContainerized then
    (copyBuffer st other).map fun st =>
      (st.1, { st.2 with bFixed := other.bFixed, bReadOnly := other.bReadOnly, uPosition := other.uPosition })
  else
    match other.p with
    | none => none
    | some i =>
      (attachData st i).map fun st =>
        (st.1, { st.2 with
          uSize := other.uSize, bDerived := other.bDerived, bDetachable := other.bDetachable,
          bFixed := other.bFixed, bReadOnly := other.bReadOnly, uPosition := other.uPosition })

end MajorPrivacy.Buffer

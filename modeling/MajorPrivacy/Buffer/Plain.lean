/-
A buffer that nobody else shares, as its callers see it: bytes, of which some were never set, with a
position and a capacity. Each mutator is an operation on the list of bytes.
-/
import MajorPrivacy.Buffer.CBuffer

namespace MajorPrivacy.Buffer

/-! ## Lists with unset bytes -/

/-- At least `n` cells, those added are unset. -/
def padTo (cells : List (Option UInt8)) (n : Nat) : List (Option UInt8) :=
  cells ++ List.replicate (n - cells.length) none

/-- `bytes` in place of the cells from `off` on. -/
def overwrite (cells : List (Option UInt8)) (off : Nat) (bytes : List UInt8) : List (Option UInt8) :=
  cells.take off ++ bytes.map some ++ cells.drop (off + bytes.length)

/-- A gap of `len` cells before the cell `off`, it holds what was there. -/
def openGap (cells : List (Option UInt8)) (off len : Nat) : List (Option UInt8) :=
  (padTo cells (cells.length + len)).take (off + len) ++ cells.drop off

/-- The cells without those of a range. -/
def cut (cells : List (Option UInt8)) (off len : Nat) : List (Option UInt8) :=
  cells.take off ++ cells.drop (off + len)

theorem length_padTo (cells : List (Option UInt8)) (n : Nat) : (padTo cells n).length = max cells.length n := by
  unfold padTo
  rw [List.length_append, List.length_replicate]
  omega

theorem length_overwrite {cells : List (Option UInt8)} {off : Nat} {bytes : List UInt8}
    (h : off + bytes.length ≤ cells.length) : (overwrite cells off bytes).length = cells.length := by
  unfold overwrite
  rw [List.length_append, List.length_append, List.length_take, List.length_map, List.length_drop]
  omega

theorem length_openGap {cells : List (Option UInt8)} {off len : Nat} (h : off ≤ cells.length) :
    (openGap cells off len).length = cells.length + len := by
  unfold openGap
  rw [List.length_append, List.length_take, length_padTo, List.length_drop]
  omega

theorem length_cut {cells : List (Option UInt8)} {off len : Nat} (h : off + len ≤ cells.length) :
    (cut cells off len).length = cells.length - len := by
  unfold cut
  rw [List.length_append, List.length_take, List.length_drop]
  omega

/-- A cell that is set after padding was set before. -/
theorem getElem?_padTo {cells : List (Option UInt8)} {n k : Nat} {b : UInt8} (h : (padTo cells n)[k]? = some (some b)) :
    cells[k]? = some (some b) := by
  unfold padTo at h
  rcases Nat.lt_or_ge k cells.length with hk | hk
  · rwa [List.getElem?_append_left hk] at h
  · rw [List.getElem?_append_right hk, List.getElem?_replicate] at h
    split at h <;> simp at h

theorem getElem?_overwrite {cells : List (Option UInt8)} {off : Nat} {bytes : List UInt8}
    (h : off + bytes.length ≤ cells.length) (k : Nat) :
    (overwrite cells off bytes)[k]? =
      if off ≤ k ∧ k < off + bytes.length then (bytes.map some)[k - off]? else cells[k]? := by
  have htake : (cells.take off).length = off := by
    rw [List.length_take]
    omega
  unfold overwrite
  rw [List.append_assoc]
  by_cases h₁ : k < off
  · rw [List.getElem?_append_left (by omega), List.getElem?_take_of_lt h₁, if_neg (by omega)]
  · rw [List.getElem?_append_right (by omega), htake]
    by_cases h₂ : k < off + bytes.length
    · rw [List.getElem?_append_left (by rw [List.length_map]; omega), if_pos (by omega)]
    · rw [List.getElem?_append_right (by rw [List.length_map]; omega), List.getElem?_drop, if_neg (by omega),
        List.length_map]
      congr 1
      omega

theorem getElem?_openGap {cells : List (Option UInt8)} {off len : Nat} (h : off ≤ cells.length) (k : Nat) :
    (openGap cells off len)[k]? =
      if k < off + len then (padTo cells (cells.length + len))[k]? else cells[k - len]? := by
  have hlen : ((padTo cells (cells.length + len)).take (off + len)).length = off + len := by
    rw [List.length_take, length_padTo]
    omega
  unfold openGap
  by_cases hk : k < off + len
  · rw [List.getElem?_append_left (by omega), List.getElem?_take_of_lt hk, if_pos hk]
  · rw [List.getElem?_append_right (by omega), List.getElem?_drop, if_neg hk, hlen]
    congr 1
    omega

theorem getElem?_cut {cells : List (Option UInt8)} {off len : Nat} (h : off ≤ cells.length) (k : Nat) :
    (cut cells off len)[k]? = if k < off then cells[k]? else cells[k + len]? := by
  have hlen : (cells.take off).length = off := by
    rw [List.length_take]
    omega
  unfold cut
  by_cases hk : k < off
  · rw [List.getElem?_append_left (by omega), List.getElem?_take_of_lt hk, if_pos hk]
  · rw [List.getElem?_append_right (by omega), List.getElem?_drop, if_neg hk, hlen]
    congr 1
    omega

/-! ## The buffer -/

structure Plain where
  cells : List (Option UInt8)
  uPosition : Nat
  capacity : Nat
  bFixed : Bool
  bReadOnly : Bool
  /-- The capacity is counted from the size, as for memory without a block of its own. -/
  raw : Bool

namespace Plain

variable (p : Plain)

def size : Nat := p.cells.length

/-- The capacity after a write has outgrown it. -/
def grown (uOffset uLength : Nat) : Nat :=
  uOffset + uLength + if p.raw then preAlloc uLength p.size % 2 ^ 32 else preAlloc uLength p.size

/-- The buffer with room for a write, if it takes one. -/
def prepareWrite (uOffset uLength : Nat) : Option Plain :=
  if p.bReadOnly then none
  else if p.capacity < uOffset + uLength then
    if p.bFixed then none
    else some { p with
      cells := padTo p.cells (uOffset + uLength), uPosition := min p.uPosition (uOffset + uLength),
      capacity := p.grown uOffset uLength }
  else some { p with cells := padTo p.cells (uOffset + uLength) }

def put (uOffset : Nat) (bytes : List UInt8) : Plain := { p with cells := overwrite p.cells uOffset bytes }

def writeData (src : Src) : Plain :=
  match p.prepareWrite p.uPosition src.uLength with
  | none => p
  | some q => { q.put p.uPosition src.bytes with uPosition := p.uPosition + src.uLength }

def setDataAt (uOffset : Nat) (src : Src) : Plain :=
  let uOffset := if uOffset = npos then p.size else uOffset
  match p.prepareWrite uOffset src.uLength with
  | none => p
  | some q => q.put uOffset src.bytesOrZero

def insertData (uOffset : Nat) (src : Src) : Plain :=
  match p.prepareWrite p.size src.uLength with
  | none => p
  | some q => { q with cells := openGap p.cells uOffset src.uLength }.put uOffset src.bytes

def appendData (data : List UInt8) : Plain :=
  match p.prepareWrite p.size data.length with
  | none => p
  | some q => q.put p.size data

/-- The bytes a call of `RemoveData` takes out, if it takes any. -/
def removes (uOffset uLength : Nat) : Option Nat :=
  if p.bReadOnly then none
  else if uLength = npos then some p.size
  else if p.size < uOffset + uLength then none
  else some uLength

def take (uOffset uLength : Nat) : Plain :=
  { p with
    cells := cut p.cells uOffset uLength
    capacity := if p.raw then p.capacity - uLength else p.capacity }

def removeData (uOffset uLength : Nat) : Plain :=
  match p.removes uOffset uLength with
  | none => p
  | some len => p.take uOffset len

def replaceData (uOffset uOldLength : Nat) (src : Src) : Plain :=
  match p.removes uOffset uOldLength with
  | none => p
  | some len => (p.take uOffset len).insertData uOffset src

def shiftData (uOffset : Nat) : Plain :=
  if p.size < uOffset then p
  else { p.take 0 uOffset with uPosition := if uOffset < p.uPosition then p.uPosition - uOffset else 0 }

def setPosition (uPosition : Nat) : Plain :=
  if uPosition = npos then { p with uPosition := p.size }
  else if p.size < uPosition then p
  else { p with uPosition }

/-- What a call does to the buffer. -/
def run : Op → Plain
  | .writeData src => p.writeData src
  | .setDataAt uOffset src => p.setDataAt uOffset src
  | .insertData uOffset src => p.insertData uOffset src
  | .appendData data => p.appendData data
  | .removeData uOffset uLength => p.removeData uOffset uLength
  | .replaceData uOffset uOldLength src => p.replaceData uOffset uOldLength src
  | .shiftData uOffset => p.shiftData uOffset
  | .setPosition uPosition => p.setPosition uPosition

/-- A write that `size_t` can count, with what it asks for if it outgrows the capacity. -/
def Counts (uOffset uLength : Nat) : Prop :=
  uOffset + uLength < 2 ^ 64 ∧
    (p.capacity < uOffset + uLength →
      sBufferSize + (uOffset + uLength + preAlloc uLength p.size) < 2 ^ 64)

/-- A range that `RemoveData` can take out. -/
def Removes (uOffset uLength : Nat) : Prop :=
  if uLength = npos then uOffset = 0 else uOffset + uLength < 2 ^ 64

/-- A call that stays inside the memory of the buffer. -/
def Callable : Op → Prop
  | .writeData src => p.Counts p.uPosition src.uLength
  | .setDataAt uOffset src => p.Counts (if uOffset = npos then p.size else uOffset) src.uLength
  | .insertData uOffset src => uOffset ≤ p.size ∧ p.Counts p.size src.uLength
  | .appendData data => p.Counts p.size data.length
  | .removeData uOffset uLength => p.bReadOnly = true ∨ Removes uOffset uLength
  | .replaceData uOffset uOldLength src => p.bReadOnly = true ∨ Removes uOffset uOldLength ∧
      ∀ len, p.removes uOffset uOldLength = some len →
        uOffset ≤ (p.take uOffset len).size ∧ (p.take uOffset len).Counts (p.take uOffset len).size src.uLength
  | .shiftData _ => True
  | .setPosition _ => True

end Plain

end MajorPrivacy.Buffer

/-
A block of memory as a list: slices of it, and reads and writes that fail where they would leave the
block. A slice that a write does not reach is unchanged by it.
-/
import Mathlib.Data.List.Basic

namespace Memory

variable {α : Type}

/-- `len` cells from `off` on. -/
def slice (mem : List α) (off len : Nat) : List α := (mem.drop off).take len

/-- `len` cells from `off` on, if the block has them. -/
def readAt (mem : List α) (off len : Nat) : Option (List α) :=
  if off + len ≤ mem.length then some (slice mem off len) else none

/-- The block with `data` written from `off` on, if it has the room. -/
def writeAt (mem : List α) (off : Nat) (data : List α) : Option (List α) :=
  if off + data.length ≤ mem.length then some (mem.take off ++ data ++ mem.drop (off + data.length)) else none

theorem getElem?_slice (mem : List α) (off len i : Nat) :
    (slice mem off len)[i]? = if i < len then mem[off + i]? else none := by
  unfold slice
  rw [List.getElem?_take]
  split
  · rw [List.getElem?_drop]
  · rfl

@[simp] theorem slice_zero (mem : List α) (off : Nat) : slice mem off 0 = [] := by
  simp [slice]

theorem length_slice {mem : List α} {off len : Nat} (h : off + len ≤ mem.length) : (slice mem off len).length = len := by
  unfold slice
  rw [List.length_take, List.length_drop]
  omega

theorem slice_add (mem : List α) (off len len' : Nat) :
    slice mem off (len + len') = slice mem off len ++ slice mem (off + len) len' := by
  unfold slice
  rw [List.take_add, List.drop_drop]

theorem slice_full (mem : List α) (len : Nat) : slice mem 0 len = mem.take len := by
  simp [slice]

theorem take_slice {mem : List α} {off n len : Nat} (h : n ≤ len) : (slice mem off len).take n = slice mem off n := by
  unfold slice
  rw [List.take_take, Nat.min_eq_left h]

theorem drop_slice (mem : List α) (off n len : Nat) : (slice mem off len).drop n = slice mem (off + n) (len - n) := by
  unfold slice
  rw [List.drop_take, List.drop_drop]

theorem slice_cons {mem : List α} {off len : Nat} {a : α} (ha : mem[off]? = some a) (h : 0 < len) :
    slice mem off len = a :: slice mem (off + 1) (len - 1) := by
  obtain ⟨hoff, rfl⟩ := List.getElem?_eq_some_iff.1 ha
  obtain ⟨len, rfl⟩ := Nat.exists_eq_succ_of_ne_zero (Nat.pos_iff_ne_zero.1 h)
  unfold slice
  rw [List.drop_eq_getElem_cons hoff, List.take_succ_cons]
  rfl

theorem readAt_eq {mem : List α} {off len : Nat} (h : off + len ≤ mem.length) :
    readAt mem off len = some (slice mem off len) := if_pos h

theorem isSome_readAt {mem : List α} {off len : Nat} : (readAt mem off len).isSome ↔ off + len ≤ mem.length := by
  unfold readAt
  split <;> simp [*]

theorem isSome_writeAt {mem : List α} {off : Nat} {data : List α} :
    (writeAt mem off data).isSome ↔ off + data.length ≤ mem.length := by
  unfold writeAt
  split <;> simp [*]

theorem writeAt_eq (mem : List α) (off : Nat) (data : List α) (h : off + data.length ≤ mem.length) :
    ∃ mem', writeAt mem off data = some mem' := ⟨_, if_pos h⟩

section Write

variable {mem mem' : List α} {off : Nat} {data : List α} (h : writeAt mem off data = some mem')
include h

theorem writeAt_le : off + data.length ≤ mem.length := by
  unfold writeAt at h
  split at h
  · assumption
  · cases h

theorem length_writeAt : mem'.length = mem.length := by
  have hle := writeAt_le h
  unfold writeAt at h
  rw [if_pos hle] at h
  cases h
  simp only [List.length_append, List.length_take, List.length_drop]
  omega

theorem getElem?_writeAt (i : Nat) :
    mem'[i]? = if off ≤ i ∧ i < off + data.length then data[i - off]? else mem[i]? := by
  have hle := writeAt_le h
  unfold writeAt at h
  rw [if_pos hle] at h
  cases h
  have htake : (mem.take off).length = off := by
    rw [List.length_take]
    omega
  rw [List.append_assoc]
  by_cases h₁ : i < off
  · rw [List.getElem?_append_left (by omega), List.getElem?_take_of_lt h₁, if_neg (by omega)]
  · rw [List.getElem?_append_right (by omega), htake]
    by_cases h₂ : i < off + data.length
    · rw [List.getElem?_append_left (by omega), if_pos (by omega)]
    · rw [List.getElem?_append_right (by omega), List.getElem?_drop, if_neg (by omega)]
      congr 1
      omega

/-- A slice beside the written cells is as it was. -/
theorem slice_writeAt {off' len : Nat} (hd : off' + len ≤ off ∨ off + data.length ≤ off') :
    slice mem' off' len = slice mem off' len := by
  apply List.ext_getElem?
  intro i
  rw [getElem?_slice, getElem?_slice]
  split
  · rw [getElem?_writeAt h, if_neg (by omega)]
  · rfl

/-- The written cells. -/
theorem slice_writeAt_self : slice mem' off data.length = data := by
  apply List.ext_getElem?
  intro i
  rw [getElem?_slice]
  split
  · rw [getElem?_writeAt h, if_pos (by omega), Nat.add_sub_cancel_left]
  · rw [List.getElem?_eq_none (by omega)]

end Write

theorem writeAt_nil {mem : List α} {off : Nat} (h : off ≤ mem.length) : writeAt mem off [] = some mem := by
  rw [writeAt, List.length_nil, Nat.add_zero, if_pos h, List.append_nil, List.take_append_drop]

/-- Two writes one behind the other. -/
theorem writeAt_append {mem mem' : List α} {off : Nat} {data : List α} (h : writeAt mem off data = some mem')
    (data' : List α) : writeAt mem' (off + data.length) data' = writeAt mem off (data ++ data') := by
  have hle := writeAt_le h
  have hlen := length_writeAt h
  unfold writeAt at h
  rw [if_pos hle] at h
  obtain rfl := Option.some.inj h
  have hhead : (mem.take off ++ data).length = off + data.length := by
    rw [List.length_append, List.length_take]
    omega
  unfold writeAt
  rw [hlen, List.length_append, ← Nat.add_assoc]
  by_cases hfit : off + data.length + data'.length ≤ mem.length
  · rw [if_pos hfit, if_pos hfit, List.take_left' hhead, ← hhead, List.drop_length_add_append, List.drop_drop, hhead]
    simp only [List.append_assoc]
  · rw [if_neg hfit, if_neg hfit]

/-- A write over a write of the same length. -/
theorem writeAt_writeAt {mem mem' : List α} {off : Nat} {data data' : List α} (h : writeAt mem off data = some mem')
    (hlen : data'.length = data.length) : writeAt mem' off data' = writeAt mem off data' := by
  have hle := writeAt_le h
  have hmem := length_writeAt h
  unfold writeAt at h
  rw [if_pos hle] at h
  obtain rfl := Option.some.inj h
  have htake : (mem.take off).length = off := by
    rw [List.length_take]
    omega
  have hhead : (mem.take off ++ data).length = off + data.length := by
    rw [List.length_append, htake]
  unfold writeAt
  rw [hmem, if_pos (by omega), if_pos (by omega), hlen, List.drop_left' hhead, List.append_assoc (mem.take off) data,
    List.take_left' htake]

/-! ## Cells overwritten in place -/

/-- The block with `data` from `off` on; it keeps its length, and stays as it is where `data` has no room. -/
def overwrite (mem : List α) (off : Nat) (data : List α) : List α := (writeAt mem off data).getD mem

section Overwrite

variable {mem : List α} {off : Nat} {data : List α}

@[simp] theorem length_overwrite : (overwrite mem off data).length = mem.length := by
  unfold overwrite
  obtain h | ⟨mem', h⟩ := Option.eq_none_or_eq_some (writeAt mem off data)
  · rw [h]
    rfl
  · rw [h]
    exact length_writeAt h

theorem slice_overwrite_self (h : off + data.length ≤ mem.length) : slice (overwrite mem off data) off data.length = data := by
  obtain ⟨mem', hwrite⟩ := writeAt_eq mem off data h
  rw [overwrite, hwrite]
  exact slice_writeAt_self hwrite

theorem slice_overwrite {off' len : Nat} (hd : off' + len ≤ off ∨ off + data.length ≤ off') :
    slice (overwrite mem off data) off' len = slice mem off' len := by
  unfold overwrite
  obtain h | ⟨mem', h⟩ := Option.eq_none_or_eq_some (writeAt mem off data)
  · rw [h]
    rfl
  · rw [h]
    exact slice_writeAt h hd

theorem overwrite_eq (h : off + data.length ≤ mem.length) :
    overwrite mem off data = mem.take off ++ data ++ mem.drop (off + data.length) := by
  rw [overwrite, writeAt, if_pos h, Option.getD_some]

theorem overwrite_of_lt (h : mem.length < off + data.length) : overwrite mem off data = mem := by
  rw [overwrite, writeAt, if_neg (by omega), Option.getD_none]

/-- Cells in front stay, those behind them are overwritten. -/
theorem take_overwrite (k : Nat) : (overwrite mem (k + off) data).take k = mem.take k := by
  rw [← slice_full, ← slice_full]
  exact slice_overwrite (.inl (by omega))

theorem drop_overwrite (k : Nat) : (overwrite mem (k + off) data).drop k = overwrite (mem.drop k) off data := by
  by_cases h : k + off + data.length ≤ mem.length
  · have hk : (mem.take k).length = k := by
      rw [List.length_take]
      omega
    rw [overwrite_eq h, overwrite_eq (by rw [List.length_drop]; omega), List.take_add, List.append_assoc, List.append_assoc,
      List.drop_left' hk, List.drop_drop, ← Nat.add_assoc, List.append_assoc]
  · rw [overwrite_of_lt (by omega)]
    by_cases hlen : (mem.drop k).length < off + data.length
    · rw [overwrite_of_lt hlen]
    · -- nothing is left behind `k`
      rw [List.length_drop] at hlen
      have hoff : off = 0 := by omega
      have hdata : data = [] := List.eq_nil_of_length_eq_zero (by omega)
      rw [hoff, hdata, overwrite_eq (Nat.zero_le _), List.take_zero, List.nil_append, List.nil_append, List.length_nil,
        Nat.add_zero, List.drop_zero]

end Overwrite

theorem slice_append_mid {x y z : List α} {n : Nat} (hx : x.length = n) : slice (x ++ y ++ z) n y.length = y := by
  rw [slice, List.append_assoc, List.drop_left' hx, List.take_left]

theorem overwrite_append_mid {x y z w : List α} {n : Nat} (hx : x.length = n) (hw : w.length = y.length) :
    overwrite (x ++ y ++ z) n w = x ++ w ++ z := by
  have hxy : (x ++ y).length = n + w.length := by
    rw [List.length_append, hx, hw]
  rw [overwrite_eq (by rw [List.length_append, hxy]; omega), List.drop_left' hxy, List.append_assoc x y, List.take_left' hx]

end Memory

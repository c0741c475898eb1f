/-
The ring buffer under the rates (MiscStats.h). It grows when it is full, so it is a queue without a bound:
what goes out is what came in first, and nothing goes out but by `pop_front`.
-/
import Mathlib.Data.List.Basic

namespace MajorPrivacy.Usage

/-- `%` of two sizes, `none` for a division by zero. -/
def modSize (a n : Nat) : Option Nat := if n = 0 then none else some (a % n)

structure SRingBuffer (T : Type) where
  buffer : List T
  head : Nat
  tail : Nat
  size : Nat
  grow : Nat
  length : Nat

namespace SRingBuffer

variable {T : Type}

/-- The constructor. -/
def new (grow : Nat) : SRingBuffer T := ⟨[], 0, 0, 0, grow, 0⟩

/-- `at`, the entry at a position from the head on. -/
def get (r : SRingBuffer T) (pos : Nat) : Option T := (modSize (r.head + pos) r.length).bind (r.buffer[·]?)

def front (r : SRingBuffer T) : Option T := r.buffer[r.head]?

def popFront (r : SRingBuffer T) : Option (SRingBuffer T) :=
  if r.size = 0 then some r
  else
    (modSize (r.head + 1) r.length).map fun head =>
      { r with head, size := r.size - 1, tail := if r.size - 1 = 0 then head else r.tail }

/-- The loop of `expand`. -/
def copies (r : SRingBuffer T) (pos : Nat) : (togo : Nat) → Option (List T)
  | 0 => some []
  | togo + 1 => (r.get pos).bind fun value => (r.copies (pos + 1) togo).map (value :: ·)

/-- The copies in front of the rest of the new buffer, `blank` is a fresh entry. -/
def expand (blank : T) (r : SRingBuffer T) : Option (SRingBuffer T) :=
  (r.copies 0 r.size).map fun copies =>
    { r with
      buffer := copies ++ List.replicate (r.length + r.grow - r.size) blank
      head := if r.size = 0 then r.head else 0
      tail := if r.size = 0 then r.tail else r.size - 1
      length := r.length + r.grow }

/-- A write behind the end of the buffer is out of bounds. -/
def store (r : SRingBuffer T) (value : T) : Option (SRingBuffer T) :=
  (if r.size = 0 then some r.tail else modSize (r.tail + 1) r.length).bind fun tail =>
    if tail < r.buffer.length then some { r with tail, buffer := r.buffer.set tail value, size := r.size + 1 } else none

def pushBack (blank : T) (r : SRingBuffer T) (value : T) : Option (SRingBuffer T) :=
  (if r.length ≤ r.size then r.expand blank else some r).bind (·.store value)

/-! ## A queue -/

/-- The entries of the buffer, the oldest first. -/
structure Holds (r : SRingBuffer T) (entries : List T) : Prop where
  size : r.size = entries.length
  length : r.buffer.length = r.length
  fits : r.size ≤ r.length
  head : r.head < max 1 r.length
  tail : if r.size = 0 then r.tail = r.head else r.tail = (r.head + (r.size - 1)) % r.length
  cells : ∀ i < entries.length, r.buffer[(r.head + i) % r.length]? = entries[i]?

theorem holds_new (grow : Nat) : (new grow : SRingBuffer T).Holds [] :=
  ⟨rfl, rfl, Nat.le_refl 0, Nat.one_pos, rfl, fun _ hi => absurd hi (Nat.not_lt_zero _)⟩

section Queue

variable {r : SRingBuffer T} {entries : List T} (hr : r.Holds entries)
include hr

theorem Holds.get {pos : Nat} (hpos : pos < entries.length) : r.get pos = entries[pos]? := by
  have hfits := hr.fits
  rw [hr.size] at hfits
  unfold SRingBuffer.get modSize
  rw [if_neg (by omega), Option.bind_some]
  exact hr.cells pos hpos

theorem Holds.copies : ∀ (togo pos : Nat), pos + togo = entries.length → r.copies pos togo = some (entries.drop pos)
  | 0, pos, h => by rw [SRingBuffer.copies, List.drop_of_length_le (by omega)]
  | togo + 1, pos, h => by
    have hpos : pos < entries.length := by omega
    rw [SRingBuffer.copies, hr.get hpos, List.getElem?_eq_getElem hpos, Option.bind_some,
      Holds.copies togo (pos + 1) (by omega), Option.map_some, List.drop_eq_getElem_cons hpos]

end Queue

section Steps

variable {r : SRingBuffer T}

theorem Holds.front {e : T} {entries : List T} (hr : r.Holds (e :: entries)) : r.front = some e := by
  have hfits := hr.fits
  have hhead := hr.head
  have hcell := hr.cells 0 (Nat.succ_pos _)
  rw [hr.size, List.length_cons] at hfits
  rw [Nat.add_zero, Nat.mod_eq_of_lt (by omega)] at hcell
  exact hcell

theorem Holds.popFront {e : T} {entries : List T} (hr : r.Holds (e :: entries)) :
    ∃ r', r.popFront = some r' ∧ r'.Holds entries ∧ r'.grow = r.grow := by
  obtain ⟨hsize, hlength, hfits, hhead, htail, hcells⟩ := hr
  rw [List.length_cons] at hsize
  have hpos : 0 < r.length := by omega
  refine ⟨{ r with
    head := (r.head + 1) % r.length, size := r.size - 1,
    tail := if r.size - 1 = 0 then (r.head + 1) % r.length else r.tail }, ?_, ⟨?_, hlength, ?_, ?_, ?_, fun i hi => ?_⟩, rfl⟩
  · unfold SRingBuffer.popFront modSize
    rw [if_neg (by omega), if_neg (by omega), Option.map_some]
  · simp only
    omega
  · simp only
    omega
  · have := Nat.mod_lt (r.head + 1) hpos
    simp only
    omega
  · simp only
    split
    · rfl
    · rw [if_neg (by omega)] at htail
      rw [htail, Nat.mod_add_mod]
      congr 1
      omega
  · have hcell := hcells (i + 1) (Nat.succ_lt_succ hi)
    simp only [Nat.mod_add_mod]
    rw [List.getElem?_cons_succ] at hcell
    rw [← hcell]
    congr 2
    omega

/-- Two places of one round are not the same. -/
theorem add_mod_ne {head i j n : Nat} (hij : i < j) (hj : j < i + n) : (head + i) % n ≠ (head + j) % n := by
  intro h
  have hi := Nat.div_add_mod (head + i) n
  have hj' := Nat.div_add_mod (head + j) n
  obtain hlt | heq | hlt := Nat.lt_trichotomy ((head + i) / n) ((head + j) / n)
  · have := Nat.mul_le_mul_left n (Nat.succ_le_of_lt hlt)
    rw [Nat.mul_succ] at this
    omega
  · rw [heq] at hi
    omega
  · have := Nat.mul_le_mul_left n (Nat.le_of_lt hlt)
    omega

theorem Holds.store {entries : List T} (hr : r.Holds entries) (hroom : r.size < r.length) (value : T) :
    ∃ r', r.store value = some r' ∧ r'.Holds (entries ++ [value]) ∧ r'.grow = r.grow := by
  obtain ⟨hsize, hlength, hfits, hhead, htail, hcells⟩ := hr
  have hpos : 0 < r.length := by omega
  have hnext : (if r.size = 0 then some r.tail else modSize (r.tail + 1) r.length) = some ((r.head + r.size) % r.length) := by
    split
    · rename_i h0
      rw [if_pos h0] at htail
      rw [htail, h0, Nat.add_zero, Nat.mod_eq_of_lt (by omega)]
    · rename_i h0
      rw [if_neg h0] at htail
      unfold modSize
      rw [if_neg (by omega), htail, Nat.mod_add_mod]
      congr 2
      omega
  have hlt := Nat.mod_lt (r.head + r.size) hpos
  refine ⟨{ r with
    tail := (r.head + r.size) % r.length, buffer := r.buffer.set ((r.head + r.size) % r.length) value,
    size := r.size + 1 }, ?_, ⟨?_, ?_, ?_, hhead, ?_, fun i hi => ?_⟩, rfl⟩
  · unfold SRingBuffer.store
    rw [hnext, Option.bind_some, if_pos (by omega)]
  · simp only [List.length_append, List.length_singleton]
    omega
  · simp only [List.length_set]
    exact hlength
  · simp only
    omega
  · simp only
    rw [if_neg (by omega), Nat.add_sub_cancel]
  · rw [List.length_append, List.length_singleton] at hi
    simp only
    by_cases hlast : i = entries.length
    · rw [hlast, ← hsize, List.getElem?_set_self (by omega), List.getElem?_append_right (by omega), hsize, Nat.sub_self]
      rfl
    · rw [List.getElem?_set_ne (add_mod_ne (by omega) (by omega)).symm, hcells i (by omega),
        List.getElem?_append_left (by omega)]

theorem Holds.expand {entries : List T} (hr : r.Holds entries) (hgrow : 0 < r.grow) (blank : T) :
    ∃ r', r.expand blank = some r' ∧ r'.Holds entries ∧ r'.grow = r.grow ∧ (r.length = r.size → r'.size < r'.length) := by
  have hcopies := hr.copies r.size 0 (by rw [hr.size, Nat.zero_add])
  obtain ⟨hsize, hlength, hfits, hhead, htail, hcells⟩ := hr
  refine ⟨{ r with
    buffer := entries.drop 0 ++ List.replicate (r.length + r.grow - r.size) blank
    head := if r.size = 0 then r.head else 0, tail := if r.size = 0 then r.tail else r.size - 1
    length := r.length + r.grow }, ?_, ⟨hsize, ?_, ?_, ?_, ?_, fun i hi => ?_⟩, rfl, fun _ => ?_⟩
  · rw [SRingBuffer.expand, hcopies, Option.map_some]
  · simp only [List.drop_zero, List.length_append, List.length_replicate]
    omega
  · simp only
    omega
  · simp only
    split <;> omega
  · simp only
    split
    · rename_i h0
      rw [if_pos h0] at htail
      exact htail
    · rw [Nat.zero_add, Nat.mod_eq_of_lt (by omega)]
  · simp only
    rw [if_neg (by omega), Nat.zero_add, Nat.mod_eq_of_lt (by omega), List.drop_zero, List.getElem?_append_left hi]
  · simp only
    omega

/-- A new entry goes in behind the others, whatever the buffer has room for. -/
theorem Holds.pushBack {entries : List T} (hr : r.Holds entries) (hgrow : 0 < r.grow) (blank value : T) :
    ∃ r', r.pushBack blank value = some r' ∧ r'.Holds (entries ++ [value]) ∧ r'.grow = r.grow := by
  unfold SRingBuffer.pushBack
  have hfits := hr.fits
  by_cases hfull : r.length ≤ r.size
  · obtain ⟨r₁, hrun, hr₁, hgrow₁, hroom⟩ := hr.expand hgrow blank
    obtain ⟨r', hstore, hr', hgrow'⟩ := hr₁.store (hroom (by omega)) value
    refine ⟨r', ?_, hr', hgrow'.trans hgrow₁⟩
    rw [if_pos hfull, hrun, Option.bind_some, hstore]
  · obtain ⟨r', hstore, hr', hgrow'⟩ := hr.store (by omega) value
    refine ⟨r', ?_, hr', hgrow'⟩
    rw [if_neg hfull, Option.bind_some, hstore]

end Steps

end SRingBuffer

end MajorPrivacy.Usage

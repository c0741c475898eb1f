/-
The cells of a page of the memory pool (MemoryPool.cpp): a bitmap of used cells, changed and searched bit
by bit, and byte by byte where a whole byte is concerned.
-/
import Mathlib.Data.Nat.Bitwise
import Mathlib.Tactic.IntervalCases
import Mathlib.Logic.Function.Basic

namespace MajorPrivacy.Core

/-! ## Bitmaps -/

/-- The bytes of the bitmap and of what is behind it. -/
abbrev Bitmap := Nat → UInt8

/-- A cell is used. -/
def Bitmap.cell (bitmap : Bitmap) (n : Nat) : Bool := (bitmap (n / 8)).toNat.testBit (n % 8)

/-- `NUM_PAGE_CELLS` and `RAW_BITMAP_SIZE`. -/
structure PageSizes where
  NUM_PAGE_CELLS : Nat
  RAW_BITMAP_SIZE : Nat
  fits : NUM_PAGE_CELLS ≤ 8 * RAW_BITMAP_SIZE

/-- The sizes of a page in the kernel, of 4096 bytes in cells of 16. -/
def kernelPage : PageSizes := ⟨252, 32, by decide⟩

/-- The sizes of a page in a process, of 65536 bytes in cells of 128. -/
def userPage : PageSizes := ⟨511, 64, by decide⟩

/-- A page: the bits of the bitmap behind the last cell are set. -/
structure PAGE (s : PageSizes) where
  Bitmap : Bitmap
  padding : ∀ n, s.NUM_PAGE_CELLS ≤ n → n < 8 * s.RAW_BITMAP_SIZE → Bitmap.cell n = true

/-! ## The cursor -/

/-- A byte of the bitmap, and a mask of one bit. -/
structure Cursor where
  byte : Nat
  Mask : UInt32
  deriving DecidableEq

namespace Cursor

/-- The cursor at a cell. -/
def ofCell (n : Nat) : Cursor := ⟨n / 8, 1 <<< UInt32.ofNat (n % 8)⟩

/-- The mask is turned by one bit, at whose first the next byte comes. -/
def next (c : Cursor) : Cursor :=
  let Mask : UInt32 := c.Mask <<< 1
  let Mask : UInt32 := (Mask &&& (0xFF : UInt32)) ||| (Mask >>> 8)
  let step : UInt32 := Mask &&& 1
  ⟨c.byte + step.toNat, Mask⟩

end Cursor

/-! ## InitCells -/

def Bitmap.set (bitmap : Bitmap) (byte : Nat) (value : UInt8) : Bitmap := Function.update bitmap byte value

/-- The loop of `InitCells`. -/
def initFrom (RAW_BITMAP_SIZE : Nat) (bitmap : Bitmap) (i : Nat) : Bitmap :=
  if h : RAW_BITMAP_SIZE ≤ i / 8 then bitmap
  else
    let bit : UInt32 := 1 <<< UInt32.ofNat (i % 8)
    if bit = 1 then initFrom RAW_BITMAP_SIZE (bitmap.set (i / 8) 0xFF) (i + 8)
    else initFrom RAW_BITMAP_SIZE (bitmap.set (i / 8) ((bitmap (i / 8)).toUInt32 ||| bit).toUInt8) (i + 1)
termination_by 8 * RAW_BITMAP_SIZE - i

/-- `InitCells`, with `MemZero`. -/
def initCells (s : PageSizes) (bitmap : Bitmap) : Bitmap :=
  initFrom s.RAW_BITMAP_SIZE (fun byte => if byte < s.RAW_BITMAP_SIZE then 0 else bitmap byte) s.NUM_PAGE_CELLS

/-! ## MarkCells and ClearCells -/

/-- The loop of `MarkCells` and `ClearCells`, with what becomes of a whole byte and of a bit. -/
def fillCells (whole : UInt8) (change : UInt32 → UInt32 → UInt32) (bitmap : Bitmap) (c : Cursor) (Count : Nat) : Bitmap :=
  if Count = 0 then bitmap
  else if c.Mask = 1 ∧ 8 < Count then
    fillCells whole change (bitmap.set c.byte whole) { c with byte := c.byte + 1 } (Count - 8)
  else
    fillCells whole change (bitmap.set c.byte (change (bitmap c.byte).toUInt32 c.Mask).toUInt8) c.next (Count - 1)
termination_by Count

/-- `MarkCells`. -/
def markCells (bitmap : Bitmap) (Index Count : Nat) : Bitmap :=
  fillCells 0xFF (fun byte Mask => byte ||| Mask) bitmap (.ofCell Index) Count

/-- `ClearCells`. -/
def clearCells (bitmap : Bitmap) (Index Count : Nat) : Bitmap :=
  fillCells 0 (fun byte Mask => byte &&& ~~~Mask) bitmap (.ofCell Index) Count

/-! ## FindCells -/

/-- The inner loops of `FindCells`: as far as the bits are set, or clear, and the end is not reached. -/
def skipRun (s : PageSizes) (bitmap : Bitmap) (set : Bool) (reached : Nat → Bool) (c : Cursor) (j : Nat) : Cursor × Nat :=
  if h : j < s.NUM_PAGE_CELLS ∧ reached j = false then
    if c.Mask = 1 ∧ bitmap c.byte = (if set then 0xFF else 0) then
      skipRun s bitmap set reached { c with byte := c.byte + 1 } (j + 8)
    else if decide ((bitmap c.byte).toUInt32 &&& c.Mask ≠ 0) = set then skipRun s bitmap set reached c.next (j + 1)
    else (c, j)
  else (c, j)
termination_by s.NUM_PAGE_CELLS - j

theorem le_skipRun (s : PageSizes) (bitmap : Bitmap) (set : Bool) (reached : Nat → Bool) (c : Cursor) (j : Nat) :
    j ≤ (skipRun s bitmap set reached c j).2 := by
  fun_induction skipRun s bitmap set reached c j with
  | case1 c j h hbyte ih => omega
  | case2 c j h hbyte hbit ih => omega
  | case3 => exact Nat.le_refl _
  | case4 => exact Nat.le_refl _

/-- The outer loop of `FindCells`. -/
def findFrom (s : PageSizes) (bitmap : Bitmap) (Count : Nat) (c : Cursor) (i : Nat) : Option Nat :=
  if h : i < s.NUM_PAGE_CELLS then
    if (bitmap c.byte).toUInt32 &&& c.Mask ≠ 0 then
      let run := skipRun s bitmap true (fun _ => false) c.next (i + 1)
      have := le_skipRun s bitmap true (fun _ => false) c.next (i + 1)
      findFrom s bitmap Count run.1 run.2
    else
      let run := skipRun s bitmap false (fun j => Count ≤ j - i) c.next (i + 1)
      have := le_skipRun s bitmap false (fun j => Count ≤ j - i) c.next (i + 1)
      if Count ≤ run.2 - i then some i else findFrom s bitmap Count run.1 run.2
  else none
termination_by s.NUM_PAGE_CELLS - i

/-- `FindCells`; `none` is its `(ULONG)-1`. -/
def findCells {s : PageSizes} (Page : PAGE s) (Count : Nat) : Option Nat := findFrom s Page.Bitmap Count (.ofCell 0) 0

/-! ## Bits of a byte -/

namespace Cursor

/-- The masks of the bits of a byte, one after the other. -/
theorem next_mask : ∀ k, k < 8 → next ⟨0, 1 <<< UInt32.ofNat k⟩ = ⟨(k + 1) / 8, 1 <<< UInt32.ofNat ((k + 1) % 8)⟩ := by
  decide

theorem next_ofCell (n : Nat) : (ofCell n).next = ofCell (n + 1) := by
  have hmask := next_mask (n % 8) (Nat.mod_lt n (by decide))
  unfold next at hmask
  obtain ⟨hbyte, hturn⟩ := Cursor.mk.inj hmask
  unfold ofCell next
  dsimp only at hbyte hturn ⊢
  rw [hturn] at hbyte ⊢
  rw [Nat.zero_add] at hbyte
  rw [hbyte]
  congr 1
  · omega
  · congr 2
    omega

theorem mask_eq_one : ∀ k, k < 8 → ((1 : UInt32) <<< UInt32.ofNat k = 1 ↔ k = 0) := by decide

theorem mask_ofCell (n : Nat) : (ofCell n).Mask = 1 ↔ n % 8 = 0 := mask_eq_one _ (Nat.mod_lt n (by decide))

/-- At the first bit of a byte, a byte further is eight cells further. -/
theorem ofCell_add_eight {n : Nat} (h : (ofCell n).Mask = 1) : { ofCell n with byte := (ofCell n).byte + 1 } = ofCell (n + 8) := by
  have hmod := (mask_ofCell n).1 h
  unfold ofCell
  dsimp only
  congr 1
  · omega
  · congr 2
    omega

end Cursor

theorem toNat_mask : ∀ k, k < 8 → ((1 : UInt32) <<< UInt32.ofNat k).toNat = 2 ^ k := by decide

theorem testBit_toUInt8 (x : UInt32) {m : Nat} (hm : m < 8) : x.toUInt8.toNat.testBit m = x.toNat.testBit m := by
  rw [UInt32.toNat_toUInt8, Nat.testBit_mod_two_pow, decide_eq_true hm, Bool.true_and]

/-- The test of one bit. -/
theorem and_mask_ne_zero (b : UInt8) {k : Nat} (hk : k < 8) :
    (b.toUInt32 &&& (1 <<< UInt32.ofNat k) ≠ 0) ↔ b.toNat.testBit k = true := by
  rw [Ne, ← UInt32.toNat_inj, UInt32.toNat_and, toNat_mask k hk, UInt8.toNat_toUInt32, Nat.and_two_pow]
  cases b.toNat.testBit k <;> simp

/-- Setting one bit. -/
theorem testBit_or_mask (b : UInt8) {k m : Nat} (hk : k < 8) (hm : m < 8) :
    (b.toUInt32 ||| (1 <<< UInt32.ofNat k)).toUInt8.toNat.testBit m = (decide (m = k) || b.toNat.testBit m) := by
  rw [testBit_toUInt8 _ hm, UInt32.toNat_or, toNat_mask k hk, UInt8.toNat_toUInt32, Nat.testBit_or, Nat.testBit_two_pow,
    Bool.or_comm]
  simp [eq_comm]

/-- Clearing one bit. -/
theorem testBit_and_not_mask (b : UInt8) {k m : Nat} (hk : k < 8) (hm : m < 8) :
    (b.toUInt32 &&& ~~~(1 <<< UInt32.ofNat k)).toUInt8.toNat.testBit m = (!decide (m = k) && b.toNat.testBit m) := by
  rw [testBit_toUInt8 _ hm, UInt32.toNat_and, UInt32.toNat_not, toNat_mask k hk, UInt8.toNat_toUInt32, Nat.testBit_and]
  have hsize : UInt32.size - 1 - 2 ^ k = 2 ^ 32 - (2 ^ k + 1) := by
    rw [Nat.sub_sub, Nat.add_comm]
    rfl
  have hlt : 2 ^ k < 2 ^ 32 := Nat.pow_lt_pow_right (by decide) (by omega)
  rw [hsize, Nat.testBit_two_pow_sub_succ hlt, Nat.testBit_two_pow, decide_eq_true (Nat.lt_trans hm (by decide)),
    Bool.true_and, Bool.and_comm]
  simp [eq_comm]

/-- A byte of one value only. -/
theorem byte_eq_iff (b : UInt8) (set : Bool) : b = (if set then 0xFF else 0) ↔ ∀ m, m < 8 → b.toNat.testBit m = set := by
  have hvalue : ∀ m, m < 8 → (if set then 0xFF else 0 : UInt8).toNat.testBit m = set := by
    cases set <;> decide
  constructor
  · rintro rfl
    exact hvalue
  · intro h
    rw [← UInt8.toNat_inj]
    apply Nat.eq_of_testBit_eq
    intro m
    by_cases hm : m < 8
    · rw [h m hm, hvalue m hm]
    · have hhigh : ∀ b : UInt8, b.toNat.testBit m = false := fun b =>
        Nat.testBit_lt_two_pow (Nat.lt_of_lt_of_le b.toNat_lt (Nat.pow_le_pow_right (by decide) (Nat.le_of_not_lt hm)))
      rw [hhigh, hhigh]

/-! ## Cells of a bitmap -/

namespace Bitmap

variable (bitmap : Bitmap)

theorem ofCell_ne_zero (n : Nat) :
    (bitmap (Cursor.ofCell n).byte).toUInt32 &&& (Cursor.ofCell n).Mask ≠ 0 ↔ bitmap.cell n = true :=
  and_mask_ne_zero _ (Nat.mod_lt n (by decide))

theorem decide_ofCell (n : Nat) :
    decide ((bitmap (Cursor.ofCell n).byte).toUInt32 &&& (Cursor.ofCell n).Mask ≠ 0) = bitmap.cell n := by
  rw [Bool.decide_congr (bitmap.ofCell_ne_zero n), Bool.decide_eq_true]

theorem cell_set (byte : Nat) (value : UInt8) (n : Nat) :
    (bitmap.set byte value).cell n = if n / 8 = byte then value.toNat.testBit (n % 8) else bitmap.cell n := by
  unfold cell set
  by_cases h : n / 8 = byte
  · rw [if_pos h, h, Function.update_self]
  · rw [if_neg h, Function.update_of_ne h]

/-- A byte is all set, or all clear, just if its eight cells are. -/
theorem byte_eq_iff_cells {i : Nat} (hi : i % 8 = 0) (set : Bool) :
    bitmap (i / 8) = (if set then 0xFF else 0) ↔ ∀ n, i ≤ n → n < i + 8 → bitmap.cell n = set := by
  rw [byte_eq_iff]
  constructor
  · intro h n hle hlt
    have hbyte : n / 8 = i / 8 := by omega
    unfold cell
    rw [hbyte]
    exact h _ (Nat.mod_lt n (by decide))
  · intro h m hm
    have hcell := h (i + m) (by omega) (by omega)
    have hbyte : (i + m) / 8 = i / 8 := by omega
    have hbit : (i + m) % 8 = m := by omega
    unfold cell at hcell
    rwa [hbyte, hbit] at hcell

/-- The byte of a cell with the cell's bit set. -/
theorem cell_set_or (i n : Nat) :
    (bitmap.set (i / 8) ((bitmap (i / 8)).toUInt32 ||| (1 <<< UInt32.ofNat (i % 8))).toUInt8).cell n =
      (decide (n = i) || bitmap.cell n) := by
  rw [cell_set]
  by_cases hbyte : n / 8 = i / 8
  · rw [if_pos hbyte, testBit_or_mask _ (Nat.mod_lt _ (by decide)) (Nat.mod_lt _ (by decide)), ← hbyte]
    have hsame : n % 8 = i % 8 ↔ n = i := by omega
    rw [decide_eq_decide.2 hsame]
    rfl
  · rw [if_neg hbyte, decide_eq_false (by rintro rfl; exact hbyte rfl), Bool.false_or]

/-- The byte of a cell with the cell's bit cleared. -/
theorem cell_set_and (i n : Nat) :
    (bitmap.set (i / 8) ((bitmap (i / 8)).toUInt32 &&& ~~~(1 <<< UInt32.ofNat (i % 8))).toUInt8).cell n =
      (!decide (n = i) && bitmap.cell n) := by
  rw [cell_set]
  by_cases hbyte : n / 8 = i / 8
  · rw [if_pos hbyte, testBit_and_not_mask _ (Nat.mod_lt _ (by decide)) (Nat.mod_lt _ (by decide)), ← hbyte]
    have hsame : n % 8 = i % 8 ↔ n = i := by omega
    rw [decide_eq_decide.2 hsame]
    rfl
  · rw [if_neg hbyte, decide_eq_false (by rintro rfl; exact hbyte rfl), Bool.not_false, Bool.true_and]

end Bitmap

/-! ## Filling -/

/-- What `MarkCells` or `ClearCells` does to one bit and to a byte. -/
structure Fills (value : Bool) (whole : UInt8) (change : UInt32 → UInt32 → UInt32) : Prop where
  whole : whole = if value then 0xFF else 0
  bit : ∀ (bitmap : Bitmap) (i n : Nat),
    (bitmap.set (i / 8) (change (bitmap (i / 8)).toUInt32 (1 <<< UInt32.ofNat (i % 8))).toUInt8).cell n =
      if n = i then value else bitmap.cell n

theorem fills_mark : Fills true 0xFF fun byte Mask => byte ||| Mask where
  whole := rfl
  bit := fun bitmap i n => by
    rw [bitmap.cell_set_or]
    by_cases h : n = i <;> simp [h]

theorem fills_clear : Fills false 0 fun byte Mask => byte &&& ~~~Mask where
  whole := rfl
  bit := fun bitmap i n => by
    rw [bitmap.cell_set_and]
    by_cases h : n = i <;> simp [h]

theorem cell_fillCells {value : Bool} {whole : UInt8} {change : UInt32 → UInt32 → UInt32} (h : Fills value whole change)
    (bitmap : Bitmap) (Count Index n : Nat) : (fillCells whole change bitmap (.ofCell Index) Count).cell n =
      if Index ≤ n ∧ n < Index + Count then value else bitmap.cell n := by
  induction Count using Nat.strongRecOn generalizing bitmap Index with
  | ind Count ih =>
    unfold fillCells
    by_cases hzero : Count = 0
    · rw [if_pos hzero, if_neg (by omega)]
    rw [if_neg hzero]
    by_cases hbyte : (Cursor.ofCell Index).Mask = 1 ∧ 8 < Count
    · have hmod := (Cursor.mask_ofCell Index).1 hbyte.1
      rw [if_pos hbyte, Cursor.ofCell_add_eight hbyte.1, ih (Count - 8) (by omega), bitmap.cell_set]
      change (if _ then value else if n / 8 = Index / 8 then _ else _) = _
      have hall : whole.toNat.testBit (n % 8) = value :=
        (byte_eq_iff whole value).1 h.whole _ (Nat.mod_lt n (by decide))
      rw [hall]
      by_cases hin : Index ≤ n ∧ n < Index + Count
      · rw [if_pos hin]
        by_cases hfirst : n / 8 = Index / 8
        · rw [if_pos hfirst, ite_self]
        · rw [if_pos (by omega)]
      · rw [if_neg hin, if_neg (by omega), if_neg (by omega)]
    · rw [if_neg hbyte, Cursor.next_ofCell, ih (Count - 1) (by omega)]
      change (if _ then value else (bitmap.set (Index / 8) (change (bitmap (Index / 8)).toUInt32 (1 <<< UInt32.ofNat (Index % 8))).toUInt8).cell n) = _
      rw [h.bit]
      by_cases hin : Index ≤ n ∧ n < Index + Count
      · rw [if_pos hin]
        by_cases hfirst : n = Index
        · rw [if_pos hfirst, ite_self]
        · rw [if_pos (by omega)]
      · rw [if_neg hin, if_neg (by omega), if_neg (by omega)]

theorem cell_markCells (bitmap : Bitmap) (Index Count n : Nat) :
    (markCells bitmap Index Count).cell n = if Index ≤ n ∧ n < Index + Count then true else bitmap.cell n :=
  cell_fillCells fills_mark bitmap Count Index n

theorem cell_clearCells (bitmap : Bitmap) (Index Count n : Nat) :
    (clearCells bitmap Index Count).cell n = if Index ≤ n ∧ n < Index + Count then false else bitmap.cell n :=
  cell_fillCells fills_clear bitmap Count Index n

/-! ## The padding -/

/-- `InitCells` clears the cells of the page and sets the padding. -/
theorem cell_initFrom (size : Nat) (bitmap : Bitmap) (i n : Nat) :
    (initFrom size bitmap i).cell n = if i ≤ n ∧ n < 8 * size then true else bitmap.cell n := by
  induction h : 8 * size - i using Nat.strongRecOn generalizing bitmap i with
  | ind m ih =>
    unfold initFrom
    by_cases hend : size ≤ i / 8
    · rw [dif_pos hend, if_neg (by omega)]
    rw [dif_neg hend]
    dsimp only
    by_cases hbit : (1 : UInt32) <<< UInt32.ofNat (i % 8) = 1
    · have hmod := (Cursor.mask_eq_one _ (Nat.mod_lt i (by decide))).1 hbit
      rw [if_pos hbit, ih _ (by omega) _ _ rfl, bitmap.cell_set]
      have hall : (0xFF : UInt8).toNat.testBit (n % 8) = true :=
        (byte_eq_iff 0xFF true).1 rfl _ (Nat.mod_lt n (by decide))
      rw [hall]
      by_cases hin : i ≤ n ∧ n < 8 * size
      · rw [if_pos hin]
        by_cases hfirst : n / 8 = i / 8
        · rw [if_pos hfirst, ite_self]
        · rw [if_pos (by omega)]
      · rw [if_neg hin, if_neg (by omega), if_neg (by omega)]
    · rw [if_neg hbit, ih _ (by omega) _ _ rfl, bitmap.cell_set_or]
      by_cases hin : i ≤ n ∧ n < 8 * size
      · rw [if_pos hin]
        by_cases hfirst : n = i
        · rw [decide_eq_true hfirst, Bool.true_or, ite_self]
        · rw [if_pos (by omega)]
      · rw [if_neg hin, if_neg (by omega), decide_eq_false (by omega), Bool.false_or]

theorem cell_initCells (s : PageSizes) (bitmap : Bitmap) {n : Nat} (hn : n < 8 * s.RAW_BITMAP_SIZE) :
    (initCells s bitmap).cell n = decide (s.NUM_PAGE_CELLS ≤ n) := by
  unfold initCells
  rw [cell_initFrom]
  by_cases hpad : s.NUM_PAGE_CELLS ≤ n
  · rw [if_pos ⟨hpad, hn⟩, decide_eq_true hpad]
  · rw [if_neg (by omega), decide_eq_false hpad]
    unfold Bitmap.cell
    dsimp only
    rw [if_pos (by omega)]
    exact Nat.zero_testBit _

namespace PAGE

variable {s : PageSizes}

/-- A new page. -/
def new (s : PageSizes) (bitmap : Core.Bitmap) : PAGE s where
  Bitmap := initCells s bitmap
  padding := fun n hle hlt => by rw [cell_initCells s bitmap hlt, decide_eq_true hle]

/-- `MarkCells` on a page. -/
def mark (Page : PAGE s) (Index Count : Nat) : PAGE s where
  Bitmap := markCells Page.Bitmap Index Count
  padding := fun n hle hlt => by rw [cell_markCells, Page.padding n hle hlt, ite_self]

/-- `ClearCells` on a page, for cells of the page. -/
def clear (Page : PAGE s) (Index Count : Nat) (h : Index + Count ≤ s.NUM_PAGE_CELLS) : PAGE s where
  Bitmap := clearCells Page.Bitmap Index Count
  padding := fun n hle hlt => by rw [cell_clearCells, if_neg (by omega), Page.padding n hle hlt]

end PAGE

/-! ## Searching -/

/-- A run of clear cells inside the page, which starts with one. -/
structure RunAt (s : PageSizes) (bitmap : Bitmap) (Count i : Nat) : Prop where
  start : i < s.NUM_PAGE_CELLS ∧ bitmap.cell i = false
  fits : i + Count ≤ s.NUM_PAGE_CELLS
  clear : ∀ n, i ≤ n → n < i + Count → bitmap.cell n = false

/-- The first run from a cell on, if there is one. -/
inductive FirstRun (s : PageSizes) (bitmap : Bitmap) (Count i : Nat) : Option Nat → Prop
  | found {k : Nat} (hle : i ≤ k) (h : RunAt s bitmap Count k) (hfirst : ∀ k', i ≤ k' → k' < k → ¬ RunAt s bitmap Count k') :
    FirstRun s bitmap Count i (some k)
  | missing (h : ∀ k', i ≤ k' → ¬ RunAt s bitmap Count k') : FirstRun s bitmap Count i none

section

variable {s : PageSizes} {bitmap : Bitmap} {Count : Nat}

/-- Where no run starts, the search may go on behind. -/
theorem FirstRun.behind {i j : Nat} {result : Option Nat} (h : FirstRun s bitmap Count j result) (hle : i ≤ j)
    (hno : ∀ k, i ≤ k → k < j → ¬ RunAt s bitmap Count k) : FirstRun s bitmap Count i result := by
  cases h with
  | found hjk hrun hfirst =>
    refine .found (hle.trans hjk) hrun fun k hik hk => ?_
    by_cases hkj : k < j
    · exact hno k hik hkj
    · exact hfirst k (Nat.le_of_not_lt hkj) hk
  | missing h =>
    refine .missing fun k hik => ?_
    by_cases hkj : k < j
    · exact hno k hik hkj
    · exact h k (Nat.le_of_not_lt hkj)

/-- An inner loop passes over cells of one value, as far as they go. -/
theorem skipRun_ofCell (s : PageSizes) (bitmap : Bitmap) (set : Bool) (reached : Nat → Bool) (j : Nat) :
    ∃ j', skipRun s bitmap set reached (.ofCell j) j = (.ofCell j', j') ∧ j ≤ j' ∧
      (j ≤ 8 * s.RAW_BITMAP_SIZE → j' ≤ 8 * s.RAW_BITMAP_SIZE) ∧ (∀ n, j ≤ n → n < j' → bitmap.cell n = set) ∧
      (s.NUM_PAGE_CELLS ≤ j' ∨ reached j' = true ∨ bitmap.cell j' ≠ set) := by
  induction h : s.NUM_PAGE_CELLS - j using Nat.strongRecOn generalizing j with
  | ind m ih =>
    unfold skipRun
    by_cases hend : j < s.NUM_PAGE_CELLS ∧ reached j = false
    swap
    · rw [dif_neg hend]
      refine ⟨j, rfl, Nat.le_refl j, fun h => h, fun n hle hlt => absurd hlt (Nat.not_lt.2 hle), ?_⟩
      by_cases hlt : j < s.NUM_PAGE_CELLS
      · exact .inr (.inl (by simpa [hlt] using hend))
      · exact .inl (Nat.le_of_not_lt hlt)
    rw [dif_pos hend]
    by_cases hbyte : (Cursor.ofCell j).Mask = 1 ∧ bitmap (Cursor.ofCell j).byte = (if set then 0xFF else 0)
    · have hall := (bitmap.byte_eq_iff_cells ((Cursor.mask_ofCell j).1 hbyte.1) set).1 hbyte.2
      rw [if_pos hbyte, Cursor.ofCell_add_eight hbyte.1]
      have hmod := (Cursor.mask_ofCell j).1 hbyte.1
      have hfits := s.fits
      obtain ⟨j', heq, hle, hbound, hcells, hstop⟩ := ih (s.NUM_PAGE_CELLS - (j + 8)) (by omega) (j + 8) rfl
      refine ⟨j', heq, by omega, fun _ => hbound (by omega), fun n hn hlt => ?_, hstop⟩
      by_cases hin : n < j + 8
      · exact hall n hn hin
      · exact hcells n (Nat.le_of_not_lt hin) hlt
    rw [if_neg hbyte]
    rw [bitmap.decide_ofCell]
    by_cases hcell : bitmap.cell j = set
    · rw [if_pos hcell, Cursor.next_ofCell]
      have hfits := s.fits
      obtain ⟨j', heq, hle, hbound, hcells, hstop⟩ := ih (s.NUM_PAGE_CELLS - (j + 1)) (by omega) (j + 1) rfl
      refine ⟨j', heq, by omega, fun _ => hbound (by omega), fun n hn hlt => ?_, hstop⟩
      by_cases hfirst : n = j
      · rw [hfirst, hcell]
      · exact hcells n (by omega) hlt
    · rw [if_neg hcell]
      exact ⟨j, rfl, Nat.le_refl j, fun h => h, fun n hle hlt => absurd hlt (Nat.not_lt.2 hle), .inr (.inr hcell)⟩

theorem firstRun_findFrom (hpad : ∀ n, s.NUM_PAGE_CELLS ≤ n → n < 8 * s.RAW_BITMAP_SIZE → bitmap.cell n = true) (i : Nat) :
    FirstRun s bitmap Count i (findFrom s bitmap Count (.ofCell i) i) := by
  induction h : s.NUM_PAGE_CELLS - i using Nat.strongRecOn generalizing i with
  | ind m ih =>
    unfold findFrom
    by_cases hend : i < s.NUM_PAGE_CELLS
    swap
    · rw [dif_neg hend]
      exact .missing fun k hik hrun => hend (Nat.lt_of_le_of_lt hik hrun.start.1)
    rw [dif_pos hend]
    have hfits := s.fits
    by_cases hset : bitmap.cell i = true
    · -- no run starts in a run of used cells
      rw [if_pos ((bitmap.ofCell_ne_zero i).2 hset)]
      dsimp only
      rw [Cursor.next_ofCell]
      obtain ⟨j, heq, hle, -, hcells, -⟩ := skipRun_ofCell s bitmap true (fun _ => false) (i + 1)
      rw [heq]
      refine (ih _ (by omega) j rfl).behind (by omega) fun k hik hkj hrun => ?_
      have hclear := hrun.start.2
      by_cases hfirst : k = i
      · rw [hfirst, hset] at hclear
        cases hclear
      · rw [hcells k (by omega) hkj] at hclear
        cases hclear
    · rw [if_neg (mt (bitmap.ofCell_ne_zero i).1 hset)]
      dsimp only
      rw [Cursor.next_ofCell]
      have hclear : bitmap.cell i = false := Bool.not_eq_true _ ▸ hset
      obtain ⟨j, heq, hle, hbound, hcells, hstop⟩ := skipRun_ofCell s bitmap false (fun j => Count ≤ j - i) (i + 1)
      rw [heq]
      have hrun : ∀ n, i ≤ n → n < j → bitmap.cell n = false := by
        intro n hin hnj
        by_cases hfirst : n = i
        · rw [hfirst, hclear]
        · exact hcells n (by omega) hnj
      -- the padding is set, so the run ends inside the page
      have hinside : j ≤ s.NUM_PAGE_CELLS := by
        by_contra hlt
        have hused := hpad s.NUM_PAGE_CELLS (Nat.le_refl _) (by omega)
        rw [hrun _ (by omega) (by omega)] at hused
        cases hused
      by_cases hcount : Count ≤ j - i
      · rw [if_pos hcount]
        exact .found (Nat.le_refl i) ⟨⟨hend, hclear⟩, by omega, fun n hin hlt => hrun n hin (by omega)⟩
          fun k hik hki => absurd hki (Nat.not_lt.2 hik)
      · rw [if_neg hcount]
        refine (ih _ (by omega) j rfl).behind (by omega) fun k hik hkj hk => ?_
        obtain hlast | hreached | hused := hstop
        · have := hk.fits
          omega
        · exact hcount (of_decide_eq_true hreached)
        · exact hused (hk.clear j (by omega) (by omega))

end

/-- The helpers do what they should: the first run of clear cells in the page is found, and exactly the
cells of a run are marked and cleared. -/
theorem cells_right {s : PageSizes} (Page : PAGE s) (Index Count : Nat) :
    FirstRun s Page.Bitmap Count 0 (findCells Page Count) ∧
    (∀ n, (markCells Page.Bitmap Index Count).cell n = if Index ≤ n ∧ n < Index + Count then true else Page.Bitmap.cell n) ∧
    ∀ n, (clearCells Page.Bitmap Index Count).cell n = if Index ≤ n ∧ n < Index + Count then false else Page.Bitmap.cell n := by
  refine ⟨firstRun_findFrom Page.padding 0, fun n => ?_, fun n => ?_⟩
  · exact cell_markCells Page.Bitmap Index Count n
  · exact cell_clearCells Page.Bitmap Index Count n

end MajorPrivacy.Core

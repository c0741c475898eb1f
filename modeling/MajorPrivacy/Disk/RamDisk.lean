/-
The RAM disks (VirtualMemoryIO.cpp, PhysicalMemoryIO.cpp): a table of blocks, each of which is allocated when
something is written to it that is not zero, and freed when nothing else is left in it.
-/
import MajorPrivacy.Lib.LittleEndian
import MajorPrivacy.Lib.Memory
import Mathlib.Data.Finset.Card
import Mathlib.Data.Finset.Range

namespace MajorPrivacy.Disk

open LittleEndian Memory

/-! ## `data_search` -/

/-- The versions of `data_search`. -/
inductive DataSearch where
  | std
  | sse2
  | avx

/-- The bytes that are looked at together. -/
def DataSearch.width : DataSearch → Nat
  | .std => 4
  | .sse2 => 16
  | .avx => 32

def isZero (mem : Bytes) : Bool := mem.all (· == 0)

/-- The first word from `off` on that is not zero. -/
def scan (w : Nat) (mem : Bytes) (off : Nat) : Option Nat :=
  if _h : 0 < w ∧ off + w ≤ mem.length then
    if isZero (slice mem off w) then scan w mem (off + w) else some off
  else none
termination_by mem.length - off

/-- Whether there is anything but zeros: the last word, set to one, ends the scan. -/
def dataSearch (d : DataSearch) (mem : Bytes) : Bool :=
  if mem = [] then false
  else if ¬ isZero (slice mem (mem.length - d.width) d.width) then true
  else scan d.width (overwrite mem (mem.length - d.width) [1]) 0 ≠ some (mem.length - d.width)

theorem DataSearch.width_pos (d : DataSearch) : 0 < d.width := by cases d <;> decide

theorem DataSearch.width_dvd (d : DataSearch) : d.width ∣ 512 := by cases d <;> decide

theorem isZero_append (l l' : Bytes) : isZero (l ++ l') = (isZero l && isZero l') := List.all_append

theorem isZero_iff {mem : Bytes} : isZero mem = true ↔ mem = List.replicate mem.length 0 := by
  rw [isZero, List.all_eq_true, List.eq_replicate_iff]
  simp only [beq_iff_eq, true_and]

theorem scan_eq_some {w : Nat} (hw : 0 < w) {mem : Bytes} {last : Nat} (hfit : last + w ≤ mem.length)
    (hlast : isZero (slice mem last w) = false) :
    ∀ {n off : Nat}, off + n * w = last → (scan w mem off = some last ↔ isZero (slice mem off (n * w)) = true)
  | 0, off, hoff => by
    rw [Nat.zero_mul, Nat.add_zero] at hoff
    subst hoff
    rw [scan, dif_pos ⟨hw, hfit⟩, hlast, Nat.zero_mul, slice_zero]
    exact iff_of_true rfl rfl
  | n + 1, off, hoff => by
    rw [Nat.succ_mul] at hoff
    rw [scan, dif_pos ⟨hw, by omega⟩, Nat.succ_mul, Nat.add_comm (n * w), slice_add, isZero_append, Bool.and_eq_true]
    cases hword : isZero (slice mem off w) with
    | true =>
      have ih := @scan_eq_some w hw mem last hfit hlast n (off + w) (by omega)
      rw [if_pos rfl, ih, eq_self, true_and]
    | false =>
      rw [if_neg Bool.false_ne_true]
      refine iff_of_false (fun h => ?_) (fun h => Bool.false_ne_true h.1)
      have := Option.some.inj h
      omega

theorem isZero_sentinel {w off : Nat} (hw : 0 < w) {mem : Bytes} (h : off + 1 ≤ mem.length) :
    isZero (slice (overwrite mem off [1]) off w) = false := by
  obtain ⟨k, rfl⟩ := Nat.exists_eq_add_of_le' hw
  have hself := @slice_overwrite_self _ mem off [1] h
  rw [List.length_singleton] at hself
  rw [Nat.add_comm, slice_add, isZero_append, hself]
  rfl

/-- The sentinel does not show. -/
theorem dataSearch_eq (d : DataSearch) {mem : Bytes} (h : 512 ∣ mem.length) : dataSearch d mem = !isZero mem := by
  have hw := d.width_pos
  obtain ⟨n, hn⟩ := Nat.dvd_trans d.width_dvd h
  unfold dataSearch
  by_cases hnil : mem = []
  · rw [if_pos hnil, hnil]
    rfl
  rw [if_neg hnil]
  obtain ⟨m, rfl⟩ : ∃ m, n = m + 1 := by
    refine Nat.exists_eq_succ_of_ne_zero fun h0 => hnil (List.eq_nil_of_length_eq_zero ?_)
    rw [hn, h0, Nat.mul_zero]
  rw [Nat.mul_succ] at hn
  have hlast : mem.length - d.width = m * d.width := by rw [hn, Nat.add_sub_cancel, Nat.mul_comm]
  have hsplit : isZero mem = (isZero (slice mem 0 (m * d.width)) && isZero (slice mem (m * d.width) d.width)) := by
    rw [← isZero_append]
    have hall := slice_add mem 0 (m * d.width) d.width
    rw [Nat.zero_add] at hall
    rw [← hall, slice_full, List.take_of_length_le (by rw [hn, Nat.mul_comm])]
  rw [hlast, hsplit]
  cases hz : isZero (slice mem (m * d.width) d.width) with
  | false => simp only [Bool.false_eq_true, not_false_eq_true, if_true, Bool.and_false, Bool.not_false]
  | true =>
    have hroom : m * d.width + 1 ≤ mem.length := by rw [hn, Nat.mul_comm]; omega
    have hone := isZero_sentinel hw hroom
    have hscan := scan_eq_some hw (by rw [length_overwrite, hn, Nat.mul_comm]) hone (Nat.zero_add (m * d.width))
    have hsame : slice (overwrite mem (m * d.width) [1]) 0 (m * d.width) = slice mem 0 (m * d.width) :=
      slice_overwrite (.inl (by rw [Nat.zero_add]))
    rw [hsame] at hscan
    rw [if_neg (not_not_intro rfl), Bool.and_true]
    cases hfront : isZero (slice mem 0 (m * d.width)) with
    | true => rw [hfront] at hscan; rw [hscan.2 rfl]; simp
    | false => rw [hfront] at hscan; simp only [Bool.false_eq_true, iff_false] at hscan; simp [hscan]

/-! ## The block table -/

/-- `mem_block_size_shift`. -/
structure BlockShift where
  shift : Nat
  low : 12 ≤ shift
  high : shift ≤ 30

/-- The shift that the constructors take for `BlockSize`. -/
def BlockShift.clamp (BlockSize : Int) : BlockShift :=
  if h : BlockSize < 12 then ⟨12, by decide, by decide⟩
  else if h' : 30 < BlockSize then ⟨30, by decide, by decide⟩
  else ⟨BlockSize.toNat, by omega, by omega⟩

/-- `mem_block_size`. -/
def BlockShift.size (g : BlockShift) : Nat := 1 <<< g.shift

theorem BlockShift.size_eq (g : BlockShift) : g.size = 2 ^ g.shift := Nat.one_shiftLeft g.shift

theorem BlockShift.size_pos (g : BlockShift) : 0 < g.size := by
  rw [g.size_eq]
  exact Nat.pow_pos (by decide)

theorem BlockShift.dvd_size (g : BlockShift) : 512 ∣ g.size := by
  rw [g.size_eq]
  exact Nat.pow_dvd_pow 2 (Nat.le_trans (by decide : 9 ≤ 12) g.low)

/-- `table_size` for a disk of this size. -/
def BlockShift.tableSize (g : BlockShift) (uSize : Nat) : Nat := (uSize + (g.size - 1)) % 2 ^ 64 / g.size

/-- What the two classes do with their blocks: `σ` is the state of one of them, `γ` what the system grants. -/
structure BlockMemory (σ γ : Type) where
  uSize : σ → Nat
  tableSize : σ → Nat
  nBlock : σ → Nat
  /-- The contents of an allocated block. -/
  block : σ → Nat → Option Bytes
  put : σ → Nat → Bytes → σ
  release : σ → Nat → σ
  /-- A new block of zeros, if there is the memory for it. -/
  acquire : σ → Nat → γ → Bool × σ
  expand : σ → Nat → σ

variable {σ γ : Type}

/-! ## `DiskWrite`, `DiskRead` and `TrimProcess` -/

section Code

variable (M : BlockMemory σ γ) (d : DataSearch) (g : BlockShift)

/-- Zeros over a part of a block; the block goes if there is nothing else in it. -/
def zeroOrRelease (s : σ) (index : Nat) (mem : Bytes) (block_offset current_size : Nat) : σ :=
  if dataSearch d (mem.take block_offset) || dataSearch d (mem.drop (block_offset + current_size)) then
    M.put s index (overwrite mem block_offset (List.replicate current_size 0))
  else M.release s index

/-- A block of `DiskWrite`. -/
def writeBlock (s : σ) (index block_offset : Nat) (grant : γ) (chunk : Bytes) : Option (Bool × σ) :=
  if index < M.tableSize s then
    match M.block s index with
    | some mem =>
      if dataSearch d chunk then some (true, M.put s index (overwrite mem block_offset chunk))
      else some (true, zeroOrRelease M d s index mem block_offset chunk.length)
    | none =>
      if dataSearch d chunk then
        match M.acquire s index grant with
        | (true, s) => some (true, M.put s index (overwrite (List.replicate g.size 0) block_offset chunk))
        | (false, s) => some (false, s)
      else some (true, s)
  else none

/-- The table grows when a block lies behind it. -/
def growFor (s : σ) (index uSize : Nat) : σ := if M.tableSize s ≤ index then M.expand s uSize else s

/-- The bytes of the request that lie in the current block. -/
def currentSize (size : Nat) (block_offset : Fin g.size) : Nat := min (size + block_offset) g.size - block_offset

theorem currentSize_pos {size : Nat} (h : size ≠ 0) (block_offset : Fin g.size) : 0 < currentSize g size block_offset := by
  have hlt := block_offset.isLt
  unfold currentSize
  omega

/-- The offset into the block of a byte of the disk. -/
def blockOffset (offset : Nat) : Fin g.size := ⟨offset % g.size, Nat.mod_lt _ g.size_pos⟩

/-- The loop of `DiskWrite`, with what is granted to it block by block. -/
def writeBlocks (grants : Nat → γ) (offset index : Nat) (block_offset : Fin g.size) (buf : Bytes) (s : σ) : Option (Bool × σ) :=
  let current_size := currentSize g buf.length block_offset
  match writeBlock M d g (growFor M s index (offset + buf.length)) index block_offset (grants index) (buf.take current_size) with
  | none => none
  | some (ok, s) =>
    if _h : current_size < buf.length then
      match writeBlocks grants offset (index + 1) (blockOffset g 0) (buf.drop current_size) s with
      | none => none
      | some (ret, s) => some (ok && ret, s)
    else some (ok, s)
termination_by buf.length
decreasing_by
  have hpos := @currentSize_pos g buf.length (by omega) block_offset
  rw [List.length_drop]
  omega

/-- `DiskWrite`. An `int` holds the end of the request in its first block. -/
def ramDiskWrite (grants : Nat → γ) (buf : Bytes) (offset : Nat) (s : σ) : Option (Bool × σ) :=
  if buf.length + offset % g.size < 2 ^ 31 then writeBlocks M d g grants offset (offset / g.size) (blockOffset g offset) buf s
  else none

/-- A block of `DiskRead`. -/
def readBlock (s : σ) (index block_offset current_size : Nat) : Option Bytes :=
  if index < M.tableSize s then
    match M.block s index with
    | some mem => some (slice mem block_offset current_size)
    | none => some (List.replicate current_size 0)
  else none

/-- The loop of `DiskRead`. -/
def readBlocks (offset index : Nat) (block_offset : Fin g.size) (size : Nat) (s : σ) : Option (Bytes × σ) :=
  let current_size := currentSize g size block_offset
  let s := growFor M s index (offset + size)
  match readBlock M s index block_offset current_size with
  | none => none
  | some buf =>
    if _h : current_size < size then
      match readBlocks offset (index + 1) (blockOffset g 0) (size - current_size) s with
      | none => none
      | some (rest, s) => some (buf ++ rest, s)
    else some (buf, s)
termination_by size
decreasing_by
  have hpos := @currentSize_pos g size (by omega) block_offset
  omega

/-- `DiskRead`. -/
def ramDiskRead (size offset : Nat) (s : σ) : Option (Bytes × σ) :=
  if size + offset % g.size < 2 ^ 31 then readBlocks M g offset (offset / g.size) (blockOffset g offset) size s else none

/-- The loop of `TrimProcess` over a range. -/
def trimBlocks (index : Nat) (block_offset : Fin g.size) (size : Nat) (s : σ) : σ :=
  if _h : size = 0 then s
  else if M.tableSize s ≤ index then s
  else
    let current_size := currentSize g size block_offset
    let s := match M.block s index with
      | some mem => zeroOrRelease M d s index mem block_offset current_size
      | none => s
    trimBlocks (index + 1) (blockOffset g 0) (size - current_size) s
termination_by size
decreasing_by
  have hpos := currentSize_pos g _h block_offset
  omega

/-- `TrimProcess` of ranges of an offset and a length. An `__int64` holds the end of a range in its first block. -/
def trimProcess : List (Nat × Nat) → σ → Option σ
  | [], s => some s
  | (offset, size) :: ranges, s =>
    if size + offset % g.size < 2 ^ 63 then trimProcess ranges (trimBlocks M d g (offset / g.size) (blockOffset g offset) size s)
    else none

end Code

/-! ## The bytes of the disk -/

/-- What is not allocated is zero. -/
def blockByte : Option Bytes → Nat → UInt8
  | some mem, i => mem.getD i 0
  | none, _ => 0

def byteAt (M : BlockMemory σ γ) (g : BlockShift) (s : σ) (x : Nat) : UInt8 := blockByte (M.block s (x / g.size)) (x % g.size)

def allocated (M : BlockMemory σ γ) (s : σ) : Finset Nat := (Finset.range (M.tableSize s)).filter fun i => (M.block s i).isSome

/-- One block of the table is replaced. -/
structure Updated (M : BlockMemory σ γ) (Valid : σ → Prop) (s s' : σ) (index : Nat) (new : Option Bytes) : Prop where
  valid : Valid s'
  uSize : M.uSize s' = M.uSize s
  tableSize : M.tableSize s' = M.tableSize s
  block : ∀ j, M.block s' j = if j = index then new else M.block s j

/-- What the classes rely on when they work with their blocks. -/
structure Lawful (M : BlockMemory σ γ) (g : BlockShift) (Valid : σ → Prop) : Prop where
  length {s : σ} {i : Nat} {mem : Bytes} : Valid s → M.block s i = some mem → mem.length = g.size
  beyond {s : σ} {i : Nat} : Valid s → M.tableSize s ≤ i → M.block s i = none
  put {s : σ} {i : Nat} {old mem : Bytes} : Valid s → M.block s i = some old → mem.length = g.size →
    Updated M Valid s (M.put s i mem) i (some mem) ∧ M.nBlock (M.put s i mem) = M.nBlock s
  release {s : σ} {i : Nat} {old : Bytes} : Valid s → M.block s i = some old →
    Updated M Valid s (M.release s i) i none ∧ M.nBlock (M.release s i) = M.nBlock s - 1
  refused {s s' : σ} {i : Nat} {grant : γ} : Valid s → i < M.tableSize s → M.block s i = none → M.acquire s i grant = (false, s') →
    Updated M Valid s s' i none ∧ M.nBlock s' = M.nBlock s
  granted {s s' : σ} {i : Nat} {grant : γ} : Valid s → i < M.tableSize s → M.block s i = none → M.acquire s i grant = (true, s') →
    Updated M Valid s s' i (some (List.replicate g.size 0)) ∧ M.nBlock s' = M.nBlock s + 1
  uSize_expand (s : σ) (u : Nat) : M.uSize (M.expand s u) = max (M.uSize s) u
  tableSize_expand (s : σ) (u : Nat) : M.tableSize (M.expand s u) = if u ≤ M.uSize s then M.tableSize s else g.tableSize u
  expand {s : σ} {u : Nat} : Valid s → M.tableSize s ≤ M.tableSize (M.expand s u) →
    Valid (M.expand s u) ∧ M.nBlock (M.expand s u) = M.nBlock s ∧ ∀ j, M.block (M.expand s u) j = M.block s j

/-- A state of the disk in which `n_block` is right. -/
structure Sound (M : BlockMemory σ γ) (Valid : σ → Prop) (s : σ) : Prop where
  valid : Valid s
  counted : M.nBlock s = (allocated M s).card

section Bytes

variable {M : BlockMemory σ γ} {d : DataSearch} {g : BlockShift} {Valid : σ → Prop}

theorem mem_allocated {s : σ} {i : Nat} : i ∈ allocated M s ↔ i < M.tableSize s ∧ (M.block s i).isSome := by
  rw [allocated, Finset.mem_filter, Finset.mem_range]

theorem Updated.trans {s s' s'' : σ} {i : Nat} {new new' : Option Bytes} (h : Updated M Valid s s' i new)
    (h' : Updated M Valid s' s'' i new') : Updated M Valid s s'' i new' := by
  refine ⟨h'.valid, h'.uSize.trans h.uSize, h'.tableSize.trans h.tableSize, fun j => ?_⟩
  rw [h'.block, h.block]
  split <;> rfl

theorem Updated.card_allocated {s s' : σ} {i : Nat} {new : Option Bytes} (h : Updated M Valid s s' i new) (hi : i < M.tableSize s) :
    (allocated M s').card + (M.block s i).isSome.toNat = (allocated M s).card + new.isSome.toNat := by
  have hmem : ∀ j, j ∈ allocated M s' ↔ if j = i then new.isSome = true else j ∈ allocated M s := by
    intro j
    rw [mem_allocated, mem_allocated, h.tableSize, h.block]
    by_cases hj : j = i
    · rw [if_pos hj, if_pos hj, hj, and_iff_right hi]
    · rw [if_neg hj, if_neg hj]
  have hold : i ∈ allocated M s ↔ (M.block s i).isSome = true := by rw [mem_allocated, and_iff_right hi]
  cases hnew : new.isSome with
  | true =>
    have hset : allocated M s' = insert i (allocated M s) := by
      ext j
      rw [hmem, hnew, Finset.mem_insert]
      by_cases hj : j = i
      · rw [if_pos hj]
        exact iff_of_true rfl (.inl hj)
      · rw [if_neg hj, or_iff_right hj]
    rw [hset]
    cases hb : (M.block s i).isSome with
    | true => rw [Finset.insert_eq_of_mem (hold.2 hb)]
    | false =>
      rw [Finset.card_insert_of_notMem fun hin => by rw [hold.1 hin] at hb; cases hb]
      rfl
  | false =>
    have hset : allocated M s' = (allocated M s).erase i := by
      ext j
      rw [hmem, hnew, Finset.mem_erase]
      by_cases hj : j = i
      · rw [if_pos hj]
        exact iff_of_false Bool.false_ne_true fun hin => hin.1 hj
      · rw [if_neg hj, and_iff_right hj]
    rw [hset]
    cases hb : (M.block s i).isSome with
    | true => exact Finset.card_erase_add_one (hold.2 hb)
    | false => rw [Finset.erase_eq_of_notMem fun hin => by rw [hold.1 hin] at hb; cases hb]

theorem byteAt_eq (s : σ) (index : Nat) {y : Nat} (hy : y < g.size) : byteAt M g s (index * g.size + y) = blockByte (M.block s index) y := by
  rw [byteAt, Nat.mul_comm, Nat.mul_add_div g.size_pos, Nat.div_eq_of_lt hy, Nat.mul_add_mod, Nat.mod_eq_of_lt hy, Nat.add_zero]

theorem div_size_eq {x index : Nat} : x / g.size = index ↔ index * g.size ≤ x ∧ x < index * g.size + g.size := by
  rw [Nat.div_eq_iff g.size_pos]
  have hpos := g.size_pos
  constructor <;> intro h <;> omega

theorem Updated.byteAt_eq {s s' : σ} {index : Nat} {new : Option Bytes} (h : Updated M Valid s s' index new) (x : Nat) :
    byteAt M g s' x = if index * g.size ≤ x ∧ x < index * g.size + g.size then blockByte new (x - index * g.size) else byteAt M g s x := by
  unfold byteAt
  rw [h.block]
  by_cases hx : x / g.size = index
  · rw [if_pos hx, if_pos (div_size_eq.1 hx), Nat.mod_eq_sub_div_mul, hx]
  · rw [if_neg hx, if_neg fun hin => hx (div_size_eq.2 hin)]

/-! ## One block -/

/-- A block holds `chunk` at `off`, and what it held elsewhere. -/
def BlockWritten (g : BlockShift) (old new : Option Bytes) (off : Nat) (chunk : Bytes) : Prop :=
  ∀ y < g.size, blockByte new y = if off ≤ y ∧ y < off + chunk.length then chunk.getD (y - off) 0 else blockByte old y

theorem blockWritten_overwrite {mem chunk : Bytes} {off : Nat} (hmem : mem.length = g.size) (hfit : off + chunk.length ≤ g.size) :
    BlockWritten g (some mem) (some (overwrite mem off chunk)) off chunk := by
  intro y _
  obtain ⟨mem', hw⟩ := writeAt_eq mem off chunk (by omega)
  rw [blockByte, List.getD_eq_getElem?_getD, overwrite, hw, Option.getD_some, getElem?_writeAt hw]
  split
  · rw [List.getD_eq_getElem?_getD]
  · rw [blockByte, List.getD_eq_getElem?_getD]

theorem blockByte_replicate (n y : Nat) : blockByte (some (List.replicate n 0)) y = 0 := by
  rw [blockByte, List.getD_eq_getElem?_getD, List.getElem?_replicate]
  split <;> rfl

theorem getD_of_isZero {mem : Bytes} (h : isZero mem = true) (y : Nat) : mem.getD y 0 = 0 := by
  rw [isZero_iff.1 h]
  exact blockByte_replicate _ y

theorem blockWritten_release {mem chunk : Bytes} {off : Nat} (hzero : isZero chunk = true) (hfront : isZero (mem.take off) = true)
    (hbehind : isZero (mem.drop (off + chunk.length)) = true) : BlockWritten g (some mem) none off chunk := by
  intro y _
  rw [getD_of_isZero hzero]
  split
  · rfl
  · rename_i hout
    by_cases hy : y < off
    · have h := getD_of_isZero hfront y
      rw [List.getD_eq_getElem?_getD, List.getElem?_take_of_lt hy] at h
      rw [blockByte, blockByte, List.getD_eq_getElem?_getD, h]
    · have h := getD_of_isZero hbehind (y - (off + chunk.length))
      rw [List.getD_eq_getElem?_getD, List.getElem?_drop, Nat.add_sub_cancel' (by omega)] at h
      rw [blockByte, blockByte, List.getD_eq_getElem?_getD, h]

/-- The disk after a block was written to, or was not for want of memory. -/
structure BlockStep (M : BlockMemory σ γ) (g : BlockShift) (Valid : σ → Prop) (s s' : σ) (index off : Nat) (chunk : Bytes)
    (ok : Bool) : Prop where
  sound : Sound M Valid s'
  uSize : M.uSize s' = M.uSize s
  tableSize : M.tableSize s' = M.tableSize s
  outside : ∀ x, ¬ (index * g.size + off ≤ x ∧ x < index * g.size + off + chunk.length) → byteAt M g s' x = byteAt M g s x
  inside : ok = true → ∀ x, index * g.size + off ≤ x → x < index * g.size + off + chunk.length →
    byteAt M g s' x = chunk.getD (x - (index * g.size + off)) 0

theorem BlockStep.of_updated {s s' : σ} {index off : Nat} {new : Option Bytes} {chunk : Bytes} (h : Updated M Valid s s' index new)
    (hs : Sound M Valid s) (hi : index < M.tableSize s) (hfit : off + chunk.length ≤ g.size)
    (hn : M.nBlock s' + (M.block s index).isSome.toNat = M.nBlock s + new.isSome.toNat)
    (hw : BlockWritten g (M.block s index) new off chunk) : BlockStep M g Valid s s' index off chunk true := by
  have hcard := h.card_allocated hi
  refine ⟨⟨h.valid, ?_⟩, h.uSize, h.tableSize, fun x hx => ?_, fun _ x hle hlt => ?_⟩
  · have := hs.counted
    omega
  · rw [h.byteAt_eq]
    by_cases hin : index * g.size ≤ x ∧ x < index * g.size + g.size
    · have hy : x - index * g.size < g.size := by omega
      rw [if_pos hin, hw _ hy, if_neg (by omega), ← byteAt_eq s index hy, Nat.add_sub_cancel' hin.1]
    · rw [if_neg hin]
  · rw [h.byteAt_eq, if_pos (by omega), hw _ (by omega), if_pos (by omega), Nat.sub_sub]

theorem zeroOrRelease_spec (hM : Lawful M g Valid) {s : σ} (hs : Sound M Valid s) {index off : Nat} {mem chunk : Bytes}
    (hblock : M.block s index = some mem) (hfit : off + chunk.length ≤ g.size) (hoff : 512 ∣ off) (hchunk : 512 ∣ chunk.length)
    (hzero : isZero chunk = true) : BlockStep M g Valid s (zeroOrRelease M d s index mem off chunk.length) index off chunk true := by
  have hi : index < M.tableSize s := by
    refine Nat.lt_of_not_le fun hle => ?_
    rw [hM.beyond hs.valid hle] at hblock
    cases hblock
  have hmem := hM.length hs.valid hblock
  have hfront : 512 ∣ (mem.take off).length := by rwa [List.length_take, Nat.min_eq_left (by omega)]
  have hbehind : 512 ∣ (mem.drop (off + chunk.length)).length := by
    rw [List.length_drop, hmem]
    exact Nat.dvd_sub g.dvd_size (Nat.dvd_add hoff hchunk)
  unfold zeroOrRelease
  rw [dataSearch_eq d hfront, dataSearch_eq d hbehind, ← isZero_iff.1 hzero]
  by_cases hrest : (!isZero (mem.take off) || !isZero (mem.drop (off + chunk.length))) = true
  · rw [if_pos hrest]
    obtain ⟨hup, hn⟩ := hM.put hs.valid hblock (show (overwrite mem off chunk).length = g.size by rw [length_overwrite, hmem])
    refine .of_updated hup hs hi hfit (by rw [hn, hblock]; rfl) ?_
    rw [hblock]
    exact blockWritten_overwrite hmem hfit
  · rw [if_neg hrest]
    simp only [Bool.or_eq_true, Bool.not_eq_true', not_or, Bool.not_eq_false] at hrest
    obtain ⟨hup, hn⟩ := hM.release hs.valid hblock
    refine .of_updated hup hs hi hfit ?_ ?_
    · -- the block was counted
      have hpos : 0 < (allocated M s).card := Finset.card_pos.2 ⟨index, mem_allocated.2 ⟨hi, by rw [hblock]; rfl⟩⟩
      have hc := hs.counted
      rw [hn, hblock, Option.isSome_some, Option.isSome_none, Bool.toNat_true, Bool.toNat_false]
      omega
    · rw [hblock]
      exact blockWritten_release hzero hrest.1 hrest.2

theorem writeBlock_spec (hM : Lawful M g Valid) {s : σ} (hs : Sound M Valid s) {index off : Nat} {chunk : Bytes} (grant : γ)
    (hi : index < M.tableSize s) (hfit : off + chunk.length ≤ g.size) (hoff : 512 ∣ off) (hchunk : 512 ∣ chunk.length) :
    ∃ ok s', writeBlock M d g s index off grant chunk = some (ok, s') ∧ BlockStep M g Valid s s' index off chunk ok := by
  unfold writeBlock
  rw [if_pos hi, dataSearch_eq d hchunk]
  cases hblock : M.block s index with
  | some mem =>
    have hmem := hM.length hs.valid hblock
    cases hzero : isZero chunk with
    | false =>
      obtain ⟨hup, hn⟩ := hM.put hs.valid hblock (show (overwrite mem off chunk).length = g.size by rw [length_overwrite, hmem])
      refine ⟨true, _, rfl, .of_updated hup hs hi hfit (by rw [hn, hblock]; rfl) ?_⟩
      rw [hblock]
      exact blockWritten_overwrite hmem hfit
    | true => exact ⟨true, _, rfl, zeroOrRelease_spec hM hs hblock hfit hoff hchunk hzero⟩
  | none =>
    cases hzero : isZero chunk with
    | true =>
      refine ⟨true, s, rfl, ⟨hs, rfl, rfl, fun _ _ => rfl, fun _ x hle hlt => ?_⟩⟩
      have hy : x - index * g.size < g.size := by omega
      rw [getD_of_isZero hzero, ← Nat.add_sub_cancel' (show index * g.size ≤ x by omega), byteAt_eq s index hy, hblock]
      rfl
    | false =>
      rw [Bool.not_false, if_pos rfl]
      generalize hgot : M.acquire s index grant = got
      obtain ⟨got, s'⟩ := got
      cases got with
      | false =>
        obtain ⟨hup, hn⟩ := hM.refused hs.valid hi hblock hgot
        have hcard := hup.card_allocated hi
        refine ⟨false, s', rfl, ⟨⟨hup.valid, ?_⟩, hup.uSize, hup.tableSize, fun x _ => ?_, fun h => (by cases h)⟩⟩
        · have hc := hs.counted
          rw [hblock] at hcard
          omega
        · rw [hup.byteAt_eq]
          split
          · rename_i hin
            have hy : x - index * g.size < g.size := by omega
            rw [← Nat.add_sub_cancel' hin.1, byteAt_eq s index hy, hblock, Nat.add_sub_cancel_left]
          · rfl
      | true =>
        obtain ⟨hup, hn⟩ := hM.granted hs.valid hi hblock hgot
        have hnew : M.block s' index = some (List.replicate g.size 0) := by rw [hup.block, if_pos rfl]
        obtain ⟨hput, hn'⟩ := hM.put hup.valid hnew
          (show (overwrite (List.replicate g.size 0) off chunk).length = g.size by rw [length_overwrite, List.length_replicate])
        refine ⟨true, _, rfl, .of_updated (hup.trans hput) hs hi hfit (by rw [hn', hn, hblock]; rfl) fun y hy => ?_⟩
        rw [blockWritten_overwrite List.length_replicate hfit y hy, hblock, blockByte_replicate]
        rfl

/-! ## The table and the request -/

/-- The index of the block in which a request ends. -/
def lastBlock (g : BlockShift) (index block_offset size : Nat) : Nat := index + (block_offset + size - 1) / g.size

/-- The size that the table is grown for: `offset` stays where it is while `size` gets smaller, up to the end of the table. -/
def grownTo (M : BlockMemory σ γ) (g : BlockShift) (s : σ) (offset index block_offset size : Nat) : Nat :=
  offset + (size - (M.tableSize s * g.size - (index * g.size + block_offset)))

/-- The table has the blocks of a request, or has them once it has grown. -/
def Covered (M : BlockMemory σ γ) (g : BlockShift) (s : σ) (offset index block_offset size : Nat) : Prop :=
  lastBlock g index block_offset size < M.tableSize s ∨
    (M.uSize s < grownTo M g s offset index block_offset size ∧
      lastBlock g index block_offset size < g.tableSize (grownTo M g s offset index block_offset size))

theorem currentSize_le (g : BlockShift) (size : Nat) (block_offset : Fin g.size) :
    currentSize g size block_offset ≤ size ∧ block_offset + currentSize g size block_offset ≤ g.size := by
  have hlt := block_offset.isLt
  unfold currentSize
  constructor <;> omega

theorem dvd_currentSize {size : Nat} {block_offset : Fin g.size} (hsize : 512 ∣ size) (hoff : 512 ∣ block_offset.val) :
    512 ∣ currentSize g size block_offset := by
  unfold currentSize
  obtain h | h := Nat.le_total (size + block_offset) g.size
  · rwa [Nat.min_eq_left h, Nat.add_sub_cancel]
  · rw [Nat.min_eq_right h]
    exact Nat.dvd_sub g.dvd_size hoff

theorem currentSize_of_lt {size : Nat} {block_offset : Fin g.size} (h : currentSize g size block_offset < size) :
    currentSize g size block_offset = g.size - block_offset := by
  unfold currentSize at h ⊢
  omega

theorem lastBlock_of_le {size index : Nat} {block_offset : Fin g.size} (h : size ≤ currentSize g size block_offset) :
    lastBlock g index block_offset size = index := by
  have hlt := block_offset.isLt
  have hpos := g.size_pos
  unfold currentSize at h
  rw [lastBlock, Nat.div_eq_of_lt (by omega), Nat.add_zero]

theorem lastBlock_next {size : Nat} (index : Nat) {block_offset : Fin g.size} (h : currentSize g size block_offset < size) :
    lastBlock g (index + 1) 0 (size - currentSize g size block_offset) = lastBlock g index block_offset size := by
  have hlt := block_offset.isLt
  have hcur := currentSize_of_lt h
  have hsum : block_offset + size - 1 = 0 + (size - currentSize g size block_offset) - 1 + g.size := by omega
  rw [lastBlock, lastBlock, hsum, Nat.add_div_right _ g.size_pos]
  omega

theorem tableSize_growFor (hM : Lawful M g Valid) {s : σ} {index u : Nat} (hle : M.tableSize s ≤ index) :
    M.uSize (growFor M s index u) = max (M.uSize s) u ∧
      M.tableSize (growFor M s index u) = if u ≤ M.uSize s then M.tableSize s else g.tableSize u := by
  rw [growFor, if_pos hle]
  exact ⟨hM.uSize_expand s u, hM.tableSize_expand s u⟩

theorem growFor_of_lt {s : σ} {index : Nat} (hlt : index < M.tableSize s) (u : Nat) : growFor M s index u = s :=
  if_neg (Nat.not_le.2 hlt)

theorem growFor_spec (hM : Lawful M g Valid) {s : σ} (hs : Sound M Valid s) {index u : Nat} (h : index < M.tableSize (growFor M s index u)) :
    Sound M Valid (growFor M s index u) ∧ ∀ x, byteAt M g (growFor M s index u) x = byteAt M g s x := by
  obtain hlt | hle := Nat.lt_or_ge index (M.tableSize s)
  · rw [growFor_of_lt hlt]
    exact ⟨hs, fun _ => rfl⟩
  · rw [growFor, if_pos hle] at h ⊢
    have hgrow : M.tableSize s ≤ M.tableSize (M.expand s u) := by omega
    obtain ⟨hvalid, hn, hblock⟩ := hM.expand hs.valid hgrow
    refine ⟨⟨hvalid, ?_⟩, fun x => by rw [byteAt, hblock, byteAt]⟩
    have hsame : allocated M (M.expand s u) = allocated M s := by
      ext j
      rw [mem_allocated, mem_allocated, hblock]
      refine and_congr_left fun hsome => ⟨fun _ => Nat.lt_of_not_le fun hj => ?_, fun hj => by omega⟩
      rw [hM.beyond hs.valid hj] at hsome
      cases hsome
    rw [hn, hsame]
    exact hs.counted

/-- A block of the request, and the rest of it. -/
theorem covered_iff (hM : Lawful M g Valid) {s s' : σ} {offset index : Nat} {block_offset : Fin g.size} {size : Nat}
    (hu' : M.uSize s' = M.uSize (growFor M s index (offset + size)))
    (hT' : M.tableSize s' = M.tableSize (growFor M s index (offset + size))) :
    Covered M g s offset index block_offset size ↔
      index < M.tableSize s' ∧ (currentSize g size block_offset < size →
        Covered M g s' offset (index + 1) 0 (size - currentSize g size block_offset)) := by
  have hge : index ≤ lastBlock g index block_offset size := Nat.le_add_right _ _
  obtain hlt | hle := Nat.lt_or_ge index (M.tableSize s)
  · rw [growFor_of_lt hlt] at hu' hT'
    rw [hT', and_iff_right hlt]
    by_cases hmore : currentSize g size block_offset < size
    · have hcur := currentSize_of_lt hmore
      have hoff := block_offset.isLt
      have htable : (index + 1) * g.size ≤ M.tableSize s * g.size := Nat.mul_le_mul_right _ hlt
      rw [Nat.succ_mul] at htable
      have hgrown : grownTo M g s' offset (index + 1) 0 (size - currentSize g size block_offset) =
          grownTo M g s offset index block_offset size := by
        unfold grownTo
        rw [hT', Nat.succ_mul]
        omega
      unfold Covered
      rw [lastBlock_next index hmore, hgrown, hu', hT', forall_prop_of_true hmore]
    · refine iff_of_true (.inl ?_) fun h => absurd h hmore
      rwa [lastBlock_of_le (Nat.le_of_not_lt hmore)]
  · -- the table grows here, and not again
    obtain ⟨hu, hT⟩ := @tableSize_growFor _ _ M g Valid hM s index (offset + size) hle
    have hbehind : M.tableSize s * g.size ≤ index * g.size := Nat.mul_le_mul_right _ hle
    have hgrown : grownTo M g s offset index block_offset size = offset + size := by
      unfold grownTo
      omega
    have hleft : Covered M g s offset index block_offset size ↔
        M.uSize s < offset + size ∧ lastBlock g index block_offset size < g.tableSize (offset + size) := by
      unfold Covered
      rw [hgrown, or_iff_right (by omega)]
    rw [hu] at hu'
    rw [hT] at hT'
    rw [hleft, hT']
    by_cases hfit : offset + size ≤ M.uSize s
    · rw [if_pos hfit]
      exact iff_of_false (fun h => absurd h.1 (Nat.not_lt.2 hfit)) fun h => absurd h.1 (Nat.not_lt.2 hle)
    · rw [Nat.max_eq_right (by omega)] at hu'
      rw [if_neg hfit] at hT'
      rw [if_neg hfit, and_iff_right (Nat.lt_of_not_le hfit)]
      by_cases hmore : currentSize g size block_offset < size
      · constructor
        · intro h
          refine ⟨by omega, fun _ => .inl ?_⟩
          rwa [lastBlock_next index hmore, hT']
        · rintro ⟨-, h⟩
          obtain h | ⟨h, -⟩ := h hmore
          · rwa [lastBlock_next index hmore, hT'] at h
          · rw [hu', grownTo] at h
            omega
      · rw [lastBlock_of_le (Nat.le_of_not_lt hmore)]
        exact (and_iff_left fun h => absurd h hmore).symm

/-! ## The loops -/

/-- The disk holds `buf` from `pos` on, if it all could be written, and what it held elsewhere. -/
structure Wrote (M : BlockMemory σ γ) (g : BlockShift) (Valid : σ → Prop) (s s' : σ) (pos : Nat) (buf : Bytes) (ok : Bool) : Prop where
  sound : Sound M Valid s'
  outside : ∀ x, ¬ (pos ≤ x ∧ x < pos + buf.length) → byteAt M g s' x = byteAt M g s x
  inside : ok = true → ∀ x, pos ≤ x → x < pos + buf.length → byteAt M g s' x = buf.getD (x - pos) 0

theorem Wrote.append {s s₁ s₂ : σ} {pos n : Nat} {buf buf' : Bytes} {ok ok' : Bool} (h : Wrote M g Valid s s₁ pos buf ok)
    (hn : buf.length = n) (h' : Wrote M g Valid s₁ s₂ (pos + n) buf' ok') : Wrote M g Valid s s₂ pos (buf ++ buf') (ok && ok') := by
  subst hn
  refine ⟨h'.sound, fun x hx => ?_, fun hok x hle hlt => ?_⟩
  · rw [List.length_append] at hx
    rw [h'.outside x (by omega), h.outside x (by omega)]
  · obtain ⟨hok, hok'⟩ := (Bool.and_eq_true _ _).mp hok
    rw [List.length_append] at hlt
    rw [List.getD_eq_getElem?_getD]
    by_cases hx : x < pos + buf.length
    · rw [h'.outside x (by omega), h.inside hok x hle hx, List.getElem?_append_left (by omega), List.getD_eq_getElem?_getD]
    · rw [h'.inside hok' x (by omega) (by omega), List.getElem?_append_right (by omega), List.getD_eq_getElem?_getD, Nat.sub_sub]

/-- The first byte of the next block. -/
theorem next_pos {size : Nat} (index : Nat) {block_offset : Fin g.size} (h : currentSize g size block_offset < size) :
    (index + 1) * g.size + (blockOffset g 0 : Nat) = index * g.size + block_offset + currentSize g size block_offset := by
  have hlt := block_offset.isLt
  have hcur := currentSize_of_lt h
  have hzero : (blockOffset g 0 : Nat) = 0 := Nat.zero_mod _
  rw [hzero, Nat.succ_mul]
  omega

theorem writeBlocks_spec (hM : Lawful M g Valid) (grants : Nat → γ) (offset : Nat) (n : Nat) :
    ∀ {index : Nat} {block_offset : Fin g.size} {buf : Bytes} {s : σ}, buf.length = n → Sound M Valid s → 512 ∣ block_offset.val →
      512 ∣ buf.length →
      (¬ Covered M g s offset index block_offset buf.length → writeBlocks M d g grants offset index block_offset buf s = none) ∧
        (Covered M g s offset index block_offset buf.length →
          ∃ ok s', writeBlocks M d g grants offset index block_offset buf s = some (ok, s') ∧
            Wrote M g Valid s s' (index * g.size + block_offset) buf ok) := by
  induction n using Nat.strongRecOn with
  | ind n ih =>
    intro index block_offset buf s hn hs hoff hbuf
    obtain ⟨hcur, hfit⟩ := currentSize_le g buf.length block_offset
    have htake : (buf.take (currentSize g buf.length block_offset)).length = currentSize g buf.length block_offset := by
      rw [List.length_take, Nat.min_eq_left hcur]
    have hzero : (blockOffset g 0 : Nat) = 0 := Nat.zero_mod _
    rw [writeBlocks]
    by_cases hi : index < M.tableSize (growFor M s index (offset + buf.length))
    · obtain ⟨hgrown, hsame⟩ := growFor_spec hM hs hi
      obtain ⟨ok, s₁, hblock, hstep⟩ := @writeBlock_spec _ _ M d g Valid hM _ hgrown index block_offset
        (buf.take (currentSize g buf.length block_offset)) (grants index) hi (by rwa [htake]) hoff (by rw [htake]; exact dvd_currentSize hbuf hoff)
      have hfirst : Wrote M g Valid s s₁ (index * g.size + block_offset) (buf.take (currentSize g buf.length block_offset)) ok :=
        ⟨hstep.sound, fun x hx => (hstep.outside x hx).trans (hsame x), hstep.inside⟩
      rw [covered_iff hM hstep.uSize hstep.tableSize, hstep.tableSize, and_iff_right hi]
      simp only [hblock]
      by_cases hmore : currentSize g buf.length block_offset < buf.length
      · have hpos := currentSize_pos g (Nat.ne_of_gt (Nat.zero_lt_of_lt hmore)) block_offset
        have hdrop : (buf.drop (currentSize g buf.length block_offset)).length = buf.length - currentSize g buf.length block_offset :=
          List.length_drop
        obtain ⟨hbad, hgood⟩ := @ih (buf.length - currentSize g buf.length block_offset) (by omega) (index + 1) (blockOffset g 0)
          (buf.drop (currentSize g buf.length block_offset)) s₁ hdrop hstep.sound (by rw [hzero]; exact Nat.dvd_zero 512)
          (by rw [hdrop]; exact Nat.dvd_sub hbuf (dvd_currentSize hbuf hoff))
        rw [hdrop, hzero] at hbad hgood
        rw [forall_prop_of_true hmore, dif_pos hmore]
        constructor
        · intro h
          rw [hbad h]
        · intro h
          obtain ⟨ok', s₂, hloop, hwrote⟩ := hgood h
          rw [hloop]
          refine ⟨_, s₂, rfl, ?_⟩
          rw [← hzero, next_pos index hmore] at hwrote
          have happ := hfirst.append htake hwrote
          rwa [List.take_append_drop] at happ
      · rw [dif_neg hmore]
        refine ⟨fun h => absurd (fun hlt => absurd hlt hmore) h, fun _ => ⟨ok, s₁, rfl, ?_⟩⟩
        rwa [List.take_of_length_le (Nat.le_of_not_lt hmore)] at hfirst
    · refine ⟨fun _ => ?_, fun h => absurd ((covered_iff hM rfl rfl).1 h).1 hi⟩
      simp only [writeBlock, if_neg hi]

/-- `buf` holds the bytes of the disk from `pos` on, and the disk is as it was. -/
structure Fetched (M : BlockMemory σ γ) (g : BlockShift) (Valid : σ → Prop) (s s' : σ) (pos : Nat) (size : Nat) (buf : Bytes) : Prop where
  sound : Sound M Valid s'
  same : ∀ x, byteAt M g s' x = byteAt M g s x
  length : buf.length = size
  bytes : ∀ i < size, buf[i]? = some (byteAt M g s (pos + i))

theorem readBlock_spec (hM : Lawful M g Valid) {s : σ} (hs : Sound M Valid s) {index off n : Nat} (hi : index < M.tableSize s)
    (hfit : off + n ≤ g.size) : ∃ buf, readBlock M s index off n = some buf ∧ Fetched M g Valid s s (index * g.size + off) n buf := by
  have hbyte : ∀ i < n, byteAt M g s (index * g.size + off + i) = blockByte (M.block s index) (off + i) := by
    intro i hin
    rw [Nat.add_assoc, byteAt_eq s index (by omega)]
  unfold readBlock
  rw [if_pos hi]
  cases hblock : M.block s index with
  | some mem =>
    have hmem := hM.length hs.valid hblock
    refine ⟨_, rfl, hs, fun _ => rfl, length_slice (by omega), fun i hin => ?_⟩
    rw [getElem?_slice, if_pos hin, hbyte i hin, hblock, blockByte, List.getD_eq_getElem?_getD, List.getElem?_eq_getElem (by omega)]
    rfl
  | none =>
    refine ⟨_, rfl, hs, fun _ => rfl, List.length_replicate, fun i hin => ?_⟩
    rw [List.getElem?_replicate_of_lt hin, hbyte i hin, hblock]
    rfl

theorem Fetched.append {s s₁ s₂ : σ} {pos n n' : Nat} {buf buf' : Bytes} (h : Fetched M g Valid s s₁ pos n buf)
    (h' : Fetched M g Valid s₁ s₂ (pos + n) n' buf') : Fetched M g Valid s s₂ pos (n + n') (buf ++ buf') := by
  refine ⟨h'.sound, fun x => (h'.same x).trans (h.same x), by rw [List.length_append, h.length, h'.length], fun i hi => ?_⟩
  by_cases hin : i < n
  · rw [List.getElem?_append_left (by rw [h.length]; exact hin), h.bytes i hin]
  · rw [List.getElem?_append_right (by rw [h.length]; omega), h.length, h'.bytes (i - n) (by omega), h.same, Nat.add_assoc pos n,
      Nat.add_sub_cancel' (by omega)]

theorem readBlocks_spec (hM : Lawful M g Valid) (offset : Nat) (n : Nat) :
    ∀ {index : Nat} {block_offset : Fin g.size} {size : Nat} {s : σ}, size = n → Sound M Valid s →
      (¬ Covered M g s offset index block_offset size → readBlocks M g offset index block_offset size s = none) ∧
        (Covered M g s offset index block_offset size →
          ∃ buf s', readBlocks M g offset index block_offset size s = some (buf, s') ∧
            Fetched M g Valid s s' (index * g.size + block_offset) size buf) := by
  induction n using Nat.strongRecOn with
  | ind n ih =>
    intro index block_offset size s hn hs
    obtain ⟨hcur, hfit⟩ := currentSize_le g size block_offset
    have hzero : (blockOffset g 0 : Nat) = 0 := Nat.zero_mod _
    rw [readBlocks]
    by_cases hi : index < M.tableSize (growFor M s index (offset + size))
    · obtain ⟨hgrown, hsame⟩ := growFor_spec hM hs hi
      obtain ⟨buf, hblock, hfetched⟩ := readBlock_spec hM hgrown hi hfit
      have hfirst : Fetched M g Valid s (growFor M s index (offset + size)) (index * g.size + block_offset)
          (currentSize g size block_offset) buf :=
        ⟨hgrown, hsame, hfetched.length, fun i hin => by rw [hfetched.bytes i hin, hsame]⟩
      rw [covered_iff hM rfl rfl, and_iff_right hi]
      simp only [hblock]
      by_cases hmore : currentSize g size block_offset < size
      · have hpos := currentSize_pos g (Nat.ne_of_gt (Nat.zero_lt_of_lt hmore)) block_offset
        obtain ⟨hbad, hgood⟩ := @ih (size - currentSize g size block_offset) (by omega) (index + 1) (blockOffset g 0) _ _ rfl hgrown
        rw [hzero] at hbad hgood
        rw [forall_prop_of_true hmore, dif_pos hmore]
        constructor
        · intro h
          rw [hbad h]
        · intro h
          obtain ⟨rest, s₂, hloop, hwrote⟩ := hgood h
          rw [hloop]
          refine ⟨_, s₂, rfl, ?_⟩
          rw [← hzero, next_pos index hmore] at hwrote
          have happ := hfirst.append hwrote
          rwa [Nat.add_sub_cancel' hcur] at happ
      · rw [dif_neg hmore]
        refine ⟨fun h => absurd (fun hlt => absurd hlt hmore) h, fun _ => ⟨buf, _, rfl, ?_⟩⟩
        rwa [Nat.le_antisymm hcur (Nat.le_of_not_lt hmore)] at hfirst
    · refine ⟨fun _ => ?_, fun h => absurd ((covered_iff hM rfl rfl).1 h).1 hi⟩
      simp only [readBlock, if_neg hi]

theorem isZero_replicate (n : Nat) : isZero (List.replicate n 0) = true :=
  isZero_iff.2 (by rw [List.length_replicate])

theorem byteAt_of_none {s : σ} {x : Nat} (h : M.block s (x / g.size) = none) : byteAt M g s x = 0 := by
  rw [byteAt, h]
  rfl

/-- Where there is no block, zeros are there already. -/
theorem Wrote.zeros {s : σ} (hs : Sound M Valid s) {pos size : Nat} (h : ∀ x, pos ≤ x → x < pos + size → byteAt M g s x = 0) :
    Wrote M g Valid s s pos (List.replicate size 0) true := by
  refine ⟨hs, fun _ _ => rfl, fun _ x hle hlt => ?_⟩
  rw [List.length_replicate] at hlt
  rw [h x hle hlt]
  exact (blockByte_replicate size _).symm

theorem trimBlocks_spec (hM : Lawful M g Valid) (n : Nat) : ∀ {index : Nat} {block_offset : Fin g.size} {size : Nat} {s : σ},
    size = n → Sound M Valid s → 512 ∣ block_offset.val → 512 ∣ size →
    Wrote M g Valid s (trimBlocks M d g index block_offset size s) (index * g.size + block_offset) (List.replicate size 0) true := by
  induction n using Nat.strongRecOn with
  | ind n ih =>
    intro index block_offset size s hn hs hoff hsize
    rw [trimBlocks]
    by_cases h0 : size = 0
    · rw [dif_pos h0]
      exact .zeros hs fun x hle hlt => by omega
    rw [dif_neg h0]
    by_cases hi : M.tableSize s ≤ index
    · rw [if_pos hi]
      refine .zeros hs fun x hle _ => byteAt_of_none (hM.beyond hs.valid (Nat.le_trans hi ?_))
      exact (Nat.le_div_iff_mul_le g.size_pos).2 (by omega)
    rw [if_neg hi]
    obtain ⟨hcur, hfit⟩ := currentSize_le g size block_offset
    have hpos := currentSize_pos g h0 block_offset
    have hzero : (blockOffset g 0 : Nat) = 0 := Nat.zero_mod _
    have hdvd := dvd_currentSize hsize hoff
    have hlen : (List.replicate (currentSize g size block_offset) (0 : UInt8)).length = currentSize g size block_offset :=
      List.length_replicate
    have hfirst : Wrote M g Valid s
        (match M.block s index with
          | some mem => zeroOrRelease M d s index mem block_offset (currentSize g size block_offset)
          | none => s)
        (index * g.size + block_offset) (List.replicate (currentSize g size block_offset) 0) true := by
      cases hblock : M.block s index with
      | some mem =>
        have hstep := @zeroOrRelease_spec _ _ M d g Valid hM s hs index block_offset mem
          (List.replicate (currentSize g size block_offset) 0) hblock (by rwa [hlen]) hoff (by rwa [hlen]) (isZero_replicate _)
        rw [hlen] at hstep
        exact ⟨hstep.sound, hstep.outside, hstep.inside⟩
      | none =>
        refine .zeros hs fun x hle hlt => byteAt_of_none ?_
        have hx : x / g.size = index := div_size_eq.2 ⟨by omega, by omega⟩
        rw [hx, hblock]
    have hrest := @ih (size - currentSize g size block_offset) (by omega) (index + 1) (blockOffset g 0) _ _ rfl hfirst.sound
      (by rw [hzero]; exact Nat.dvd_zero 512) (Nat.dvd_sub hsize hdvd)
    by_cases hmore : currentSize g size block_offset < size
    · rw [next_pos index hmore] at hrest
      have happ := hfirst.append hlen hrest
      rwa [List.replicate_append_replicate, Nat.add_sub_cancel' hcur] at happ
    · have hall : currentSize g size block_offset = size := Nat.le_antisymm hcur (Nat.le_of_not_lt hmore)
      rw [hall] at hfirst
      dsimp only
      rw [hall, Nat.sub_self, trimBlocks, dif_pos rfl]
      exact hfirst

end Bytes

end MajorPrivacy.Disk

/-
The image file behind a disk (ImageFileIO.cpp): what does not begin and end with a sector goes through a
bounce buffer on the stack, whose partial sectors are read before they are written.
-/
import MajorPrivacy.Lib.LittleEndian
import MajorPrivacy.Lib.Memory

namespace MajorPrivacy.Disk

open LittleEndian Memory

/-! ## The file -/

/-- `WriteFile` where it succeeds: a gap behind the end is filled with zeros. -/
def writeFile (file : Bytes) (off : Nat) (data : Bytes) : Bytes :=
  if data = [] then file
  else (file ++ List.replicate (off - file.length) 0).take off ++ data ++ file.drop (off + data.length)

/-- `ReadFile` where it succeeds: what there is of the bytes. -/
def readFile (file : Bytes) (off len : Nat) : Bytes := slice file off len

/-! ## Chunks -/

/-- `BUFFER_SIZE`. -/
def bufferSize : Nat := 64 * 1024

/-- The size of a sector, a divisor of that of the buffer. -/
structure SectorSize where
  size : Nat
  dvd : size ∣ bufferSize

theorem SectorSize.pos (s : SectorSize) : 0 < s.size := Nat.pos_of_dvd_of_pos s.dvd (by decide)

theorem SectorSize.le (s : SectorSize) : s.size ≤ bufferSize := Nat.le_of_dvd (by decide) s.dvd

/-- The start of the sector of a byte. -/
def alignedOffset (s : SectorSize) (off : Nat) : Nat := off / s.size * s.size

def offsetInSector (s : SectorSize) (off : Nat) : Nat := off - alignedOffset s off

/-- The bytes of the request that one pass through the buffer takes. -/
def chunkSize (s : SectorSize) (off remaining : Nat) : Nat := min remaining (bufferSize - offsetInSector s off)

/-- The whole sectors of a pass. -/
def alignedSize (s : SectorSize) (off n : Nat) : Nat := min ((offsetInSector s off + n + s.size - 1) / s.size * s.size) bufferSize

def isAligned (s : SectorSize) (off size : Nat) : Bool := off % s.size = 0 && size % s.size = 0

/-- `needReadModifyWrite`. -/
def needsRead (s : SectorSize) (off n : Nat) : Bool := offsetInSector s off ≠ 0 || (off + n) % s.size ≠ 0

/-- What the buffer holds when it is written: the sectors if they were to be read and could be, with the bytes of the request over them. -/
def fillBuffer (s : SectorSize) (read : Bool) (file buffer : Bytes) (off n : Nat) (src : Bytes) : Bytes :=
  let buffer := if needsRead s off n && read then overwrite buffer 0 (readFile file (alignedOffset s off) (alignedSize s off n)) else buffer
  overwrite buffer (offsetInSector s off) (src.take n)

theorem offsetInSector_eq (s : SectorSize) (off : Nat) : offsetInSector s off = off % s.size := by
  have h := Nat.div_add_mod off s.size
  unfold offsetInSector alignedOffset
  rw [Nat.mul_comm]
  omega

theorem offsetInSector_lt (s : SectorSize) (off : Nat) : offsetInSector s off < s.size := by
  rw [offsetInSector_eq]
  exact Nat.mod_lt _ s.pos

theorem chunkSize_pos (s : SectorSize) (off : Nat) {remaining : Nat} (h : remaining ≠ 0) : 0 < chunkSize s off remaining := by
  have hlt := offsetInSector_lt s off
  have hle := s.le
  unfold chunkSize
  omega

/-! ## `DiskWrite` and `DiskRead` -/

/-- The passes of an unaligned write from number `k` on; `reads` and `writes` say which calls succeed. -/
def writeLoop (s : SectorSize) (reads writes : Nat → Bool) (k : Nat) (file buffer : Bytes) (off : Nat) (src : Bytes) : Bytes × Bool :=
  if _h : src.length = 0 then (file, true)
  else
    let n := chunkSize s off src.length
    let buffer := fillBuffer s (reads k) file buffer off n src
    if writes k then
      writeLoop s reads writes (k + 1) (writeFile file (alignedOffset s off) (buffer.take (alignedSize s off n))) buffer (off + n) (src.drop n)
    else (file, false)
termination_by src.length
decreasing_by
  have hpos := chunkSize_pos s off _h
  rw [List.length_drop]
  omega

/-- `DiskWrite` of `buf`, with what is on the stack. -/
def imageWrite (s : SectorSize) (reads writes : Nat → Bool) (stack file buf : Bytes) (offset : Nat) : Bytes × Bool :=
  if isAligned s offset buf.length then
    if writes 0 then (writeFile file offset buf, true) else (file, false)
  else writeLoop s reads writes 0 file stack offset buf

/-- The sectors a pass of a read asks for. -/
def readChunk (s : SectorSize) (file : Bytes) (off remaining : Nat) : Bytes :=
  readFile file (alignedOffset s off) (alignedSize s off (chunkSize s off remaining))

/-- The bytes of a pass that the caller gets. -/
def copySize (s : SectorSize) (file : Bytes) (off remaining : Nat) : Nat :=
  min (chunkSize s off remaining) ((readChunk s file off remaining).length - offsetInSector s off)

/-- The passes of an unaligned read: the bytes that were copied, and whether these are all. -/
def readLoop (s : SectorSize) (reads : Nat → Bool) (file : Bytes) (k off remaining : Nat) : Bytes × Bool :=
  if _h : remaining = 0 then ([], true)
  else if ¬ reads k then ([], false)
  else if _hav : (readChunk s file off remaining).length ≤ offsetInSector s off then ([], false)
  else
    let (rest, ret) := readLoop s reads file (k + 1) (off + copySize s file off remaining) (remaining - copySize s file off remaining)
    (slice (readChunk s file off remaining) (offsetInSector s off) (copySize s file off remaining) ++ rest, ret)
termination_by remaining
decreasing_by
  have hpos := chunkSize_pos s off _h
  unfold copySize
  omega

/-- `DiskRead`: the buffer of the caller, and the status. -/
def imageRead (s : SectorSize) (reads : Nat → Bool) (file dest : Bytes) (offset : Nat) : Bytes × Bool :=
  if isAligned s offset dest.length then
    if reads 0 then (overwrite dest 0 (readFile file offset dest.length), true) else (dest, false)
  else
    let (got, ret) := readLoop s reads file 0 offset dest.length
    (overwrite dest 0 got, ret)

/-! ## Reading -/

/-- The caller's buffer holds these bytes of the file. -/
def Holds (file dest : Bytes) (offset : Nat) : Prop := ∀ i < dest.length, ∃ b, file[offset + i]? = some b ∧ dest[i]? = some b

theorem getElem?_overwrite {mem data : Bytes} {off : Nat} (h : off + data.length ≤ mem.length) (i : Nat) :
    (overwrite mem off data)[i]? = if off ≤ i ∧ i < off + data.length then data[i - off]? else mem[i]? := by
  obtain ⟨mem', hw⟩ := writeAt_eq mem off data h
  rw [overwrite, hw]
  exact getElem?_writeAt hw i

/-- A sector round: the end of the last sector that `a` bytes reach. -/
theorem alignedSize_spec (s : SectorSize) {off n : Nat} (hn : offsetInSector s off + n ≤ bufferSize) :
    offsetInSector s off + n ≤ alignedSize s off n ∧ alignedSize s off n ≤ bufferSize ∧ alignedSize s off n % s.size = 0 ∧
      alignedSize s off n < offsetInSector s off + n + s.size := by
  have hpos := s.pos
  generalize hd : offsetInSector s off + n = a at *
  have hup := Nat.div_add_mod (a + s.size - 1) s.size
  have hmod := Nat.mod_lt (a + s.size - 1) hpos
  have hround : (a + s.size - 1) / s.size * s.size ≤ bufferSize := by
    obtain ⟨q, hq⟩ := s.dvd
    rw [hq, Nat.mul_comm s.size]
    refine Nat.mul_le_mul_right _ ?_
    refine Nat.le_of_lt_succ ((Nat.div_lt_iff_lt_mul hpos).2 ?_)
    rw [Nat.succ_mul, Nat.mul_comm, ← hq]
    omega
  unfold alignedSize
  rw [hd, Nat.min_eq_left hround]
  rw [Nat.mul_comm] at hup
  exact ⟨by omega, hround, Nat.mul_mod_left _ _, by omega⟩

theorem alignedOffset_add (s : SectorSize) (off : Nat) : alignedOffset s off + offsetInSector s off = off := by
  have h : alignedOffset s off ≤ off := Nat.div_mul_le_self _ _
  unfold offsetInSector
  omega

theorem chunkSize_le (s : SectorSize) (off remaining : Nat) :
    chunkSize s off remaining ≤ remaining ∧ offsetInSector s off + chunkSize s off remaining ≤ bufferSize := by
  have hlt := offsetInSector_lt s off
  have hle := s.le
  unfold chunkSize
  omega

/-- What a pass copies are the bytes of the file, and there are some. -/
theorem copySize_spec (s : SectorSize) (file : Bytes) {off remaining : Nat} (h : remaining ≠ 0)
    (hav : offsetInSector s off < (readChunk s file off remaining).length) :
    0 < copySize s file off remaining ∧ copySize s file off remaining ≤ remaining ∧ off + copySize s file off remaining ≤ file.length ∧
      slice (readChunk s file off remaining) (offsetInSector s off) (copySize s file off remaining) =
        slice file off (copySize s file off remaining) := by
  have hpos := chunkSize_pos s off h
  obtain ⟨hle, hfit⟩ := chunkSize_le s off remaining
  obtain ⟨hround, -⟩ := alignedSize_spec s hfit
  have hoff := alignedOffset_add s off
  have hlen : (readChunk s file off remaining).length =
      min (alignedSize s off (chunkSize s off remaining)) (file.length - alignedOffset s off) := by
    unfold readChunk readFile slice
    rw [List.length_take, List.length_drop]
  have hcopy : offsetInSector s off + copySize s file off remaining ≤ (readChunk s file off remaining).length := by
    unfold copySize
    omega
  have hchunk : copySize s file off remaining ≤ chunkSize s off remaining := Nat.min_le_left _ _
  refine ⟨by unfold copySize; omega, by omega, by omega, ?_⟩
  apply List.ext_getElem?
  intro i
  rw [getElem?_slice, getElem?_slice]
  split
  · rw [readChunk, readFile, getElem?_slice, if_pos (by omega), show alignedOffset s off + (offsetInSector s off + i) = off + i by omega]
  · rfl

/-- A loop that reports success has copied all. -/
theorem readLoop_spec (s : SectorSize) (reads : Nat → Bool) (file : Bytes) (remaining : Nat) : ∀ k off,
    (readLoop s reads file k off remaining).2 = true →
      (readLoop s reads file k off remaining).1 = slice file off remaining ∧ (remaining ≠ 0 → off + remaining ≤ file.length) := by
  induction remaining using Nat.strongRecOn with
  | ind remaining ih =>
    intro k off hret
    unfold readLoop at hret ⊢
    by_cases h : remaining = 0
    · rw [dif_pos h, h, slice_zero]
      exact ⟨rfl, fun hne => absurd rfl hne⟩
    · rw [dif_neg h] at hret ⊢
      split at hret
      · cases hret
      · rename_i hreads
        rw [if_neg hreads]
        split at hret
        · cases hret
        · rename_i hav
          rw [dif_neg hav]
          obtain ⟨hpos, hle, hend, hslice⟩ := copySize_spec s file h (Nat.lt_of_not_le hav)
          obtain ⟨hgot, hfit⟩ := ih _ (by omega) (k + 1) _ hret
          constructor
          · simp only [hgot, hslice]
            rw [← slice_add, Nat.add_sub_cancel' hle]
          · intro _
            by_cases hrest : remaining - copySize s file off remaining = 0
            · omega
            · have := hfit hrest
              omega

/-- A read that reports success has filled the caller's buffer, but for sectors past the end of the file. -/
theorem imageRead_iff (s : SectorSize) (reads : Nat → Bool) (file dest : Bytes) (offset : Nat) :
    ((imageRead s reads file dest offset).2 = true → Holds file (imageRead s reads file dest offset).1 offset) ↔
      (isAligned s offset dest.length = false ∨ reads 0 = false ∨ dest = [] ∨ offset + dest.length ≤ file.length) := by
  have hholds : offset + dest.length ≤ file.length → Holds file (overwrite dest 0 (slice file offset dest.length)) offset := by
    intro hfit i hi
    rw [length_overwrite] at hi
    have hlen := length_slice hfit
    obtain ⟨b, hb⟩ : ∃ b, file[offset + i]? = some b := ⟨_, List.getElem?_eq_getElem (by omega)⟩
    refine ⟨b, hb, ?_⟩
    rw [getElem?_overwrite (by omega), if_pos (by omega), Nat.sub_zero, getElem?_slice, if_pos hi, hb]
  have hnil : dest = [] → ∀ data, Holds file (overwrite dest 0 data) offset := by
    rintro rfl data i hi
    rw [length_overwrite] at hi
    cases hi
  unfold imageRead
  cases hal : isAligned s offset dest.length with
  | false =>
    refine iff_of_true ?_ (.inl rfl)
    intro hret
    obtain ⟨hgot, hfit⟩ := readLoop_spec s reads file dest.length 0 offset hret
    by_cases hdest : dest.length = 0
    · exact hnil (List.eq_nil_of_length_eq_zero hdest) _
    · simp only [Bool.false_eq_true, if_false, hgot]
      exact hholds (hfit hdest)
  | true =>
    simp only [if_true]
    cases hread : reads 0 with
    | false => exact iff_of_true (fun h => by cases h) (.inr (.inl rfl))
    | true =>
      simp only [if_true, true_implies, Bool.true_eq_false, false_or]
      constructor
      · intro h
        by_contra hnot
        rw [not_or] at hnot
        have hpos := List.length_pos_iff.2 hnot.1
        obtain ⟨b, hb, -⟩ := h (dest.length - 1) (by rw [length_overwrite]; omega)
        obtain ⟨hlt, -⟩ := List.getElem?_eq_some_iff.1 hb
        omega
      · rintro (hdest | hfit)
        · exact hnil hdest _
        · exact hholds hfit

/-! ## One pass of a write -/

theorem getElem?_writeFile {file data : Bytes} (hdata : data ≠ []) (off x : Nat) : (writeFile file off data)[x]? =
    if off ≤ x ∧ x < off + data.length then data[x - off]?
    else if x < off ∧ file.length ≤ x then some 0 else file[x]? := by
  have hfront : ((file ++ List.replicate (off - file.length) 0).take off).length = off := by
    rw [List.length_take, List.length_append, List.length_replicate]
    omega
  unfold writeFile
  rw [if_neg hdata, List.append_assoc]
  by_cases hlt : x < off
  · rw [List.getElem?_append_left (by omega), List.getElem?_take_of_lt hlt, if_neg (by omega)]
    by_cases hin : x < file.length
    · rw [List.getElem?_append_left hin, if_neg (by omega)]
    · rw [List.getElem?_append_right (by omega), List.getElem?_replicate, if_pos (by omega), if_pos ⟨hlt, by omega⟩]
  · rw [List.getElem?_append_right (by omega), hfront]
    by_cases hin : x < off + data.length
    · rw [List.getElem?_append_left (by omega), if_pos ⟨by omega, hin⟩]
    · rw [List.getElem?_append_right (by omega), List.getElem?_drop, if_neg (by omega), if_neg (by omega)]
      congr 1
      omega

theorem length_fillBuffer (s : SectorSize) (read : Bool) (file buffer : Bytes) (off n : Nat) (src : Bytes) :
    (fillBuffer s read file buffer off n src).length = buffer.length := by
  unfold fillBuffer
  simp only
  rw [length_overwrite]
  split
  · rw [length_overwrite]
  · rfl

/-- What is in the buffer when a pass writes it: the bytes of the request, around them what was read, or what was there before. -/
theorem getElem?_fillBuffer (s : SectorSize) (read : Bool) (file : Bytes) {buffer : Bytes} (hbuffer : buffer.length = bufferSize) (off : Nat)
    (src : Bytes) {p : Nat} : (fillBuffer s read file buffer off (chunkSize s off src.length) src)[p]? =
      if offsetInSector s off ≤ p ∧ p < offsetInSector s off + chunkSize s off src.length then src[p - offsetInSector s off]?
      else if (needsRead s off (chunkSize s off src.length) && read) = true ∧ p < alignedSize s off (chunkSize s off src.length) ∧
          alignedOffset s off + p < file.length then file[alignedOffset s off + p]?
      else buffer[p]? := by
  obtain ⟨hle, hfit⟩ := chunkSize_le s off src.length
  obtain ⟨-, hround, -⟩ := alignedSize_spec s hfit
  have htake : (src.take (chunkSize s off src.length)).length = chunkSize s off src.length := by
    rw [List.length_take, Nat.min_eq_left hle]
  have hread : (readFile file (alignedOffset s off) (alignedSize s off (chunkSize s off src.length))).length =
      min (alignedSize s off (chunkSize s off src.length)) (file.length - alignedOffset s off) := by
    unfold readFile slice
    rw [List.length_take, List.length_drop]
  unfold fillBuffer
  simp only
  generalize hmid : (if (needsRead s off (chunkSize s off src.length) && read) = true then _ else buffer) = mid
  have hlen : mid.length = bufferSize := by
    rw [← hmid]
    split
    · rw [length_overwrite, hbuffer]
    · exact hbuffer
  rw [getElem?_overwrite (by omega), htake]
  by_cases hin : offsetInSector s off ≤ p ∧ p < offsetInSector s off + chunkSize s off src.length
  · rw [if_pos hin, if_pos hin, List.getElem?_take_of_lt (by omega)]
  · rw [if_neg hin, if_neg hin, ← hmid]
    split
    · rename_i hneed
      rw [getElem?_overwrite (by omega), hread, readFile, getElem?_slice, Nat.sub_zero]
      simp only [hneed, true_and]
      split_ifs
      all_goals first | rfl | omega
    · rename_i hneed
      rw [if_neg fun h => hneed h.1]

/-- A pass that reads nothing writes nothing but the bytes of the request. -/
theorem alignedSize_of_not_needsRead (s : SectorSize) {off n : Nat} (hn : offsetInSector s off + n ≤ bufferSize)
    (h : needsRead s off n = false) : offsetInSector s off = 0 ∧ alignedSize s off n = n := by
  obtain ⟨hle, -, hmod, hlt⟩ := alignedSize_spec s hn
  unfold needsRead at h
  rw [Bool.or_eq_false_iff, decide_eq_false_iff_not, decide_eq_false_iff_not, not_not, not_not] at h
  obtain ⟨hoff, hend⟩ := h
  have hoffmod := offsetInSector_eq s off
  have hnmod : n % s.size = 0 := by
    rw [hoff] at hoffmod
    rw [Nat.add_mod, ← hoffmod, Nat.zero_add, Nat.mod_mod] at hend
    exact hend
  refine ⟨hoff, ?_⟩
  rw [hoff, Nat.zero_add] at hle hlt
  obtain ⟨a, ha⟩ := Nat.dvd_of_mod_eq_zero hmod
  obtain ⟨b, hb⟩ := Nat.dvd_of_mod_eq_zero hnmod
  rw [ha, hb] at hle hlt ⊢
  have hab : b ≤ a := Nat.le_of_mul_le_mul_left hle s.pos
  have hba : a < b + 1 := Nat.lt_of_mul_lt_mul_left (a := s.size) (by rw [Nat.mul_add, Nat.mul_one]; exact hlt)
  rw [show a = b by omega]

/-- The file after a pass that could be written. -/
def passFile (s : SectorSize) (read : Bool) (file buffer : Bytes) (off : Nat) (src : Bytes) : Bytes :=
  writeFile file (alignedOffset s off)
    ((fillBuffer s read file buffer off (chunkSize s off src.length) src).take (alignedSize s off (chunkSize s off src.length)))

theorem getElem?_passFile (s : SectorSize) (read : Bool) (file : Bytes) {buffer : Bytes} (hbuffer : buffer.length = bufferSize) (off : Nat)
    {src : Bytes} (hsrc : src.length ≠ 0) (x : Nat) : (passFile s read file buffer off src)[x]? =
      if off ≤ x ∧ x < off + chunkSize s off src.length then src[x - off]?
      else if alignedOffset s off ≤ x ∧ x < alignedOffset s off + alignedSize s off (chunkSize s off src.length) then
        if read = true ∧ x < file.length then file[x]? else buffer[x - alignedOffset s off]?
      else if x < alignedOffset s off ∧ file.length ≤ x then some 0 else file[x]? := by
  have hpos := chunkSize_pos s off hsrc
  obtain ⟨-, hfit⟩ := chunkSize_le s off src.length
  obtain ⟨hle, hround, -⟩ := alignedSize_spec s hfit
  have hoff := alignedOffset_add s off
  have hfull := length_fillBuffer s read file buffer off (chunkSize s off src.length) src
  have hlen : ((fillBuffer s read file buffer off (chunkSize s off src.length) src).take
      (alignedSize s off (chunkSize s off src.length))).length = alignedSize s off (chunkSize s off src.length) := by
    rw [List.length_take]
    omega
  unfold passFile
  rw [getElem?_writeFile (List.length_pos_iff.1 (by omega)), hlen]
  by_cases hsectors : alignedOffset s off ≤ x ∧ x < alignedOffset s off + alignedSize s off (chunkSize s off src.length)
  · rw [if_pos hsectors, List.getElem?_take_of_lt (by omega), getElem?_fillBuffer s read file hbuffer]
    by_cases hin : off ≤ x ∧ x < off + chunkSize s off src.length
    · rw [if_pos (by omega), if_pos hin]
      congr 1
      omega
    · rw [if_neg (by omega), if_neg hin, if_pos hsectors, show alignedOffset s off + (x - alignedOffset s off) = x by omega]
      cases hneed : needsRead s off (chunkSize s off src.length) with
      | false =>
        -- then there are no bytes around those of the request
        obtain ⟨h0, hsize⟩ := alignedSize_of_not_needsRead s hfit hneed
        omega
      | true =>
        rw [Bool.true_and]
        by_cases hread : read = true ∧ x < file.length
        · rw [if_pos ⟨hread.1, by omega, hread.2⟩, if_pos hread]
        · rw [if_neg fun h => hread ⟨h.1, h.2.2⟩, if_neg hread]
  · have hout : ¬ (off ≤ x ∧ x < off + chunkSize s off src.length) := by omega
    rw [if_neg hsectors, if_neg hout, if_neg hsectors]

/-! ## All passes -/

section Passes

variable (s : SectorSize) (reads : Nat → Bool) (stack file buf : Bytes) (offset : Nat)

/-- A byte in front of the request in its first sector, as the first pass writes it. -/
def headByte (x : Nat) : UInt8 :=
  if reads 0 = true ∧ x < file.length then file.getD x 0 else stack.getD (x - alignedOffset s offset) 0

/-- A byte of the buffer between two passes. -/
def image (x : Nat) : UInt8 := if x < offset then headByte s reads stack file offset x else buf.getD (x - offset) 0

/-- The pass that writes the end of the request. -/
def lastPass : Nat := (offset + buf.length - 1 - alignedOffset s offset) / bufferSize

/-- What is behind the request in the buffer when its last pass begins. -/
def staleByte (x : Nat) : UInt8 :=
  if lastPass s buf offset = 0 then stack.getD (x - alignedOffset s offset) 0 else image s reads stack file buf offset (x - bufferSize)

/-- A byte behind the request in its last sector, as the last pass writes it. -/
def tailByte (x : Nat) : UInt8 :=
  if reads (lastPass s buf offset) = true ∧ x < file.length then file.getD x 0 else staleByte s reads stack file buf offset x

/-- The end of the last sector of the request. -/
def sectorEnd : Nat := (offset + buf.length + s.size - 1) / s.size * s.size

/-- The file after all passes. -/
structure Stored (out : Bytes) : Prop where
  front : ∀ x < alignedOffset s offset, out[x]? = if file.length ≤ x then some 0 else file[x]?
  head : ∀ x, alignedOffset s offset ≤ x → x < offset → out[x]? = some (headByte s reads stack file offset x)
  request : ∀ i < buf.length, out[offset + i]? = buf[i]?
  tail : ∀ x, offset + buf.length ≤ x → x < sectorEnd s buf offset → out[x]? = some (tailByte s reads stack file buf offset x)
  behind : ∀ x, sectorEnd s buf offset ≤ x → out[x]? = file[x]?

/-- The file and the buffer between two passes, the next of which begins at `off`. -/
structure Between (k : Nat) (between buffer : Bytes) (off : Nat) (src : Bytes) : Prop where
  start : off = alignedOffset s offset + k * bufferSize
  pass : k ≠ 0
  src : src = buf.drop (off - offset)
  inside : offset ≤ off ∧ off ≤ offset + buf.length
  front : ∀ x < alignedOffset s offset, between[x]? = if file.length ≤ x then some 0 else file[x]?
  written : ∀ x, alignedOffset s offset ≤ x → x < off → between[x]? = some (image s reads stack file buf offset x)
  behind : ∀ x, off ≤ x → between[x]? = file[x]?
  size : buffer.length = bufferSize
  buffer : ∀ p < bufferSize, buffer[p]? = some (image s reads stack file buf offset (off - bufferSize + p))

variable {s reads stack file buf offset}

theorem alignedOffset_mod (s : SectorSize) (off : Nat) : alignedOffset s off % s.size = 0 := Nat.mul_mod_left _ _

theorem bufferSize_mod (s : SectorSize) : bufferSize % s.size = 0 := Nat.mod_eq_zero_of_dvd s.dvd

/-- The sectors of a pass that goes to the end of the request end with the last one. -/
theorem sectorEnd_eq {off n : Nat} (hn : offsetInSector s off + n ≤ bufferSize) (hend : off + n = offset + buf.length) :
    sectorEnd s buf offset = alignedOffset s off + alignedSize s off n := by
  obtain ⟨-, hround, -⟩ := alignedSize_spec s hn
  have hoff := alignedOffset_add s off
  have hup : (offsetInSector s off + n + s.size - 1) / s.size * s.size = alignedSize s off n := by
    unfold alignedSize at hround ⊢
    obtain ⟨q, hq⟩ := s.dvd
    refine (Nat.min_eq_left ?_).symm
    rw [hq, Nat.mul_comm s.size]
    refine Nat.mul_le_mul_right _ (Nat.le_of_lt_succ ((Nat.div_lt_iff_lt_mul s.pos).2 ?_))
    have := s.pos
    rw [Nat.succ_mul, Nat.mul_comm, ← hq]
    omega
  have hpos := s.pos
  unfold sectorEnd
  rw [← hend, ← hup, show off + n + s.size - 1 = offsetInSector s off + n + s.size - 1 + off / s.size * s.size by
    unfold alignedOffset at hoff
    omega, Nat.add_mul_div_right _ _ hpos, Nat.add_mul, Nat.add_comm]
  rfl

theorem headByte_eq {x : Nat} (hstack : stack.length = bufferSize) (hx : x - alignedOffset s offset < bufferSize) :
    some (headByte s reads stack file offset x) =
      if reads 0 = true ∧ x < file.length then file[x]? else stack[x - alignedOffset s offset]? := by
  unfold headByte
  split
  · rename_i h
    rw [List.getD_eq_getElem?_getD, List.getElem?_eq_getElem h.2]
    rfl
  · rw [List.getD_eq_getElem?_getD, List.getElem?_eq_getElem (by omega)]
    rfl

theorem image_request {x : Nat} (hle : offset ≤ x) (hlt : x < offset + buf.length) :
    some (image s reads stack file buf offset x) = buf[x - offset]? := by
  rw [image, if_neg (by omega), List.getD_eq_getElem?_getD, List.getElem?_eq_getElem (by omega)]
  rfl

theorem image_head {x : Nat} (hlt : x < offset) :
    image s reads stack file buf offset x = headByte s reads stack file offset x := if_pos hlt

/-- The only pass. -/
theorem stored_of_single (hstack : stack.length = bufferSize) (hbuf : buf.length ≠ 0)
    (hsingle : offsetInSector s offset + buf.length ≤ bufferSize) :
    lastPass s buf offset = 0 ∧ Stored s reads stack file buf offset (passFile s (reads 0) file stack offset buf) := by
  have hoff := alignedOffset_add s offset
  have hn : chunkSize s offset buf.length = buf.length := Nat.min_eq_left (by omega)
  have hfile := getElem?_passFile s (reads 0) file hstack offset hbuf
  rw [hn] at hfile
  obtain ⟨hround, hsize, -⟩ := alignedSize_spec s hsingle
  have hend : sectorEnd s buf offset = alignedOffset s offset + alignedSize s offset buf.length := sectorEnd_eq hsingle rfl
  have hlast : lastPass s buf offset = 0 := Nat.div_eq_of_lt (by omega)
  refine ⟨hlast, ?_, ?_, ?_, ?_, ?_⟩
  · intro x hx
    rw [hfile, if_neg (by omega), if_neg (by omega)]
    simp only [hx, true_and]
  · intro x hle hlt
    rw [hfile, if_neg (by omega), if_pos (by omega), headByte_eq hstack (by omega)]
  · intro i hi
    rw [hfile, if_pos (by omega), Nat.add_sub_cancel_left]
  · intro x hle hlt
    rw [hfile, if_neg (by omega), if_pos (by omega), tailByte, staleByte, hlast, if_pos rfl]
    exact (headByte_eq hstack (by omega)).symm
  · intro x hx
    rw [hfile, if_neg (by omega), if_neg (by omega), if_neg (by omega)]

/-- The first of several passes. -/
theorem between_of_first (hstack : stack.length = bufferSize) (hmore : bufferSize < offsetInSector s offset + buf.length) :
    Between s reads stack file buf offset 1 (passFile s (reads 0) file stack offset buf)
      (fillBuffer s (reads 0) file stack offset (chunkSize s offset buf.length) buf) (offset + chunkSize s offset buf.length)
      (buf.drop (chunkSize s offset buf.length)) := by
  have hoff := alignedOffset_add s offset
  have hlt := offsetInSector_lt s offset
  have hs := s.le
  have hn : chunkSize s offset buf.length = bufferSize - offsetInSector s offset := Nat.min_eq_right (by omega)
  have hbuf : buf.length ≠ 0 := by omega
  have hfile := getElem?_passFile s (reads 0) file hstack offset hbuf
  have hfill := fun p => getElem?_fillBuffer s (reads 0) file hstack offset buf (p := p)
  have hfit : offsetInSector s offset + chunkSize s offset buf.length ≤ bufferSize := by omega
  obtain ⟨hround, hsize, -⟩ := alignedSize_spec s hfit
  refine ⟨by omega, Nat.one_ne_zero, by rw [Nat.add_sub_cancel_left], by omega, ?_, ?_, ?_, ?_, ?_⟩
  · intro x hx
    rw [hfile, if_neg (by omega), if_neg (by omega)]
    simp only [hx, true_and]
  · intro x hle hx
    rw [hfile]
    by_cases hin : offset ≤ x
    · rw [if_pos ⟨hin, hx⟩, image_request hin (by omega)]
    · rw [if_neg (by omega), if_pos (by omega), image_head (by omega), headByte_eq hstack (by omega)]
  · intro x hx
    rw [hfile, if_neg (by omega), if_neg (by omega), if_neg (by omega)]
  · rw [length_fillBuffer, hstack]
  · intro p hp
    rw [hfill]
    by_cases hin : offsetInSector s offset ≤ p
    · rw [if_pos (by omega), image_request (by omega) (by omega)]
      congr 1
      omega
    · have hneeds : needsRead s offset (chunkSize s offset buf.length) = true := by
        unfold needsRead
        rw [Bool.or_eq_true, decide_eq_true_iff]
        exact .inl (by omega)
      have hx : offset + chunkSize s offset buf.length - bufferSize + p = alignedOffset s offset + p := by omega
      rw [if_neg (by omega), hneeds, Bool.true_and, hx, image_head (by omega), headByte_eq hstack (by omega), Nat.add_sub_cancel_left]
      simp only [show p < alignedSize s offset (chunkSize s offset buf.length) by omega, true_and]

namespace Between

variable {k off : Nat} {between buffer src : Bytes}

theorem aligned (hb : Between s reads stack file buf offset k between buffer off src) : offsetInSector s off = 0 ∧ alignedOffset s off = off := by
  have hmod : off % s.size = 0 := by
    rw [hb.start, Nat.add_mod, alignedOffset_mod, Nat.zero_add, Nat.mod_mod, Nat.mul_mod, bufferSize_mod, Nat.mul_zero, Nat.zero_mod]
  have hoff := alignedOffset_add s off
  have hzero := offsetInSector_eq s off
  rw [hmod] at hzero
  exact ⟨hzero, by omega⟩

theorem length_src (hb : Between s reads stack file buf offset k between buffer off src) : off + src.length = offset + buf.length := by
  obtain ⟨hle, hend⟩ := hb.inside
  rw [hb.src, List.length_drop]
  omega

theorem bufferSize_le (hb : Between s reads stack file buf offset k between buffer off src) :
    alignedOffset s offset + bufferSize ≤ off := by
  have hk := Nat.mul_le_mul_right bufferSize (Nat.pos_of_ne_zero hb.pass)
  rw [hb.start]
  omega

theorem getElem?_src (hb : Between s reads stack file buf offset k between buffer off src) {x : Nat} (hx : off ≤ x) :
    src[x - off]? = buf[x - offset]? := by
  obtain ⟨hle, -⟩ := hb.inside
  rw [hb.src, List.getElem?_drop]
  congr 1
  omega

/-- Behind `off` the file is as long as it was. -/
theorem lt_length_iff (hb : Between s reads stack file buf offset k between buffer off src) {x : Nat} (hx : off ≤ x) :
    x < between.length ↔ x < file.length := by
  rw [← not_le, ← not_le, ← List.getElem?_eq_none_iff, ← List.getElem?_eq_none_iff, hb.behind x hx]

theorem lastPass_eq (hb : Between s reads stack file buf offset k between buffer off src) (hsrc : src.length ≠ 0) :
    lastPass s buf offset = k + (src.length - 1) / bufferSize := by
  have hlen := hb.length_src
  have hstart := hb.start
  have hpos : 0 < bufferSize := by decide
  have hsum : offset + buf.length - 1 - alignedOffset s offset = src.length - 1 + k * bufferSize := by omega
  rw [lastPass, hsum, Nat.add_mul_div_right _ _ hpos, Nat.add_comm]

/-- The last of several passes. -/
theorem last (hb : Between s reads stack file buf offset k between buffer off src) (hsrc : src.length ≠ 0)
    (hlast : src.length ≤ bufferSize) :
    lastPass s buf offset = k ∧ Stored s reads stack file buf offset (passFile s (reads k) between buffer off src) := by
  obtain ⟨hzero, hoff⟩ := hb.aligned
  have hlen := hb.length_src
  have hfar := hb.bufferSize_le
  obtain ⟨hle, -⟩ := hb.inside
  have hn : chunkSize s off src.length = src.length := Nat.min_eq_left (by omega)
  have hfile := getElem?_passFile s (reads k) between hb.size off hsrc
  rw [hn, hoff] at hfile
  obtain ⟨hround, hsize, -⟩ := alignedSize_spec s (show offsetInSector s off + src.length ≤ bufferSize by omega)
  have hend := sectorEnd_eq (show offsetInSector s off + src.length ≤ bufferSize by omega) hlen
  rw [hoff] at hend
  have hkth : lastPass s buf offset = k := by
    rw [hb.lastPass_eq hsrc, Nat.div_eq_of_lt (by omega), Nat.add_zero]
  refine ⟨hkth, ?_, ?_, ?_, ?_, ?_⟩
  · intro x hx
    have hlt : x < off := by omega
    rw [hfile, if_neg (by omega), if_neg (by omega)]
    by_cases hin : between.length ≤ x
    · have hfront := hb.front x hx
      rw [List.getElem?_eq_none hin] at hfront
      rw [if_pos ⟨hlt, hin⟩]
      split at hfront
      · cases hfront
      · rename_i hlong
        rw [List.getElem?_eq_getElem (by omega)] at hfront
        cases hfront
    · rw [if_neg fun h => hin h.2, hb.front x hx]
  · intro x hle' hlt
    have hwritten := hb.written x hle' (by omega)
    obtain ⟨hin, -⟩ := List.getElem?_eq_some_iff.1 hwritten
    rw [hfile, if_neg (by omega), if_neg (by omega), if_neg (by omega), hwritten, image_head hlt]
  · intro i hi
    rw [hfile]
    by_cases hin : off ≤ offset + i
    · rw [if_pos ⟨hin, by omega⟩, hb.getElem?_src hin, Nat.add_sub_cancel_left]
    · have hstart : alignedOffset s offset ≤ offset := Nat.div_mul_le_self _ _
      have hwritten := hb.written (offset + i) (by omega) (by omega)
      obtain ⟨hlt, -⟩ := List.getElem?_eq_some_iff.1 hwritten
      rw [if_neg (by omega), if_neg (by omega), if_neg (by omega), hwritten, image_request (by omega) (by omega), Nat.add_sub_cancel_left]
  · intro x hle' hlt
    rw [hfile, if_neg (by omega), if_pos (by omega), tailByte, staleByte, hkth, if_neg hb.pass]
    by_cases hread : reads k = true ∧ x < file.length
    · rw [if_pos ⟨hread.1, (hb.lt_length_iff (by omega)).2 hread.2⟩, if_pos hread, hb.behind x (by omega), List.getD_eq_getElem?_getD,
        List.getElem?_eq_getElem hread.2]
      rfl
    · rw [if_neg fun h => hread ⟨h.1, (hb.lt_length_iff (by omega)).1 h.2⟩, if_neg hread, hb.buffer _ (by omega), show off - bufferSize + (x - off) = x - bufferSize by omega]
  · intro x hx
    rw [hfile, if_neg (by omega), if_neg (by omega), if_neg (by omega), hb.behind x (by omega)]

/-- A pass with others before and behind it. -/
theorem next (hb : Between s reads stack file buf offset k between buffer off src) (hmore : bufferSize < src.length) :
    Between s reads stack file buf offset (k + 1) (passFile s (reads k) between buffer off src)
      (fillBuffer s (reads k) between buffer off (chunkSize s off src.length) src) (off + chunkSize s off src.length)
      (src.drop (chunkSize s off src.length)) := by
  obtain ⟨hzero, hoff⟩ := hb.aligned
  have hlen := hb.length_src
  have hfar := hb.bufferSize_le
  have hstart := hb.start
  obtain ⟨hle, -⟩ := hb.inside
  have hn : chunkSize s off src.length = bufferSize := by
    unfold chunkSize
    omega
  have hpos : 0 < bufferSize := by decide
  have hfile := getElem?_passFile s (reads k) between hb.size off (show src.length ≠ 0 by omega)
  have hfill := fun p => getElem?_fillBuffer s (reads k) between hb.size off src (p := p)
  rw [hn, hoff] at hfile
  obtain ⟨hround, hsize, -⟩ := alignedSize_spec s (show offsetInSector s off + bufferSize ≤ bufferSize by omega)
  rw [hn] at hfill ⊢
  refine ⟨by rw [Nat.succ_mul]; omega, Nat.succ_ne_zero k, ?_, by omega, ?_, ?_, ?_, ?_, ?_⟩
  · rw [hb.src, List.drop_drop]
    congr 1
    omega
  · intro x hx
    rw [hfile, if_neg (by omega), if_neg (by omega)]
    by_cases hin : between.length ≤ x
    · have hfront := hb.front x hx
      rw [List.getElem?_eq_none hin] at hfront
      rw [if_pos ⟨by omega, hin⟩]
      split at hfront
      · cases hfront
      · rename_i hlong
        rw [List.getElem?_eq_getElem (by omega)] at hfront
        cases hfront
    · rw [if_neg fun h => hin h.2, hb.front x hx]
  · intro x hle' hx
    rw [hfile]
    by_cases hin : off ≤ x
    · rw [if_pos ⟨hin, hx⟩, hb.getElem?_src hin, image_request (by omega) (by omega)]
    · have hwritten := hb.written x hle' (by omega)
      obtain ⟨hlt, -⟩ := List.getElem?_eq_some_iff.1 hwritten
      rw [if_neg (by omega), if_neg (by omega), if_neg (by omega), hwritten]
  · intro x hx
    rw [hfile, if_neg (by omega), if_neg (by omega), if_neg (by omega), hb.behind x (by omega)]
  · rw [length_fillBuffer, hb.size]
  · intro p hp
    rw [hfill, if_pos (by omega), image_request (by omega) (by omega), ← hb.getElem?_src (by omega)]
    congr 1
    omega

end Between

/-- The passes after the first succeed when all their writes do, and store the request. -/
theorem writeLoop_spec {writes : Nat → Bool} (n : Nat) : ∀ {k off : Nat} {between buffer src : Bytes}, src.length = n → n ≠ 0 →
    Between s reads stack file buf offset k between buffer off src →
    ((writeLoop s reads writes k between buffer off src).2 = true ↔ ∀ i, k ≤ i → i ≤ lastPass s buf offset → writes i = true) ∧
      ((writeLoop s reads writes k between buffer off src).2 = true →
        Stored s reads stack file buf offset (writeLoop s reads writes k between buffer off src).1) := by
  induction n using Nat.strongRecOn with
  | ind n ih =>
    intro k off between buffer src hsrc hn hb
    have hloop : writeLoop s reads writes k between buffer off src =
        if writes k then writeLoop s reads writes (k + 1) (passFile s (reads k) between buffer off src)
          (fillBuffer s (reads k) between buffer off (chunkSize s off src.length) src) (off + chunkSize s off src.length)
          (src.drop (chunkSize s off src.length))
        else (between, false) := by
      conv_lhs => unfold writeLoop
      rw [dif_neg (by omega)]
      rfl
    have hkth : k ≤ lastPass s buf offset := by
      rw [hb.lastPass_eq (by omega)]
      exact Nat.le_add_right _ _
    rw [hloop]
    by_cases hw : writes k = true
    · rw [if_pos hw]
      by_cases hlast : src.length ≤ bufferSize
      · obtain ⟨hlastk, hstored⟩ := hb.last (by omega) hlast
        have hchunk : chunkSize s off src.length = src.length := by
          have hzero := hb.aligned.1
          unfold chunkSize
          omega
        unfold writeLoop
        rw [dif_pos (by rw [List.length_drop, hchunk]; omega), hlastk]
        refine ⟨iff_of_true rfl fun i hle hge => ?_, fun _ => hstored⟩
        rw [Nat.le_antisymm hge hle, hw]
      · have hnext := hb.next (Nat.lt_of_not_le hlast)
        have hpos := chunkSize_pos s off (show src.length ≠ 0 by omega)
        have hchunk : chunkSize s off src.length ≤ bufferSize := (Nat.min_le_right _ _).trans (Nat.sub_le _ _)
        obtain ⟨hret, hstored⟩ := @ih (src.drop (chunkSize s off src.length)).length (by rw [List.length_drop]; omega) _ _ _ _ _ rfl
          (by rw [List.length_drop]; omega) hnext
        refine ⟨hret.trans ⟨fun h i hle hge => ?_, fun h i hle hge => h i (by omega) hge⟩, hstored⟩
        by_cases hi : i = k
        · rw [hi, hw]
        · exact h i (by omega) hge
    · rw [if_neg hw]
      exact ⟨iff_of_false Bool.false_ne_true fun h => hw (h k (Nat.le_refl k) hkth), fun h => (by cases h)⟩

/-- An unaligned write of some bytes succeeds when all its writes do, and then stores them. -/
theorem imageWrite_spec {writes : Nat → Bool} (hstack : stack.length = bufferSize) (hbuf : buf.length ≠ 0)
    (hal : isAligned s offset buf.length = false) :
    ((imageWrite s reads writes stack file buf offset).2 = true ↔ ∀ i ≤ lastPass s buf offset, writes i = true) ∧
      ((imageWrite s reads writes stack file buf offset).2 = true →
        Stored s reads stack file buf offset (imageWrite s reads writes stack file buf offset).1) := by
  have hloop : imageWrite s reads writes stack file buf offset =
      if writes 0 then writeLoop s reads writes 1 (passFile s (reads 0) file stack offset buf)
        (fillBuffer s (reads 0) file stack offset (chunkSize s offset buf.length) buf) (offset + chunkSize s offset buf.length)
        (buf.drop (chunkSize s offset buf.length))
      else (file, false) := by
    rw [imageWrite, hal, if_neg Bool.false_ne_true]
    conv_lhs => unfold writeLoop
    rw [dif_neg hbuf]
    rfl
  rw [hloop]
  by_cases hw : writes 0 = true
  · rw [if_pos hw]
    by_cases hsingle : offsetInSector s offset + buf.length ≤ bufferSize
    · obtain ⟨hlast, hstored⟩ := stored_of_single hstack hbuf hsingle
      have hchunk : chunkSize s offset buf.length = buf.length := Nat.min_eq_left (by omega)
      unfold writeLoop
      rw [dif_pos (by rw [List.length_drop, hchunk]; omega), hlast]
      refine ⟨iff_of_true rfl fun i hi => ?_, fun _ => hstored⟩
      rw [Nat.le_zero.1 hi, hw]
    · have hfirst := @between_of_first s reads stack file buf offset hstack (Nat.lt_of_not_le hsingle)
      have hlt := offsetInSector_lt s offset
      have hs := s.le
      have hchunk : chunkSize s offset buf.length = bufferSize - offsetInSector s offset := Nat.min_eq_right (by omega)
      obtain ⟨hret, hstored⟩ := @writeLoop_spec s reads stack file buf offset writes _ _ _ _ _ _ rfl (by rw [List.length_drop]; omega) hfirst
      refine ⟨hret.trans ⟨fun h i hi => ?_, fun h i _ hi => h i hi⟩, hstored⟩
      by_cases h0 : i = 0
      · rw [h0, hw]
      · exact h i (by omega) hi
  · rw [if_neg hw]
    exact ⟨iff_of_false Bool.false_ne_true fun h => hw (h 0 (Nat.zero_le _)), fun h => (by cases h)⟩

end Passes

/-! ## What a write promises -/

/-- A write of `buf` over the file: its bytes are there, the others are as they were, and zeros where there were none. -/
structure Written (file out buf : Bytes) (offset : Nat) : Prop where
  request : ∀ i < buf.length, out[offset + i]? = buf[i]?
  kept : ∀ x < file.length, ¬ (offset ≤ x ∧ x < offset + buf.length) → out[x]? = file[x]?
  gained : ∀ x, file.length ≤ x → ¬ (offset ≤ x ∧ x < offset + buf.length) → ∀ b, out[x]? = some b → b = 0

theorem written_writeFile {file buf : Bytes} (offset : Nat) : Written file (writeFile file offset buf) buf offset := by
  by_cases hbuf : buf = []
  · rw [writeFile, if_pos hbuf, hbuf]
    refine ⟨fun i hi => (by cases hi), fun x _ _ => rfl, fun x hx _ b hb => ?_⟩
    rw [List.getElem?_eq_none hx] at hb
    cases hb
  · have hat := @getElem?_writeFile file buf hbuf offset
    refine ⟨fun i hi => ?_, fun x hx hout => ?_, fun x hx hout b hb => ?_⟩
    · rw [hat, if_pos (by omega), Nat.add_sub_cancel_left]
    · rw [hat, if_neg hout, if_neg (by omega)]
    · rw [hat, if_neg hout] at hb
      split at hb
      · exact (Option.some.inj hb).symm
      · rw [List.getElem?_eq_none hx] at hb
        cases hb

/-- The sectors at both ends keep what was in the file around the request. -/
structure EdgesKept (s : SectorSize) (reads : Nat → Bool) (stack file buf : Bytes) (offset : Nat) : Prop where
  head : ∀ x, alignedOffset s offset ≤ x → x < offset →
    reads 0 = true ∧ x < file.length ∨ stack.getD (x - alignedOffset s offset) 0 = file.getD x 0
  tail : ∀ x, offset + buf.length ≤ x → x < sectorEnd s buf offset →
    reads (lastPass s buf offset) = true ∧ x < file.length ∨ staleByte s reads stack file buf offset x = file.getD x 0

theorem ite_getD_iff {c : Prop} [Decidable c] {a b : UInt8} : (if c then b else a) = b ↔ c ∨ a = b := by
  by_cases h : c
  · simp only [h, if_true, true_or]
  · simp only [h, if_false, false_or]

theorem Stored.written_iff {s : SectorSize} {reads : Nat → Bool} {stack file buf out : Bytes} {offset : Nat}
    (hst : Stored s reads stack file buf offset out) : Written file out buf offset ↔ EdgesKept s reads stack file buf offset := by
  have hstart : alignedOffset s offset ≤ offset := Nat.div_mul_le_self _ _
  -- a byte beside the request is right when it is that of the file, or zero behind its end
  have hbyte : ∀ {x b}, Written file out buf offset → ¬ (offset ≤ x ∧ x < offset + buf.length) → out[x]? = some b → b = file.getD x 0 := by
    intro x b hw hout hb
    rw [List.getD_eq_getElem?_getD]
    by_cases hx : x < file.length
    · rw [← hw.kept x hx hout, hb]
      rfl
    · rw [List.getElem?_eq_none (Nat.le_of_not_lt hx)]
      exact hw.gained x (Nat.le_of_not_lt hx) hout b hb
  constructor
  · intro hw
    constructor
    · intro x hle hlt
      have h := hbyte hw (by omega) (hst.head x hle hlt)
      exact ite_getD_iff.1 h
    · intro x hle hlt
      have h := hbyte hw (by omega) (hst.tail x hle hlt)
      exact ite_getD_iff.1 h
  · intro hk
    have hside : ∀ x, ¬ (offset ≤ x ∧ x < offset + buf.length) →
        out[x]? = some (file.getD x 0) ∨ out[x]? = if file.length ≤ x ∧ x < alignedOffset s offset then some 0 else file[x]? := by
      intro x hout
      by_cases hfront : x < alignedOffset s offset
      · right
        rw [hst.front x hfront]
        simp only [hfront, and_true]
      · by_cases hhead : x < offset
        · left
          rw [hst.head x (Nat.le_of_not_lt hfront) hhead, headByte]
          exact congrArg some (ite_getD_iff.2 (hk.head x (Nat.le_of_not_lt hfront) hhead))
        · by_cases hbehind : x < sectorEnd s buf offset
          · left
            rw [hst.tail x (by omega) hbehind, tailByte]
            exact congrArg some (ite_getD_iff.2 (hk.tail x (by omega) hbehind))
          · right
            rw [hst.behind x (Nat.le_of_not_lt hbehind), if_neg fun h => hfront h.2]
    refine ⟨hst.request, fun x hx hout => ?_, fun x hx hout b hb => ?_⟩
    · obtain h | h := hside x hout
      · rw [h, List.getD_eq_getElem?_getD, List.getElem?_eq_getElem hx]
        rfl
      · rw [h, if_neg fun h => absurd h.1 (Nat.not_le.2 hx)]
    · obtain h | h := hside x hout
      · rw [h, List.getD_eq_getElem?_getD, List.getElem?_eq_none hx] at hb
        exact (Option.some.inj hb).symm
      · rw [h] at hb
        split at hb
        · exact (Option.some.inj hb).symm
        · rw [List.getElem?_eq_none hx] at hb
          cases hb

/-- The buffer on the stack with what happens to be there. -/
def onStack (junk : Nat → UInt8) : Bytes := (List.range bufferSize).map junk

theorem length_onStack (junk : Nat → UInt8) : (onStack junk).length = bufferSize := by
  rw [onStack, List.length_map, List.length_range]

/-- The conditions under which a write that reports success has done what it promises. -/
def WriteKept (s : SectorSize) (reads writes : Nat → Bool) (stack file buf : Bytes) (offset : Nat) : Prop :=
  isAligned s offset buf.length = true ∨ buf = [] ∨ (∃ k ≤ lastPass s buf offset, writes k = false) ∨ EdgesKept s reads stack file buf offset

theorem imageWrite_iff (s : SectorSize) (reads writes : Nat → Bool) (junk : Nat → UInt8) (file buf : Bytes) (offset : Nat) :
    ((imageWrite s reads writes (onStack junk) file buf offset).2 = true →
      Written file (imageWrite s reads writes (onStack junk) file buf offset).1 buf offset) ↔
      WriteKept s reads writes (onStack junk) file buf offset := by
  unfold WriteKept
  cases hal : isAligned s offset buf.length with
  | true =>
    refine iff_of_true ?_ (.inl rfl)
    rw [imageWrite, hal, if_pos rfl]
    split
    · exact fun _ => written_writeFile offset
    · exact fun h => (by cases h)
  | false =>
    simp only [Bool.false_eq_true, false_or]
    by_cases hbuf : buf.length = 0
    · have hnil := List.eq_nil_of_length_eq_zero hbuf
      refine iff_of_true ?_ (.inl hnil)
      have hout : imageWrite s reads writes (onStack junk) file buf offset = (file, true) := by
        rw [imageWrite, hal, if_neg Bool.false_ne_true, writeLoop, dif_pos hbuf]
      rw [hout, hnil]
      intro _
      have hempty := @written_writeFile file [] offset
      rwa [writeFile, if_pos rfl] at hempty
    · obtain ⟨hret, hstored⟩ := @imageWrite_spec s reads (onStack junk) file buf offset writes (length_onStack junk) hbuf hal
      have hne : buf ≠ [] := fun h => hbuf (congrArg List.length h)
      simp only [hne, false_or]
      constructor
      · intro h
        by_cases hall : ∀ i ≤ lastPass s buf offset, writes i = true
        · have htrue := hret.2 hall
          exact .inr ((hstored htrue).written_iff.1 (h htrue))
        · left
          simp only [not_forall] at hall
          obtain ⟨k, hk, hfail⟩ := hall
          exact ⟨k, hk, Bool.eq_false_of_not_eq_true hfail⟩
      · intro h htrue
        obtain ⟨k, hk, hfail⟩ | hkept := h
        · rw [hret.1 htrue k hk] at hfail
          cases hfail
        · exact (hstored htrue).written_iff.2 hkept

/-- Unaligned access to the image file against access to the file itself. -/
theorem imageFile_iff (s : SectorSize) (reads writes : Nat → Bool) (junk : Nat → UInt8) (file : Bytes) (offset : Nat) :
    (∀ buf, ((imageWrite s reads writes (onStack junk) file buf offset).2 = true →
        Written file (imageWrite s reads writes (onStack junk) file buf offset).1 buf offset) ↔
        WriteKept s reads writes (onStack junk) file buf offset) ∧
      ∀ dest, ((imageRead s reads file dest offset).2 = true → Holds file (imageRead s reads file dest offset).1 offset) ↔
        (isAligned s offset dest.length = false ∨ reads 0 = false ∨ dest = [] ∨ offset + dest.length ≤ file.length) :=
  ⟨fun buf => imageWrite_iff s reads writes junk file buf offset, fun dest => imageRead_iff s reads file dest offset⟩

/-- Sectors of 512 bytes. -/
def sector512 : SectorSize := ⟨512, by decide⟩

/-- One byte written to an empty file leaves the stack behind it; a sector read from it is reported as read. -/
theorem imageFile_garbage :
    ¬ ((imageWrite sector512 (fun _ => true) (fun _ => true) (onStack fun _ => 0xAA) [] [7] 0).2 = true →
        Written [] (imageWrite sector512 (fun _ => true) (fun _ => true) (onStack fun _ => 0xAA) [] [7] 0).1 [7] 0) ∧
      ¬ ((imageRead sector512 (fun _ => true) [] (List.replicate 512 0) 0).2 = true →
        Holds [] (imageRead sector512 (fun _ => true) [] (List.replicate 512 0) 0).1 0) := by
  have hlast : lastPass sector512 [7] 0 = 0 := by decide
  constructor
  · rw [imageWrite_iff]
    rintro (hal | hnil | ⟨k, -, hfail⟩ | hkept)
    · exact absurd hal (by decide)
    · cases hnil
    · cases hfail
    · obtain ⟨-, hin⟩ | hstale := hkept.tail 1 (by decide) (by decide)
      · cases hin
      · rw [staleByte, hlast, if_pos rfl, onStack, List.getD_eq_getElem?_getD, List.getElem?_map, List.getElem?_range (by decide)] at hstale
        exact absurd hstale (by decide)
  · rw [imageRead_iff]
    rintro (hal | hread | hnil | hfit)
    · rw [List.length_replicate] at hal
      exact absurd hal (by decide)
    · cases hread
    · exact absurd (congrArg List.length hnil) (by rw [List.length_replicate]; decide)
    · rw [List.length_replicate] at hfit
      exact absurd hfit (by decide)

end MajorPrivacy.Disk

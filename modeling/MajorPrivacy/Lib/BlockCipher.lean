/-
A cipher that works on a memory block by block, each block under a tweak of its own place. A memory
is known by its blocks, and a run over two parts is the run over the whole.
-/
import MajorPrivacy.Lib.Memory

open Memory

/-- Two inverse families of maps of blocks, one pair for each place. The size of a block is the user's. -/
structure BlockCipher (α : Type) where
  enc : Nat → List α → List α
  dec : Nat → List α → List α
  length_enc : ∀ n b, (enc n b).length = b.length
  dec_enc : ∀ n b, dec n (enc n b) = b
  enc_dec : ∀ n b, enc n (dec n b) = b

namespace BlockCipher

variable {α : Type}

theorem length_dec (c : BlockCipher α) (n : Nat) (b : List α) : (c.dec n b).length = b.length := by
  rw [← c.length_enc n (c.dec n b), c.enc_dec]

/-- `count` blocks of `w` cells through `f`, which is told the place of each from `n` on. -/
def mapBlocks (w : Nat) (f : Nat → List α → List α) : Nat → Nat → List α → List α
  | 0, _, _ => []
  | count + 1, n, mem => f n (mem.take w) ++ mapBlocks w f count (n + 1) (mem.drop w)

section MapBlocks

variable {w : Nat} {f : Nat → List α → List α} (hf : ∀ n b, (f n b).length = b.length)
include hf

theorem length_mapBlocks : ∀ (count n : Nat) (mem : List α), mem.length = w * count →
    (mapBlocks w f count n mem).length = w * count
  | 0, _, _, _ => rfl
  | count + 1, n, mem, hm => by
    rw [Nat.mul_succ] at hm ⊢
    rw [mapBlocks, List.length_append, hf, List.length_take,
      length_mapBlocks count (n + 1) (mem.drop w) (by rw [List.length_drop]; omega)]
    omega

/-- A block of the result is the image of the block at its place. -/
theorem slice_mapBlocks : ∀ (count n : Nat) (mem : List α), mem.length = w * count → ∀ i < count,
    slice (mapBlocks w f count n mem) (w * i) w = f (n + i) (slice mem (w * i) w)
  | 0, _, _, _, i, hi => absurd hi (Nat.not_lt_zero i)
  | count + 1, n, mem, hm, i, hi => by
    rw [Nat.mul_succ] at hm
    have hhead : (f n (mem.take w)).length = w := by
      rw [hf, List.length_take]
      omega
    rw [mapBlocks]
    cases i with
    | zero =>
      rw [Nat.mul_zero, slice_full, slice_full, List.take_left' hhead, Nat.add_zero]
    | succ i =>
      have ih := slice_mapBlocks count (n + 1) (mem.drop w) (by rw [List.length_drop]; omega) i (by omega)
      have hdrop : ∀ l : List α, slice (f n (mem.take w) ++ l) (w * (i + 1)) w = slice l (w * i) w := by
        intro l
        unfold slice
        rw [Nat.mul_succ, Nat.add_comm, ← List.drop_drop, List.drop_left' hhead]
      rw [hdrop, ih]
      unfold slice
      rw [List.drop_drop, Nat.mul_succ, Nat.add_comm w, show n + 1 + i = n + (i + 1) by omega]

end MapBlocks

/-- The blocks of a first part and those behind it. -/
theorem mapBlocks_append {w : Nat} {f : Nat → List α → List α} : ∀ (count count' n : Nat) (mem mem' : List α), mem.length = w * count →
    mapBlocks w f (count + count') n (mem ++ mem') =
      mapBlocks w f count n mem ++ mapBlocks w f count' (n + count) mem'
  | 0, count', n, mem, mem', hm => by
    rw [List.eq_nil_of_length_eq_zero (hm.trans (Nat.mul_zero w)), Nat.zero_add]
    rfl
  | count + 1, count', n, mem, mem', hm => by
    rw [Nat.mul_succ] at hm
    have hlen : (mem.drop w).length = w * count := by
      rw [List.length_drop]
      omega
    rw [show count + 1 + count' = count + count' + 1 by omega, mapBlocks, mapBlocks,
      List.take_append_of_le_length (by omega), List.drop_append_of_le_length (by omega),
      mapBlocks_append count count' (n + 1) (mem.drop w) mem' hlen, List.append_assoc,
      show n + 1 + count = n + (count + 1) by omega]

/-- A cell is the one of its block. -/
theorem getElem?_eq_slice {w : Nat} (hw : 0 < w) (mem : List α) (x : Nat) :
    mem[x]? = (slice mem (w * (x / w)) w)[x % w]? := by
  rw [getElem?_slice, if_pos (Nat.mod_lt _ hw), Nat.div_add_mod]

/-- Memories with the same blocks are the same. -/
theorem eq_of_blocks {w : Nat} (hw : 0 < w) {count : Nat} {mem mem' : List α} (hm : mem.length = w * count)
    (hm' : mem'.length = w * count) (h : ∀ i < count, slice mem (w * i) w = slice mem' (w * i) w) : mem = mem' := by
  apply List.ext_getElem?
  intro x
  by_cases hx : x < w * count
  · rw [getElem?_eq_slice hw mem, getElem?_eq_slice hw mem', h _ (Nat.div_lt_of_lt_mul hx)]
  · rw [List.getElem?_eq_none (by omega), List.getElem?_eq_none (by omega)]

/-- What one direction has done the other undoes. -/
theorem mapBlocks_dec_enc (c : BlockCipher α) {w : Nat} (hw : 0 < w) (count n : Nat) (mem : List α)
    (hm : mem.length = w * count) : mapBlocks w c.dec count n (mapBlocks w c.enc count n mem) = mem := by
  have henc := length_mapBlocks c.length_enc count n mem hm
  refine eq_of_blocks hw (length_mapBlocks c.length_dec count n _ henc) hm fun i hi => ?_
  rw [slice_mapBlocks c.length_dec count n _ henc i hi, slice_mapBlocks c.length_enc count n mem hm i hi, c.dec_enc]

/-- Two maps of blocks after each other. -/
theorem mapBlocks_mapBlocks {w : Nat} (hw : 0 < w) {f g : Nat → List α → List α} (hf : ∀ n b, (f n b).length = b.length)
    (hg : ∀ n b, (g n b).length = b.length) {count : Nat} (n : Nat) {mem : List α} (hm : mem.length = w * count) :
    mapBlocks w g count n (mapBlocks w f count n mem) = mapBlocks w (fun n b => g n (f n b)) count n mem := by
  have hmid := length_mapBlocks hf count n mem hm
  have hfg : ∀ n b, (g n (f n b)).length = b.length := fun n b => (hg n _).trans (hf n b)
  refine eq_of_blocks hw (length_mapBlocks hg count n _ hmid) (length_mapBlocks hfg count n mem hm) fun i hi => ?_
  rw [slice_mapBlocks hg count n _ hmid i hi, slice_mapBlocks hf count n mem hm i hi, slice_mapBlocks hfg count n mem hm i hi]

/-- One cipher and then another. -/
def andThen (c d : BlockCipher α) : BlockCipher α where
  enc n b := d.enc n (c.enc n b)
  dec n b := c.dec n (d.dec n b)
  length_enc n b := (d.length_enc n _).trans (c.length_enc n b)
  dec_enc n b := by rw [d.dec_enc, c.dec_enc]
  enc_dec n b := by rw [c.enc_dec, d.enc_dec]

end BlockCipher

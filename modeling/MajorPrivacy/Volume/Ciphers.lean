/-
Ciphers under which single bytes show what became of them: one that leaves everything as it is, one
that changes a byte, and one that lets a byte of a block depend on another.
-/
import MajorPrivacy.Volume.Sealed

namespace MajorPrivacy.Volume

open LittleEndian Memory

/-- A cipher that leaves every block as it is. -/
def plain : Xts := ⟨fun _ b => b, fun _ b => b, fun _ _ => rfl, fun _ _ => rfl, fun _ _ => rfl⟩

/-- A byte with its lowest bit changed. -/
def flipAt (i : Nat) (b : Bytes) : Bytes := b.modify i (· ^^^ 1)

/-- Byte `j` with its lowest bit changed where that of byte `i` is set. -/
def carryAt (i j : Nat) (b : Bytes) : Bytes := b.modify j (· ^^^ (b.getD i 0 &&& 1))

theorem xor_xor_cancel (a b : UInt8) : a ^^^ b ^^^ b = a := by
  rw [UInt8.xor_assoc, UInt8.xor_self, UInt8.xor_zero]

/-- What two bytes that differ in the lowest bit carry differs as well. -/
theorem carry_eq (b : UInt8) : ((b ^^^ 1) &&& 1) ^^^ (b &&& 1) = 1 := by
  have hall : (List.range 256).all (fun n => ((UInt8.ofNat n ^^^ 1) &&& 1) ^^^ (UInt8.ofNat n &&& 1) = 1) = true := by
    decide +kernel
  have h := List.all_eq_true.1 hall b.toNat (List.mem_range.2 b.toNat_lt)
  rw [UInt8.ofNat_toNat] at h
  exact of_decide_eq_true h

theorem getElem?_flipAt (i : Nat) (b : Bytes) (k : Nat) :
    (flipAt i b)[k]? = if k = i then b[k]?.map (· ^^^ 1) else b[k]? := by
  rw [flipAt, List.getElem?_modify]
  by_cases h : k = i
  · rw [if_pos h]
    simp only [h, if_true]
    rfl
  · rw [if_neg h]
    simp only [Ne.symm h, if_false]
    exact Option.map_id'

theorem getElem?_carryAt (i j : Nat) (b : Bytes) (k : Nat) :
    (carryAt i j b)[k]? = if k = j then b[k]?.map (· ^^^ (b.getD i 0 &&& 1)) else b[k]? := by
  rw [carryAt, List.getElem?_modify]
  by_cases h : k = j
  · rw [if_pos h]
    simp only [h, if_true]
    rfl
  · rw [if_neg h]
    simp only [Ne.symm h, if_false]
    exact Option.map_id'

theorem flipAt_flipAt (i : Nat) (b : Bytes) : flipAt i (flipAt i b) = b := by
  apply List.ext_getElem?
  intro k
  rw [getElem?_flipAt, getElem?_flipAt]
  split
  · rw [Option.map_map]
    cases b[k]? with
    | none => rfl
    | some a => exact congrArg some (xor_xor_cancel a 1)
  · rfl

theorem carryAt_carryAt {i j : Nat} (hij : i ≠ j) (b : Bytes) : carryAt i j (carryAt i j b) = b := by
  have hi : (carryAt i j b).getD i 0 = b.getD i 0 := by
    rw [List.getD_eq_getElem?_getD, List.getD_eq_getElem?_getD, getElem?_carryAt, if_neg hij]
  apply List.ext_getElem?
  intro k
  rw [getElem?_carryAt, hi, getElem?_carryAt]
  split
  · rw [Option.map_map]
    cases b[k]? with
    | none => rfl
    | some a => exact congrArg some (xor_xor_cancel a _)
  · rfl

/-- Two inverse maps at one block. -/
def atBlock (n : Nat) (f g : Bytes → Bytes) (hf : ∀ b, (f b).length = b.length) (hgf : ∀ b, g (f b) = b)
    (hfg : ∀ b, f (g b) = b) : Xts where
  enc k b := if k = n then f b else b
  dec k b := if k = n then g b else b
  length_enc k b := by
    split
    · exact hf b
    · rfl
  dec_enc k b := by
    by_cases h : k = n
    · simp only [h, if_true, hgf]
    · simp only [h, if_false]
  enc_dec k b := by
    by_cases h : k = n
    · simp only [h, if_true, hfg]
    · simp only [h, if_false]

theorem length_flipAt (i : Nat) (b : Bytes) : (flipAt i b).length = b.length := List.length_modify _ _ _

theorem length_carryAt (i j : Nat) (b : Bytes) : (carryAt i j b).length = b.length := List.length_modify _ _ _

/-- A cipher that changes the byte at `x`. -/
def flip (x : Nat) : Xts :=
  atBlock (x / xtsBlockSize) (flipAt (x % xtsBlockSize)) (flipAt (x % xtsBlockSize)) (length_flipAt _)
    (flipAt_flipAt _) (flipAt_flipAt _)

/-- A cipher that changes the byte at `x`, and the one at `y` depending on it. -/
def tangle (x y : Nat) (h : x % xtsBlockSize ≠ y % xtsBlockSize) : Xts :=
  atBlock (x / xtsBlockSize) (fun b => carryAt (x % xtsBlockSize) (y % xtsBlockSize) (flipAt (x % xtsBlockSize) b))
    (fun b => flipAt (x % xtsBlockSize) (carryAt (x % xtsBlockSize) (y % xtsBlockSize) b))
    (fun b => (length_carryAt _ _ _).trans (length_flipAt _ _))
    (fun b => by simp only [carryAt_carryAt h, flipAt_flipAt])
    (fun b => by simp only [carryAt_carryAt h, flipAt_flipAt])

theorem cryptAt_plain (mem : Bytes) (x : Nat) : cryptAt plain.enc mem x = mem[x]? :=
  (BlockCipher.getElem?_eq_slice (by decide) mem x).symm

theorem cryptAt_other {n : Nat} {f : Bytes → Bytes} {crypt : Nat → Bytes → Bytes}
    (hcrypt : ∀ k b, crypt k b = if k = n then f b else b) {mem : Bytes} {x : Nat} (hx : x / xtsBlockSize ≠ n) :
    cryptAt crypt mem x = mem[x]? := by
  rw [cryptAt, hcrypt, if_neg hx, ← BlockCipher.getElem?_eq_slice (by decide)]

theorem cryptAt_block {n : Nat} {f : Bytes → Bytes} {crypt : Nat → Bytes → Bytes}
    (hcrypt : ∀ k b, crypt k b = if k = n then f b else b) {mem : Bytes} {x : Nat} (hx : x / xtsBlockSize = n) :
    cryptAt crypt mem x = (f (slice mem (xtsBlockSize * n) xtsBlockSize))[x % xtsBlockSize]? := by
  rw [cryptAt, hcrypt, if_pos hx, hx]

theorem getElem?_block (mem : Bytes) (x : Nat) :
    (slice mem (xtsBlockSize * (x / xtsBlockSize)) xtsBlockSize)[x % xtsBlockSize]? = mem[x]? :=
  (BlockCipher.getElem?_eq_slice (by decide) mem x).symm

/-- Two places of one block are the same if they are at the same place in it. -/
theorem eq_of_block {x y : Nat} (hdiv : x / xtsBlockSize = y / xtsBlockSize) (hmod : x % xtsBlockSize = y % xtsBlockSize) :
    x = y := by
  rw [← Nat.div_add_mod x xtsBlockSize, ← Nat.div_add_mod y xtsBlockSize, hdiv, hmod]

theorem flip_enc (x k : Nat) (b : Bytes) :
    (flip x).enc k b = if k = x / xtsBlockSize then flipAt (x % xtsBlockSize) b else b := rfl

theorem cryptAt_flip (x : Nat) (mem : Bytes) (y : Nat) :
    cryptAt (flip x).enc mem y = if y = x then mem[y]?.map (· ^^^ 1) else mem[y]? := by
  by_cases hblock : y / xtsBlockSize = x / xtsBlockSize
  · rw [cryptAt_block (flip_enc x) hblock, getElem?_flipAt, ← hblock, getElem?_block]
    by_cases hy : y = x
    · rw [if_pos (by rw [hy]), if_pos hy]
    · rw [if_neg fun hmod => hy (eq_of_block hblock hmod), if_neg hy]
  · rw [cryptAt_other (flip_enc x) hblock, if_neg fun hy => hblock (by rw [hy])]

theorem dec_flip (x : Nat) : (flip x).dec = (flip x).enc := rfl

theorem getD_block (mem : Bytes) (x : Nat) :
    (slice mem (xtsBlockSize * (x / xtsBlockSize)) xtsBlockSize).getD (x % xtsBlockSize) 0 = mem.getD x 0 := by
  rw [List.getD_eq_getElem?_getD, List.getD_eq_getElem?_getD, getElem?_block]

section Tangle

variable {x y : Nat} (hblock : x / xtsBlockSize = y / xtsBlockSize) (hne : x % xtsBlockSize ≠ y % xtsBlockSize)
include hblock

/-- The byte at `y` is changed by what the byte at `x` has become. -/
theorem cryptAt_tangle_enc (mem : Bytes) (z : Nat) (hx : x < mem.length) :
    cryptAt (tangle x y hne).enc mem z =
      if z = x then mem[z]?.map (· ^^^ 1)
      else if z = y then mem[z]?.map (· ^^^ ((mem.getD x 0 ^^^ 1) &&& 1)) else mem[z]? := by
  have henc : ∀ k b, (tangle x y hne).enc k b = if k = x / xtsBlockSize then
      carryAt (x % xtsBlockSize) (y % xtsBlockSize) (flipAt (x % xtsBlockSize) b) else b := fun _ _ => rfl
  by_cases hz : z / xtsBlockSize = x / xtsBlockSize
  · rw [cryptAt_block henc hz, getElem?_carryAt, getElem?_flipAt, ← hz, getElem?_block]
    have hflip : (flipAt (x % xtsBlockSize) (slice mem (xtsBlockSize * (z / xtsBlockSize)) xtsBlockSize)).getD
        (x % xtsBlockSize) 0 = mem.getD x 0 ^^^ 1 := by
      rw [hz, List.getD_eq_getElem?_getD, getElem?_flipAt, if_pos rfl, getElem?_block, List.getD_eq_getElem?_getD,
        List.getElem?_eq_getElem hx]
      rfl
    rw [hflip]
    by_cases hzx : z = x
    · rw [if_neg (by rw [hzx]; exact hne), if_pos (by rw [hzx]), if_pos hzx]
    · rw [if_neg (fun hmod => hzx (eq_of_block hz hmod)), if_neg hzx]
      by_cases hzy : z = y
      · rw [if_pos (by rw [hzy]), if_pos hzy]
      · rw [if_neg fun hmod => hzy (eq_of_block (hz.trans hblock) hmod), if_neg hzy]
  · rw [cryptAt_other henc hz, if_neg fun h => hz (by rw [h]), if_neg fun h => hz (by rw [h, hblock])]

theorem cryptAt_tangle_dec (mem : Bytes) (z : Nat) :
    cryptAt (tangle x y hne).dec mem z =
      if z = x then mem[z]?.map (· ^^^ 1)
      else if z = y then mem[z]?.map (· ^^^ (mem.getD x 0 &&& 1)) else mem[z]? := by
  have hdec : ∀ k b, (tangle x y hne).dec k b = if k = x / xtsBlockSize then
      flipAt (x % xtsBlockSize) (carryAt (x % xtsBlockSize) (y % xtsBlockSize) b) else b := fun _ _ => rfl
  by_cases hz : z / xtsBlockSize = x / xtsBlockSize
  · rw [cryptAt_block hdec hz, getElem?_flipAt, getElem?_carryAt, ← hz, getElem?_block]
    have hget : (slice mem (xtsBlockSize * (z / xtsBlockSize)) xtsBlockSize).getD (x % xtsBlockSize) 0 = mem.getD x 0 := by
      rw [hz]
      exact getD_block mem x
    rw [hget]
    by_cases hzx : z = x
    · rw [if_pos (by rw [hzx]), if_neg (by rw [hzx]; exact hne), if_pos hzx]
    · rw [if_neg (fun hmod => hzx (eq_of_block hz hmod)), if_neg hzx]
      by_cases hzy : z = y
      · rw [if_pos (by rw [hzy]), if_pos hzy]
      · rw [if_neg fun hmod => hzy (eq_of_block (hz.trans hblock) hmod), if_neg hzy]
  · rw [cryptAt_other hdec hz, if_neg fun h => hz (by rw [h]), if_neg fun h => hz (by rw [h, hblock])]

end Tangle

end MajorPrivacy.Volume

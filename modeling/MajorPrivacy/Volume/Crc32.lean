/-
The CRC-32 of `crc32.c`: a byte at a time over a table, and the combination of two checksums. Two
byte strings of one length that differ in one place have different checksums.
-/
import MajorPrivacy.Lib.LittleEndian

namespace MajorPrivacy.Volume

open LittleEndian

/-- The reflected polynomial. -/
def crc32Poly : UInt32 := 0xEDB88320

/-- One bit of a byte moved out of the remainder. -/
def crc32Bit (c : UInt32) : UInt32 := if c &&& 1 = 1 then (c >>> 1) ^^^ crc32Poly else c >>> 1

/-- `crc32_tab`, an entry at a time. -/
def crc32Tab (i : UInt32) : UInt32 :=
  crc32Bit (crc32Bit (crc32Bit (crc32Bit (crc32Bit (crc32Bit (crc32Bit (crc32Bit i)))))))

/-- One turn of the loop of `crc32`. -/
def crc32Step (crc : UInt32) (b : UInt8) : UInt32 := crc32Tab ((crc ^^^ b.toUInt32) &&& 0xFF) ^^^ (crc >>> 8)

def crc32 (p : Bytes) : UInt32 := p.foldl crc32Step 0xFFFFFFFF ^^^ 0xFFFFFFFF

/-! ## One byte makes a difference -/

/-- A bit moved back into the remainder. -/
def crc32Unbit (c : UInt32) : UInt32 := if c &&& 0x80000000 = 0 then c <<< 1 else ((c ^^^ crc32Poly) <<< 1) ||| 1

/-- The index of the table entry with a given top byte. -/
def crc32Index (c : UInt32) : UInt32 :=
  crc32Unbit (crc32Unbit (crc32Unbit (crc32Unbit (crc32Unbit (crc32Unbit (crc32Unbit (crc32Unbit
    (c &&& 0xFF000000)))))))) &&& 0xFF

theorem crc32Index_crc32Tab {i : UInt32} (hi : i.toNat < 256) : crc32Index (crc32Tab i) = i := by
  have hall : (List.range 256).all (fun i => crc32Index (crc32Tab (UInt32.ofNat i)) = UInt32.ofNat i) = true := by
    decide +kernel
  have h := List.all_eq_true.1 hall i.toNat (List.mem_range.2 hi)
  rw [UInt32.ofNat_toNat] at h
  exact of_decide_eq_true h

theorem getElem_top : ∀ {k : Nat} (hk : k < 32), (0xFF000000#32)[k] = decide (24 ≤ k) := by
  decide

theorem getElem_low : ∀ {k : Nat} (hk : k < 32), (0xFF#32)[k] = decide (k < 8) := by
  decide

/-- What has been shifted down does not reach the top byte. -/
theorem xor_shiftRight_and (t c : UInt32) : (t ^^^ (c >>> 8)) &&& 0xFF000000 = t &&& 0xFF000000 := by
  apply UInt32.toBitVec_inj.1
  ext k hk
  have hshift : (c >>> 8).toBitVec[k] = c.toBitVec.getLsbD (8 + k) := by
    rw [UInt32.toBitVec_shiftRight]
    exact BitVec.getElem_ushiftRight _ k 8 hk
  rw [UInt32.toBitVec_and, UInt32.toBitVec_xor, UInt32.toBitVec_and, BitVec.getElem_and, BitVec.getElem_and,
    BitVec.getElem_xor, hshift]
  change ((_ ^^ _) && (0xFF000000#32)[k]) = (_ && (0xFF000000#32)[k])
  rw [getElem_top hk]
  by_cases h : 24 ≤ k
  · rw [BitVec.getLsbD_of_ge _ _ (by omega), Bool.xor_false]
  · rw [decide_eq_false h, Bool.and_false, Bool.and_false]

theorem xor_and_low (c : UInt32) (b : UInt8) : (c ^^^ b.toUInt32) &&& 0xFF = (c &&& 0xFF) ^^^ b.toUInt32 := by
  apply UInt32.toBitVec_inj.1
  ext k hk
  have hbyte : b.toUInt32.toBitVec[k] = b.toBitVec.getLsbD k := by
    simp only [UInt8.toBitVec_toUInt32, BitVec.getElem_setWidth]
  rw [UInt32.toBitVec_and, UInt32.toBitVec_xor, UInt32.toBitVec_xor, UInt32.toBitVec_and, BitVec.getElem_and,
    BitVec.getElem_xor, BitVec.getElem_xor, BitVec.getElem_and, hbyte]
  change ((_ ^^ _) && (0xFF#32)[k]) = ((_ && (0xFF#32)[k]) ^^ _)
  rw [getElem_low hk]
  by_cases h : k < 8
  · rw [decide_eq_true h, Bool.and_true, Bool.and_true]
  · rw [decide_eq_false h, BitVec.getLsbD_of_ge _ _ (by omega), Bool.and_false, Bool.and_false, Bool.xor_false]

theorem eq_of_parts {c c' : UInt32} (hlow : c &&& 0xFF = c' &&& 0xFF) (hhigh : c >>> 8 = c' >>> 8) : c = c' := by
  have h₁ := congrArg UInt32.toNat hlow
  have h₂ := congrArg UInt32.toNat hhigh
  rw [UInt32.toNat_and, UInt32.toNat_and] at h₁
  change c.toNat &&& (2 ^ 8 - 1) = c'.toNat &&& (2 ^ 8 - 1) at h₁
  rw [Nat.and_two_pow_sub_one_eq_mod, Nat.and_two_pow_sub_one_eq_mod] at h₁
  rw [UInt32.toNat_shiftRight, UInt32.toNat_shiftRight] at h₂
  change c.toNat >>> 8 = c'.toNat >>> 8 at h₂
  rw [Nat.shiftRight_eq_div_pow, Nat.shiftRight_eq_div_pow] at h₂
  exact UInt32.toNat_inj.1 (by omega)
theorem and_low_lt (c : UInt32) : (c &&& 0xFF).toNat < 256 := by
  rw [UInt32.toNat_and]
  exact Nat.lt_of_le_of_lt Nat.and_le_right (by decide)

/-- The top byte of a step tells the table entry, and the entry the rest of the remainder. -/
theorem crc32Step_eq {c c' : UInt32} {b b' : UInt8} (h : crc32Step c b = crc32Step c' b') :
    (c ^^^ b.toUInt32) &&& 0xFF = (c' ^^^ b'.toUInt32) &&& 0xFF ∧ c >>> 8 = c' >>> 8 := by
  have hindex : ∀ (c : UInt32) (b : UInt8), crc32Index (crc32Step c b) = (c ^^^ b.toUInt32) &&& 0xFF := by
    intro c b
    have htop : crc32Index (crc32Step c b) = crc32Index (crc32Tab ((c ^^^ b.toUInt32) &&& 0xFF)) := by
      unfold crc32Index crc32Step
      rw [xor_shiftRight_and]
    rw [htop, crc32Index_crc32Tab (and_low_lt _)]
  have hlow : (c ^^^ b.toUInt32) &&& 0xFF = (c' ^^^ b'.toUInt32) &&& 0xFF := by
    rw [← hindex, ← hindex, h]
  refine ⟨hlow, ?_⟩
  unfold crc32Step at h
  rw [hlow] at h
  exact (UInt32.xor_right_inj _).1 h

theorem crc32Step_inj_byte {c : UInt32} {b b' : UInt8} (h : crc32Step c b = crc32Step c b') : b = b' := by
  have hlow := (crc32Step_eq h).1
  rw [xor_and_low, xor_and_low] at hlow
  have hbyte := congrArg UInt32.toNat ((UInt32.xor_right_inj _).1 hlow)
  rw [UInt8.toNat_toUInt32, UInt8.toNat_toUInt32] at hbyte
  exact UInt8.toNat_inj.1 hbyte

theorem crc32Step_inj {c c' : UInt32} {b : UInt8} (h : crc32Step c b = crc32Step c' b) : c = c' := by
  obtain ⟨hlow, hhigh⟩ := crc32Step_eq h
  rw [xor_and_low, xor_and_low] at hlow
  exact eq_of_parts ((UInt32.xor_left_inj _).1 hlow) hhigh

theorem foldl_crc32Step_inj : ∀ (p : Bytes) {c c' : UInt32}, p.foldl crc32Step c = p.foldl crc32Step c' → c = c'
  | [], _, _, h => h
  | _ :: p, _, _, h => crc32Step_inj (foldl_crc32Step_inj p h)

/-- Byte strings that differ in one place have different checksums. -/
theorem crc32_ne {p q : Bytes} {b b' : UInt8} (hb : b ≠ b') : crc32 (p ++ b :: q) ≠ crc32 (p ++ b' :: q) := by
  intro h
  unfold crc32 at h
  rw [UInt32.xor_left_inj, List.foldl_append, List.foldl_append, List.foldl_cons, List.foldl_cons] at h
  exact hb (crc32Step_inj_byte (foldl_crc32Step_inj q h))

theorem eq_take_cons_drop {l : Bytes} {i : Nat} {b : UInt8} (h : l[i]? = some b) : l = l.take i ++ b :: l.drop (i + 1) := by
  obtain ⟨hi, rfl⟩ := List.getElem?_eq_some_iff.1 h
  rw [List.getElem_cons_drop, List.take_append_drop]

theorem crc32_ne_of_getElem?_ne {l l' : Bytes} {i : Nat} {b b' : UInt8} (hl : l[i]? = some b) (hl' : l'[i]? = some b')
    (hb : b ≠ b') (hrest : ∀ j, j ≠ i → l[j]? = l'[j]?) : crc32 l ≠ crc32 l' := by
  have htake : l.take i = l'.take i := by
    apply List.ext_getElem?
    intro j
    rw [List.getElem?_take, List.getElem?_take]
    split
    · exact hrest j (by omega)
    · rfl
  have hdrop : l.drop (i + 1) = l'.drop (i + 1) := by
    apply List.ext_getElem?
    intro j
    rw [List.getElem?_drop, List.getElem?_drop, hrest _ (by omega)]
  rw [eq_take_cons_drop hl, eq_take_cons_drop hl', htake, hdrop]
  exact crc32_ne hb

/-! ## Combination -/

/-- The loop of `multmodp`, from bit `k - 1` of `a` down. -/
def multmodpLoop (a : UInt32) : Nat → (b p : UInt32) → UInt32
  | 0, _, p => p
  | k + 1, b, p =>
    let m : UInt32 := 1 <<< UInt32.ofNat k
    let next := if b &&& 1 ≠ 0 then (b >>> 1) ^^^ crc32Poly else b >>> 1
    if a &&& m ≠ 0 then
      if a &&& (m - 1) = 0 then p ^^^ b else multmodpLoop a k next (p ^^^ b)
    else multmodpLoop a k next p

/-- `multmodp`; no caller passes zero, for which its loop has no end. -/
def multmodp (a b : UInt32) : UInt32 := multmodpLoop a 32 b 0

/-- The second loop of `x2nmodp`, over the bits of `n`. -/
def x2nmodpLoop : Nat → (n : Nat) → (p x : UInt32) → UInt32
  | 0, _, p, _ => p
  | k + 1, n, p, x =>
    if n = 0 then p
    else x2nmodpLoop k (n / 2) (if n % 2 = 1 then multmodp x p else p) (multmodp x x)

/-- `x2nmodp` with `k` = 3, as `crc32_combine` calls it. -/
def x2nmodp (n : Nat) : UInt32 :=
  let x : UInt32 := 0x40000000
  let x := multmodp x x
  let x := multmodp x x
  let x := multmodp x x
  x2nmodpLoop 64 n 0x80000000 x

def crc32Combine (crc1 crc2 : UInt32) (len2 : Nat) : UInt32 :=
  if len2 = 0 then crc1 else multmodp (x2nmodp len2) crc1 ^^^ crc2

example : crc32 [0x31, 0x32, 0x33, 0x34, 0x35, 0x36, 0x37, 0x38, 0x39] = 0xCBF43926 := by decide +kernel

example : crc32Combine (crc32 [0x31, 0x32, 0x33, 0x34]) (crc32 [0x35, 0x36, 0x37, 0x38, 0x39]) 5 = 0xCBF43926 := by
  decide +kernel

end MajorPrivacy.Volume

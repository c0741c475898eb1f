/-
The combination of checksums (crc32.c): advancing a remainder by zero bytes is multiplication by a power of
`x`, which is found by squaring. The loop of the multiplication ends where its first factor is not zero, and
no power of `x` is.
-/
import MajorPrivacy.Lib.ReflectedMul
import MajorPrivacy.Volume.Crc32
import Mathlib.Data.Nat.Bitwise

namespace MajorPrivacy.Volume

open LittleEndian ReflectedMul

/-- `crc32_tab`. -/
def crc32TabEntries : List UInt32 := [
  0x00000000, 0x77073096, 0xEE0E612C, 0x990951BA, 0x076DC419, 0x706AF48F, 0xE963A535, 0x9E6495A3,
  0x0EDB8832, 0x79DCB8A4, 0xE0D5E91E, 0x97D2D988, 0x09B64C2B, 0x7EB17CBD, 0xE7B82D07, 0x90BF1D91,
  0x1DB71064, 0x6AB020F2, 0xF3B97148, 0x84BE41DE, 0x1ADAD47D, 0x6DDDE4EB, 0xF4D4B551, 0x83D385C7,
  0x136C9856, 0x646BA8C0, 0xFD62F97A, 0x8A65C9EC, 0x14015C4F, 0x63066CD9, 0xFA0F3D63, 0x8D080DF5,
  0x3B6E20C8, 0x4C69105E, 0xD56041E4, 0xA2677172, 0x3C03E4D1, 0x4B04D447, 0xD20D85FD, 0xA50AB56B,
  0x35B5A8FA, 0x42B2986C, 0xDBBBC9D6, 0xACBCF940, 0x32D86CE3, 0x45DF5C75, 0xDCD60DCF, 0xABD13D59,
  0x26D930AC, 0x51DE003A, 0xC8D75180, 0xBFD06116, 0x21B4F4B5, 0x56B3C423, 0xCFBA9599, 0xB8BDA50F,
  0x2802B89E, 0x5F058808, 0xC60CD9B2, 0xB10BE924, 0x2F6F7C87, 0x58684C11, 0xC1611DAB, 0xB6662D3D,
  0x76DC4190, 0x01DB7106, 0x98D220BC, 0xEFD5102A, 0x71B18589, 0x06B6B51F, 0x9FBFE4A5, 0xE8B8D433,
  0x7807C9A2, 0x0F00F934, 0x9609A88E, 0xE10E9818, 0x7F6A0DBB, 0x086D3D2D, 0x91646C97, 0xE6635C01,
  0x6B6B51F4, 0x1C6C6162, 0x856530D8, 0xF262004E, 0x6C0695ED, 0x1B01A57B, 0x8208F4C1, 0xF50FC457,
  0x65B0D9C6, 0x12B7E950, 0x8BBEB8EA, 0xFCB9887C, 0x62DD1DDF, 0x15DA2D49, 0x8CD37CF3, 0xFBD44C65,
  0x4DB26158, 0x3AB551CE, 0xA3BC0074, 0xD4BB30E2, 0x4ADFA541, 0x3DD895D7, 0xA4D1C46D, 0xD3D6F4FB,
  0x4369E96A, 0x346ED9FC, 0xAD678846, 0xDA60B8D0, 0x44042D73, 0x33031DE5, 0xAA0A4C5F, 0xDD0D7CC9,
  0x5005713C, 0x270241AA, 0xBE0B1010, 0xC90C2086, 0x5768B525, 0x206F85B3, 0xB966D409, 0xCE61E49F,
  0x5EDEF90E, 0x29D9C998, 0xB0D09822, 0xC7D7A8B4, 0x59B33D17, 0x2EB40D81, 0xB7BD5C3B, 0xC0BA6CAD,
  0xEDB88320, 0x9ABFB3B6, 0x03B6E20C, 0x74B1D29A, 0xEAD54739, 0x9DD277AF, 0x04DB2615, 0x73DC1683,
  0xE3630B12, 0x94643B84, 0x0D6D6A3E, 0x7A6A5AA8, 0xE40ECF0B, 0x9309FF9D, 0x0A00AE27, 0x7D079EB1,
  0xF00F9344, 0x8708A3D2, 0x1E01F268, 0x6906C2FE, 0xF762575D, 0x806567CB, 0x196C3671, 0x6E6B06E7,
  0xFED41B76, 0x89D32BE0, 0x10DA7A5A, 0x67DD4ACC, 0xF9B9DF6F, 0x8EBEEFF9, 0x17B7BE43, 0x60B08ED5,
  0xD6D6A3E8, 0xA1D1937E, 0x38D8C2C4, 0x4FDFF252, 0xD1BB67F1, 0xA6BC5767, 0x3FB506DD, 0x48B2364B,
  0xD80D2BDA, 0xAF0A1B4C, 0x36034AF6, 0x41047A60, 0xDF60EFC3, 0xA867DF55, 0x316E8EEF, 0x4669BE79,
  0xCB61B38C, 0xBC66831A, 0x256FD2A0, 0x5268E236, 0xCC0C7795, 0xBB0B4703, 0x220216B9, 0x5505262F,
  0xC5BA3BBE, 0xB2BD0B28, 0x2BB45A92, 0x5CB36A04, 0xC2D7FFA7, 0xB5D0CF31, 0x2CD99E8B, 0x5BDEAE1D,
  0x9B64C2B0, 0xEC63F226, 0x756AA39C, 0x026D930A, 0x9C0906A9, 0xEB0E363F, 0x72076785, 0x05005713,
  0x95BF4A82, 0xE2B87A14, 0x7BB12BAE, 0x0CB61B38, 0x92D28E9B, 0xE5D5BE0D, 0x7CDCEFB7, 0x0BDBDF21,
  0x86D3D2D4, 0xF1D4E242, 0x68DDB3F8, 0x1FDA836E, 0x81BE16CD, 0xF6B9265B, 0x6FB077E1, 0x18B74777,
  0x88085AE6, 0xFF0F6A70, 0x66063BCA, 0x11010B5C, 0x8F659EFF, 0xF862AE69, 0x616BFFD3, 0x166CCF45,
  0xA00AE278, 0xD70DD2EE, 0x4E048354, 0x3903B3C2, 0xA7672661, 0xD06016F7, 0x4969474D, 0x3E6E77DB,
  0xAED16A4A, 0xD9D65ADC, 0x40DF0B66, 0x37D83BF0, 0xA9BCAE53, 0xDEBB9EC5, 0x47B2CF7F, 0x30B5FFE9,
  0xBDBDF21C, 0xCABAC28A, 0x53B39330, 0x24B4A3A6, 0xBAD03605, 0xCDD70693, 0x54DE5729, 0x23D967BF,
  0xB3667A2E, 0xC4614AB8, 0x5D681B02, 0x2A6F2B94, 0xB40BBE37, 0xC30C8EA1, 0x5A05DF1B, 0x2D02EF8D]

theorem crc32TabEntries_eq : crc32TabEntries = (List.range 256).map fun i => crc32Tab (UInt32.ofNat i) := by
  decide +kernel

/-! ## The loops as they run -/

/-- The loop of `multmodp`, `none` while it has not come to its end. -/
def multmodpRun (a : UInt32) : (passes : Nat) → (b m p : UInt32) → Option UInt32
  | 0, _, _, _ => none
  | passes + 1, b, m, p =>
    let next := if b &&& 1 ≠ 0 then (b >>> 1) ^^^ 0xEDB88320 else b >>> 1
    if a &&& m ≠ 0 then
      if a &&& (m - 1) = 0 then some (p ^^^ b) else multmodpRun a passes next (m >>> 1) (p ^^^ b)
    else multmodpRun a passes next (m >>> 1) p

/-- The first loop of `x2nmodp`. -/
def squareRun (passes : Nat) : (k : Nat) → UInt32 → Option UInt32
  | 0, x => some x
  | k + 1, x => (multmodpRun x passes x 0x80000000 0).bind (squareRun passes k)

/-- The second loop of `x2nmodp`. -/
def x2nmodpRunLoop (passes : Nat) : (fuel : Nat) → (n : UInt64) → (p x : UInt32) → Option UInt32
  | 0, _, _, _ => none
  | fuel + 1, n, p, x =>
    if n = 0 then some p
    else
      (if n &&& 1 ≠ 0 then multmodpRun x passes p 0x80000000 0 else some p).bind fun p =>
        (multmodpRun x passes x 0x80000000 0).bind fun x => x2nmodpRunLoop passes fuel (n >>> 1) p x

def x2nmodpRun (passes : Nat) (n : UInt64) (k : Nat) : Option UInt32 :=
  (squareRun passes k 0x40000000).bind fun x => x2nmodpRunLoop passes passes n 0x80000000 x

/-- `crc32_combine`, every loop with so many passes. -/
def crc32CombineRun (passes : Nat) (crc1 crc2 len2 : UInt32) : Option UInt32 :=
  if len2 = 0 then some crc1
  else
    (x2nmodpRun passes len2.toUInt64 3).bind fun x => (multmodpRun x passes crc1 0x80000000 0).map (· ^^^ crc2)

/-! ## Words as polynomials -/

/-- The product of two words, and the powers of `x`. -/
def mulWord (a b : UInt32) : UInt32 := .ofBitVec (mul crc32Poly.toBitVec a.toBitVec b.toBitVec)

def xWord (n : Nat) : UInt32 := .ofBitVec (xPow crc32Poly.toBitVec n)

theorem mulWord_xWord (m n : Nat) : mulWord (xWord m) (xWord n) = xWord (m + n) :=
  congrArg UInt32.ofBitVec (xPow_mul_xPow _ (by decide) m n)

theorem xWord_ne_zero (n : Nat) : xWord n ≠ 0 := fun h =>
  xPow_ne_zero crc32Poly.toBitVec (by decide) (by decide) n (congrArg UInt32.toBitVec h)

theorem testBit_eq (a : UInt32) (k : Nat) : a.toBitVec.getLsbD k = a.toNat.testBit k := rfl

theorem and_mask_ne_zero {a m : UInt32} {k : Nat} (hm : m.toNat = 2 ^ k) : a &&& m ≠ 0 ↔ a.toBitVec.getLsbD k = true := by
  rw [testBit_eq, ← UInt32.toNat_inj.ne, UInt32.toNat_and, hm, Nat.and_two_pow, UInt32.toNat_zero]
  have := Nat.two_pow_pos k
  cases a.toNat.testBit k
  · simp
  · simp

theorem and_below_eq_zero {a m : UInt32} {k : Nat} (hm : m.toNat = 2 ^ k) :
    a &&& (m - 1) = 0 ↔ ∀ j < k, a.toBitVec.getLsbD j = false := by
  have hpos := Nat.two_pow_pos k
  have hsub : (m - 1).toNat = 2 ^ k - 1 := by
    rw [UInt32.toNat_sub_of_le _ _ (UInt32.le_iff_toNat_le.2 (by rw [hm]; exact hpos)), hm]
    rfl
  rw [← UInt32.toNat_inj, UInt32.toNat_and, hsub, Nat.and_two_pow_sub_one_eq_mod, UInt32.toNat_zero]
  constructor
  · intro h j hj
    have hbit : (a.toNat % 2 ^ k).testBit j = (decide (j < k) && a.toNat.testBit j) := Nat.testBit_mod_two_pow _ _ _
    rw [h, Nat.zero_testBit, decide_eq_true hj, Bool.true_and] at hbit
    exact hbit.symm
  · intro h
    apply Nat.eq_of_testBit_eq
    intro j
    rw [Nat.testBit_mod_two_pow, Nat.zero_testBit]
    by_cases hj : j < k
    · rw [← testBit_eq, h j hj, Bool.and_false]
    · rw [decide_eq_false hj, Bool.false_and]

theorem and_one_eq_one {c : UInt32} : c &&& 1 = 1 ↔ c.toBitVec.getLsbD 0 = true := by
  rw [← and_mask_ne_zero (show (1 : UInt32).toNat = 2 ^ 0 from rfl), ← UInt32.toNat_inj, ← UInt32.toNat_inj.ne,
    UInt32.toNat_and, UInt32.toNat_one, UInt32.toNat_zero, Nat.and_one_is_mod]
  omega

theorem crc32Bit_toBitVec (c : UInt32) : (crc32Bit c).toBitVec = mulX crc32Poly.toBitVec c.toBitVec := by
  unfold crc32Bit mulX
  by_cases h : c &&& 1 = 1
  · rw [if_pos h, if_pos (and_one_eq_one.1 h)]
    rfl
  · rw [if_neg h, if_neg fun hbit => h (and_one_eq_one.2 hbit)]
    rfl

/-- The next word of the loop of `multmodp`. -/
theorem next_toBitVec (b : UInt32) :
    (if b &&& 1 ≠ 0 then (b >>> 1) ^^^ crc32Poly else b >>> 1).toBitVec = mulX crc32Poly.toBitVec b.toBitVec := by
  have hbit := and_mask_ne_zero (a := b) (show (1 : UInt32).toNat = 2 ^ 0 from rfl)
  rw [← crc32Bit_toBitVec, crc32Bit]
  by_cases h : b &&& 1 ≠ 0
  · rw [if_pos h, if_pos (and_one_eq_one.2 (hbit.1 h))]
  · rw [if_neg h, if_neg fun hone => h (hbit.2 (and_one_eq_one.1 hone))]

/-! ## The multiplication -/

/-- From a bit on that has a one at it or below the loop comes to its end. -/
theorem multmodpRun_spec (a : UInt32) : ∀ (k passes : Nat) (b m p : UInt32), m.toNat = 2 ^ k →
    (∃ j ≤ k, a.toBitVec.getLsbD j = true) → k < passes →
      multmodpRun a passes b m p = some (p ^^^ .ofBitVec (mulLow crc32Poly.toBitVec a.toBitVec (k + 1) b.toBitVec))
  | k, 0, _, _, _, _, _, hp => absurd hp (Nat.not_lt_zero k)
  | k, passes + 1, b, m, p, hm, hone, hp => by
    have hstep : ∀ (k' : Nat), k = k' + 1 → (m >>> 1).toNat = 2 ^ k' := by
      rintro k' rfl
      rw [UInt32.toNat_shiftRight, hm]
      change 2 ^ (k' + 1) >>> 1 = 2 ^ k'
      rw [Nat.shiftRight_eq_div_pow, Nat.pow_succ, Nat.pow_one, Nat.mul_div_cancel _ (by decide)]
    have hlower : (¬ ∀ j < k, a.toBitVec.getLsbD j = false) → ∃ k', k = k' + 1 ∧ ∃ j ≤ k', a.toBitVec.getLsbD j = true := by
      intro h
      push Not at h
      obtain ⟨j, hj, hbit⟩ := h
      obtain ⟨k', rfl⟩ := Nat.exists_eq_add_one_of_ne_zero (Nat.ne_of_gt (Nat.zero_lt_of_lt hj))
      exact ⟨k', rfl, j, Nat.le_of_lt_succ hj, Bool.eq_true_of_not_eq_false hbit⟩
    have hsplit : ∀ k', mulLow crc32Poly.toBitVec a.toBitVec (k' + 1 + 1) b.toBitVec =
        (if a.toBitVec.getLsbD (k' + 1) then b.toBitVec else 0#32) ^^^
          mulLow crc32Poly.toBitVec a.toBitVec (k' + 1) (mulX crc32Poly.toBitVec b.toBitVec) := fun _ => rfl
    have hnext : (if b &&& 1 ≠ 0 then (b >>> 1) ^^^ 0xEDB88320 else b >>> 1).toBitVec = mulX crc32Poly.toBitVec b.toBitVec :=
      next_toBitVec b
    unfold multmodpRun
    simp only
    generalize (if b &&& 1 ≠ 0 then (b >>> 1) ^^^ 0xEDB88320 else b >>> 1) = next at hnext ⊢
    by_cases hbit : a.toBitVec.getLsbD k = true
    · rw [if_pos ((and_mask_ne_zero hm).2 hbit)]
      by_cases hlow : ∀ j < k, a.toBitVec.getLsbD j = false
      · rw [if_pos ((and_below_eq_zero hm).2 hlow), mulLow, hbit, mulLow_of_low _ _ _ _ hlow]
        exact congrArg (fun x : BitVec 32 => some (p ^^^ UInt32.ofBitVec x)) BitVec.xor_zero.symm
      · obtain ⟨k', rfl, hone'⟩ := hlower hlow
        rw [if_neg fun h => hlow ((and_below_eq_zero hm).1 h),
          multmodpRun_spec a k' passes next (m >>> 1) (p ^^^ b) (hstep k' rfl) hone' (by omega), hnext, hsplit, hbit,
          UInt32.xor_assoc]
        rfl
    · have hfalse : a.toBitVec.getLsbD k = false := Bool.eq_false_of_not_eq_true hbit
      obtain ⟨j, hj, hone⟩ := hone
      have hlt : j < k := Nat.lt_of_le_of_ne hj fun h => hbit (h ▸ hone)
      obtain ⟨k', rfl, hone'⟩ := hlower fun h => Bool.noConfusion ((h j hlt).symm.trans hone)
      rw [if_neg fun h => hbit ((and_mask_ne_zero hm).1 h),
        multmodpRun_spec a k' passes next (m >>> 1) p (hstep k' rfl) hone' (by omega), hnext, hsplit, hfalse]
      exact congrArg (fun x : BitVec 32 => some (p ^^^ UInt32.ofBitVec x)) BitVec.zero_xor.symm

theorem exists_bit {a : UInt32} (ha : a ≠ 0) : ∃ j ≤ 31, a.toBitVec.getLsbD j = true := by
  by_contra h
  push Not at h
  apply ha
  apply UInt32.toBitVec_inj.1
  apply BitVec.eq_of_getLsbD_eq
  intro i hi
  exact (Bool.eq_false_of_not_eq_true (h i (by omega))).trans BitVec.getLsbD_zero.symm

theorem multmodpRun_eq {a : UInt32} (ha : a ≠ 0) {passes : Nat} (hp : 32 ≤ passes) (b : UInt32) :
    multmodpRun a passes b 0x80000000 0 = some (mulWord a b) := by
  rw [multmodpRun_spec a 31 passes b 0x80000000 0 rfl (exists_bit ha) hp, UInt32.zero_xor]
  rfl

/-! ## The power -/

theorem squareRun_eq {passes : Nat} (hp : 32 ≤ passes) : ∀ (k e : Nat), squareRun passes k (xWord e) = some (xWord (e * 2 ^ k))
  | 0, e => by rw [squareRun, Nat.pow_zero, Nat.mul_one]
  | k + 1, e => by
    rw [squareRun, multmodpRun_eq (xWord_ne_zero e) hp, mulWord_xWord, Option.bind_some, squareRun_eq hp k, ← Nat.two_mul,
      Nat.pow_succ']
    congr 2
    rw [Nat.mul_comm 2 e, Nat.mul_assoc]

theorem sum_halves (f e n : Nat) : f + e * (n % 2) + (e + e) * (n / 2) = f + e * n := by
  calc f + e * (n % 2) + (e + e) * (n / 2) = f + e * (2 * (n / 2) + n % 2) := by
        rw [Nat.mul_add, ← Nat.two_mul, Nat.mul_comm 2 e, Nat.mul_assoc, Nat.add_assoc, Nat.add_comm (e * (n % 2))]
    _ = f + e * n := by rw [Nat.div_add_mod]

theorem x2nmodpRunLoop_eq {passes : Nat} (hp : 32 ≤ passes) : ∀ (fuel : Nat) (n : UInt64) (e f : Nat), n.toNat < 2 ^ fuel →
    x2nmodpRunLoop passes (fuel + 1) n (xWord f) (xWord e) = some (xWord (f + e * n.toNat))
  | fuel, n, e, f, hn => by
    unfold x2nmodpRunLoop
    by_cases h0 : n = 0
    · rw [if_pos h0, h0, UInt64.toNat_zero, Nat.mul_zero, Nat.add_zero]
    · have hpos : 0 < n.toNat := Nat.pos_of_ne_zero fun h => h0 (UInt64.toNat_inj.1 h)
      obtain _ | fuel := fuel
      · omega
      have hhalf : (n >>> 1).toNat = n.toNat / 2 := by
        rw [UInt64.toNat_shiftRight]
        exact Nat.shiftRight_eq_div_pow _ 1
      have hodd : n &&& 1 ≠ 0 ↔ n.toNat % 2 = 1 := by
        rw [← UInt64.toNat_inj.ne, UInt64.toNat_and, UInt64.toNat_one, UInt64.toNat_zero, Nat.and_one_is_mod]
        omega
      have hsmall : (n >>> 1).toNat < 2 ^ fuel := by
        rw [hhalf, Nat.div_lt_iff_lt_mul (by decide), ← Nat.pow_succ]
        exact hn
      have hfirst : (if n &&& 1 ≠ 0 then multmodpRun (xWord e) passes (xWord f) 0x80000000 0 else some (xWord f)) =
          some (xWord (f + e * (n.toNat % 2))) := by
        by_cases h : n &&& 1 ≠ 0
        · rw [if_pos h, multmodpRun_eq (xWord_ne_zero e) hp, mulWord_xWord, hodd.1 h, Nat.mul_one, Nat.add_comm]
        · have heven : n.toNat % 2 = 0 := (Nat.mod_two_eq_zero_or_one _).resolve_right (mt hodd.2 h)
          rw [if_neg h, heven, Nat.mul_zero, Nat.add_zero]
      rw [if_neg h0, hfirst, Option.bind_some, multmodpRun_eq (xWord_ne_zero e) hp, mulWord_xWord, Option.bind_some,
        x2nmodpRunLoop_eq hp fuel (n >>> 1) (e + e) _ hsmall, hhalf]
      rw [sum_halves]

theorem xWord_one : (0x40000000 : UInt32) = xWord 1 := by
  decide

theorem x2nmodpRun_eq {passes : Nat} (hp : 65 ≤ passes) (n : UInt64) (k : Nat) :
    x2nmodpRun passes n k = some (xWord (2 ^ k * n.toNat)) := by
  obtain ⟨fuel, rfl⟩ := Nat.exists_eq_add_one_of_ne_zero (show passes ≠ 0 by omega)
  have hn : n.toNat < 2 ^ fuel := Nat.lt_of_lt_of_le n.toNat_lt (Nat.pow_le_pow_right (by decide) (by omega))
  have hone : (0x80000000 : UInt32) = xWord 0 := rfl
  rw [x2nmodpRun, xWord_one, squareRun_eq (by omega), Option.bind_some, Nat.one_mul, hone,
    x2nmodpRunLoop_eq (by omega) fuel n _ _ hn, Nat.zero_add]

theorem crc32CombineRun_eq {passes : Nat} (hp : 65 ≤ passes) (crc1 crc2 len2 : UInt32) :
    crc32CombineRun passes crc1 crc2 len2 =
      some (if len2 = 0 then crc1 else mulWord (xWord (8 * len2.toNat)) crc1 ^^^ crc2) := by
  unfold crc32CombineRun
  by_cases h : len2 = 0
  · rw [if_pos h, if_pos h]
  · rw [if_neg h, if_neg h, x2nmodpRun_eq hp, Option.bind_some, multmodpRun_eq (xWord_ne_zero _) (by omega),
      UInt32.toNat_toUInt64]
    rfl

/-! ## The checksum a byte at a time -/

theorem getElem_high : ∀ {k : Nat} (hk : k < 32), (0xFFFFFF00#32)[k] = decide (8 ≤ k) := by
  decide

/-- The part of a remainder that a byte does not reach. -/
theorem xor_byte_eq (c : UInt32) (b : UInt8) :
    c ^^^ b.toUInt32 = ((c ^^^ b.toUInt32) &&& 0xFF) ^^^ (c &&& 0xFFFFFF00) := by
  apply UInt32.toBitVec_inj.1
  ext k hk
  have hbyte : b.toUInt32.toBitVec[k] = b.toBitVec.getLsbD k := by
    simp only [UInt8.toBitVec_toUInt32, BitVec.getElem_setWidth]
  rw [UInt32.toBitVec_xor, UInt32.toBitVec_xor, UInt32.toBitVec_and, UInt32.toBitVec_and, UInt32.toBitVec_xor,
    BitVec.getElem_xor, BitVec.getElem_xor, BitVec.getElem_and, BitVec.getElem_and, BitVec.getElem_xor, hbyte]
  change _ = (((_ ^^ _) && (0xFF#32)[k]) ^^ (_ && (0xFFFFFF00#32)[k]))
  rw [getElem_low hk, getElem_high hk]
  by_cases h : k < 8
  · rw [decide_eq_true h, decide_eq_false (Nat.not_le.2 h), Bool.and_true, Bool.and_false, Bool.xor_false]
  · rw [decide_eq_false h, decide_eq_true (Nat.not_lt.1 h), BitVec.getLsbD_of_ge _ _ (by omega), Bool.and_false, Bool.and_true,
      Bool.xor_false, Bool.false_xor]

theorem and_high_toBitVec (c : UInt32) :
    (mulX crc32Poly.toBitVec)^[8] (c &&& 0xFFFFFF00).toBitVec = (c >>> 8).toBitVec := by
  have hbit : ∀ (k : Nat) (hk : k < 32), (c &&& 0xFFFFFF00).toBitVec[k] = (c.toBitVec[k] && decide (8 ≤ k)) := by
    intro k hk
    rw [UInt32.toBitVec_and, BitVec.getElem_and]
    change (_ && (0xFFFFFF00#32)[k]) = _
    rw [getElem_high hk]
  have hlow : ∀ j < 8, (c &&& 0xFFFFFF00).toBitVec.getLsbD j = false := by
    intro j hj
    rw [BitVec.getLsbD_eq_getElem (by omega), hbit j (by omega), decide_eq_false (by omega), Bool.and_false]
  rw [iterate_of_low _ hlow]
  apply BitVec.eq_of_getLsbD_eq
  intro i hi
  change _ = (c.toBitVec >>> 8).getLsbD i
  rw [BitVec.getLsbD_ushiftRight, BitVec.getLsbD_ushiftRight]
  by_cases h : 8 + i < 32
  · rw [BitVec.getLsbD_eq_getElem h, BitVec.getLsbD_eq_getElem h, hbit _ h, decide_eq_true (by omega), Bool.and_true]
  · rw [BitVec.getLsbD_of_ge _ _ (by omega), BitVec.getLsbD_of_ge _ _ (by omega)]

/-- A byte is eight turns of the register, its bits added in front. -/
theorem crc32Step_toBitVec (c : UInt32) (b : UInt8) :
    (crc32Step c b).toBitVec = (mulX crc32Poly.toBitVec)^[8] (c ^^^ b.toUInt32).toBitVec := by
  have htab : ∀ i, (crc32Tab i).toBitVec = (mulX crc32Poly.toBitVec)^[8] i.toBitVec := by
    intro i
    unfold crc32Tab
    simp only [crc32Bit_toBitVec]
    rfl
  rw [xor_byte_eq, UInt32.toBitVec_xor, iterate_xor, and_high_toBitVec, ← htab]
  rfl

/-- What is added to the remainder is advanced with it. -/
theorem foldl_xor : ∀ (p : Bytes) (c d : UInt32),
    (p.foldl crc32Step (c ^^^ d)).toBitVec =
      (p.foldl crc32Step c).toBitVec ^^^ (mulX crc32Poly.toBitVec)^[8 * p.length] d.toBitVec
  | [], _, _ => rfl
  | b :: p, c, d => by
    have hstep : crc32Step (c ^^^ d) b = crc32Step c b ^^^ .ofBitVec ((mulX crc32Poly.toBitVec)^[8] d.toBitVec) := by
      apply UInt32.toBitVec_inj.1
      rw [UInt32.toBitVec_xor, crc32Step_toBitVec, crc32Step_toBitVec, ← iterate_xor, ← UInt32.toBitVec_xor, UInt32.xor_assoc,
        UInt32.xor_comm d, ← UInt32.xor_assoc]
    rw [List.foldl_cons, hstep, foldl_xor p, List.foldl_cons, List.length_cons, Nat.mul_add, Function.iterate_add_apply]

/-- The checksum of two strings one after the other. -/
theorem crc32_append (a b : Bytes) : crc32 (a ++ b) = mulWord (xWord (8 * b.length)) (crc32 a) ^^^ crc32 b := by
  have hstart : a.foldl crc32Step 0xFFFFFFFF = 0xFFFFFFFF ^^^ crc32 a := by
    unfold crc32
    rw [UInt32.xor_comm, UInt32.xor_assoc, UInt32.xor_self, UInt32.xor_zero]
  have hmul : mulWord (xWord (8 * b.length)) (crc32 a) = .ofBitVec ((mulX crc32Poly.toBitVec)^[8 * b.length] (crc32 a).toBitVec) :=
    congrArg UInt32.ofBitVec (xPow_mul _ (by decide) _ _)
  have hfold : b.foldl crc32Step (0xFFFFFFFF ^^^ crc32 a) =
      b.foldl crc32Step 0xFFFFFFFF ^^^ mulWord (xWord (8 * b.length)) (crc32 a) := by
    rw [hmul]
    exact UInt32.toBitVec_inj.1 (foldl_xor b _ _)
  calc crc32 (a ++ b) = b.foldl crc32Step (a.foldl crc32Step 0xFFFFFFFF) ^^^ 0xFFFFFFFF := by rw [crc32, List.foldl_append]
    _ = mulWord (xWord (8 * b.length)) (crc32 a) ^^^ (b.foldl crc32Step 0xFFFFFFFF ^^^ 0xFFFFFFFF) := by
        rw [hstart, hfold, UInt32.xor_comm (b.foldl _ _), UInt32.xor_assoc]
    _ = mulWord (xWord (8 * b.length)) (crc32 a) ^^^ crc32 b := rfl

theorem crc32_append_eq (a b : Bytes) {len2 : UInt32} (hlen : b.length = len2.toNat) :
    (if len2 = 0 then crc32 a else mulWord (xWord (8 * len2.toNat)) (crc32 a) ^^^ crc32 b) = crc32 (a ++ b) := by
  by_cases h : len2 = 0
  · rw [if_pos h]
    rw [h, UInt32.toNat_zero] at hlen
    rw [List.length_eq_zero_iff.1 hlen, List.append_nil]
  · rw [if_neg h, ← hlen, crc32_append]

/-- Whatever its arguments `crc32_combine` comes to its end, and for the checksums of two strings and the
length of the second it is the checksum of both. -/
theorem crc32Combine_ends {passes : Nat} (hp : 65 ≤ passes) :
    (∀ crc1 crc2 len2, (crc32CombineRun passes crc1 crc2 len2).isSome) ∧
      ∀ (a b : Bytes) (len2 : UInt32), b.length = len2.toNat →
        crc32CombineRun passes (crc32 a) (crc32 b) len2 = some (crc32 (a ++ b)) := by
  constructor
  · intro crc1 crc2 len2
    rw [crc32CombineRun_eq hp]
    rfl
  · intro a b len2 hlen
    rw [crc32CombineRun_eq hp, crc32_append_eq a b hlen]

theorem crc32Combine_ends_digits :
    crc32CombineRun 65 (crc32 [0x31, 0x32, 0x33, 0x34]) (crc32 [0x35, 0x36, 0x37, 0x38, 0x39]) 5 =
      some (crc32 [0x31, 0x32, 0x33, 0x34, 0x35, 0x36, 0x37, 0x38, 0x39]) :=
  (crc32Combine_ends (by decide)).2 [0x31, 0x32, 0x33, 0x34] [0x35, 0x36, 0x37, 0x38, 0x39] 5 rfl

/-! ## The checksums of the key slots -/

theorem shiftLeft_toNat : ∀ {k : Nat}, k < 32 → ((1 : UInt32) <<< UInt32.ofNat k).toNat = 2 ^ k := by
  decide

theorem multmodpLoop_eq (a : UInt32) : ∀ (k : Nat) (b p : UInt32), k ≤ 32 →
    multmodpLoop a k b p = p ^^^ .ofBitVec (mulLow crc32Poly.toBitVec a.toBitVec k b.toBitVec)
  | 0, _, _, _ => UInt32.xor_zero.symm
  | k + 1, b, p, hk => by
    have hm := shiftLeft_toNat (show k < 32 from hk)
    have hsplit : mulLow crc32Poly.toBitVec a.toBitVec (k + 1) b.toBitVec =
        (if a.toBitVec.getLsbD k then b.toBitVec else 0#32) ^^^
          mulLow crc32Poly.toBitVec a.toBitVec k (mulX crc32Poly.toBitVec b.toBitVec) := rfl
    rw [multmodpLoop, hsplit, multmodpLoop_eq a k _ _ (by omega), multmodpLoop_eq a k _ _ (by omega), next_toBitVec]
    by_cases hbit : a.toBitVec.getLsbD k = true
    · rw [if_pos ((and_mask_ne_zero hm).2 hbit), if_pos hbit]
      by_cases hlow : ∀ j < k, a.toBitVec.getLsbD j = false
      · rw [if_pos ((and_below_eq_zero hm).2 hlow), mulLow_of_low _ _ _ _ hlow]
        exact congrArg (fun x : BitVec 32 => p ^^^ UInt32.ofBitVec x) BitVec.xor_zero.symm
      · rw [if_neg fun h => hlow ((and_below_eq_zero hm).1 h), UInt32.xor_assoc]
        rfl
    · rw [if_neg fun h => hbit ((and_mask_ne_zero hm).1 h), if_neg hbit]
      exact congrArg (fun x : BitVec 32 => p ^^^ UInt32.ofBitVec x) BitVec.zero_xor.symm

theorem multmodp_eq (a b : UInt32) : multmodp a b = mulWord a b := by
  rw [multmodp, multmodpLoop_eq a 32 b 0 (Nat.le_refl _), UInt32.zero_xor]
  rfl

theorem x2nmodpLoop_eq : ∀ (k n e f : Nat), n < 2 ^ k → x2nmodpLoop k n (xWord f) (xWord e) = xWord (f + e * n)
  | 0, n, e, f, hn => by
    rw [x2nmodpLoop, show n = 0 by omega, Nat.mul_zero, Nat.add_zero]
  | k + 1, n, e, f, hn => by
    rw [Nat.pow_succ] at hn
    rw [x2nmodpLoop]
    by_cases h0 : n = 0
    · rw [if_pos h0, h0, Nat.mul_zero, Nat.add_zero]
    · have hfirst : (if n % 2 = 1 then multmodp (xWord e) (xWord f) else xWord f) = xWord (f + e * (n % 2)) := by
        obtain h | h := Nat.mod_two_eq_zero_or_one n
        · rw [h, Nat.mul_zero, Nat.add_zero]
          rfl
        · rw [h, multmodp_eq, mulWord_xWord, Nat.mul_one, Nat.add_comm]
          rfl
      rw [if_neg h0, hfirst, multmodp_eq, mulWord_xWord, x2nmodpLoop_eq k _ _ _ (Nat.div_lt_of_lt_mul (Nat.mul_comm _ 2 ▸ hn)),
        sum_halves]

/-- What `cp_set_slot` writes, and `cp_get_slot_info` compares, is the checksum of the two parts together. -/
theorem crc32Combine_crc32 (a b : Bytes) (hb : b.length < 2 ^ 64) : crc32Combine (crc32 a) (crc32 b) b.length = crc32 (a ++ b) := by
  have hpow : x2nmodp b.length = xWord (8 * b.length) := by
    rw [x2nmodp, xWord_one]
    simp only [multmodp_eq, mulWord_xWord]
    exact (x2nmodpLoop_eq 64 b.length _ 0 hb).trans (congrArg xWord (Nat.zero_add _))
  unfold crc32Combine
  by_cases h : b.length = 0
  · rw [if_pos h, List.length_eq_zero_iff.1 h, List.append_nil]
  · rw [if_neg h, hpow, multmodp_eq, crc32_append]

end MajorPrivacy.Volume

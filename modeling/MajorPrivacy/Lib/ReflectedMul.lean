/-
Polynomials over two elements modulo one of degree `w`, in the reflected form: bit `i` of a word is the
coefficient of `x ^ (w - 1 - i)`, and addition is exclusive or. Multiplication is a commutative monoid, and
the powers of `x` are what a shift register does to a word.
-/
import Mathlib.Logic.Function.Iterate
import Mathlib.Data.Nat.Basic

namespace ReflectedMul

variable {w : Nat} (poly : BitVec w)

/-- Multiplication by `x`. -/
def mulX (c : BitVec w) : BitVec w := if c.getLsbD 0 then (c >>> 1) ^^^ poly else c >>> 1

/-- Multiplication by the part of `a` in its lowest `k` bits; `b` is what bit `k - 1` stands for. -/
def mulLow (a : BitVec w) : Nat → BitVec w → BitVec w
  | 0, _ => 0#w
  | k + 1, b => (if a.getLsbD k then b else 0#w) ^^^ mulLow a k (mulX poly b)

def mul (a b : BitVec w) : BitVec w := mulLow poly a w b

/-- The word for 1. -/
def one : BitVec w := BitVec.twoPow w (w - 1)

/-- The word for `x ^ n`. -/
def xPow (n : Nat) : BitVec w := (mulX poly)^[n] one

/-! ## Linearity -/

theorem xor_xor_xor_comm (a b c d : BitVec w) : (a ^^^ b) ^^^ (c ^^^ d) = (a ^^^ c) ^^^ (b ^^^ d) := by
  rw [BitVec.xor_assoc, ← BitVec.xor_assoc b, BitVec.xor_comm b, BitVec.xor_assoc c, ← BitVec.xor_assoc]

theorem xor_cancel_right (a b p : BitVec w) : (a ^^^ p) ^^^ (b ^^^ p) = a ^^^ b := by
  rw [xor_xor_xor_comm, BitVec.xor_self, BitVec.xor_zero]

theorem mulX_xor (b c : BitVec w) : mulX poly (b ^^^ c) = mulX poly b ^^^ mulX poly c := by
  unfold mulX
  rw [BitVec.getLsbD_xor, BitVec.ushiftRight_xor_distrib]
  cases b.getLsbD 0 <;> cases c.getLsbD 0
  · rfl
  · exact BitVec.xor_assoc _ _ _
  · exact (BitVec.xor_assoc _ _ _).trans ((congrArg _ (BitVec.xor_comm _ _)).trans (BitVec.xor_assoc _ _ _).symm)
  · exact (xor_cancel_right _ _ _).symm

theorem mulX_zero : mulX poly 0#w = 0#w := by
  unfold mulX
  rw [BitVec.getLsbD_zero, BitVec.zero_ushiftRight]
  rfl

/-- A word or nothing, as a bit has it. -/
theorem mulX_ite (p : Bool) (b : BitVec w) : mulX poly (if p then b else 0#w) = if p then mulX poly b else 0#w := by
  cases p
  · exact mulX_zero poly
  · rfl

theorem ite_xor (p : Bool) (b c : BitVec w) : (if p then b ^^^ c else 0#w) = (if p then b else 0#w) ^^^ if p then c else 0#w := by
  cases p
  · exact (BitVec.xor_zero).symm
  · rfl

theorem mulLow_xor (a : BitVec w) : ∀ (k : Nat) (b c : BitVec w),
    mulLow poly a k (b ^^^ c) = mulLow poly a k b ^^^ mulLow poly a k c
  | 0, _, _ => (BitVec.xor_zero).symm
  | k + 1, b, c => by
    rw [mulLow, mulLow, mulLow, mulX_xor, mulLow_xor a k, ite_xor, xor_xor_xor_comm]

theorem mulLow_zero (a : BitVec w) : ∀ k, mulLow poly a k 0#w = 0#w
  | 0 => rfl
  | k + 1 => by
    rw [mulLow, mulX_zero, mulLow_zero a k, ite_self, BitVec.xor_zero]

theorem mulLow_ite (a : BitVec w) (k : Nat) (p : Bool) (b : BitVec w) :
    mulLow poly a k (if p then b else 0#w) = if p then mulLow poly a k b else 0#w := by
  cases p
  · exact mulLow_zero poly a k
  · rfl

theorem xor_mulLow (a a' : BitVec w) : ∀ (k : Nat) (b : BitVec w),
    mulLow poly (a ^^^ a') k b = mulLow poly a k b ^^^ mulLow poly a' k b
  | 0, _ => (BitVec.xor_zero).symm
  | k + 1, b => by
    have hbit : (if (a ^^^ a').getLsbD k then b else 0#w) = (if a.getLsbD k then b else 0#w) ^^^ if a'.getLsbD k then b else 0#w := by
      rw [BitVec.getLsbD_xor]
      cases a.getLsbD k <;> cases a'.getLsbD k
      · exact (BitVec.xor_zero).symm
      · exact (BitVec.zero_xor).symm
      · exact (BitVec.xor_zero).symm
      · exact (BitVec.xor_self).symm
    rw [mulLow, mulLow, mulLow, xor_mulLow a a' k, hbit, xor_xor_xor_comm]

theorem mulLow_mulX (a : BitVec w) : ∀ (k : Nat) (b : BitVec w), mulLow poly a k (mulX poly b) = mulX poly (mulLow poly a k b)
  | 0, _ => (mulX_zero poly).symm
  | k + 1, b => by
    rw [mulLow, mulLow, mulX_xor, mulX_ite, mulLow_mulX a k]

/-- Two multiplications can be done in either order. -/
theorem mulLow_mulLow (a a' : BitVec w) (j : Nat) : ∀ (k : Nat) (b : BitVec w),
    mulLow poly a k (mulLow poly a' j b) = mulLow poly a' j (mulLow poly a k b)
  | 0, _ => (mulLow_zero poly a' j).symm
  | k + 1, b => by
    rw [mulLow, mulLow, mulLow_xor, mulLow_ite, ← mulLow_mulX, mulLow_mulLow a a' j k]

theorem mulLow_iterate (a : BitVec w) (k n : Nat) (b : BitVec w) :
    mulLow poly a k ((mulX poly)^[n] b) = (mulX poly)^[n] (mulLow poly a k b) := by
  induction n generalizing b with
  | zero => rfl
  | succ n ih => rw [Function.iterate_succ_apply, ih, mulLow_mulX, Function.iterate_succ_apply]

/-- Where there is no bit nothing is added. -/
theorem mulLow_of_low (a : BitVec w) : ∀ (k : Nat) (b : BitVec w), (∀ j < k, a.getLsbD j = false) → mulLow poly a k b = 0#w
  | 0, _, _ => rfl
  | k + 1, b, h => by
    rw [mulLow, h k (Nat.lt_succ_self k), mulLow_of_low a k _ fun j hj => h j (Nat.lt_succ_of_lt hj)]
    exact BitVec.xor_zero

theorem iterate_xor (n : Nat) (b c : BitVec w) : (mulX poly)^[n] (b ^^^ c) = (mulX poly)^[n] b ^^^ (mulX poly)^[n] c := by
  induction n generalizing b c with
  | zero => rfl
  | succ n ih => rw [Function.iterate_succ_apply, mulX_xor, ih, Function.iterate_succ_apply, Function.iterate_succ_apply]

/-- A word that is zero at its low end only moves down. -/
theorem iterate_of_low {n : Nat} {c : BitVec w} (h : ∀ j < n, c.getLsbD j = false) : (mulX poly)^[n] c = c >>> n := by
  induction n with
  | zero => rfl
  | succ n ih =>
    have hlow : (c >>> n).getLsbD 0 = false := by
      rw [BitVec.getLsbD_ushiftRight]
      exact h _ (Nat.lt_succ_self n)
    rw [Function.iterate_succ_apply', ih fun j hj => h j (Nat.lt_succ_of_lt hj), mulX, hlow, BitVec.shiftRight_add]
    rfl

/-! ## The monoid -/

theorem mulX_twoPow {k : Nat} (h : k + 1 < w) : mulX poly (BitVec.twoPow w (k + 1)) = BitVec.twoPow w k := by
  have hlow : (BitVec.twoPow w (k + 1)).getLsbD 0 = false := by
    rw [BitVec.getLsbD_twoPow, decide_eq_false (Nat.succ_ne_zero k), Bool.and_false]
  unfold mulX
  rw [hlow]
  apply BitVec.eq_of_getLsbD_eq
  intro i hi
  change ((BitVec.twoPow w (k + 1)) >>> 1).getLsbD i = _
  rw [BitVec.getLsbD_ushiftRight, BitVec.getLsbD_twoPow, BitVec.getLsbD_twoPow, decide_eq_true h,
    decide_eq_true (show k < w by omega), Nat.add_comm 1 i]
  simp only [Nat.succ_inj]

/-- The bits of `a` up to `k`, each where it is. -/
theorem getLsbD_mulLow_twoPow (a : BitVec w) : ∀ {k : Nat}, k < w → ∀ j,
    (mulLow poly a (k + 1) (BitVec.twoPow w k)).getLsbD j = (decide (j ≤ k) && a.getLsbD j)
  | 0, hk, j => by
    rw [mulLow, mulLow, BitVec.xor_zero]
    cases ha : a.getLsbD 0
    · obtain rfl | hj := Nat.eq_zero_or_pos j
      · rw [ha, Bool.and_false]
        exact BitVec.getLsbD_zero
      · rw [decide_eq_false (by omega)]
        exact BitVec.getLsbD_zero
    · change (BitVec.twoPow w 0).getLsbD j = _
      rw [BitVec.getLsbD_twoPow, decide_eq_true hk, Bool.true_and]
      obtain rfl | hj := Nat.eq_zero_or_pos j
      · rw [ha]
        rfl
      · rw [decide_eq_false (by omega), decide_eq_false (by omega), Bool.false_and]
  | k + 1, hk, j => by
    rw [mulLow, mulX_twoPow poly hk, BitVec.getLsbD_xor, getLsbD_mulLow_twoPow a (by omega) j]
    have hhead : (if a.getLsbD (k + 1) then BitVec.twoPow w (k + 1) else 0#w).getLsbD j =
        (decide (j = k + 1) && a.getLsbD j) := by
      obtain rfl | hj := eq_or_ne j (k + 1)
      · rw [decide_eq_true rfl, Bool.true_and]
        cases a.getLsbD (k + 1)
        · exact BitVec.getLsbD_zero
        · change (BitVec.twoPow w (k + 1)).getLsbD (k + 1) = _
          rw [BitVec.getLsbD_twoPow, decide_eq_true hk, decide_eq_true rfl]
          rfl
      · rw [decide_eq_false hj, Bool.false_and]
        cases a.getLsbD (k + 1)
        · exact BitVec.getLsbD_zero
        · change (BitVec.twoPow w (k + 1)).getLsbD j = _
          rw [BitVec.getLsbD_twoPow, decide_eq_false (Ne.symm hj), Bool.and_false]
    rw [hhead]
    by_cases hj : j ≤ k
    · rw [decide_eq_false (by omega), decide_eq_true hj, decide_eq_true (by omega), Bool.false_and, Bool.false_xor]
    · rw [decide_eq_false hj, Bool.false_and, Bool.xor_false]
      congr 1
      exact decide_eq_decide.2 (by omega)

section Positive

variable (hw : 0 < w)
include hw

theorem mul_one (a : BitVec w) : mul poly a one = a := by
  obtain ⟨n, rfl⟩ := Nat.exists_eq_add_one_of_ne_zero (Nat.ne_of_gt hw)
  apply BitVec.eq_of_getLsbD_eq
  intro i hi
  rw [mul, one, Nat.add_sub_cancel, getLsbD_mulLow_twoPow poly a (Nat.lt_succ_self n), decide_eq_true (by omega), Bool.true_and]

theorem mul_comm (a b : BitVec w) : mul poly a b = mul poly b a := by
  calc mul poly a b = mul poly a (mul poly b one) := by rw [mul_one poly hw]
    _ = mul poly b (mul poly a one) := mulLow_mulLow poly a b w w one
    _ = mul poly b a := by rw [mul_one poly hw]

theorem one_mul (b : BitVec w) : mul poly one b = b := (mul_comm poly hw one b).trans (mul_one poly hw b)

omit hw in
theorem xPow_eq : ∀ {k : Nat}, k < w → xPow poly k = BitVec.twoPow w (w - 1 - k)
  | 0, _ => rfl
  | k + 1, hk => by
    rw [xPow, Function.iterate_succ_apply', ← xPow, xPow_eq (by omega), show w - 1 - k = w - 1 - (k + 1) + 1 by omega,
      mulX_twoPow poly (by omega)]

/-- The polynomial is what `x ^ w` comes to. -/
theorem xPow_width : xPow poly w = poly := by
  have hpred : w = w - 1 + 1 := by omega
  have hbit : (BitVec.twoPow w 0).getLsbD 0 = true := by
    rw [BitVec.getLsbD_twoPow, decide_eq_true hw]
    rfl
  have hshift : BitVec.twoPow w 0 >>> 1 = 0#w := by
    apply BitVec.eq_of_getLsbD_eq
    intro i hi
    rw [BitVec.getLsbD_ushiftRight, BitVec.getLsbD_twoPow, decide_eq_false (show ¬ 0 = 1 + i by omega), Bool.and_false,
      BitVec.getLsbD_zero]
  calc xPow poly w = mulX poly (xPow poly (w - 1)) := by
        rw [xPow, xPow, ← Function.iterate_succ_apply' (mulX poly), Nat.succ_eq_add_one, ← hpred]
    _ = mulX poly (BitVec.twoPow w 0) := by rw [xPow_eq poly (by omega), Nat.sub_self]
    _ = poly := by
        rw [mulX, if_pos hbit, hshift]
        exact BitVec.zero_xor

theorem iterate_width (b : BitVec w) : (mulX poly)^[w] b = mul poly poly b := by
  calc (mulX poly)^[w] b = (mulX poly)^[w] (mul poly b one) := by rw [mul_one poly hw]
    _ = mul poly b (xPow poly w) := (mulLow_iterate poly b w w one).symm
    _ = mul poly poly b := by rw [xPow_width poly hw, mul_comm poly hw]

end Positive

/-- Multiplication takes the lowest bit last. -/
theorem mulLow_succ (a : BitVec w) : ∀ (k : Nat) (b : BitVec w),
    mulLow poly a (k + 1) b = mulLow poly (a >>> 1) k b ^^^ if a.getLsbD 0 then (mulX poly)^[k] b else 0#w
  | 0, b => by
    rw [mulLow, mulLow, mulLow]
    exact BitVec.xor_comm _ _
  | k + 1, b => by
    rw [mulLow, mulLow_succ a k, mulLow, BitVec.getLsbD_ushiftRight, Nat.add_comm 1 k, BitVec.xor_assoc,
      Function.iterate_succ_apply]

theorem mul_mulX_left (hw : 0 < w) (a b : BitVec w) : mul poly (mulX poly a) b = mulX poly (mul poly a b) := by
  obtain ⟨n, rfl⟩ := Nat.exists_eq_add_one_of_ne_zero (Nat.ne_of_gt hw)
  have hshift : mul poly (a >>> 1) b = mulLow poly (a >>> 1) n (mulX poly b) := by
    rw [mul, mulLow, BitVec.getLsbD_ushiftRight, BitVec.getLsbD_of_ge a _ (by omega)]
    exact BitVec.zero_xor
  have hright : mulX poly (mul poly a b) =
      mul poly (a >>> 1) b ^^^ if a.getLsbD 0 then (mulX poly)^[n + 1] b else 0#(n + 1) := by
    rw [mul, mulLow_succ, mulX_xor, mulX_ite, ← mulLow_mulX, hshift, Function.iterate_succ_apply']
  rw [hright, mulX]
  cases a.getLsbD 0
  · exact (BitVec.xor_zero).symm
  · change mul poly ((a >>> 1) ^^^ poly) b = mul poly (a >>> 1) b ^^^ (mulX poly)^[n + 1] b
    rw [iterate_width poly hw]
    exact xor_mulLow poly _ _ _ _

/-! ## Powers of `x` -/

theorem xPow_mul (hw : 0 < w) (n : Nat) (c : BitVec w) : mul poly (xPow poly n) c = (mulX poly)^[n] c := by
  induction n with
  | zero => exact one_mul poly hw c
  | succ n ih => rw [xPow, Function.iterate_succ_apply', ← xPow, mul_mulX_left poly hw, ih, Function.iterate_succ_apply']

theorem xPow_mul_xPow (hw : 0 < w) (m n : Nat) : mul poly (xPow poly m) (xPow poly n) = xPow poly (m + n) := by
  rw [xPow_mul poly hw, xPow, xPow, Function.iterate_add_apply]

/-- The register loses nothing if the polynomial has its lowest coefficient. -/
theorem mulX_ne_zero (htop : poly.getLsbD (w - 1) = true) {c : BitVec w} (hc : c ≠ 0#w) : mulX poly c ≠ 0#w := by
  intro h
  apply hc
  unfold mulX at h
  cases hlow : c.getLsbD 0
  · rw [hlow] at h
    apply BitVec.eq_of_getLsbD_eq
    intro i hi
    rw [BitVec.getLsbD_zero]
    obtain rfl | hpos := Nat.eq_zero_or_pos i
    · exact hlow
    · have hbit := congrArg (BitVec.getLsbD · (i - 1)) h
      change (c >>> 1).getLsbD (i - 1) = (0#w).getLsbD (i - 1) at hbit
      rwa [BitVec.getLsbD_ushiftRight, Nat.add_sub_cancel' hpos, BitVec.getLsbD_zero] at hbit
  · -- the top bit comes from the polynomial alone
    rw [hlow] at h
    have hbit := congrArg (BitVec.getLsbD · (w - 1)) h
    change ((c >>> 1) ^^^ poly).getLsbD (w - 1) = (0#w).getLsbD (w - 1) at hbit
    rw [BitVec.getLsbD_xor, BitVec.getLsbD_ushiftRight, BitVec.getLsbD_of_ge c _ (by omega), htop, BitVec.getLsbD_zero] at hbit
    cases hbit

theorem xPow_ne_zero (hw : 0 < w) (htop : poly.getLsbD (w - 1) = true) (n : Nat) : xPow poly n ≠ 0#w := by
  induction n with
  | zero =>
    intro h
    have hbit := congrArg (BitVec.getLsbD · (w - 1)) h
    change (BitVec.twoPow w (w - 1)).getLsbD (w - 1) = (0#w).getLsbD (w - 1) at hbit
    rw [BitVec.getLsbD_twoPow, decide_eq_true (by omega), BitVec.getLsbD_zero, decide_eq_true rfl] at hbit
    cases hbit
  | succ n ih =>
    rw [xPow, Function.iterate_succ_apply']
    exact mulX_ne_zero poly htop ih

end ReflectedMul

/-
Little-endian numbers of a given width in bytes: the two conversions, their lengths and bounds,
and that each undoes the other.
-/
import Mathlib.Data.List.Basic
import Mathlib.Tactic.Ring

namespace LittleEndian

abbrev Bytes := List UInt8

/-- The `w` low bytes of `n`, lowest first. -/
def toLE : Nat → Nat → Bytes
  | 0, _ => []
  | w + 1, n => UInt8.ofNat n :: toLE w (n / 256)

/-- The number whose bytes, lowest first, are given. -/
def ofLE : Bytes → Nat
  | [] => 0
  | b :: bs => b.toNat + 256 * ofLE bs

@[simp] theorem length_toLE : ∀ w n, (toLE w n).length = w
  | 0, _ => rfl
  | w + 1, n => by simp [toLE, length_toLE w]

theorem ofLE_toLE : ∀ w n, ofLE (toLE w n) = n % 256 ^ w
  | 0, n => by simp [toLE, ofLE, Nat.mod_one]
  | w + 1, n => by
    have hb : (UInt8.ofNat n).toNat = n % 256 := by simp
    rw [toLE, ofLE, ofLE_toLE w, hb, pow_succ, Nat.mul_comm (256 ^ w) 256, Nat.mod_mul]

/-- A number that fits the width survives. -/
theorem ofLE_toLE_of_lt {w n : Nat} (h : n < 256 ^ w) : ofLE (toLE w n) = n := by
  rw [ofLE_toLE, Nat.mod_eq_of_lt h]

theorem ofLE_lt : ∀ bs : Bytes, ofLE bs < 256 ^ bs.length
  | [] => by simp [ofLE]
  | b :: bs => by
    have ih := ofLE_lt bs
    have hb : b.toNat < 256 := b.toNat_lt
    have hp : 256 ^ (bs.length + 1) = 256 * 256 ^ bs.length := by ring
    rw [ofLE, List.length_cons, hp]
    omega

theorem toLE_ofLE : ∀ bs : Bytes, toLE bs.length (ofLE bs) = bs
  | [] => rfl
  | b :: bs => by
    have hb : b.toNat < 256 := b.toNat_lt
    have h1 : UInt8.ofNat (b.toNat + 256 * ofLE bs) = b := by
      apply UInt8.toNat_inj.1
      rw [UInt8.toNat_ofNat']
      omega
    have h2 : (b.toNat + 256 * ofLE bs) / 256 = ofLE bs := by omega
    rw [List.length_cons, ofLE, toLE, h1, h2, toLE_ofLE bs]

/-- Only what fits the width is written. -/
theorem toLE_mod (w n : Nat) : toLE w (n % 256 ^ w) = toLE w n := by
  have h := toLE_ofLE (toLE w n)
  rwa [length_toLE, ofLE_toLE] at h

/-! ## Widening and narrowing -/

theorem ofLE_append : ∀ xs ys : Bytes, ofLE (xs ++ ys) = ofLE xs + 256 ^ xs.length * ofLE ys
  | [], ys => by simp [ofLE]
  | x :: xs, ys => by
    rw [List.cons_append, ofLE, ofLE, ofLE_append xs ys, List.length_cons]
    ring

/-- A number is zero when its bytes are. -/
theorem ofLE_eq_zero : ∀ bs : Bytes, ofLE bs = 0 ↔ ∀ b ∈ bs, b = 0
  | [] => by simp [ofLE]
  | b :: bs => by
    rw [ofLE, Nat.add_eq_zero_iff, Nat.mul_eq_zero, ofLE_eq_zero bs, List.forall_mem_cons]
    simp [← UInt8.toNat_inj]

/-- Zeros above a number do not change it. -/
theorem ofLE_append_zeros (bs : Bytes) (k : Nat) : ofLE (bs ++ List.replicate k 0) = ofLE bs := by
  have h : ofLE (List.replicate k 0) = 0 := (ofLE_eq_zero _).2 fun b hb => List.eq_of_mem_replicate hb
  rw [ofLE_append, h, Nat.mul_zero, Nat.add_zero]

/-- The bytes above a width are zero when the number fits the width. -/
theorem drop_zeros_iff {bs : Bytes} {n : Nat} (hn : n ≤ bs.length) :
    (∀ b ∈ bs.drop n, b = 0) ↔ ofLE bs < 256 ^ n := by
  have hsplit := ofLE_append (bs.take n) (bs.drop n)
  have hlow := ofLE_lt (bs.take n)
  rw [List.take_append_drop, List.length_take_of_le hn] at hsplit
  rw [List.length_take_of_le hn] at hlow
  rw [← ofLE_eq_zero, hsplit]
  constructor
  · intro h
    rw [h, Nat.mul_zero, Nat.add_zero]
    exact hlow
  · intro h
    by_contra hne
    have : 256 ^ n * 1 ≤ 256 ^ n * ofLE (bs.drop n) := Nat.mul_le_mul_left _ (Nat.pos_of_ne_zero hne)
    omega

/-- The low bytes of a number that fits them are the number. -/
theorem ofLE_take_of_lt {bs : Bytes} {n : Nat} (hn : n ≤ bs.length) (h : ofLE bs < 256 ^ n) :
    ofLE (bs.take n) = ofLE bs := by
  have hsplit := ofLE_append (bs.take n) (bs.drop n)
  have hzero : ofLE (bs.drop n) = 0 := (ofLE_eq_zero _).2 ((drop_zeros_iff hn).2 h)
  rw [List.take_append_drop, hzero, Nat.mul_zero, Nat.add_zero] at hsplit
  exact hsplit.symm

/-! ## Signed numbers -/

/-- The number whose two's complement bytes, lowest first, are given. -/
def signedLE (bs : Bytes) : Int := Int.bmod (ofLE bs) (256 ^ bs.length)

theorem two_mul_half {n : Nat} (hn : 0 < n) : 2 * 2 ^ (8 * n - 1) = 256 ^ n := by
  rw [← pow_succ', Nat.sub_add_cancel (by omega), pow_mul]
  norm_num

/-- The range of the signed numbers of a width. -/
theorem signedLE_range {bs : Bytes} (h : bs ≠ []) :
    -2 ^ (8 * bs.length - 1) ≤ signedLE bs ∧ signedLE bs < 2 ^ (8 * bs.length - 1) := by
  have hhalf := two_mul_half (List.length_pos_iff.2 h)
  have hpos : 0 < 256 ^ bs.length := Nat.pow_pos (by norm_num)
  have hlo := Int.le_bmod (x := ofLE bs) hpos
  have hhi := Int.bmod_lt (x := ofLE bs) hpos
  have hcast : (256 ^ bs.length : Int) = 2 * 2 ^ (8 * bs.length - 1) := by exact_mod_cast hhalf.symm
  simp only [signedLE]
  push_cast at hlo hhi ⊢
  rw [hcast] at hlo hhi
  constructor <;> omega

/-- Read as signed, a number below half of the width's is itself. -/
theorem signedLE_of_lt {bs : Bytes} (h : 2 * ofLE bs < 256 ^ bs.length) : signedLE bs = ofLE bs := by
  rw [signedLE, Int.bmod_eq_of_le] <;> omega

/-- A signed number that is not negative has the bytes of the number it is. -/
theorem signedLE_nonneg {bs : Bytes} (h : 0 ≤ signedLE bs) : signedLE bs = ofLE bs := by
  have hlt := ofLE_lt bs
  have hm : ((ofLE bs : Nat) : Int) % (256 ^ bs.length : Nat) = ofLE bs := by
    rw [Int.emod_eq_of_lt] <;> omega
  rw [signedLE, Int.bmod_def, hm] at h ⊢
  split_ifs at h ⊢ <;> omega

end LittleEndian

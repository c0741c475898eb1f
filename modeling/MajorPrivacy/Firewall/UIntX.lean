/-
The 128 bit numbers of the address ranges as the sixteen bytes they are (UIntX.cpp): sums over the double
words, shifts over the bytes.
-/
import MajorPrivacy.Firewall.Addresses
import MajorPrivacy.Lib.Memory

namespace MajorPrivacy.Firewall

open LittleEndian Memory

/-- The union behind a `CUInt128`. -/
structure CUIntX where
  bytes : Bytes
  size : bytes.length = 16

namespace CUIntX

@[ext] theorem ext {x y : CUIntX} (h : x.bytes = y.bytes) : x = y := by
  cases x
  cases y
  cases h
  rfl

instance : DecidableEq CUIntX := fun _ _ => decidable_of_iff _ CUIntX.ext_iff.symm

/-! ## Double words -/

def getDWord (x : CUIntX) (i : Nat) : Nat := ofLE (slice x.bytes (4 * i) 4)

/-- `SetDWord`, with the low 32 bits of the value. -/
def setDWord (x : CUIntX) (i v : Nat) : CUIntX := ⟨overwrite x.bytes (4 * i) (toLE 4 v), by rw [length_overwrite, x.size]⟩

/-- `Init` with zeros or ones. -/
def init (bFill : Bool) : CUIntX := ⟨List.replicate 16 (if bFill then 0xFF else 0), List.length_replicate⟩

def isNull (x : CUIntX) : Bool := (List.range 4).all fun i => x.getDWord i = 0

/-- The sum, or with a sign of minus one the difference, taken over these double words in turn. -/
def sumLoop (sign : Int) (u : CUIntX) : List Nat → (iSum : Int) → CUIntX → CUIntX
  | [], _, x => x
  | i :: is, iSum, x =>
    let iSum := iSum + x.getDWord i + sign * u.getDWord i
    sumLoop sign u is (iSum / 2 ^ 32) (x.setDWord i (iSum % 2 ^ 32).toNat)

/-- `Add`. -/
def add (x u : CUIntX) : CUIntX := if u.isNull then x else sumLoop 1 u [0, 1, 2, 3] 0 x

/-- `Subtract`, which begins at the high end. -/
def subtract (x u : CUIntX) : CUIntX := if u.isNull then x else sumLoop (-1) u [3, 2, 1, 0] 0 x

/-- The comparison of these double words in turn. -/
def compareLoop (x u : CUIntX) : List Nat → Int
  | [] => 0
  | i :: is => if x.getDWord i < u.getDWord i then -1 else if x.getDWord i > u.getDWord i then 1 else compareLoop x u is

/-- `CompareTo`. -/
def compareTo (x u : CUIntX) : Int := compareLoop x u [3, 2, 1, 0]

/-! ## Shifts -/

/-- A `short` with these low bits. -/
def short (n : Nat) : Int := Int.bmod n (2 ^ 16)

/-- A `byte` with the low bits of a number. -/
def toByte (v : Int) : UInt8 := .ofNat (v % 256).toNat

/-- Write a byte, if it is one of the value. -/
def put (data : Bytes) (i : Nat) (b : UInt8) : Option Bytes := writeAt data i [b]

/-- The bytes below `i`, from the high ones down: each is moved, and what is shifted out of it goes to the one above. -/
def shiftLeftLoop (iIndexShift bits : Nat) : (i : Nat) → Bytes → Option Bytes
  | 0, data => some data
  | i + 1, data => do
    let b ← data[i]?
    let iShifted := short (b.toNat <<< bits)
    let data ← put data (i + iIndexShift) (toByte iShifted)
    let above ← data[i + iIndexShift + 1]?
    let data ← put data (i + iIndexShift + 1) (above ||| toByte (iShifted / 256))
    shiftLeftLoop iIndexShift bits i data

/-- Zeros below `n`. -/
def clearBelow : (n : Nat) → Bytes → Option Bytes
  | 0, data => some data
  | n + 1, data => do
    let data ← clearBelow n data
    put data n 0

/-- The bytes of a `ShiftLeft`; there is none if a byte outside of the value is touched. -/
def shiftLeftBytes (iIndexShift bits : Nat) (data : Bytes) : Option Bytes :=
  match data.length - iIndexShift with
  | 0 => none
  | i + 1 => do
    let b ← data[i]?
    let data ← put data (i + iIndexShift) (toByte (short (b.toNat <<< bits)))
    let data ← shiftLeftLoop iIndexShift bits i data
    clearBelow iIndexShift data

/-- The value with these bytes. -/
def ofBytes (data : Bytes) : Option CUIntX := if h : data.length = 16 then some ⟨data, h⟩ else none

/-- `ShiftLeft`. -/
def shiftLeft (x : CUIntX) (uBits : Nat) : Option CUIntX :=
  if uBits = 0 ∨ x.isNull then some x
  else if uBits > 128 then some (init false)
  else (shiftLeftBytes (uBits / 8) (uBits % 8) x.bytes).bind ofBytes

/-- The loop of `ShiftRight` from byte `i` on: what is left of the byte before is put down, and the low bits of this one above it. -/
def shiftRightLoop (iIndexShift bits : Nat) : (n i : Nat) → (iShifted : Int) → Bytes → Option Bytes
  | 0, i, iShifted, data => put data (i - iIndexShift - 1) (toByte (iShifted / 256))
  | n + 1, i, iShifted, data => do
    let data ← put data (i - iIndexShift - 1) (toByte (iShifted / 256))
    let b ← data[i]?
    let iShifted := short (b.toNat <<< (8 - bits))
    let low ← data[i - iIndexShift - 1]?
    let data ← put data (i - iIndexShift - 1) (low ||| toByte iShifted)
    shiftRightLoop iIndexShift bits n (i + 1) iShifted data

/-- Zeros from `i` down to `low`; below zero the index is that of no byte. -/
def clearDown (low : Nat) : (i : Nat) → Bytes → Option Bytes
  | i, data =>
    if i < low then some data
    else do
      let data ← put data i 0
      match i with
      | 0 => none
      | i + 1 => clearDown low i data

/-- The bytes of a `ShiftRight`; there is none if a byte outside of the value is touched. -/
def shiftRightBytes (iIndexShift bits : Nat) (data : Bytes) : Option Bytes := do
  let b ← data[iIndexShift]?
  let moved ← shiftRightLoop iIndexShift bits (data.length - iIndexShift - 1) (iIndexShift + 1) (short (b.toNat <<< (8 - bits))) data
  clearDown (data.length - iIndexShift) (data.length - 1) moved

/-- `ShiftRight`. -/
def shiftRight (x : CUIntX) (uBits : Nat) : Option CUIntX :=
  if uBits = 0 ∨ x.isNull then some x
  else if uBits > 128 then some (init false)
  else (shiftRightBytes (uBits / 8) (uBits % 8) x.bytes).bind ofBytes

/-- The number of steps in which a number is shifted down to zero. -/
def pos (n : Nat) : Nat := if n = 0 then 0 else pos (n / 2) + 1

/-- `Multi`. Factors that are no powers of two leave the value as it is. -/
def multi (x : CUIntX) (uValue : UInt32) : Option CUIntX :=
  if uValue = 0 then some (init false)
  else if uValue &&& (uValue - 1) = 0 then x.shiftLeft (pos (uValue - 1).toNat)
  else some x

/-- `Div`. -/
def div (x : CUIntX) (uValue : UInt32) : Option CUIntX :=
  if uValue = 0 then some (init true)
  else if uValue &&& (uValue - 1) = 0 then x.shiftRight (pos (uValue - 1).toNat)
  else some x

/-! ## The number -/

def toNat (x : CUIntX) : Nat := ofLE x.bytes

theorem toNat_lt (x : CUIntX) : x.toNat < 2 ^ 128 := by
  have hlt := ofLE_lt x.bytes
  rw [x.size] at hlt
  exact hlt

theorem getDWord_lt (x : CUIntX) (i : Nat) : x.getDWord i < 2 ^ 32 := by
  have hlt := ofLE_lt (slice x.bytes (4 * i) 4)
  have hle : (slice x.bytes (4 * i) 4).length ≤ 4 := List.length_take_le _ _
  exact hlt.trans_le (Nat.pow_le_pow_right (by decide) hle)

/-- The number out of its double words. -/
theorem toNat_eq (x : CUIntX) :
    x.toNat = x.getDWord 0 + 2 ^ 32 * x.getDWord 1 + 2 ^ 64 * x.getDWord 2 + 2 ^ 96 * x.getDWord 3 := by
  have hall : x.bytes = slice x.bytes 0 4 ++ (slice x.bytes 4 4 ++ (slice x.bytes 8 4 ++ slice x.bytes 12 4)) := by
    have h := slice_add x.bytes 0 4 (4 + (4 + 4))
    rw [slice_add x.bytes (0 + 4), slice_add x.bytes (0 + 4 + 4), slice_full, List.take_of_length_le (Nat.le_of_eq x.size)] at h
    exact h
  have hlen : ∀ i, i ≤ 12 → (slice x.bytes i 4).length = 4 := fun i hi => length_slice (by rw [x.size]; omega)
  unfold toNat
  rw [hall, ofLE_append, ofLE_append, ofLE_append, hlen 0 (by decide), hlen 4 (by decide), hlen 8 (by decide)]
  unfold getDWord
  norm_num
  ring

theorem getDWord_setDWord {x : CUIntX} {i j v : Nat} (hi : i < 4) :
    (x.setDWord i v).getDWord j = if j = i then v % 2 ^ 32 else x.getDWord j := by
  unfold getDWord setDWord
  by_cases hj : j = i
  · rw [if_pos hj, hj]
    have hself := @slice_overwrite_self _ x.bytes (4 * i) (toLE 4 v) (by rw [length_toLE, x.size]; omega)
    rw [length_toLE] at hself
    rw [hself, ofLE_toLE]
    rfl
  · rw [if_neg hj, slice_overwrite (by rw [length_toLE]; omega)]

theorem isNull_iff (x : CUIntX) : x.isNull = true ↔ x.toNat = 0 := by
  rw [toNat_eq]
  unfold isNull
  simp only [List.all_eq_true, List.mem_range, decide_eq_true_eq]
  constructor
  · intro h
    have h0 := h 0 (by decide)
    have h1 := h 1 (by decide)
    have h2 := h 2 (by decide)
    have h3 := h 3 (by decide)
    omega
  · intro h i hi
    obtain rfl | rfl | rfl | rfl : i = 0 ∨ i = 1 ∨ i = 2 ∨ i = 3 := by omega
    all_goals omega

/-! ## Sums -/

theorem toNat_sumLoop_up (x u : CUIntX) : ((sumLoop 1 u [0, 1, 2, 3] 0 x).toNat : Int) = (x.toNat + u.toNat) % 2 ^ 128 := by
  simp only [sumLoop]
  rw [toNat_eq (setDWord _ _ _), toNat_eq x, toNat_eq u]
  simp only [getDWord_setDWord, Nat.reduceLT, Nat.reduceEqDiff, ↓reduceIte, OfNat.ofNat_ne_zero, one_ne_zero, OfNat.ofNat_ne_one, zero_ne_one]
  omega

theorem toNat_add (x u : CUIntX) : (x.add u).toNat = (x.toNat + u.toNat) % 2 ^ 128 := by
  have hlt := (x.add u).toNat_lt
  unfold add at *
  split
  · rename_i hnull
    rw [(isNull_iff u).1 hnull, Nat.add_zero, Nat.mod_eq_of_lt x.toNat_lt]
  · rename_i hnull
    rw [if_neg hnull] at hlt
    have hsum := toNat_sumLoop_up x u
    omega

/-- No double word of the one is above that of the other. -/
def Below (u x : CUIntX) : Prop := ∀ i < 4, u.getDWord i ≤ x.getDWord i

instance (u x : CUIntX) : Decidable (Below u x) := inferInstanceAs (Decidable (∀ i < 4, _))

/-- A difference of two double words with a borrow: the borrow it leaves and the double word. -/
theorem exists_borrow {c : Int} {x u : Nat} (hc : c = -1 ∨ c = 0) (hx : x < 2 ^ 32) (hu : u < 2 ^ 32) : ∃ (q : Int) (r : Nat),
    (q = -1 ∨ q = 0) ∧ (c + x + -1 * u) / 2 ^ 32 = q ∧ ((c + x + -1 * u) % 2 ^ 32).toNat % 2 ^ 32 = r ∧
      (r : Int) = c + x - u - 2 ^ 32 * q ∧ r < 2 ^ 32 := by
  refine ⟨(c + x + -1 * u) / 2 ^ 32, ((c + x + -1 * u) % 2 ^ 32).toNat % 2 ^ 32, ?_, rfl, rfl, ?_, ?_⟩
  all_goals omega

theorem below_iff (u x : CUIntX) : Below u x ↔ u.getDWord 0 ≤ x.getDWord 0 ∧ u.getDWord 1 ≤ x.getDWord 1 ∧
    u.getDWord 2 ≤ x.getDWord 2 ∧ u.getDWord 3 ≤ x.getDWord 3 := by
  refine ⟨fun h => ⟨h 0 (by decide), h 1 (by decide), h 2 (by decide), h 3 (by decide)⟩, fun h i hi => ?_⟩
  obtain rfl | rfl | rfl | rfl : i = 0 ∨ i = 1 ∨ i = 2 ∨ i = 3 := by omega
  all_goals omega

/-- The difference is right when it needs no borrow. -/
theorem toNat_subtract_iff (x u : CUIntX) : (x.subtract u).toNat = (x.toNat + 2 ^ 128 - u.toNat) % 2 ^ 128 ↔ Below u x := by
  have hx := x.getDWord_lt
  have hu := u.getDWord_lt
  rw [below_iff]
  unfold subtract
  split
  · rename_i hnull
    have hzero := (isNull_iff u).1 hnull
    rw [hzero, Nat.sub_zero, Nat.add_mod_right, Nat.mod_eq_of_lt x.toNat_lt]
    rw [toNat_eq] at hzero
    omega
  · simp only [sumLoop]
    rw [toNat_eq (setDWord _ _ _), toNat_eq x, toNat_eq u]
    simp only [getDWord_setDWord, Nat.reduceLT, Nat.reduceEqDiff, ↓reduceIte, OfNat.ofNat_ne_zero, one_ne_zero, OfNat.ofNat_ne_one, zero_ne_one]
    obtain ⟨q3, r3, hc3, hq3, hr3, hsum3, hlt3⟩ := exists_borrow (.inr rfl) (hx 3) (hu 3)
    rw [hq3, hr3]
    obtain ⟨q2, r2, hc2, hq2, hr2, hsum2, hlt2⟩ := exists_borrow hc3 (hx 2) (hu 2)
    rw [hq2, hr2]
    obtain ⟨q1, r1, hc1, hq1, hr1, hsum1, hlt1⟩ := exists_borrow hc2 (hx 1) (hu 1)
    rw [hq1, hr1]
    obtain ⟨q0, r0, hc0, -, hr0, hsum0, hlt0⟩ := exists_borrow hc1 (hx 0) (hu 0)
    rw [hr0]
    have hx0 := hx 0
    have hx1 := hx 1
    have hx2 := hx 2
    have hx3 := hx 3
    have hu0 := hu 0
    have hu1 := hu 1
    have hu2 := hu 2
    have hu3 := hu 3
    clear hq3 hr3 hq2 hr2 hq1 hr1 hr0 hx hu
    obtain rfl | rfl := hc3 <;> obtain rfl | rfl := hc2 <;> obtain rfl | rfl := hc1 <;> obtain rfl | rfl := hc0 <;> omega

/-! ## Comparison -/

/-- The sign of the comparison of two numbers. -/
def compared (m n : Nat) : Int := if m < n then -1 else if n < m then 1 else 0

theorem compareTo_eq (x u : CUIntX) : x.compareTo u = compared x.toNat u.toNat := by
  have hx := x.getDWord_lt
  have hu := u.getDWord_lt
  have hx0 := hx 0
  have hx1 := hx 1
  have hx2 := hx 2
  have hu0 := hu 0
  have hu1 := hu 1
  have hu2 := hu 2
  rw [compared, toNat_eq x, toNat_eq u]
  unfold compareTo
  simp only [compareLoop]
  split_ifs
  all_goals first | rfl | omega

/-! ## Bytes shifted up -/

theorem put_spec {data : Bytes} {i : Nat} (b : UInt8) (hi : i < data.length) : ∃ data', put data i b = some data' ∧
    data'.length = data.length ∧ ∀ j, data'[j]? = if j = i then some b else data[j]? := by
  obtain ⟨data', hput⟩ := writeAt_eq data i [b] (by rw [List.length_singleton]; omega)
  refine ⟨data', hput, length_writeAt hput, fun j => ?_⟩
  rw [getElem?_writeAt hput, List.length_singleton]
  by_cases hj : j = i
  · rw [if_pos (by omega), if_pos hj, hj, Nat.sub_self]
    rfl
  · rw [if_neg (by omega), if_neg hj]

theorem exists_byte {data : Bytes} {i : Nat} (hi : i < data.length) : ∃ b, data[i]? = some b := ⟨_, List.getElem?_eq_getElem hi⟩

/-- What of a byte stays in its place when it is moved up by `bits`, and what goes into the next place. -/
def lowPart (bits : Nat) (b : UInt8) : UInt8 := toByte (short (b.toNat <<< bits))

def highPart (bits : Nat) (b : UInt8) : UInt8 := toByte (short (b.toNat <<< bits) / 256)

/-- Byte `j` of a value that is moved up by whole bytes and bits. -/
def upByte (iIndexShift bits : Nat) (data : Bytes) (j : Nat) : Option UInt8 :=
  if j < iIndexShift then some 0
  else do
    let b ← data[j - iIndexShift]?
    if j = iIndexShift then some (lowPart bits b)
    else do
      let below ← data[j - iIndexShift - 1]?
      some (lowPart bits b ||| highPart bits below)

/-- The bytes of `data` from `n + iIndexShift` on are moved up, the lowest of them without what comes from below. -/
structure MovedUp (iIndexShift bits n : Nat) (data moved : Bytes) : Prop where
  length : moved.length = data.length
  high : ∀ j, n + iIndexShift < j → j < data.length → moved[j]? = upByte iIndexShift bits data j
  low : moved[n + iIndexShift]? = data[n]?.map (lowPart bits)
  rest : ∀ j, j < n + iIndexShift → moved[j]? = data[j]?

theorem shiftLeftLoop_spec {iIndexShift bits : Nat} {data : Bytes} : ∀ {n : Nat} {moved : Bytes}, n + iIndexShift < data.length →
    MovedUp iIndexShift bits n data moved → ∃ out, shiftLeftLoop iIndexShift bits n moved = some out ∧
      MovedUp iIndexShift bits 0 data out
  | 0, moved, _, hm => ⟨moved, rfl, hm⟩
  | n + 1, moved, hn, hm => by
    obtain ⟨b, hb⟩ := exists_byte (show n < data.length by omega)
    obtain ⟨c, hc⟩ := exists_byte (show n + 1 < data.length by omega)
    have hread : moved[n]? = some b := (hm.rest n (by omega)).trans hb
    obtain ⟨m₁, hput₁, hlen₁, hat₁⟩ := put_spec (lowPart bits b) (show n + iIndexShift < moved.length by rw [hm.length]; omega)
    have habove : m₁[n + iIndexShift + 1]? = some (lowPart bits c) := by
      rw [hat₁, if_neg (by omega), show n + iIndexShift + 1 = n + 1 + iIndexShift by omega, hm.low, hc]
      rfl
    obtain ⟨m₂, hput₂, hlen₂, hat₂⟩ := put_spec (lowPart bits c ||| highPart bits b)
      (show n + iIndexShift + 1 < m₁.length by rw [hlen₁, hm.length]; omega)
    have hstep : MovedUp iIndexShift bits n data m₂ := by
      constructor
      · rw [hlen₂, hlen₁, hm.length]
      · intro j hj hlt
        rw [hat₂, hat₁]
        by_cases htop : j = n + iIndexShift + 1
        · rw [if_pos htop, upByte, if_neg (by omega), show j - iIndexShift = n + 1 by omega, hc, Option.bind_eq_bind, Option.bind_some,
            if_neg (by omega), Nat.add_sub_cancel, hb]
          rfl
        · rw [if_neg htop, if_neg (by omega)]
          exact hm.high j (by omega) hlt
      · rw [hat₂, if_neg (by omega), hat₁, if_pos rfl, hb]
        rfl
      · intro j hj
        rw [hat₂, if_neg (by omega), hat₁, if_neg (by omega)]
        exact hm.rest j (by omega)
    obtain ⟨out, hout, hdone⟩ := shiftLeftLoop_spec (by omega) hstep
    refine ⟨out, ?_, hdone⟩
    unfold shiftLeftLoop
    rw [hread]
    change (put moved (n + iIndexShift) (lowPart bits b)).bind _ = _
    rw [hput₁, Option.bind_some]
    change m₁[n + iIndexShift + 1]?.bind _ = _
    rw [habove, Option.bind_some]
    change (put m₁ (n + iIndexShift + 1) (lowPart bits c ||| highPart bits b)).bind _ = _
    rw [hput₂, Option.bind_some, hout]

theorem clearBelow_spec {data : Bytes} : ∀ {n : Nat}, n ≤ data.length → ∃ out, clearBelow n data = some out ∧ out.length = data.length ∧
    ∀ j, out[j]? = if j < n then some 0 else data[j]?
  | 0, _ => ⟨data, rfl, rfl, fun j => (if_neg (Nat.not_lt_zero j)).symm⟩
  | n + 1, hn => by
    obtain ⟨m, hm, hlen, hat⟩ := @clearBelow_spec data n (by omega)
    obtain ⟨out, hout, hlen', hat'⟩ := put_spec 0 (show n < m.length by omega)
    refine ⟨out, ?_, hlen'.trans hlen, fun j => ?_⟩
    · unfold clearBelow
      rw [hm]
      exact hout
    · rw [hat', hat]
      split_ifs
      all_goals first | rfl | omega

theorem shiftLeftBytes_spec {iIndexShift : Nat} (bits : Nat) {data : Bytes} (h : iIndexShift < data.length) :
    ∃ out, shiftLeftBytes iIndexShift bits data = some out ∧ out.length = data.length ∧
      ∀ j < data.length, out[j]? = upByte iIndexShift bits data j := by
  obtain ⟨i, hi⟩ := Nat.exists_eq_add_of_lt h
  have hsub : data.length - iIndexShift = i + 1 := by omega
  obtain ⟨b, hb⟩ := exists_byte (show i < data.length by omega)
  obtain ⟨m, hput, hlen, hat⟩ := put_spec (lowPart bits b) (show i + iIndexShift < data.length by omega)
  have hfirst : MovedUp iIndexShift bits i data m := by
    refine ⟨hlen, fun j hj hlt => by omega, ?_, fun j hj => ?_⟩
    · rw [hat, if_pos rfl, hb]
      rfl
    · rw [hat, if_neg (by omega)]
  obtain ⟨m', hloop, hmoved⟩ := shiftLeftLoop_spec (by omega) hfirst
  obtain ⟨out, hclear, hlen', hat'⟩ := @clearBelow_spec m' iIndexShift (by rw [hmoved.length]; omega)
  refine ⟨out, ?_, hlen'.trans hmoved.length, fun j hj => ?_⟩
  · unfold shiftLeftBytes
    rw [hsub]
    simp only [hb, Option.bind_eq_bind, Option.bind_some]
    change (put data (i + iIndexShift) (lowPart bits b)).bind _ = _
    rw [hput, Option.bind_some, hloop, Option.bind_some, hclear]
  · rw [hat']
    by_cases hlow : j < iIndexShift
    · rw [if_pos hlow, upByte, if_pos hlow]
    · rw [if_neg hlow]
      by_cases heq : j = iIndexShift
      · have h0 := hmoved.low
        rw [Nat.zero_add] at h0
        rw [heq, h0, upByte, if_neg (Nat.lt_irrefl _), Nat.sub_self]
        cases data[0]? <;> simp
      · exact hmoved.high j (by omega) hj

/-! ## Bytes shifted down -/

/-- Byte `j` of a value that is moved down by whole bytes and bits. -/
def downByte (iIndexShift bits : Nat) (data : Bytes) (j : Nat) : Option UInt8 :=
  if data.length - iIndexShift ≤ j then some 0
  else do
    let b ← data[j + iIndexShift]?
    match data[j + iIndexShift + 1]? with
    | none => some (highPart (8 - bits) b)
    | some above => some (highPart (8 - bits) b ||| lowPart (8 - bits) above)

/-- The bytes below `i` are moved down. -/
structure MovedDown (iIndexShift bits i : Nat) (data moved : Bytes) : Prop where
  length : moved.length = data.length
  low : ∀ j < i, moved[j]? = downByte iIndexShift bits data j
  rest : ∀ j, i ≤ j → moved[j]? = data[j]?

theorem shiftRightLoop_spec {iIndexShift bits : Nat} {data : Bytes} : ∀ {n i : Nat} {moved : Bytes} {b : UInt8},
    n + i + iIndexShift + 1 = data.length → data[i + iIndexShift]? = some b → MovedDown iIndexShift bits i data moved →
    ∃ out, shiftRightLoop iIndexShift bits n (i + iIndexShift + 1) (short (b.toNat <<< (8 - bits))) moved = some out ∧
      MovedDown iIndexShift bits (data.length - iIndexShift) data out
  | 0, i, moved, b, hn, hb, hm => by
    obtain ⟨out, hput, hlen, hat⟩ := put_spec (highPart (8 - bits) b) (show i < moved.length by rw [hm.length]; omega)
    refine ⟨out, ?_, hlen.trans hm.length, fun j hj => ?_, fun j hj => ?_⟩
    · unfold shiftRightLoop
      rw [show i + iIndexShift + 1 - iIndexShift - 1 = i by omega]
      exact hput
    · rw [hat]
      by_cases htop : j = i
      · rw [if_pos htop, downByte, if_neg (by omega), htop, hb, Option.bind_eq_bind, Option.bind_some,
          List.getElem?_eq_none (show data.length ≤ i + iIndexShift + 1 by omega)]
      · rw [if_neg htop]
        exact hm.low j (by omega)
    · rw [hat, if_neg (by omega)]
      exact hm.rest j (by omega)
  | n + 1, i, moved, b, hn, hb, hm => by
    obtain ⟨c, hc⟩ := exists_byte (show i + iIndexShift + 1 < data.length by omega)
    obtain ⟨m₁, hput₁, hlen₁, hat₁⟩ := put_spec (highPart (8 - bits) b) (show i < moved.length by rw [hm.length]; omega)
    have hread : m₁[i + iIndexShift + 1]? = some c := by
      rw [hat₁, if_neg (by omega), hm.rest _ (by omega), hc]
    have hlow : m₁[i]? = some (highPart (8 - bits) b) := by
      rw [hat₁, if_pos rfl]
    obtain ⟨m₂, hput₂, hlen₂, hat₂⟩ := put_spec (highPart (8 - bits) b ||| lowPart (8 - bits) c)
      (show i < m₁.length by rw [hlen₁, hm.length]; omega)
    have hstep : MovedDown iIndexShift bits (i + 1) data m₂ := by
      refine ⟨by rw [hlen₂, hlen₁, hm.length], fun j hj => ?_, fun j hj => ?_⟩
      · rw [hat₂]
        by_cases htop : j = i
        · rw [if_pos htop, downByte, if_neg (by omega), htop, hb, Option.bind_eq_bind, Option.bind_some, hc]
        · rw [if_neg htop, hat₁, if_neg htop]
          exact hm.low j (by omega)
      · rw [hat₂, if_neg (by omega), hat₁, if_neg (by omega)]
        exact hm.rest j (by omega)
    have hnext : i + iIndexShift + 1 = i + 1 + iIndexShift := by omega
    obtain ⟨out, hout, hdone⟩ := shiftRightLoop_spec (show n + (i + 1) + iIndexShift + 1 = data.length by omega) (hnext ▸ hc) hstep
    refine ⟨out, ?_, hdone⟩
    unfold shiftRightLoop
    rw [show i + iIndexShift + 1 - iIndexShift - 1 = i by omega]
    change (put moved i (highPart (8 - bits) b)).bind _ = _
    rw [hput₁, Option.bind_some, hread, Option.bind_eq_bind, Option.bind_some, hlow, Option.bind_eq_bind, Option.bind_some]
    change (put m₁ i (highPart (8 - bits) b ||| lowPart (8 - bits) c)).bind _ = _
    rw [hput₂, Option.bind_some, hnext, hout]

theorem clearDown_spec {low : Nat} (hlow : 0 < low) : ∀ {i : Nat} {data : Bytes}, i < data.length → low ≤ i + 1 →
    ∃ out, clearDown low i data = some out ∧ out.length = data.length ∧ ∀ j, out[j]? = if low ≤ j ∧ j ≤ i then some 0 else data[j]?
  | i, data, hi, hle => by
    unfold clearDown
    by_cases hlt : i < low
    · refine ⟨data, if_pos hlt, rfl, fun j => (if_neg ?_).symm⟩
      omega
    · rw [if_neg hlt]
      obtain ⟨m, hput, hlen, hat⟩ := put_spec 0 hi
      rw [hput, Option.bind_eq_bind, Option.bind_some]
      cases i with
      | zero => omega
      | succ i =>
        obtain ⟨out, hout, hlen', hat'⟩ := clearDown_spec hlow (show i < m.length by omega) (by omega)
        refine ⟨out, hout, hlen'.trans hlen, fun j => ?_⟩
        rw [hat', hat]
        split_ifs
        all_goals first | rfl | omega

theorem shiftRightBytes_spec {iIndexShift : Nat} (bits : Nat) {data : Bytes} (h : iIndexShift < data.length) :
    ∃ out, shiftRightBytes iIndexShift bits data = some out ∧ out.length = data.length ∧
      ∀ j < data.length, out[j]? = downByte iIndexShift bits data j := by
  obtain ⟨b, hb⟩ := exists_byte h
  have hfirst : MovedDown iIndexShift bits 0 data data := ⟨rfl, fun j hj => absurd hj (Nat.not_lt_zero j), fun j _ => rfl⟩
  obtain ⟨m, hloop, hmoved⟩ := shiftRightLoop_spec (show data.length - iIndexShift - 1 + 0 + iIndexShift + 1 = data.length by omega)
    (by rw [Nat.zero_add]; exact hb) hfirst
  obtain ⟨out, hclear, hlen, hat⟩ := @clearDown_spec (data.length - iIndexShift) (by omega) _ _
    (show data.length - 1 < m.length by rw [hmoved.length]; omega) (by omega)
  refine ⟨out, ?_, hlen.trans hmoved.length, fun j hj => ?_⟩
  · unfold shiftRightBytes
    rw [Nat.zero_add] at hloop
    rw [hb, Option.bind_eq_bind, Option.bind_some, hloop, Option.bind_eq_bind, Option.bind_some, hclear]
  · rw [hat]
    by_cases htop : data.length - iIndexShift ≤ j
    · rw [if_pos ⟨htop, by omega⟩, downByte, if_pos htop]
    · rw [if_neg (by omega)]
      exact hmoved.low j (by omega)

/-! ## Bits -/

theorem testBit_byte {b : UInt8} {k : Nat} (hk : 8 ≤ k) : b.toNat.testBit k = false :=
  Nat.testBit_lt_two_pow (b.toNat_lt.trans_le (Nat.pow_le_pow_right (by decide) hk))

theorem testBit_zero_byte (k : Nat) : (0 : UInt8).toNat.testBit k = false := by
  simp

/-- The bits of a number are those of its bytes. -/
theorem testBit_ofLE : ∀ (data : Bytes) (n : Nat), (ofLE data).testBit n = (data.getD (n / 8) 0).toNat.testBit (n % 8)
  | [], n => by simp [ofLE]
  | b :: data, n => by
    have hsum : ofLE (b :: data) = 2 ^ 8 * ofLE data + b.toNat := Nat.add_comm _ _
    rw [hsum, Nat.testBit_two_pow_mul_add _ b.toNat_lt]
    split
    · rename_i hlt
      rw [Nat.div_eq_of_lt hlt, Nat.mod_eq_of_lt hlt]
      rfl
    · rename_i hge
      obtain ⟨m, rfl⟩ := Nat.exists_eq_add_of_le (Nat.le_of_not_lt hge)
      rw [Nat.add_sub_cancel_left, testBit_ofLE data m, Nat.add_mod_left, show (8 + m) / 8 = m / 8 + 1 by omega, List.getD_cons_succ]

theorem toNat_lowPart (bits : Nat) (b : UInt8) : (lowPart bits b).toNat = b.toNat <<< bits % 2 ^ 8 := by
  unfold lowPart toByte short
  generalize b.toNat <<< bits = n
  rw [UInt8.toNat_ofNat', Int.bmod_def]
  split_ifs
  all_goals omega

theorem toNat_highPart {bits : Nat} (hbits : bits ≤ 8) (b : UInt8) : (highPart bits b).toNat = b.toNat <<< bits >>> 8 := by
  have hlt : b.toNat <<< bits < 2 ^ 16 := by
    rw [Nat.shiftLeft_eq]
    have hpow : 2 ^ bits ≤ 2 ^ 8 := Nat.pow_le_pow_right (by decide) hbits
    have hb := b.toNat_lt
    calc b.toNat * 2 ^ bits
      _ ≤ b.toNat * 2 ^ 8 := Nat.mul_le_mul_left _ hpow
      _ < 2 ^ 16 := by omega
  unfold highPart toByte short
  generalize b.toNat <<< bits = n at *
  rw [UInt8.toNat_ofNat', Int.bmod_def, Nat.shiftRight_eq_div_pow]
  split_ifs
  all_goals omega

theorem testBit_lowPart {bits k : Nat} (hk : k < 8) (b : UInt8) :
    (lowPart bits b).toNat.testBit k = (decide (bits ≤ k) && b.toNat.testBit (k - bits)) := by
  rw [toNat_lowPart, Nat.testBit_mod_two_pow, Nat.testBit_shiftLeft, decide_eq_true hk, Bool.true_and]

theorem testBit_highPart {bits k : Nat} (hbits : bits ≤ 8) (b : UInt8) :
    (highPart bits b).toNat.testBit k = b.toNat.testBit (8 + k - bits) := by
  rw [toNat_highPart hbits, Nat.testBit_shiftRight, Nat.testBit_shiftLeft, decide_eq_true (by omega), Bool.true_and]

/-- A bit of the number is a bit of one of its bytes. -/
theorem testBit_of_byte {data : Bytes} {i k n : Nat} {b : UInt8} (hb : data[i]? = some b) (hk : k < 8) (hn : n = 8 * i + k) :
    (ofLE data).testBit n = b.toNat.testBit k := by
  rw [testBit_ofLE, show n / 8 = i by omega, show n % 8 = k by omega, List.getD_eq_getElem?_getD, hb]
  rfl

theorem testBit_upByte {iIndexShift bits j k : Nat} {data : Bytes} {c : UInt8} (hbits : bits < 8) (hk : k < 8) (hj : j < data.length)
    (hc : upByte iIndexShift bits data j = some c) :
    c.toNat.testBit k = (decide (8 * iIndexShift + bits ≤ 8 * j + k) && (ofLE data).testBit (8 * j + k - (8 * iIndexShift + bits))) := by
  unfold upByte at hc
  split at hc
  · obtain rfl := Option.some.inj hc
    have hbelow : decide (8 * iIndexShift + bits ≤ 8 * j + k) = false := decide_eq_false (by omega)
    exact (testBit_zero_byte k).trans (by rw [hbelow, Bool.false_and])
  · rename_i hge
    obtain ⟨b, hb⟩ := exists_byte (show j - iIndexShift < data.length by omega)
    rw [hb, Option.bind_eq_bind, Option.bind_some] at hc
    split at hc
    · rename_i heq
      obtain rfl := Option.some.inj hc
      rw [testBit_lowPart hk]
      by_cases hle : bits ≤ k
      · rw [decide_eq_true hle, decide_eq_true (by omega), testBit_of_byte hb (show k - bits < 8 by omega) (by omega)]
      · rw [decide_eq_false hle, decide_eq_false (by omega), Bool.false_and, Bool.false_and]
    · rename_i hne
      obtain ⟨below, hbelow⟩ := exists_byte (show j - iIndexShift - 1 < data.length by omega)
      rw [hbelow, Option.bind_some] at hc
      obtain rfl := Option.some.inj hc
      have hin : decide (8 * iIndexShift + bits ≤ 8 * j + k) = true := decide_eq_true (by omega)
      rw [UInt8.toNat_or, Nat.testBit_or, testBit_lowPart hk, testBit_highPart (Nat.le_of_lt hbits), hin, Bool.true_and]
      by_cases hle : bits ≤ k
      · rw [decide_eq_true hle, Bool.true_and, testBit_byte (show 8 ≤ 8 + k - bits by omega), Bool.or_false,
          testBit_of_byte hb (show k - bits < 8 by omega) (by omega)]
      · rw [decide_eq_false hle, Bool.false_and, Bool.false_or, testBit_of_byte hbelow (show 8 + k - bits < 8 by omega) (by omega)]

theorem testBit_downByte {iIndexShift bits j k : Nat} {data : Bytes} {c : UInt8} (hbits : bits < 8) (hk : k < 8)
    (hc : downByte iIndexShift bits data j = some c) : c.toNat.testBit k = (ofLE data).testBit (8 * iIndexShift + bits + (8 * j + k)) := by
  have hout : ∀ {n : Nat}, data.length ≤ n / 8 → (ofLE data).testBit n = false := by
    intro n hn
    rw [testBit_ofLE, List.getD_eq_getElem?_getD, List.getElem?_eq_none hn]
    exact Nat.zero_testBit _
  unfold downByte at hc
  split at hc
  · obtain rfl := Option.some.inj hc
    exact (testBit_zero_byte k).trans (hout (by omega)).symm
  · rename_i hge
    obtain ⟨b, hb⟩ := exists_byte (show j + iIndexShift < data.length by omega)
    rw [hb, Option.bind_eq_bind, Option.bind_some] at hc
    split at hc
    · rename_i habove
      obtain rfl := Option.some.inj hc
      rw [testBit_highPart (by omega), show 8 + k - (8 - bits) = k + bits by omega]
      by_cases hlt : k + bits < 8
      · rw [testBit_of_byte hb hlt (by omega)]
      · rw [testBit_byte (Nat.le_of_not_lt hlt), hout]
        have hend := List.getElem?_eq_none_iff.1 habove
        omega
    · rename_i above habove
      obtain rfl := Option.some.inj hc
      rw [UInt8.toNat_or, Nat.testBit_or, testBit_highPart (by omega), testBit_lowPart hk, show 8 + k - (8 - bits) = k + bits by omega]
      by_cases hlt : k + bits < 8
      · rw [decide_eq_false (by omega), Bool.false_and, Bool.or_false, testBit_of_byte hb hlt (by omega)]
      · rw [testBit_byte (Nat.le_of_not_lt hlt), decide_eq_true (by omega), Bool.true_and, Bool.false_or,
          testBit_of_byte habove (show k - (8 - bits) < 8 by omega) (by omega)]

/-- A value whose bits are known is known. -/
theorem toNat_eq_of_bits {out : Bytes} {m : Nat} (hlen : out.length = 16) (hm : m < 2 ^ 128)
    (hbit : ∀ j < 16, ∀ c, out[j]? = some c → ∀ k < 8, c.toNat.testBit k = m.testBit (8 * j + k)) : ofLE out = m := by
  apply Nat.eq_of_testBit_eq
  intro n
  by_cases hn : n < 128
  · obtain ⟨c, hc⟩ := exists_byte (show n / 8 < out.length by omega)
    rw [testBit_of_byte hc (Nat.mod_lt n (by decide)) (by omega), hbit _ (by omega) c hc _ (Nat.mod_lt n (by decide)), show 8 * (n / 8) + n % 8 = n by omega]
  · have hpow : 2 ^ 128 ≤ 2 ^ n := Nat.pow_le_pow_right (by decide) (Nat.le_of_not_lt hn)
    have hlt := ofLE_lt out
    rw [hlen] at hlt
    rw [Nat.testBit_lt_two_pow (hm.trans_le hpow), Nat.testBit_lt_two_pow (Nat.lt_of_lt_of_le hlt hpow)]

/-! ## Shifts of the number -/

theorem ofBytes_eq {data : Bytes} (h : data.length = 16) : ofBytes data = some ⟨data, h⟩ := dif_pos h

/-- All counts but one shift the number, and touch no byte outside. -/
theorem shiftLeft_spec (x : CUIntX) {uBits : Nat} (h : uBits ≠ 128 ∨ x.isNull = true) :
    ∃ y, x.shiftLeft uBits = some y ∧ y.toNat = x.toNat <<< uBits % 2 ^ 128 := by
  unfold shiftLeft
  split
  · rename_i hnop
    refine ⟨x, rfl, ?_⟩
    obtain rfl | hnull := hnop
    · rw [Nat.shiftLeft_zero, Nat.mod_eq_of_lt x.toNat_lt]
    · rw [(isNull_iff x).1 hnull, Nat.zero_shiftLeft, Nat.zero_mod]
  · rename_i hnop
    rw [not_or] at hnop
    split
    · rename_i hbig
      refine ⟨init false, rfl, ?_⟩
      rw [Nat.shiftLeft_eq, show uBits = 128 + (uBits - 128) by omega, Nat.pow_add, ← Nat.mul_assoc, Nat.mul_comm _ (2 ^ 128), Nat.mul_assoc,
        Nat.mul_mod_right]
      decide
    · rename_i hle
      have hlt : uBits < 128 := by
        obtain hne | hnull := h
        · omega
        · exact absurd hnull hnop.2
      have hsize := x.size
      obtain ⟨out, hout, hlen, hat⟩ := shiftLeftBytes_spec (uBits % 8) (show uBits / 8 < x.bytes.length by omega)
      rw [hsize] at hlen
      rw [hout, Option.bind_some, ofBytes_eq hlen]
      refine ⟨⟨out, hlen⟩, rfl, toNat_eq_of_bits hlen (Nat.mod_lt _ (by decide)) ?_⟩
      intro j hj c hc k hk
      have hin : decide (8 * j + k < 128) = true := decide_eq_true (by omega)
      rw [testBit_upByte (Nat.mod_lt _ (by decide)) hk (by omega) ((hat j (by omega)).symm.trans hc), Nat.testBit_mod_two_pow, hin,
        Bool.true_and, Nat.testBit_shiftLeft, Nat.div_add_mod]
      rfl

theorem shiftRight_spec (x : CUIntX) {uBits : Nat} (h : uBits ≠ 128 ∨ x.isNull = true) :
    ∃ y, x.shiftRight uBits = some y ∧ y.toNat = x.toNat >>> uBits := by
  unfold shiftRight
  split
  · rename_i hnop
    refine ⟨x, rfl, ?_⟩
    obtain rfl | hnull := hnop
    · rfl
    · rw [(isNull_iff x).1 hnull, Nat.zero_shiftRight]
  · rename_i hnop
    rw [not_or] at hnop
    split
    · rename_i hbig
      refine ⟨init false, rfl, ?_⟩
      rw [Nat.shiftRight_eq_div_pow, Nat.div_eq_of_lt (x.toNat_lt.trans_le (Nat.pow_le_pow_right (by decide) (Nat.le_of_lt hbig)))]
      decide
    · rename_i hle
      have hlt : uBits < 128 := by
        obtain hne | hnull := h
        · omega
        · exact absurd hnull hnop.2
      have hsize := x.size
      obtain ⟨out, hout, hlen, hat⟩ := shiftRightBytes_spec (uBits % 8) (show uBits / 8 < x.bytes.length by omega)
      rw [hsize] at hlen
      rw [hout, Option.bind_some, ofBytes_eq hlen]
      refine ⟨⟨out, hlen⟩, rfl, toNat_eq_of_bits hlen ?_ ?_⟩
      · exact (Nat.shiftRight_le _ _).trans_lt x.toNat_lt
      · intro j hj c hc k hk
        rw [testBit_downByte (Nat.mod_lt _ (by decide)) hk ((hat j (by omega)).symm.trans hc), Nat.testBit_shiftRight, Nat.div_add_mod]
        rfl

/-- By its own length the one way reads the byte in front of the value, the other the byte behind it. -/
theorem shift_length {x : CUIntX} (h : x.isNull ≠ true) : x.shiftLeft 128 = none ∧ x.shiftRight 128 = none := by
  have hcond : ¬ (128 = 0 ∨ x.isNull = true) := fun hor => hor.elim (fun h0 => by cases h0) h
  constructor
  · unfold shiftLeft
    rw [if_neg hcond, if_neg (by decide)]
    unfold shiftLeftBytes
    rw [x.size]
    rfl
  · unfold shiftRight
    rw [if_neg hcond, if_neg (by decide)]
    unfold shiftRightBytes
    rw [List.getElem?_eq_none (by rw [x.size])]
    rfl

/-! ## Powers of two -/

theorem pos_two_pow : ∀ p, pos (2 ^ p - 1) = p
  | 0 => by
    unfold pos
    rfl
  | p + 1 => by
    have hpow := Nat.two_pow_pos p
    unfold pos
    rw [if_neg (by rw [Nat.pow_succ]; omega), show (2 ^ (p + 1) - 1) / 2 = 2 ^ p - 1 by rw [Nat.pow_succ]; omega, pos_two_pow p]

/-- `2 ^ p` as a factor. -/
def factor (p : Fin 32) : UInt32 := .ofNat (2 ^ p.val)

theorem factor_spec (p : Fin 32) : factor p ≠ 0 ∧ factor p &&& (factor p - 1) = 0 ∧ (factor p - 1).toNat = 2 ^ p.val - 1 := by
  revert p
  decide

theorem multi_factor (x : CUIntX) (p : Fin 32) : x.multi (factor p) = x.shiftLeft p := by
  obtain ⟨hne, hand, hval⟩ := factor_spec p
  rw [multi, if_neg hne, if_pos hand, hval, pos_two_pow]

theorem div_factor (x : CUIntX) (p : Fin 32) : x.div (factor p) = x.shiftRight p := by
  obtain ⟨hne, hand, hval⟩ := factor_spec p
  rw [div, if_neg hne, if_pos hand, hval, pos_two_pow]

/-! ## Arithmetic -/

/-- The operations on a value, factors by their powers of two. -/
inductive Op
  | add (u : CUIntX)
  | subtract (u : CUIntX)
  | multi (p : Fin 32)
  | div (p : Fin 32)
  | shiftLeft (uBits : UInt32)
  | shiftRight (uBits : UInt32)

namespace Op

/-- What the code makes of a value; nothing if it touches a byte outside. -/
def run (x : CUIntX) : Op → Option CUIntX
  | .add u => some (x.add u)
  | .subtract u => some (x.subtract u)
  | .multi p => x.multi (factor p)
  | .div p => x.div (factor p)
  | .shiftLeft uBits => x.shiftLeft uBits.toNat
  | .shiftRight uBits => x.shiftRight uBits.toNat

/-- The arithmetic of natural numbers modulo `2 ^ 128`. -/
def value (m : Nat) : Op → Nat
  | .add u => (m + u.toNat) % 2 ^ 128
  | .subtract u => (m + 2 ^ 128 - u.toNat) % 2 ^ 128
  | .multi p => m * 2 ^ p.val % 2 ^ 128
  | .div p => m / 2 ^ p.val
  | .shiftLeft uBits => m * 2 ^ uBits.toNat % 2 ^ 128
  | .shiftRight uBits => m / 2 ^ uBits.toNat

def Agrees (x : CUIntX) (op : Op) : Prop := ∃ y, op.run x = some y ∧ y.toNat = op.value x.toNat

/-- A difference needs no borrow, and a shift is not by the length of the value. -/
def Fits (x : CUIntX) : Op → Prop
  | .subtract u => Below u x
  | .shiftLeft uBits | .shiftRight uBits => uBits ≠ 128 ∨ x.toNat = 0
  | _ => True

instance (x : CUIntX) : ∀ op : Op, Decidable (Fits x op)
  | .subtract u => inferInstanceAs (Decidable (Below u x))
  | .shiftLeft uBits | .shiftRight uBits => inferInstanceAs (Decidable (uBits ≠ 128 ∨ x.toNat = 0))
  | .add _ | .multi _ | .div _ => inferInstanceAs (Decidable True)

end Op

theorem ne_length_iff {x : CUIntX} {uBits : UInt32} : (uBits ≠ 128 ∨ x.toNat = 0) ↔ (uBits.toNat ≠ 128 ∨ x.isNull = true) := by
  rw [isNull_iff, ne_eq, ne_eq, ← UInt32.toNat_inj]
  rfl

/-- The operations compute modulo `2 ^ 128`, but for borrows and the shift by all bits. -/
theorem arithmetic_iff (x : CUIntX) : (∀ op : Op, op.Agrees x ↔ op.Fits x) ∧
    ∀ u : CUIntX, x.compareTo u = compared x.toNat u.toNat := by
  refine ⟨fun op => ?_, compareTo_eq x⟩
  have hp : ∀ p : Fin 32, p.val ≠ 128 := fun p h => absurd (h ▸ p.isLt) (by decide)
  have hleft : ∀ {uBits : Nat}, (uBits ≠ 128 ∨ x.isNull = true) → ∃ y, x.shiftLeft uBits = some y ∧ y.toNat = x.toNat * 2 ^ uBits % 2 ^ 128 := by
    intro uBits h
    obtain ⟨y, hy, hval⟩ := shiftLeft_spec x h
    exact ⟨y, hy, by rw [hval, Nat.shiftLeft_eq]⟩
  have hright : ∀ {uBits : Nat}, (uBits ≠ 128 ∨ x.isNull = true) → ∃ y, x.shiftRight uBits = some y ∧ y.toNat = x.toNat / 2 ^ uBits := by
    intro uBits h
    obtain ⟨y, hy, hval⟩ := shiftRight_spec x h
    exact ⟨y, hy, by rw [hval, Nat.shiftRight_eq_div_pow]⟩
  have hlength : ∀ {uBits : UInt32}, ¬ (uBits ≠ 128 ∨ x.toNat = 0) → x.shiftLeft uBits.toNat = none ∧ x.shiftRight uBits.toNat = none := by
    intro uBits hnot
    rw [ne_length_iff, not_or, not_not] at hnot
    rw [hnot.1]
    exact shift_length hnot.2
  cases op with
  | add u => exact iff_of_true ⟨x.add u, rfl, toNat_add x u⟩ trivial
  | subtract u =>
    rw [show Op.Fits x (.subtract u) = Below u x from rfl, ← toNat_subtract_iff]
    constructor
    · rintro ⟨y, hy, hval⟩
      cases hy
      exact hval
    · intro hval
      exact ⟨x.subtract u, rfl, hval⟩
  | multi p =>
    refine iff_of_true ?_ trivial
    obtain ⟨y, hy, hval⟩ := hleft (.inl (hp p))
    exact ⟨y, (multi_factor x p).trans hy, hval⟩
  | div p =>
    refine iff_of_true ?_ trivial
    obtain ⟨y, hy, hval⟩ := hright (.inl (hp p))
    exact ⟨y, (div_factor x p).trans hy, hval⟩
  | shiftLeft uBits =>
    constructor
    · rintro ⟨y, hy, -⟩
      by_contra hnot
      cases (hlength hnot).1.symm.trans hy
    · intro h
      exact hleft (ne_length_iff.1 h)
  | shiftRight uBits =>
    constructor
    · rintro ⟨y, hy, -⟩
      by_contra hnot
      cases (hlength hnot).2.symm.trans hy
    · intro h
      exact hright (ne_length_iff.1 h)

/-- The value of a double word. -/
def ofDWord (i v : Nat) : CUIntX := (init false).setDWord i v

/-- A one taken from `2 ^ 32`, and a one shifted down by its 128 bits. -/
theorem not_arithmetic : ¬ (Op.subtract (ofDWord 0 1)).Agrees (ofDWord 1 1) ∧ ¬ (Op.shiftRight 128).Agrees (ofDWord 0 1) := by
  constructor
  · rintro ⟨y, hy, hval⟩
    cases hy
    exact absurd hval (by decide)
  · rintro ⟨y, hy, -⟩
    have hnone : (Op.shiftRight 128).run (ofDWord 0 1) = none := by decide
    cases hnone.symm.trans hy

end CUIntX

end MajorPrivacy.Firewall

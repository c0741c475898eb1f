/-
`ToUtf8` and `FromUtf8` (Buffer.cpp): wide strings are UTF-16 units, narrow ones bytes. Shifts and
masks are written as the divisions and remainders they are.
-/
import MajorPrivacy.Lib.LittleEndian

namespace MajorPrivacy.Variant

open LittleEndian

/-- `L'?'`, which stands for what cannot be decoded. -/
def errUnit : UInt16 := 0x3F

/-! ## Encoding -/

/-- The end of the loop of `ToUtf8`: one code point as UTF-8. -/
def putUtf8 (u : Nat) : Bytes :=
  if u ≤ 0x7F then [UInt8.ofNat u]
  else if u ≤ 0x7FF then [UInt8.ofNat (0xC0 + u / 0x40), UInt8.ofNat (0x80 + u % 0x40)]
  else if u ≤ 0xFFFF then
    [UInt8.ofNat (0xE0 + u / 0x1000), UInt8.ofNat (0x80 + u / 0x40 % 0x40), UInt8.ofNat (0x80 + u % 0x40)]
  else if u ≤ 0x10FFFF then
    [UInt8.ofNat (0xF0 + u / 0x40000), UInt8.ofNat (0x80 + u / 0x1000 % 0x40), UInt8.ofNat (0x80 + u / 0x40 % 0x40),
      UInt8.ofNat (0x80 + u % 0x40)]
  else [0x3F]

/-- The code point of a surrogate pair. -/
def pairCode (wc wc2 : UInt16) : Nat := 0x10000 + ((wc.toNat - 0xD800) * 0x400 + (wc2.toNat - 0xDC00))

/-- `ToUtf8`; a surrogate without its other half becomes a question mark. -/
def toUtf8 : List UInt16 → Bytes
  | [] => []
  | wc :: rest =>
    if 0xD800 ≤ wc ∧ wc ≤ 0xDBFF then
      match rest with
      | [] => putUtf8 0x3F
      | wc2 :: rest2 =>
        if 0xDC00 ≤ wc2 ∧ wc2 ≤ 0xDFFF then putUtf8 (pairCode wc wc2) ++ toUtf8 rest2
        else putUtf8 0x3F ++ toUtf8 (wc2 :: rest2)
    else if 0xDC00 ≤ wc ∧ wc ≤ 0xDFFF then putUtf8 0x3F ++ toUtf8 rest
    else putUtf8 wc.toNat ++ toUtf8 rest

/-! ## Decoding -/

/-- What `FromUtf8` writes for a complete sequence. -/
def putUtf16 (u : Nat) : List UInt16 :=
  if u ≤ 0xFFFF then [UInt16.ofNat u]
  else if u ≤ 0x10FFFF then [UInt16.ofNat (0xD800 + (u - 0x10000) / 0x400), UInt16.ofNat (0xDC00 + (u - 0x10000) % 0x400)]
  else [errUnit]

/-- The loop of `FromUtf8` with the bits read so far and how many bytes are to come. A new first byte
drops an incomplete sequence without a word. -/
def fromUtf8Loop : Bytes → Nat → Nat → List UInt16
  | [], _, bytes => if bytes ≠ 0 then [errUnit] else []
  | c :: rest, u, bytes =>
    if c ≤ 0x7F then (if bytes ≠ 0 then [errUnit] else []) ++ c.toUInt16 :: fromUtf8Loop rest u 0
    else if c ≤ 0xBF then
      match bytes with
      | 0 => errUnit :: fromUtf8Loop rest u 0
      | 1 => putUtf16 (u * 0x40 + c.toNat % 0x40) ++ fromUtf8Loop rest (u * 0x40 + c.toNat % 0x40) 0
      | bytes + 2 => fromUtf8Loop rest (u * 0x40 + c.toNat % 0x40) (bytes + 1)
    else if c ≤ 0xDF then fromUtf8Loop rest (c.toNat % 0x20) 1
    else if c ≤ 0xEF then fromUtf8Loop rest (c.toNat % 0x10) 2
    else if c ≤ 0xF7 then fromUtf8Loop rest (c.toNat % 0x08) 3
    else errUnit :: fromUtf8Loop rest u 0

def fromUtf8 (str : Bytes) : List UInt16 := fromUtf8Loop str 0 0

/-- The characters of a wide string from its bytes; an odd last one is left over. -/
def wideUnits : Bytes → List UInt16
  | lo :: hi :: rest => UInt16.ofNat (ofLE [lo, hi]) :: wideUnits rest
  | _ => []

/-- The bytes of a wide string. -/
def wideBytes (str : List UInt16) : Bytes := str.flatMap fun c => toLE 2 c.toNat

/-- `StrW.Assign` from narrow characters, each of which is a signed `char`. -/
def widen (str : Bytes) : List UInt16 :=
  str.map fun c => if c < 0x80 then c.toUInt16 else c.toUInt16 + 0xFF00

/-! ## Well-formed text -/

/-- Text without a lone surrogate. -/
inductive WellFormed : List UInt16 → Prop
  | nil : WellFormed []
  | unit {c : UInt16} {rest : List UInt16} (hc : c < 0xD800 ∨ 0xDFFF < c) (h : WellFormed rest) : WellFormed (c :: rest)
  | pair {hi lo : UInt16} {rest : List UInt16} (hhi : 0xD800 ≤ hi ∧ hi ≤ 0xDBFF) (hlo : 0xDC00 ≤ lo ∧ lo ≤ 0xDFFF)
    (h : WellFormed rest) : WellFormed (hi :: lo :: rest)

theorem toUtf8_unit {c : UInt16} (hc : c < 0xD800 ∨ 0xDFFF < c) (rest : List UInt16) :
    toUtf8 (c :: rest) = putUtf8 c.toNat ++ toUtf8 rest := by
  have h₁ : ¬(0xD800 ≤ c ∧ c ≤ 0xDBFF) := by
    simp only [UInt16.le_iff_toNat_le, UInt16.lt_iff_toNat_lt] at hc ⊢
    simp at hc ⊢
    omega
  have h₂ : ¬(0xDC00 ≤ c ∧ c ≤ 0xDFFF) := by
    simp only [UInt16.le_iff_toNat_le, UInt16.lt_iff_toNat_lt] at hc ⊢
    simp at hc ⊢
    omega
  rw [toUtf8.eq_def]
  simp only [if_neg h₁, if_neg h₂]

theorem toUtf8_pair {hi lo : UInt16} (hhi : 0xD800 ≤ hi ∧ hi ≤ 0xDBFF) (hlo : 0xDC00 ≤ lo ∧ lo ≤ 0xDFFF)
    (rest : List UInt16) : toUtf8 (hi :: lo :: rest) = putUtf8 (pairCode hi lo) ++ toUtf8 rest := by
  rw [toUtf8, if_pos hhi]
  simp only [if_pos hlo]

/-- The bits of an incomplete sequence are not looked at between characters. -/
theorem fromUtf8Loop_start (rest : Bytes) (u v : Nat) : fromUtf8Loop rest u 0 = fromUtf8Loop rest v 0 := by
  induction rest generalizing u v with
  | nil => rfl
  | cons c rest ih =>
    unfold fromUtf8Loop
    rw [ih u v]

section Steps
variable (rest : Bytes) (u v : Nat)

theorem toNat_byte {n : Nat} (h : n < 256) : (UInt8.ofNat n).toNat = n := by
  rw [UInt8.toNat_ofNat']
  omega

theorem fromUtf8Loop_ascii {n : Nat} (h : n ≤ 0x7F) :
    fromUtf8Loop (UInt8.ofNat n :: rest) v 0 = UInt16.ofNat n :: fromUtf8Loop rest v 0 := by
  have hn := toNat_byte (n := n) (by omega)
  have hc : UInt8.ofNat n ≤ 0x7F := by
    rw [UInt8.le_iff_toNat_le, hn]
    exact h
  have hw : (UInt8.ofNat n).toUInt16 = UInt16.ofNat n := by
    apply UInt16.toNat_inj.1
    rw [UInt8.toNat_toUInt16, hn, UInt16.toNat_ofNat']
    omega
  rw [fromUtf8Loop, if_pos hc, hw]
  rfl

theorem byte_class {n : Nat} (h : n < 256) (m : UInt8) : UInt8.ofNat n ≤ m ↔ n ≤ m.toNat := by
  rw [UInt8.le_iff_toNat_le, toNat_byte h]

/-- Between ASCII and the bytes no sequence starts with or goes on with, the high bits decide. -/
theorem fromUtf8Loop_high {n : Nat} (h : n < 256) (h₁ : 0x7F < n) (bytes : Nat) :
    fromUtf8Loop (UInt8.ofNat n :: rest) u bytes =
      if n ≤ 0xBF then
        match bytes with
        | 0 => errUnit :: fromUtf8Loop rest u 0
        | 1 => putUtf16 (u * 0x40 + n % 0x40) ++ fromUtf8Loop rest (u * 0x40 + n % 0x40) 0
        | bytes + 2 => fromUtf8Loop rest (u * 0x40 + n % 0x40) (bytes + 1)
      else if n ≤ 0xDF then fromUtf8Loop rest (n % 0x20) 1
      else if n ≤ 0xEF then fromUtf8Loop rest (n % 0x10) 2
      else if n ≤ 0xF7 then fromUtf8Loop rest (n % 0x08) 3
      else errUnit :: fromUtf8Loop rest u 0 := by
  have hascii : ¬ n ≤ UInt8.toNat 0x7F := not_le.2 h₁
  rw [fromUtf8Loop.eq_def]
  simp only [byte_class h, toNat_byte h, if_neg hascii]
  rfl

theorem fromUtf8Loop_tail {n : Nat} (h : n < 0x40) (bytes : Nat) :
    fromUtf8Loop (UInt8.ofNat (0x80 + n) :: rest) u (bytes + 2) = fromUtf8Loop rest (u * 0x40 + n) (bytes + 1) := by
  have hm : (0x80 + n) % 0x40 = n := by omega
  rw [fromUtf8Loop_high _ _ (by omega) (by omega), if_pos (by omega), hm]

theorem fromUtf8Loop_last {n : Nat} (h : n < 0x40) :
    fromUtf8Loop (UInt8.ofNat (0x80 + n) :: rest) u 1 =
      putUtf16 (u * 0x40 + n) ++ fromUtf8Loop rest (u * 0x40 + n) 0 := by
  have hm : (0x80 + n) % 0x40 = n := by omega
  rw [fromUtf8Loop_high _ _ (by omega) (by omega), if_pos (by omega), hm]

theorem fromUtf8Loop_two {n : Nat} (h : n < 0x20) (bytes : Nat) :
    fromUtf8Loop (UInt8.ofNat (0xC0 + n) :: rest) u bytes = fromUtf8Loop rest n 1 := by
  have hm : (0xC0 + n) % 0x20 = n := by omega
  rw [fromUtf8Loop_high _ _ (by omega) (by omega), if_neg (by omega), if_pos (by omega), hm]

theorem fromUtf8Loop_three {n : Nat} (h : n < 0x10) (bytes : Nat) :
    fromUtf8Loop (UInt8.ofNat (0xE0 + n) :: rest) u bytes = fromUtf8Loop rest n 2 := by
  have hm : (0xE0 + n) % 0x10 = n := by omega
  rw [fromUtf8Loop_high _ _ (by omega) (by omega), if_neg (by omega), if_neg (by omega), if_pos (by omega), hm]

theorem fromUtf8Loop_four {n : Nat} (h : n < 0x08) (bytes : Nat) :
    fromUtf8Loop (UInt8.ofNat (0xF0 + n) :: rest) u bytes = fromUtf8Loop rest n 3 := by
  have hm : (0xF0 + n) % 0x08 = n := by omega
  rw [fromUtf8Loop_high _ _ (by omega) (by omega), if_neg (by omega), if_neg (by omega), if_neg (by omega),
    if_pos (by omega), hm]

end Steps

/-- A code point that was written is read back. -/
theorem fromUtf8Loop_put {u : Nat} (hu : u ≤ 0x10FFFF) (rest : Bytes) (v : Nat) :
    fromUtf8Loop (putUtf8 u ++ rest) v 0 = putUtf16 u ++ fromUtf8Loop rest v 0 := by
  unfold putUtf8
  split_ifs with h₁ h₂ h₃
  · have hput : putUtf16 u = [UInt16.ofNat u] := if_pos (by omega)
    rw [hput]
    exact fromUtf8Loop_ascii rest v h₁
  · have hcode : u / 0x40 * 0x40 + u % 0x40 = u := by omega
    simp only [List.cons_append, List.nil_append]
    rw [fromUtf8Loop_two _ _ (by omega), fromUtf8Loop_last _ _ (by omega), hcode, fromUtf8Loop_start rest u v]
  · have hcode : (u / 0x1000 * 0x40 + u / 0x40 % 0x40) * 0x40 + u % 0x40 = u := by omega
    simp only [List.cons_append, List.nil_append]
    rw [fromUtf8Loop_three _ _ (by omega), fromUtf8Loop_tail _ _ (by omega), fromUtf8Loop_last _ _ (by omega), hcode,
      fromUtf8Loop_start rest u v]
  · have hcode : ((u / 0x40000 * 0x40 + u / 0x1000 % 0x40) * 0x40 + u / 0x40 % 0x40) * 0x40 + u % 0x40 = u := by omega
    simp only [List.cons_append, List.nil_append]
    rw [fromUtf8Loop_four _ _ (by omega), fromUtf8Loop_tail _ _ (by omega), fromUtf8Loop_tail _ _ (by omega),
      fromUtf8Loop_last _ _ (by omega), hcode, fromUtf8Loop_start rest u v]

theorem putUtf16_unit (c : UInt16) : putUtf16 c.toNat = [c] := by
  have hc := c.toNat_lt
  rw [putUtf16, if_pos (by omega), UInt16.ofNat_toNat]

theorem pairCode_le {hi lo : UInt16} (hhi : hi ≤ 0xDBFF) (hlo : lo ≤ 0xDFFF) : pairCode hi lo ≤ 0x10FFFF := by
  rw [UInt16.le_iff_toNat_le] at hhi hlo
  simp at hhi hlo
  unfold pairCode
  omega

theorem putUtf16_pair {hi lo : UInt16} (hhi : 0xD800 ≤ hi ∧ hi ≤ 0xDBFF) (hlo : 0xDC00 ≤ lo ∧ lo ≤ 0xDFFF) :
    putUtf16 (pairCode hi lo) = [hi, lo] := by
  have hle := pairCode_le hhi.2 hlo.2
  simp only [UInt16.le_iff_toNat_le] at hhi hlo
  simp at hhi hlo
  have h₁ : 0xD800 + (pairCode hi lo - 0x10000) / 0x400 = hi.toNat := by unfold pairCode; omega
  have h₂ : 0xDC00 + (pairCode hi lo - 0x10000) % 0x400 = lo.toNat := by unfold pairCode; omega
  rw [putUtf16, if_neg (by unfold pairCode; omega), if_pos hle, h₁, h₂, UInt16.ofNat_toNat, UInt16.ofNat_toNat]

/-- Text survives UTF-8. -/
theorem fromUtf8_toUtf8 {s : List UInt16} (h : WellFormed s) : fromUtf8 (toUtf8 s) = s := by
  unfold fromUtf8
  induction h with
  | nil => rfl
  | @unit c rest hc h ih =>
    have hlt := c.toNat_lt
    rw [toUtf8_unit hc, fromUtf8Loop_put (by omega), putUtf16_unit, ih]
    rfl
  | pair hhi hlo h ih =>
    rw [toUtf8_pair hhi hlo, fromUtf8Loop_put (pairCode_le hhi.2 hlo.2), putUtf16_pair hhi hlo, ih]
    rfl

theorem wideUnits_wideBytes : ∀ s : List UInt16, wideUnits (wideBytes s) = s
  | [] => rfl
  | c :: s => by
    have hc : UInt16.ofNat (ofLE (toLE 2 c.toNat)) = c := by
      rw [ofLE_toLE_of_lt c.toNat_lt, UInt16.ofNat_toNat]
    rw [wideBytes, List.flatMap_cons]
    show UInt16.ofNat (ofLE (toLE 2 c.toNat)) :: wideUnits (wideBytes s) = c :: s
    rw [hc, wideUnits_wideBytes s]

theorem length_wideBytes (s : List UInt16) : (wideBytes s).length = 2 * s.length := by
  induction s with
  | nil => rfl
  | cons c s ih =>
    have hcons : wideBytes (c :: s) = toLE 2 c.toNat ++ wideBytes s := rfl
    rw [hcons, List.length_append, length_toLE, ih, List.length_cons]
    omega

/-! ## Text that is ASCII -/

theorem length_putUtf8 {u : Nat} (hu : u ≤ 0x10FFFF) :
    (putUtf8 u).length = if u ≤ 0x7F then 1 else if u ≤ 0x7FF then 2 else if u ≤ 0xFFFF then 3 else 4 := by
  unfold putUtf8
  split_ifs <;> rfl

/-- UTF-8 has at least as many bytes as the text has units, and more when it is not ASCII. -/
theorem length_toUtf8 {s : List UInt16} (h : WellFormed s) :
    s.length ≤ (toUtf8 s).length ∧ ((toUtf8 s).length = s.length → ∀ c ∈ s, c.toNat ≤ 0x7F) := by
  induction h with
  | nil => exact ⟨Nat.le_refl _, by simp⟩
  | @unit c rest hc h ih =>
    have hlt := c.toNat_lt
    have hlen := length_putUtf8 (u := c.toNat) (by omega)
    rw [toUtf8_unit hc, List.length_append, List.length_cons]
    constructor
    · split_ifs at hlen <;> omega
    · rintro he
      rw [List.forall_mem_cons]
      split_ifs at hlen with h₁ <;> first | exact ⟨h₁, ih.2 (by omega)⟩ | omega
  | @pair hi lo rest hhi hlo h ih =>
    have hle := pairCode_le hhi.2 hlo.2
    have hlen := length_putUtf8 hle
    have hge : 0x10000 ≤ pairCode hi lo := by unfold pairCode; omega
    rw [if_neg (by omega), if_neg (by omega), if_neg (by omega)] at hlen
    rw [toUtf8_pair hhi hlo, List.length_append, List.length_cons, List.length_cons]
    constructor
    · omega
    · rintro he
      omega

theorem widen_toUtf8_of_ascii : ∀ {s : List UInt16}, (∀ c ∈ s, c.toNat ≤ 0x7F) → widen (toUtf8 s) = s
  | [], _ => rfl
  | c :: s, h => by
    rcases List.forall_mem_cons.1 h with ⟨hc, hs⟩
    have hunit : c < 0xD800 ∨ 0xDFFF < c := by
      left
      rw [UInt16.lt_iff_toNat_lt]
      exact lt_of_le_of_lt hc (by decide)
    have hput : putUtf8 c.toNat = [UInt8.ofNat c.toNat] := if_pos hc
    have hlow : UInt8.ofNat c.toNat < 0x80 := by
      rw [UInt8.lt_iff_toNat_lt, toNat_byte (by omega)]
      exact Nat.lt_succ_of_le hc
    have hback : (UInt8.ofNat c.toNat).toUInt16 = c := by
      apply UInt16.toNat_inj.1
      rw [UInt8.toNat_toUInt16, toNat_byte (by omega)]
    rw [toUtf8_unit hunit, hput, List.singleton_append, widen, List.map_cons, if_pos hlow, hback]
    exact congrArg (c :: ·) (widen_toUtf8_of_ascii hs)

/-- Read byte by byte, text comes back from UTF-8 when it is ASCII. -/
theorem widen_toUtf8_iff {s : List UInt16} (h : WellFormed s) :
    widen (toUtf8 s) = s ↔ ∀ c ∈ s, c.toNat ≤ 0x7F := by
  constructor
  · rintro he
    apply (length_toUtf8 h).2
    rw [← congrArg List.length he, widen, List.length_map]
  · exact widen_toUtf8_of_ascii

end MajorPrivacy.Variant

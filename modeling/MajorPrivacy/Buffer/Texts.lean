/-
The text functions of the buffer (Buffer.cpp): what `WriteString` makes of a string, and what `ReadString` makes of
the bytes. The byte order mark is looked for with `CompareAt`, which compares as many bytes as the text has.
-/
import MajorPrivacy.Variant.Text

namespace MajorPrivacy.Buffer

open LittleEndian Variant

/-! ## The functions -/

inductive EStrSet where
  | eAscii
  | eUtf8_BOM
  | eUtf8
  deriving DecidableEq, Repr

inductive EStrLen where
  | e8Bit
  | e16Bit
  | e32Bit
  deriving DecidableEq, Repr

/-- The bytes of the length in front of a text. -/
def EStrLen.width : EStrLen → Nat
  | e8Bit => 1
  | e16Bit => 2
  | e32Bit => 4

/-- `FW::StringA`: its characters, `none` as long as it has no data. -/
abbrev StringA := Option Bytes

def toAscii (str : List UInt16) : StringA :=
  if str = [] then none else some (str.map fun wc => if wc < 0x80 then wc.toUInt8 else 0x3F)

def toUtf8A (str : List UInt16) : StringA := if str = [] then none else some (toUtf8 str)

/-- `"\xEF\xBB\xBF"` -/
def bom : Bytes := [0xEF, 0xBB, 0xBF]

/-- `RawString.Insert(0, "\xEF\xBB\xBF")`, which reads the length of a string without data through a null pointer. -/
def insertBom : StringA → Option StringA
  | none => none
  | some data => some (some (bom ++ data))

/-- The bytes that `WriteString` writes. -/
def rawString (str : List UInt16) : EStrSet → Option StringA
  | .eAscii => some (toAscii str)
  | .eUtf8 => some (toUtf8A str)
  | .eUtf8_BOM => insertBom (toUtf8A str)

/-- `memcmp`, the second argument being memory. -/
def memCmp : Bytes → (Nat → UInt8) → Int
  | [], _ => 0
  | c :: l, r => if c < r 0 then -1 else if r 0 < c then 1 else memCmp l fun i => r (i + 1)

/-- `CompareAt`. The comparison covers all of the rest of the string. -/
def compareAt (str : StringA) (uStart : Nat) (pStr : Nat → UInt8) (uLength : Nat) : Int :=
  match str with
  | none => -1
  | some data =>
    if data.length ≤ uStart then -2
    else if data.length - uStart < uLength then -1
    else memCmp (data.drop uStart) pStr

/-- The literal in memory, with its terminator and what is behind it. -/
def bomLiteral (behind : Nat → UInt8) : Nat → UInt8
  | 0 => 0xEF
  | 1 => 0xBB
  | 2 => 0xBF
  | 3 => 0
  | i => behind i

def skipsBom (behind : Nat → UInt8) (raw : StringA) : Bool := compareAt raw 0 (bomLiteral behind) 3 = 0

/-- The second half of `ReadString`. -/
def textOf (behind : Nat → UInt8) (set : EStrSet) (raw : StringA) : List UInt16 :=
  if skipsBom behind raw then fromUtf8 ((raw.getD []).drop 3)
  else
    match set with
    | .eUtf8 => fromUtf8 (raw.getD [])
    | .eAscii | .eUtf8_BOM => widen (raw.getD [])

/-! ## The byte order mark -/

theorem memCmp_eq_zero : ∀ {l : Bytes} {r : Nat → UInt8}, memCmp l r = 0 ↔ ∀ (i : Nat) (c : UInt8), l[i]? = some c → r i = c
  | [], r => by
    constructor
    · intro _ i c h
      cases h
    · intro _
      rfl
  | c :: l, r => by
    rw [memCmp]
    by_cases hlt : c < r 0
    · rw [if_pos hlt]
      constructor
      · intro h
        cases h
      · intro h
        rw [h 0 c rfl] at hlt
        exact absurd hlt (UInt8.lt_irrefl c)
    · by_cases hgt : r 0 < c
      · rw [if_neg hlt, if_pos hgt]
        constructor
        · intro h
          cases h
        · intro h
          rw [h 0 c rfl] at hgt
          exact absurd hgt (UInt8.lt_irrefl c)
      · have heq : r 0 = c := UInt8.le_antisymm (UInt8.not_lt.1 hlt) (UInt8.not_lt.1 hgt)
        rw [if_neg hlt, if_neg hgt, memCmp_eq_zero]
        constructor
        · intro h i c' hi
          obtain _ | i := i
          · exact heq.trans (Option.some.inj hi)
          · exact h i c' hi
        · intro h i c' hi
          exact h (i + 1) c' hi

theorem skipsBom_iff (behind : Nat → UInt8) (data : Bytes) :
    skipsBom behind (some data) = true ↔ 3 ≤ data.length ∧ ∀ (i : Nat) (c : UInt8), data[i]? = some c → bomLiteral behind i = c := by
  unfold skipsBom compareAt
  simp only [decide_eq_true_eq]
  by_cases hnil : data.length ≤ 0
  · rw [if_pos hnil]
    constructor
    · intro h
      cases h
    · rintro ⟨h, -⟩
      omega
  · rw [if_neg hnil, Nat.sub_zero]
    by_cases hshort : data.length < 3
    · rw [if_pos hshort]
      constructor
      · intro h
        cases h
      · rintro ⟨h, -⟩
        omega
    · rw [if_neg hshort, List.drop_zero, memCmp_eq_zero]
      exact ⟨fun h => ⟨by omega, h⟩, fun h => h.2⟩

/-- Of the texts without a terminator the mark is found in one. -/
theorem skipsBom_iff_eq (behind : Nat → UInt8) {data : Bytes} (hdata : ∀ c ∈ data, c ≠ 0) :
    skipsBom behind (some data) = true ↔ data = bom := by
  rw [skipsBom_iff]
  constructor
  · rintro ⟨hlen, h⟩
    obtain _ | ⟨a, _ | ⟨b, _ | ⟨c, rest⟩⟩⟩ := data
    · simp only [List.length_nil] at hlen
      omega
    · simp only [List.length_cons, List.length_nil] at hlen
      omega
    · simp only [List.length_cons, List.length_nil] at hlen
      omega
    · have hrest : rest = [] := by
        cases rest with
        | nil => rfl
        | cons d rest =>
          -- the terminator of the literal would have to be a character
          exact absurd (h 3 d rfl).symm (hdata d (by simp))
      rw [← h 0 a rfl, ← h 1 b rfl, ← h 2 c rfl, hrest]
      rfl
  · rintro rfl
    refine ⟨Nat.le_refl _, ?_⟩
    intro i c h
    obtain _ | _ | _ | i := i
    · exact Option.some.inj h
    · exact Option.some.inj h
    · exact Option.some.inj h
    · cases h

/-- The mark is found where it is, except in front of a text. -/
theorem skipsBom_iff_isPrefix (behind : Nat → UInt8) {data : Bytes} (hdata : ∀ c ∈ data, c ≠ 0) :
    (skipsBom behind (some data) = true ↔ bom <+: data) ↔ (bom <+: data → data.length = 3) := by
  rw [skipsBom_iff_eq behind hdata]
  constructor
  · intro h hpre
    rw [h.2 hpre]
    rfl
  · intro h
    constructor
    · rintro rfl
      exact List.prefix_rfl
    · intro hpre
      exact (hpre.eq_of_length (h hpre).symm).symm

/-! ## How long a text is -/

/-- The bytes a unit takes in UTF-8, half of a pair taking two. -/
def weight (c : UInt16) : Nat :=
  if c.toNat < 0x80 then 1 else if c.toNat < 0x800 then 2 else if 0xD800 ≤ c.toNat ∧ c.toNat ≤ 0xDFFF then 2 else 3

def weights (str : List UInt16) : Nat := (str.map weight).sum

theorem weights_cons (c : UInt16) (str : List UInt16) : weights (c :: str) = weight c + weights str := rfl

theorem weights_append (l r : List UInt16) : weights (l ++ r) = weights l + weights r := by
  unfold weights
  rw [List.map_append, List.sum_append]

theorem weight_bounds (c : UInt16) : 1 ≤ weight c ∧ weight c ≤ 3 := by
  unfold weight
  split_ifs <;> omega

theorem weights_le : ∀ str : List UInt16, weights str ≤ 3 * str.length
  | [] => Nat.le_refl 0
  | c :: str => by
    have := (weight_bounds c).2
    have := weights_le str
    rw [weights_cons, List.length_cons]
    omega

theorem length_putUtf8_le (c : UInt16) (hc : ¬(0xD800 ≤ c.toNat ∧ c.toNat ≤ 0xDFFF)) : (putUtf8 c.toNat).length ≤ weight c := by
  have hlt := c.toNat_lt
  have hlen := length_putUtf8 (u := c.toNat) (by omega)
  unfold weight
  split_ifs at hlen ⊢ <;> omega

theorem notSurrogate {c : UInt16} (h₁ : ¬(0xD800 ≤ c ∧ c ≤ 0xDBFF)) (h₂ : ¬(0xDC00 ≤ c ∧ c ≤ 0xDFFF)) :
    ¬(0xD800 ≤ c.toNat ∧ c.toNat ≤ 0xDFFF) := by
  rw [UInt16.le_iff_toNat_le, UInt16.le_iff_toNat_le] at h₁ h₂
  change ¬(0xD800 ≤ c.toNat ∧ c.toNat ≤ 0xDBFF) at h₁
  change ¬(0xDC00 ≤ c.toNat ∧ c.toNat ≤ 0xDFFF) at h₂
  omega

theorem weight_surrogate {c : UInt16} (h : 0xD800 ≤ c.toNat ∧ c.toNat ≤ 0xDFFF) : weight c = 2 := by
  unfold weight
  rw [if_neg (by omega), if_neg (by omega), if_pos h]

/-- A text is no longer than its units ask for. -/
theorem length_toUtf8_le (str : List UInt16) : (toUtf8 str).length ≤ weights str := by
  have hquestion : (putUtf8 0x3F).length = 1 := rfl
  fun_induction toUtf8 str with
  | case1 => exact Nat.le_refl 0
  | case2 wc hhi => exact (weight_bounds wc).1
  | case3 wc hhi wc2 rest hlo ih =>
    have hpair := length_putUtf8 (pairCode_le hhi.2 hlo.2)
    have hlt : (putUtf8 (pairCode wc wc2)).length ≤ 4 := by
      split_ifs at hpair <;> omega
    have h₁ := weight_surrogate (c := wc) ⟨UInt16.le_iff_toNat_le.1 hhi.1,
      Nat.le_trans (UInt16.le_iff_toNat_le.1 hhi.2) (by decide)⟩
    have h₂ := weight_surrogate (c := wc2) ⟨Nat.le_trans (by decide) (UInt16.le_iff_toNat_le.1 hlo.1),
      UInt16.le_iff_toNat_le.1 hlo.2⟩
    rw [List.length_append, weights_cons, weights_cons, h₁, h₂]
    omega
  | case4 wc hhi wc2 rest hlo ih =>
    have := (weight_bounds wc).1
    rw [List.length_append, weights_cons]
    omega
  | case5 wc rest hhi hlo ih =>
    have := (weight_bounds wc).1
    rw [List.length_append, weights_cons]
    omega
  | case6 wc rest hhi hlo ih =>
    have := length_putUtf8_le wc (notSurrogate hhi hlo)
    rw [List.length_append, weights_cons]
    omega

/-- Beyond the numbers that a sequence of so many bytes can have. -/
def seqLimit : Nat → Nat
  | 2 => 0x800
  | 3 => 0x10000
  | 4 => 0x200000
  | _ => 0

theorem weight_of_lt {u : Nat} (hu : u < 0x10000) (c : UInt16) (hc : c = UInt16.ofNat u) (hsmall : u < 0x800) : weight c ≤ 2 := by
  have hnat : c.toNat = u := by
    rw [hc, UInt16.toNat_ofNat']
    exact Nat.mod_eq_of_lt hu
  unfold weight
  split_ifs <;> omega

theorem weights_putUtf16 {u n : Nat} (hu : u < seqLimit n) : weights (putUtf16 u) ≤ n := by
  have hone : ∀ c, weights [c] = weight c := fun c => Nat.add_zero _
  obtain rfl | rfl | rfl : n = 2 ∨ n = 3 ∨ n = 4 := by
    unfold seqLimit at hu
    split at hu <;> omega
  · have hlt : u < 0x800 := hu
    rw [putUtf16, if_pos (by omega), hone]
    exact weight_of_lt (by omega) _ rfl hlt
  · have hlt : u < 0x10000 := hu
    rw [putUtf16, if_pos (by omega), hone]
    exact (weight_bounds _).2
  · have hlt : u < 0x200000 := hu
    unfold putUtf16
    split_ifs with h₁ h₂
    · rw [hone]
      exact Nat.le_succ_of_le (weight_bounds _).2
    · have hhi : (UInt16.ofNat (0xD800 + (u - 0x10000) / 0x400)).toNat = 0xD800 + (u - 0x10000) / 0x400 := by
        rw [UInt16.toNat_ofNat']
        omega
      have hlo : (UInt16.ofNat (0xDC00 + (u - 0x10000) % 0x400)).toNat = 0xDC00 + (u - 0x10000) % 0x400 := by
        rw [UInt16.toNat_ofNat']
        omega
      rw [weights_cons, hone, weight_surrogate (by omega), weight_surrogate (by omega)]
    · rw [hone]
      exact Nat.le_succ_of_le (weight_bounds _).2

/-- After `k` bytes of a sequence `bytes` more are to come. -/
inductive Pending : (u bytes k : Nat) → Prop
  | start (u : Nat) : Pending u 0 0
  | inside {u bytes k : Nat} (hk : 0 < k) (hu : (u + 1) * 0x40 ^ (bytes + 1) ≤ seqLimit (k + (bytes + 1))) : Pending u (bytes + 1) k

theorem Pending.pos {u bytes k : Nat} (h : Pending u bytes k) (hb : bytes ≠ 0) : 1 ≤ k := by
  cases h with
  | start => exact absurd rfl hb
  | inside hk _ => exact hk

/-- What is decoded asks for no more bytes than there were. -/
theorem weights_fromUtf8Loop : ∀ (str : Bytes) {u bytes k : Nat}, Pending u bytes k →
    weights (fromUtf8Loop str u bytes) ≤ str.length + k
  | [], u, bytes, k, h => by
    unfold fromUtf8Loop
    by_cases hb : bytes ≠ 0
    · rw [if_pos hb]
      exact Nat.le_trans (h.pos hb) (Nat.le_add_left _ _)
    · rw [if_neg hb]
      exact Nat.zero_le _
  | c :: rest, u, bytes, k, h => by
    have hstart := weights_fromUtf8Loop rest (Pending.start u)
    have herr : weight errUnit = 1 := rfl
    have hlead : ∀ v n, (v + 1) * 0x40 ^ (n + 1) ≤ seqLimit (1 + (n + 1)) →
        weights (fromUtf8Loop rest v (n + 1)) ≤ (c :: rest).length + k := by
      intro v n hv
      have := weights_fromUtf8Loop rest (Pending.inside Nat.one_pos hv)
      rw [List.length_cons]
      omega
    have hascii : c ≤ 0x7F → weight c.toUInt16 ≤ 1 := by
      intro h
      unfold weight
      rw [if_pos]
      rw [UInt8.toNat_toUInt16]
      exact Nat.lt_succ_of_le (UInt8.le_iff_toNat_le.1 h)
    have hlen : (c :: rest).length = rest.length + 1 := rfl
    unfold fromUtf8Loop
    split_ifs with h₁ hb h₂ h₃ h₄ h₅
    · -- an incomplete sequence before a byte of its own
      have := hascii h₁
      have := h.pos hb
      rw [weights_append, weights_cons, weights_cons]
      change weight errUnit + 0 + _ ≤ _
      omega
    · have := hascii h₁
      rw [List.nil_append, weights_cons]
      omega
    · cases h with
      | start =>
        rw [weights_cons]
        omega
      | inside hk hu =>
        rename_i bytes
        have hnext : u * 0x40 + c.toNat % 0x40 + 1 ≤ (u + 1) * 0x40 := by omega
        obtain _ | bytes := bytes
        · -- the last byte of a sequence
          have hlt : u * 0x40 + c.toNat % 0x40 < seqLimit (k + 1) := by
            rw [Nat.zero_add, Nat.pow_one] at hu
            omega
          have hput := weights_putUtf16 hlt
          have hrest := weights_fromUtf8Loop rest (Pending.start (u * 0x40 + c.toNat % 0x40))
          change weights (putUtf16 _ ++ _) ≤ _
          rw [weights_append]
          omega
        · have hmore : Pending (u * 0x40 + c.toNat % 0x40) (bytes + 1) (k + 1) := by
            refine .inside (Nat.succ_pos k) ?_
            rw [show k + 1 + (bytes + 1) = k + (bytes + 1 + 1) by omega]
            refine Nat.le_trans (Nat.mul_le_mul_right _ hnext) ?_
            rwa [Nat.mul_assoc, ← Nat.pow_succ']
          have hrest := weights_fromUtf8Loop rest hmore
          change weights (fromUtf8Loop rest _ (bytes + 1)) ≤ _
          omega
    · refine hlead _ 0 ?_
      change (c.toNat % 0x20 + 1) * 0x40 ≤ 0x800
      omega
    · refine hlead _ 1 ?_
      change (c.toNat % 0x10 + 1) * 0x1000 ≤ 0x10000
      omega
    · refine hlead _ 2 ?_
      change (c.toNat % 0x08 + 1) * 0x40000 ≤ 0x200000
      omega
    · rw [weights_cons]
      omega

/-- Text from bytes does not need more bytes than it came from. -/
theorem length_toUtf8_fromUtf8 (str : Bytes) : (toUtf8 (fromUtf8 str)).length ≤ str.length :=
  Nat.le_trans (length_toUtf8_le _) (weights_fromUtf8Loop str (Pending.start 0))

/-! ## Texts that come back -/

/-- `ToUtf8` makes the same of a text and of the one with its lone surrogates replaced. -/
theorem exists_wellFormed (str : List UInt16) : ∃ t, WellFormed t ∧ toUtf8 str = toUtf8 t := by
  have herr : errUnit < 0xD800 ∨ 0xDFFF < errUnit := .inl (by decide)
  have hput : ∀ rest, toUtf8 (errUnit :: rest) = putUtf8 0x3F ++ toUtf8 rest := toUtf8_unit herr
  fun_induction toUtf8 str with
  | case1 => exact ⟨[], .nil, rfl⟩
  | case2 wc hhi => exact ⟨[errUnit], .unit herr .nil, (hput []).symm⟩
  | case3 wc hhi wc2 rest hlo ih =>
    obtain ⟨t, ht, heq⟩ := ih
    exact ⟨wc :: wc2 :: t, .pair hhi hlo ht, by rw [toUtf8_pair hhi hlo, heq]⟩
  | case4 wc hhi wc2 rest hlo ih =>
    obtain ⟨t, ht, heq⟩ := ih
    exact ⟨errUnit :: t, .unit herr ht, by rw [hput, heq]⟩
  | case5 wc rest hhi hlo ih =>
    obtain ⟨t, ht, heq⟩ := ih
    exact ⟨errUnit :: t, .unit herr ht, by rw [hput, heq]⟩
  | case6 wc rest hhi hlo ih =>
    obtain ⟨t, ht, heq⟩ := ih
    have hunit : wc < 0xD800 ∨ 0xDFFF < wc := by
      have := notSurrogate hhi hlo
      rw [UInt16.lt_iff_toNat_lt, UInt16.lt_iff_toNat_lt]
      change wc.toNat < 0xD800 ∨ 0xDFFF < wc.toNat
      omega
    exact ⟨wc :: t, .unit hunit ht, by rw [toUtf8_unit hunit, heq]⟩

theorem fromUtf8_toUtf8_iff (str : List UInt16) : fromUtf8 (toUtf8 str) = str ↔ WellFormed str := by
  constructor
  · intro h
    obtain ⟨t, ht, heq⟩ := exists_wellFormed str
    rw [heq, fromUtf8_toUtf8 ht] at h
    rwa [← h]
  · exact fromUtf8_toUtf8

theorem ofNat_ne_zero {n : Nat} (hpos : 0 < n) (hlt : n < 256) : UInt8.ofNat n ≠ 0 := by
  intro h
  have := congrArg UInt8.toNat h
  rw [toNat_byte hlt] at this
  exact absurd this (Nat.ne_of_gt hpos)

theorem putUtf8_ne_zero {u : Nat} (hu : 0 < u) : ∀ c ∈ putUtf8 u, c ≠ 0 := by
  intro c hc
  unfold putUtf8 at hc
  split_ifs at hc
  · obtain rfl := List.mem_singleton.1 hc
    exact ofNat_ne_zero hu (by omega)
  · simp only [List.mem_cons, List.not_mem_nil, or_false] at hc
    obtain rfl | rfl := hc <;> exact ofNat_ne_zero (by omega) (by omega)
  · simp only [List.mem_cons, List.not_mem_nil, or_false] at hc
    obtain rfl | rfl | rfl := hc <;> exact ofNat_ne_zero (by omega) (by omega)
  · simp only [List.mem_cons, List.not_mem_nil, or_false] at hc
    obtain rfl | rfl | rfl | rfl := hc <;> exact ofNat_ne_zero (by omega) (by omega)
  · obtain rfl := List.mem_singleton.1 hc
    decide

theorem toUtf8_ne_zero {str : List UInt16} (h : ∀ c ∈ str, c ≠ 0) : ∀ c ∈ toUtf8 str, c ≠ 0 := by
  have hput : ∀ c ∈ putUtf8 0x3F, c ≠ 0 := putUtf8_ne_zero (by decide)
  fun_induction toUtf8 str with
  | case1 =>
    intro c hc
    cases hc
  | case2 wc hhi => exact hput
  | case3 wc hhi wc2 rest hlo ih =>
    have hrest := ih fun c hc => h c (List.mem_cons_of_mem _ (List.mem_cons_of_mem _ hc))
    have hpos : 0 < pairCode wc wc2 := by
      unfold pairCode
      omega
    intro c hc
    exact (List.mem_append.1 hc).elim (putUtf8_ne_zero hpos c) (hrest c)
  | case4 wc hhi wc2 rest hlo ih =>
    have hrest := ih fun c hc => h c (List.mem_cons_of_mem _ hc)
    intro c hc
    exact (List.mem_append.1 hc).elim (hput c) (hrest c)
  | case5 wc rest hhi hlo ih =>
    have hrest := ih fun c hc => h c (List.mem_cons_of_mem _ hc)
    intro c hc
    exact (List.mem_append.1 hc).elim (hput c) (hrest c)
  | case6 wc rest hhi hlo ih =>
    have hrest := ih fun c hc => h c (List.mem_cons_of_mem _ hc)
    have hpos : 0 < wc.toNat := Nat.pos_of_ne_zero fun h0 => h wc List.mem_cons_self (UInt16.toNat_inj.1 h0)
    intro c hc
    exact (List.mem_append.1 hc).elim (putUtf8_ne_zero hpos c) (hrest c)

/-- Whether a text comes back if its length has so many bytes. -/
def TextReturns (str : List UInt16) (set : EStrSet) (width : Nat) : Prop :=
  match set with
  | .eAscii => (∀ c ∈ str, c < 0x80) ∧ str.length < 256 ^ width
  | .eUtf8 => WellFormed str ∧ str ≠ [0xFEFF] ∧ (toUtf8 str).length < 256 ^ width
  | .eUtf8_BOM => False

/-- What is read of `raw` if its length is cut off. -/
def readBack (behind : Nat → UInt8) (set : EStrSet) (width : Nat) (raw : StringA) : List UInt16 :=
  textOf behind set (some ((raw.getD []).take ((raw.getD []).length % 256 ^ width)))

theorem getD_toAscii (str : List UInt16) :
    (toAscii str).getD [] = str.map fun wc => if wc < 0x80 then wc.toUInt8 else 0x3F := by
  unfold toAscii
  by_cases h : str = []
  · rw [if_pos h, h]
    rfl
  · rw [if_neg h]
    rfl

theorem getD_toUtf8A (str : List UInt16) : (toUtf8A str).getD [] = toUtf8 str := by
  unfold toUtf8A
  by_cases h : str = []
  · rw [if_pos h, h]
    rfl
  · rw [if_neg h]
    rfl

theorem length_widen (str : Bytes) : (widen str).length = str.length := by
  rw [widen, List.length_map]

/-- A length that is not cut off is one that fits. -/
theorem mod_eq_iff_lt {n width : Nat} : n % 256 ^ width = n ↔ n < 256 ^ width := Nat.mod_eq_iff_lt (Nat.ne_of_gt (Nat.pow_pos (by decide)))

theorem textOf_ascii (behind : Nat → UInt8) {set : EStrSet} {raw : Bytes} (hskip : skipsBom behind (some raw) = false)
    (hset : set ≠ .eUtf8) : textOf behind set (some raw) = widen raw := by
  unfold textOf
  rw [hskip, if_neg Bool.noConfusion]
  cases set with
  | eUtf8 => exact absurd rfl hset
  | eAscii => rfl
  | eUtf8_BOM => rfl

theorem toAscii_lt (wc : UInt16) : (if wc < 0x80 then wc.toUInt8 else 0x3F) < 0x80 := by
  split_ifs with h
  · rw [UInt8.lt_iff_toNat_lt, UInt16.toNat_toUInt8]
    rw [UInt16.lt_iff_toNat_lt] at h
    exact Nat.lt_of_le_of_lt (Nat.mod_le _ _) h
  · decide

theorem widen_toAscii_iff (wc : UInt16) :
    (if (if wc < 0x80 then wc.toUInt8 else 0x3F) < 0x80 then (if wc < 0x80 then wc.toUInt8 else (0x3F : UInt8)).toUInt16
      else (if wc < 0x80 then wc.toUInt8 else (0x3F : UInt8)).toUInt16 + 0xFF00) = wc ↔ wc < 0x80 := by
  rw [if_pos (toAscii_lt wc)]
  by_cases h : wc < 0x80
  · rw [if_pos h]
    refine iff_of_true ?_ h
    apply UInt16.toNat_inj.1
    rw [UInt16.lt_iff_toNat_lt] at h
    rw [UInt8.toNat_toUInt16, UInt16.toNat_toUInt8]
    exact Nat.mod_eq_of_lt (Nat.lt_trans h (by decide))
  · rw [if_neg h]
    refine iff_of_false ?_ h
    intro heq
    rw [← heq] at h
    exact h (by decide)

theorem map_eq_self_iff {f : UInt16 → UInt16} {l : List UInt16} : l.map f = l ↔ ∀ c ∈ l, f c = c := by
  constructor
  · intro h
    exact List.map_eq_map_iff.1 (h.trans (List.map_id l).symm)
  · intro h
    exact (List.map_eq_map_iff.2 h).trans (List.map_id l)

theorem readBack_ascii (behind : Nat → UInt8) {str : List UInt16} {width : Nat} :
    readBack behind .eAscii width (toAscii str) = str ↔ TextReturns str .eAscii width := by
  have hskip : ∀ n, skipsBom behind (some ((str.map fun wc => if wc < 0x80 then wc.toUInt8 else 0x3F).take n)) = false := by
    intro n
    apply Bool.eq_false_of_not_eq_true
    rw [skipsBom_iff]
    rintro ⟨hlen, h⟩
    cases hb : ((str.map fun wc => if wc < 0x80 then wc.toUInt8 else 0x3F).take n)[0]? with
    | none =>
      rw [List.getElem?_eq_none_iff] at hb
      omega
    | some b =>
      have hb' := h 0 b hb
      obtain ⟨wc, -, rfl⟩ := List.mem_map.1 (List.mem_of_mem_take (List.mem_of_getElem? hb))
      have := toAscii_lt wc
      rw [← hb'] at this
      exact absurd (show (0xEF : UInt8) < 0x80 from this) (by decide)
  unfold readBack
  rw [getD_toAscii, textOf_ascii behind (hskip _) (by decide), List.length_map]
  constructor
  · intro h
    have hlen := congrArg List.length h
    rw [length_widen, List.length_take, List.length_map, Nat.min_eq_left (Nat.mod_le _ _)] at hlen
    rw [hlen, List.take_of_length_le (Nat.le_of_eq (List.length_map _)), widen, List.map_map] at h
    refine ⟨?_, mod_eq_iff_lt.1 hlen⟩
    intro c hc
    exact (widen_toAscii_iff c).1 (map_eq_self_iff.1 h c hc)
  · rintro ⟨hascii, hlen⟩
    rw [mod_eq_iff_lt.2 hlen, List.take_of_length_le (Nat.le_of_eq (List.length_map _)), widen, List.map_map]
    exact map_eq_self_iff.2 fun c hc => (widen_toAscii_iff c).2 (hascii c hc)

theorem readBack_utf8 (behind : Nat → UInt8) {str : List UInt16} (hstr : ∀ c ∈ str, c ≠ 0) {width : Nat} :
    readBack behind .eUtf8 width (toUtf8A str) = str ↔ TextReturns str .eUtf8 width := by
  have hbom : fromUtf8 bom = [0xFEFF] := by decide
  unfold readBack
  rw [getD_toUtf8A]
  by_cases hfit : (toUtf8 str).length < 256 ^ width
  · rw [mod_eq_iff_lt.2 hfit, List.take_length]
    unfold textOf
    by_cases hskip : skipsBom behind (some (toUtf8 str)) = true
    · -- nothing is left of the text that is the mark
      have heq := (skipsBom_iff_eq behind (toUtf8_ne_zero hstr)).1 hskip
      rw [if_pos hskip]
      refine iff_of_false ?_ ?_
      · intro h
        change fromUtf8 ((toUtf8 str).drop 3) = str at h
        rw [heq] at h
        change [] = str at h
        rw [← h] at heq
        cases heq
      · rintro ⟨hwf, hne, -⟩
        rw [← fromUtf8_toUtf8 hwf, heq, hbom] at hne
        exact hne rfl
    · rw [if_neg hskip]
      change fromUtf8 (toUtf8 str) = str ↔ _
      rw [fromUtf8_toUtf8_iff]
      refine ⟨fun hwf => ⟨hwf, ?_, hfit⟩, fun h => h.1⟩
      rintro rfl
      exact hskip ((skipsBom_iff_eq behind (toUtf8_ne_zero hstr)).2 (by decide))
  · refine iff_of_false ?_ fun h => hfit h.2.2
    intro h
    have hcut : (toUtf8 str).length % 256 ^ width < (toUtf8 str).length :=
      Nat.lt_of_lt_of_le (Nat.mod_lt _ (Nat.pow_pos (by decide))) (Nat.not_lt.1 hfit)
    -- the text would need as many bytes as were not cut off
    have hle : ∀ l : Bytes, l.length ≤ (toUtf8 str).length % 256 ^ width → fromUtf8 l ≠ str := by
      intro l hl heq
      have := length_toUtf8_fromUtf8 l
      rw [heq] at this
      omega
    unfold textOf at h
    split_ifs at h
    · refine hle _ ?_ h
      rw [Option.getD_some, List.length_drop, List.length_take]
      omega
    · refine hle _ ?_ h
      rw [Option.getD_some, List.length_take]
      omega

/-- The text in which every unit is ASCII or widened from a byte above takes an even number of bytes more. -/
theorem length_toUtf8_of_widened : ∀ {str : List UInt16}, (∀ c ∈ str, c.toNat ≤ 0x7F ∨ 0xFF80 ≤ c.toNat) →
    ∃ b, (toUtf8 str).length = str.length + 2 * b
  | [], _ => ⟨0, rfl⟩
  | c :: str, h => by
    obtain ⟨hc, hrest⟩ := List.forall_mem_cons.1 h
    obtain ⟨b, hb⟩ := length_toUtf8_of_widened hrest
    have hunit : c < 0xD800 ∨ 0xDFFF < c := by
      rw [UInt16.lt_iff_toNat_lt, UInt16.lt_iff_toNat_lt]
      change c.toNat < 0xD800 ∨ 0xDFFF < c.toNat
      omega
    have hlt := c.toNat_lt
    have hlen := length_putUtf8 (u := c.toNat) (by omega)
    rw [toUtf8_unit hunit, List.length_append, List.length_cons, hb, hlen]
    obtain hc | hc := hc
    · exact ⟨b, by rw [if_pos hc]; omega⟩
    · exact ⟨b + 1, by rw [if_neg (by omega), if_neg (by omega), if_pos (by omega)]; omega⟩

theorem toNat_widened (b : UInt8) :
    (if b < 0x80 then b.toUInt16 else b.toUInt16 + 0xFF00).toNat ≤ 0x7F ∨ 0xFF80 ≤ (if b < 0x80 then b.toUInt16 else b.toUInt16 + 0xFF00).toNat := by
  by_cases h : b < 0x80
  · rw [if_pos h, UInt8.toNat_toUInt16]
    exact .inl (Nat.le_of_lt_succ (UInt8.lt_iff_toNat_lt.1 h))
  · have hlt := b.toNat_lt
    have hge : 0x80 ≤ b.toNat := Nat.not_lt.1 fun hlt => h (UInt8.lt_iff_toNat_lt.2 hlt)
    rw [if_neg h, UInt16.toNat_add, UInt8.toNat_toUInt16]
    change _ ∨ 0xFF80 ≤ (b.toNat + 0xFF00) % 65536
    omega

theorem readBack_bom (behind : Nat → UInt8) {str : List UInt16} (hstr : ∀ c ∈ str, c ≠ 0) (hne : str ≠ []) {width : Nat}
    (hwidth : 0 < width) : readBack behind .eUtf8_BOM width (some (bom ++ toUtf8 str)) ≠ str := by
  intro h
  unfold readBack at h
  rw [Option.getD_some] at h
  have hdata : ∀ c ∈ (bom ++ toUtf8 str).take ((bom ++ toUtf8 str).length % 256 ^ width), c ≠ 0 := by
    intro c hc
    have hbom : ∀ c ∈ bom, c ≠ 0 := List.forall_mem_cons.2 ⟨by decide, List.forall_mem_cons.2 ⟨by decide, by simp⟩⟩
    exact (List.mem_append.1 (List.mem_of_mem_take hc)).elim (hbom c) (toUtf8_ne_zero hstr c)
  by_cases hskip : skipsBom behind (some ((bom ++ toUtf8 str).take ((bom ++ toUtf8 str).length % 256 ^ width))) = true
  · have heq := (skipsBom_iff_eq behind hdata).1 hskip
    unfold textOf at h
    rw [if_pos hskip, heq] at h
    exact hne h.symm
  · rw [textOf_ascii behind (Bool.eq_false_of_not_eq_true hskip) (by decide)] at h
    have hlen := congrArg List.length h
    rw [length_widen, List.length_take, Nat.min_eq_left (Nat.mod_le _ _)] at hlen
    have hwide : ∀ c ∈ str, c.toNat ≤ 0x7F ∨ 0xFF80 ≤ c.toNat := by
      intro c hc
      rw [← h] at hc
      obtain ⟨b, -, rfl⟩ := List.mem_map.1 hc
      exact toNat_widened b
    obtain ⟨b, hb⟩ := length_toUtf8_of_widened hwide
    -- an odd number of bytes would have to be cut off
    obtain ⟨width, rfl⟩ := Nat.exists_eq_add_one_of_ne_zero (Nat.ne_of_gt hwidth)
    have hdiv := Nat.div_add_mod (bom ++ toUtf8 str).length (256 ^ (width + 1))
    rw [hlen, List.length_append, hb, Nat.pow_succ, Nat.mul_comm (256 ^ width) 256, Nat.mul_assoc] at hdiv
    generalize 256 ^ width * _ = cut at hdiv
    change 256 * cut + str.length = 3 + (str.length + 2 * b) at hdiv
    omega

end MajorPrivacy.Buffer

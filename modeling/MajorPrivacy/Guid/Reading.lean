/-
Reading a GUID: what `ToString` writes is read back digit by digit, and reading does not look at the
case of a letter other than to tell whether there are letters in both.
-/
import MajorPrivacy.Guid.FlexGuid

namespace MajorPrivacy.Guid

open LittleEndian MajorPrivacy.Variant CFlexGuid

/-! ## Digits -/

/-- A lower case hex digit. -/
def IsLower (c : Nat) : Prop := 97 ≤ c ∧ c ≤ 102

/-- An upper case hex digit. -/
def IsUpper (c : Nat) : Prop := 65 ≤ c ∧ c ≤ 70

instance (c : Nat) : Decidable (IsLower c) := inferInstanceAs (Decidable (_ ∧ _))

instance (c : Nat) : Decidable (IsUpper c) := inferInstanceAs (Decidable (_ ∧ _))

/-- The case of a character that is a digit. -/
def letterOf (c : Nat) : Letter := if IsLower c then .lower else if IsUpper c then .upper else .none

/-- The digit for a nibble in one of the two cases. -/
def digit (v : UInt8) (lower : Bool) : UInt8 := if v < 10 then 48 + v else if lower then 97 + (v - 10) else 65 + (v - 10)

theorem nibChar_eq (mask : UInt32) (v : UInt8) (i : Nat) : nibChar mask v i = digit v (decide (mask &&& nibBit i ≠ 0)) := by
  simp only [nibChar, digit, decide_eq_true_eq]

/-- What holds of the sixteen nibbles. -/
theorem nibble_forall {P : UInt8 → Prop} (h : ∀ n : Fin 16, P (.ofNat n)) {v : UInt8} (hv : v < 16) : P v := by
  have hn := h ⟨v.toNat, UInt8.lt_iff_toNat_lt.1 hv⟩
  rwa [UInt8.ofNat_toNat] at hn

section Nibble
variable (mask mask' : UInt32) {v : UInt8} (hv : v < 16) (i : Nat)
include hv

/-- A digit is read as the nibble it stands for, in its case. -/
theorem hexDigit_nibChar :
    hexDigit (nibChar mask v i).toNat = some (v, letterOf (nibChar mask v i).toNat) ∧ (nibChar mask v i).toNat ≠ 45 := by
  have hall : ∀ n : Fin 16, ∀ lower, hexDigit (digit (.ofNat n) lower).toNat =
      some (.ofNat n, letterOf (digit (.ofNat n) lower).toNat) ∧ (digit (.ofNat n) lower).toNat ≠ 45 := by decide
  rw [nibChar_eq]
  exact nibble_forall (P := fun v => ∀ lower, hexDigit (digit v lower).toNat = some (v, letterOf (digit v lower).toNat) ∧
    (digit v lower).toNat ≠ 45) hall hv _

/-- In another case it is the same digit. -/
theorem toLower_nibChar : toLower (nibChar mask v i).toNat = toLower (nibChar mask' v i).toNat := by
  have hall : ∀ n : Fin 16, ∀ lower lower', toLower (digit (.ofNat n) lower).toNat = toLower (digit (.ofNat n) lower').toNat := by
    decide
  rw [nibChar_eq, nibChar_eq]
  exact nibble_forall (P := fun v => ∀ lower lower', toLower (digit v lower).toNat = toLower (digit v lower').toNat) hall hv _ _

/-- A digit that is not a lower case letter is as without a mask. -/
theorem nibChar_of_not_lower (h : ¬ IsLower (nibChar mask v i).toNat) : nibChar mask v i = nibChar 0 v i := by
  have hall : ∀ n : Fin 16, ∀ lower, ¬ IsLower (digit (.ofNat n) lower).toNat → digit (.ofNat n) lower = digit (.ofNat n) false := by
    decide
  have hzero : nibChar 0 v i = digit v false := by
    rw [nibChar_eq, UInt32.zero_and]
    rfl
  rw [hzero]
  rw [nibChar_eq] at h ⊢
  exact nibble_forall (P := fun v => ∀ lower, ¬ IsLower (digit v lower).toNat → digit v lower = digit v false) hall hv _ h

theorem nibChar_zero_not_lower : ¬ IsLower (nibChar 0 v i).toNat := by
  have hall : ∀ n : Fin 16, ¬ IsLower (digit (.ofNat n) false).toNat := by decide
  have hzero : nibChar 0 v i = digit v false := by
    rw [nibChar_eq, UInt32.zero_and]
    rfl
  rw [hzero]
  exact nibble_forall (P := fun v => ¬ IsLower (digit v false).toNat) hall hv

end Nibble

/-- A byte from its two nibbles. -/
theorem nibbles (b : UInt8) : b >>> 4 < 16 ∧ b &&& 0x0F < 16 ∧ (b >>> 4) <<< 4 ||| (b &&& 0x0F) = b := by
  have hall : ∀ n : Fin 256, UInt8.ofNat n >>> 4 < 16 ∧ UInt8.ofNat n &&& 0x0F < 16 ∧
      (UInt8.ofNat n >>> 4) <<< 4 ||| (UInt8.ofNat n &&& 0x0F) = UInt8.ofNat n := by
    decide +kernel
  have h := hall ⟨b.toNat, b.toNat_lt⟩
  rwa [UInt8.ofNat_toNat] at h

theorem nibBit_ne_zero {i : Nat} (h : i < 32) : nibBit i ≠ 0 := by
  have hall : ∀ n : Fin 32, nibBit n ≠ 0 := by decide
  exact hall ⟨i, h⟩

theorem or_nibBit_ne_zero (mask : UInt32) {i : Nat} (h : i < 32) : mask ||| nibBit i ≠ 0 := by
  rintro hzero
  refine nibBit_ne_zero h ?_
  rw [UInt32.or_eq_zero_iff] at hzero
  exact hzero.2

/-! ## Reading what was written -/

/-- The mask after a digit is zero if it was and the digit is no such letter. -/
theorem push_masks (s : ParseState) {v : UInt8} {c : Nat} (hi : s.nibIndex < 32) :
    ((s.push v (letterOf c)).lowerCaseMask = 0 ↔ s.lowerCaseMask = 0 ∧ ¬ IsLower c) ∧
    ((s.push v (letterOf c)).upperCaseMask = 0 ↔ s.upperCaseMask = 0 ∧ ¬ IsUpper c) := by
  have hdisjoint : IsLower c → ¬ IsUpper c := fun h h' => by
    unfold IsLower at h
    unfold IsUpper at h'
    omega
  have hlower := or_nibBit_ne_zero s.lowerCaseMask hi
  have hupper := or_nibBit_ne_zero s.upperCaseMask hi
  unfold letterOf ParseState.push
  by_cases hl : IsLower c
  · simp [hl, hdisjoint hl, hlower]
  · by_cases hu : IsUpper c
    · simp [hl, hu, hupper]
    · simp [hl, hu]

/-- The loop is between two bytes. -/
structure ParseState.Between (s : ParseState) : Prop where
  half : s.halfByte = false
  index : s.nibIndex = 2 * s.outBytes.length

theorem parseLoop_digit (rest : List Nat) {s : ParseState} {c : Nat} {val : UInt8} {letter : Letter} (h : s.outBytes.length < 16)
    (hdash : c ≠ 45) (hdigit : hexDigit c = some (val, letter)) : parseLoop (c :: rest) s = parseLoop rest (s.push val letter) := by
  rw [parseLoop, if_pos h, if_neg hdash, hdigit]

/-- The digits of some bytes are read as these bytes. -/
theorem parseLoop_hexText (mask : UInt32) (rest : List Nat) : ∀ (bytes : Bytes) (i : Nat) {s : ParseState}, s.Between →
    s.outBytes.length + bytes.length ≤ 16 →
    ∃ s' : ParseState, parseLoop ((hexText mask i bytes).map (·.toNat) ++ rest) s = parseLoop rest s' ∧ s'.Between ∧
      s'.outBytes = s.outBytes ++ bytes ∧
      (s'.lowerCaseMask = 0 ↔ s.lowerCaseMask = 0 ∧ ∀ c ∈ hexText mask i bytes, ¬ IsLower c.toNat) ∧
      (s'.upperCaseMask = 0 ↔ s.upperCaseMask = 0 ∧ ∀ c ∈ hexText mask i bytes, ¬ IsUpper c.toNat)
  | [], i, s, h, _ => ⟨s, rfl, h, (List.append_nil _).symm, by simp [hexText], by simp [hexText]⟩
  | b :: bytes, i, s, h, hlen => by
    rw [List.length_cons] at hlen
    rcases nibbles b with ⟨hhigh, hlow, hbyte⟩
    rcases hexDigit_nibChar mask hhigh i with ⟨hhighDigit, hhighDash⟩
    rcases hexDigit_nibChar mask hlow (i + 1) with ⟨hlowDigit, hlowDash⟩
    generalize hs₁ : s.push (b >>> 4) (letterOf (nibChar mask (b >>> 4) i).toNat) = s₁
    generalize hs₂ : s₁.push (b &&& 0x0F) (letterOf (nibChar mask (b &&& 0x0F) (i + 1)).toNat) = s₂
    have hout₁ : s₁.outBytes = s.outBytes ∧ s₁.halfByte = true ∧ s₁.byteVal = (b >>> 4) <<< 4 ∧ s₁.nibIndex = s.nibIndex + 1 := by
      rw [← hs₁, ParseState.push, h.half]
      exact ⟨rfl, rfl, rfl, rfl⟩
    have hout₂ : s₂.outBytes = s.outBytes ++ [b] ∧ s₂.halfByte = false ∧ s₂.nibIndex = s.nibIndex + 2 := by
      rw [← hs₂, ParseState.push, hout₁.2.1, hout₁.1, hout₁.2.2.1, hout₁.2.2.2, if_pos rfl, hbyte]
      exact ⟨rfl, rfl, rfl⟩
    have hbetween : s₂.Between := ⟨hout₂.2.1, by rw [hout₂.2.2, hout₂.1, h.index, List.length_append]; rfl⟩
    rcases parseLoop_hexText mask rest bytes (i + 2) hbetween (by rw [hout₂.1, List.length_append]; simpa using by omega) with
      ⟨s', hloop, hbetween', hout', hlower', hupper'⟩
    have hindex := h.index
    have hmasks₁ := push_masks s (v := b >>> 4) (c := (nibChar mask (b >>> 4) i).toNat) (by omega)
    have hmasks₂ := push_masks s₁ (v := b &&& 0x0F) (c := (nibChar mask (b &&& 0x0F) (i + 1)).toNat) (by omega)
    rw [hs₁] at hmasks₁
    rw [hs₂] at hmasks₂
    refine ⟨s', ?_, hbetween', by rw [hout', hout₂.1, List.append_assoc]; rfl, ?_, ?_⟩
    · rw [hexText]
      simp only [List.map_cons, List.cons_append]
      rw [parseLoop_digit _ (by omega) hhighDash hhighDigit, hs₁, parseLoop_digit _ (by rw [hout₁.1]; omega) hlowDash hlowDigit, hs₂,
        hloop]
    · rw [hlower', hmasks₂.1, hmasks₁.1, hexText, List.forall_mem_cons, List.forall_mem_cons, and_assoc, and_assoc]
    · rw [hupper', hmasks₂.2, hmasks₁.2, hexText, List.forall_mem_cons, List.forall_mem_cons, and_assoc, and_assoc]

/-- A dash is skipped. -/
theorem parseLoop_dash (rest : List Nat) {s : ParseState} (h : s.outBytes.length < 16) : parseLoop (45 :: rest) s = parseLoop rest s := by
  rw [parseLoop, if_pos h, if_pos rfl]

/-- The text between the braces. -/
def bareText (guid : SGuid) (mask : UInt32) : Bytes :=
  hexText mask 0 (guid.data.take 4) ++ 45 :: (hexText mask 8 ((guid.data.drop 4).take 2) ++
    45 :: (hexText mask 12 ((guid.data.drop 6).take 2) ++ 45 :: (hexText mask 16 ((guid.data.drop 8).take 2) ++
      45 :: hexText mask 20 (guid.data.drop 10))))

theorem guidText_eq (guid : SGuid) (mask : UInt32) : guidText guid mask = 123 :: (bareText guid mask ++ [125]) := by
  simp [guidText, bareText]

theorem length_hexText (mask : UInt32) : ∀ (i : Nat) (bytes : Bytes), (hexText mask i bytes).length = 2 * bytes.length
  | _, [] => rfl
  | i, b :: bytes => by
    rw [hexText, List.length_cons, List.length_cons, length_hexText mask (i + 2) bytes, List.length_cons]
    omega

theorem length_guidText (guid : SGuid) (mask : UInt32) : (guidText guid mask).length = 38 := by
  have hsize := guid.size
  simp only [guidText, List.length_cons, List.length_append, length_hexText, List.length_take, List.length_drop, List.length_nil, hsize]
  rfl

theorem SGuid.split (guid : SGuid) : guid.data = guid.data.take 4 ++ (guid.data.drop 4).take 2 ++ (guid.data.drop 6).take 2 ++
    (guid.data.drop 8).take 2 ++ guid.data.drop 10 := by
  have hstep : ∀ n m, guid.data.take n ++ (guid.data.drop n).take m = guid.data.take (n + m) := fun n m => (List.take_add ..).symm
  rw [hstep, hstep, hstep, List.take_append_drop]

/-- A property of the characters of a GUID text that the braces and dashes have. -/
theorem forall_bareText {P : UInt8 → Prop} (hdash : P 45) (guid : SGuid) (mask : UInt32) :
    (∀ c ∈ bareText guid mask, P c) ↔ (∀ c ∈ hexText mask 0 (guid.data.take 4), P c) ∧
      (∀ c ∈ hexText mask 8 ((guid.data.drop 4).take 2), P c) ∧ (∀ c ∈ hexText mask 12 ((guid.data.drop 6).take 2), P c) ∧
      (∀ c ∈ hexText mask 16 ((guid.data.drop 8).take 2), P c) ∧ ∀ c ∈ hexText mask 20 (guid.data.drop 10), P c := by
  simp only [bareText, List.forall_mem_append, List.forall_mem_cons, hdash, true_and]

theorem forall_guidText {P : UInt8 → Prop} (hopen : P 123) (hclose : P 125) (guid : SGuid) (mask : UInt32) :
    (∀ c ∈ guidText guid mask, P c) ↔ ∀ c ∈ bareText guid mask, P c := by
  rw [guidText_eq]
  simp only [List.forall_mem_cons, List.forall_mem_append, hopen, hclose, true_and, and_true, List.not_mem_nil, false_imp_iff, implies_true]

theorem parseLoop_bareText (guid : SGuid) (mask : UInt32) :
    ∃ s, parseLoop ((bareText guid mask).map (·.toNat)) .start = (true, s) ∧ s.Between ∧ s.outBytes = guid.data ∧
      (s.lowerCaseMask = 0 ↔ ∀ c ∈ bareText guid mask, ¬ IsLower c.toNat) ∧
      (s.upperCaseMask = 0 ↔ ∀ c ∈ bareText guid mask, ¬ IsUpper c.toNat) := by
  have hsize := guid.size
  have hdash : ∀ rest : Bytes, (45 :: rest).map (·.toNat) = 45 :: rest.map (·.toNat) := fun _ => rfl
  have hstart : ParseState.start.Between := ⟨rfl, rfl⟩
  rw [forall_bareText (P := fun c => ¬ IsLower c.toNat) (by decide), forall_bareText (P := fun c => ¬ IsUpper c.toNat) (by decide),
    bareText]
  simp only [List.map_append, hdash]
  rcases parseLoop_hexText mask _ (guid.data.take 4) 0 hstart (by simp [ParseState.start]) with ⟨s₁, h₁, b₁, o₁, l₁, u₁⟩
  have n₁ : s₁.outBytes.length = 4 := by
    rw [o₁, ParseState.start, List.nil_append, List.length_take]
    omega
  rw [h₁, parseLoop_dash _ (by omega)]
  rcases parseLoop_hexText mask _ ((guid.data.drop 4).take 2) 8 b₁ (by simp; omega) with ⟨s₂, h₂, b₂, o₂, l₂, u₂⟩
  have n₂ : s₂.outBytes.length = 6 := by
    rw [o₂, List.length_append, List.length_take, List.length_drop]
    omega
  rw [h₂, parseLoop_dash _ (by omega)]
  rcases parseLoop_hexText mask _ ((guid.data.drop 6).take 2) 12 b₂ (by simp; omega) with ⟨s₃, h₃, b₃, o₃, l₃, u₃⟩
  have n₃ : s₃.outBytes.length = 8 := by
    rw [o₃, List.length_append, List.length_take, List.length_drop]
    omega
  rw [h₃, parseLoop_dash _ (by omega)]
  rcases parseLoop_hexText mask _ ((guid.data.drop 8).take 2) 16 b₃ (by simp; omega) with ⟨s₄, h₄, b₄, o₄, l₄, u₄⟩
  have n₄ : s₄.outBytes.length = 10 := by
    rw [o₄, List.length_append, List.length_take, List.length_drop]
    omega
  rw [h₄, parseLoop_dash _ (by omega)]
  rcases parseLoop_hexText mask [] (guid.data.drop 10) 20 b₄ (by rw [List.length_drop]; omega) with ⟨s₅, h₅, b₅, o₅, l₅, u₅⟩
  rw [List.append_nil] at h₅
  refine ⟨s₅, h₅, b₅, ?_, ?_, ?_⟩
  · rw [o₅, o₄, o₃, o₂, o₁]
    exact guid.split.symm
  · rw [l₅, l₄, l₃, l₂, l₁]
    simp only [ParseState.start, true_and, and_assoc]
  · rw [u₅, u₄, u₃, u₂, u₁]
    simp only [ParseState.start, true_and, and_assoc]

/-- A GUID text is read as its GUID, and the masks say whether there are letters of either case. -/
theorem parseGuid_guidText (guid : SGuid) (mask : UInt32) :
    ∃ s, parseGuid ((guidText guid mask).map (·.toNat)) = (true, s) ∧ s.outBytes = guid.data ∧
      (s.lowerCaseMask = 0 ↔ ∀ c ∈ guidText guid mask, ¬ IsLower c.toNat) ∧
      (s.upperCaseMask = 0 ↔ ∀ c ∈ guidText guid mask, ¬ IsUpper c.toNat) := by
  rcases parseLoop_bareText guid mask with ⟨s, hloop, hbetween, hout, hlower, hupper⟩
  have hunbraced : unbraced ((guidText guid mask).map (·.toNat)) = (bareText guid mask).map (·.toNat) := by
    have hcodes : (guidText guid mask).map (·.toNat) = 123 :: ((bareText guid mask).map (·.toNat) ++ [125]) := by
      rw [guidText_eq, List.map_cons, List.map_append]
      rfl
    rw [unbraced, hcodes, if_pos ⟨rfl, by rw [← List.cons_append, List.getLast?_concat]⟩, List.tail_cons, List.dropLast_concat]
  refine ⟨s, ?_, hout, ?_, ?_⟩
  · rw [parseGuid, List.length_map, length_guidText, if_neg (by decide), hunbraced, hloop]
    have hsize := guid.size
    simp [hout, hsize, hbetween.half]
  · rw [hlower, forall_guidText (P := fun c => ¬ IsLower c.toNat) (by decide) (by decide)]
  · rw [hupper, forall_guidText (P := fun c => ¬ IsUpper c.toNat) (by decide) (by decide)]

/-- What a GUID text is read as. -/
theorem readGuid_guidText (guid : SGuid) (mask : UInt32) :
    (readGuid ((guidText guid mask).map (·.toNat))).1 =
      if (∃ c ∈ guidText guid mask, IsUpper c.toNat) ∧ ∃ c ∈ guidText guid mask, IsLower c.toNat then none else some guid := by
  rcases parseGuid_guidText guid mask with ⟨s, hparse, hout, hlower, hupper⟩
  have hguid : ∀ h : s.outBytes.length = 16, (⟨s.outBytes, h⟩ : SGuid) = guid := fun h => by
    cases guid
    cases hout
    rfl
  have hsize : s.outBytes.length = 16 := by rw [hout, guid.size]
  have hmixed : (s.upperCaseMask ≠ 0 ∧ s.lowerCaseMask ≠ 0) ↔
      (∃ c ∈ guidText guid mask, IsUpper c.toNat) ∧ ∃ c ∈ guidText guid mask, IsLower c.toNat := by
    rw [Ne, Ne, hlower, hupper]
    push Not
    rfl
  rw [readGuid, hparse]
  dsimp only
  rw [dif_pos hsize, hguid]
  by_cases h : s.upperCaseMask ≠ 0 ∧ s.lowerCaseMask ≠ 0
  · rw [if_pos (hmixed.1 h)]
    simp [h.1, h.2]
  · rw [if_neg fun h' => h (hmixed.2 h'), if_pos]
    rw [not_and_or, not_not, not_not] at h
    simpa using h

/-! ## The case of letters -/

theorem hexText_zero_not_lower : ∀ (i : Nat) (bytes : Bytes), ∀ c ∈ hexText 0 i bytes, ¬ IsLower c.toNat
  | _, [] => fun _ h => by cases h
  | i, b :: bytes => by
    rcases nibbles b with ⟨hhigh, hlow, -⟩
    rw [hexText, List.forall_mem_cons, List.forall_mem_cons]
    exact ⟨nibChar_zero_not_lower hhigh i, nibChar_zero_not_lower hlow (i + 1), hexText_zero_not_lower (i + 2) bytes⟩

theorem hexText_of_not_lower (mask : UInt32) : ∀ (i : Nat) (bytes : Bytes), (∀ c ∈ hexText mask i bytes, ¬ IsLower c.toNat) →
    hexText mask i bytes = hexText 0 i bytes
  | _, [], _ => rfl
  | i, b :: bytes, h => by
    rcases nibbles b with ⟨hhigh, hlow, -⟩
    rw [hexText, List.forall_mem_cons, List.forall_mem_cons] at h
    rw [hexText, hexText, nibChar_of_not_lower mask hhigh i h.1, nibChar_of_not_lower mask hlow (i + 1) h.2.1,
      hexText_of_not_lower mask (i + 2) bytes h.2.2]

theorem toLower_hexText (mask mask' : UInt32) : ∀ (i : Nat) (bytes : Bytes),
    (hexText mask i bytes).map (fun c => toLower c.toNat) = (hexText mask' i bytes).map fun c => toLower c.toNat
  | _, [] => rfl
  | i, b :: bytes => by
    rcases nibbles b with ⟨hhigh, hlow, -⟩
    rw [hexText, hexText, List.map_cons, List.map_cons, List.map_cons, List.map_cons, toLower_nibChar mask mask' hhigh i,
      toLower_nibChar mask mask' hlow (i + 1), toLower_hexText mask mask' (i + 2) bytes]

theorem guidText_zero_not_lower (guid : SGuid) : ∀ c ∈ guidText guid 0, ¬ IsLower c.toNat := by
  rw [forall_guidText (P := fun c => ¬ IsLower c.toNat) (by decide) (by decide),
    forall_bareText (P := fun c => ¬ IsLower c.toNat) (by decide)]
  exact ⟨hexText_zero_not_lower _ _, hexText_zero_not_lower _ _, hexText_zero_not_lower _ _, hexText_zero_not_lower _ _,
    hexText_zero_not_lower _ _⟩

/-- A GUID text without lower case letters is what is written without a mask. -/
theorem guidText_of_not_lower {guid : SGuid} {mask : UInt32} (h : ∀ c ∈ guidText guid mask, ¬ IsLower c.toNat) :
    guidText guid mask = guidText guid 0 := by
  rw [forall_guidText (P := fun c => ¬ IsLower c.toNat) (by decide) (by decide),
    forall_bareText (P := fun c => ¬ IsLower c.toNat) (by decide)] at h
  rcases h with ⟨h₁, h₂, h₃, h₄, h₅⟩
  rw [guidText, guidText, hexText_of_not_lower mask _ _ h₁, hexText_of_not_lower mask _ _ h₂, hexText_of_not_lower mask _ _ h₃,
    hexText_of_not_lower mask _ _ h₄, hexText_of_not_lower mask _ _ h₅]

theorem toLower_guidText (guid : SGuid) (mask mask' : UInt32) :
    (guidText guid mask).map (fun c => toLower c.toNat) = (guidText guid mask').map fun c => toLower c.toNat := by
  simp only [guidText, List.map_cons, List.map_append, toLower_hexText mask mask']

section Lower
variable (c : Nat)

theorem toLower_eq_iff {d : Nat} (hd : ¬ (65 ≤ d ∧ d ≤ 90)) (hd' : ¬ (97 ≤ d ∧ d ≤ 122)) : toLower c = d ↔ c = d := by
  unfold toLower
  split <;> omega

/-- A digit in lower case has the same value. -/
theorem hexDigit_toLower : (hexDigit (toLower c)).map (·.1) = (hexDigit c).map (·.1) := by
  unfold hexDigit toLower
  by_cases hupper : 65 ≤ c ∧ c ≤ 90
  · rw [if_pos hupper, if_neg (by omega)]
    by_cases hdigit : c ≤ 70
    · rw [if_pos (by omega), if_neg (by omega), if_neg (by omega), if_pos (by omega)]
      have hsame : c + 32 - 97 = c - 65 := by omega
      rw [hsame]
      rfl
    · rw [if_neg (by omega), if_neg (by omega), if_neg (by omega), if_neg (by omega), if_neg (by omega)]
  · rw [if_neg hupper]

end Lower

/-- Two states of the loop that differ in the masks only. -/
structure ParseState.SameBytes (s t : ParseState) : Prop where
  outBytes : s.outBytes = t.outBytes
  byteVal : s.byteVal = t.byteVal
  halfByte : s.halfByte = t.halfByte

theorem ParseState.SameBytes.push {s t : ParseState} (h : s.SameBytes t) (val : UInt8) (letter letter' : Letter) :
    (s.push val letter).SameBytes (t.push val letter') := by
  refine ⟨?_, ?_, ?_⟩
  · simp only [ParseState.push, h.outBytes, h.byteVal, h.halfByte]
  · simp only [ParseState.push, h.byteVal, h.halfByte]
  · simp only [ParseState.push, h.halfByte]

theorem parseLoop_toLower : ∀ (str : List Nat) {s t : ParseState}, s.SameBytes t →
    (parseLoop (str.map toLower) s).1 = (parseLoop str t).1 ∧ (parseLoop (str.map toLower) s).2.SameBytes (parseLoop str t).2
  | [], _, _, h => ⟨rfl, h⟩
  | c :: str, s, t, h => by
    rw [List.map_cons, parseLoop, parseLoop, h.outBytes]
    split
    · have hdash : toLower c = 45 ↔ c = 45 := toLower_eq_iff c (by decide) (by decide)
      by_cases hc : c = 45
      · rw [if_pos (hdash.2 hc), if_pos hc]
        exact parseLoop_toLower str h
      · rw [if_neg fun hc' => hc (hdash.1 hc'), if_neg hc]
        have hdigit := hexDigit_toLower c
        rcases hc : hexDigit c with _ | ⟨val, letter⟩
        · rw [hc] at hdigit
          rw [Option.map_eq_none_iff.1 hdigit]
          exact ⟨rfl, h⟩
        · rw [hc] at hdigit
          rcases Option.map_eq_some_iff.1 hdigit with ⟨⟨val', letter'⟩, hc', hval⟩
          cases hval
          rw [hc']
          exact parseLoop_toLower str (h.push _ letter' letter)
    · exact ⟨rfl, h⟩

theorem unbraced_toLower (str : List Nat) : unbraced (str.map toLower) = (unbraced str).map toLower := by
  have hhead : (str.map toLower).head? = some 123 ↔ str.head? = some 123 := by
    cases str with
    | nil => exact Iff.rfl
    | cons c str =>
      rw [List.map_cons, List.head?_cons, List.head?_cons, Option.some_inj, Option.some_inj]
      exact toLower_eq_iff c (by decide) (by decide)
  have hlast : (str.map toLower).getLast? = some 125 ↔ str.getLast? = some 125 := by
    rw [List.getLast?_map]
    rcases str.getLast? with _ | c
    · exact Iff.rfl
    · rw [Option.map_some, Option.some_inj, Option.some_inj]
      exact toLower_eq_iff c (by decide) (by decide)
  unfold unbraced
  by_cases hbraces : str.head? = some 123 ∧ str.getLast? = some 125
  · rw [if_pos ⟨hhead.2 hbraces.1, hlast.2 hbraces.2⟩, if_pos hbraces, List.map_dropLast, List.map_tail]
  · rw [if_neg fun h => hbraces ⟨hhead.1 h.1, hlast.1 h.2⟩, if_neg hbraces]

/-- Whether a text is read as a GUID, and as which, is the same in lower case. -/
theorem parseGuid_toLower (str : List Nat) : (parseGuid (str.map toLower)).1 = (parseGuid str).1 ∧
    (parseGuid (str.map toLower)).2.outBytes = (parseGuid str).2.outBytes := by
  unfold parseGuid
  rw [List.length_map, unbraced_toLower]
  split
  · exact ⟨rfl, rfl⟩
  · rcases parseLoop_toLower (unbraced str) (s := .start) (t := .start) ⟨rfl, rfl, rfl⟩ with ⟨hok, hout, -, hhalf⟩
    rcases h : parseLoop ((unbraced str).map toLower) .start with ⟨ok, s⟩
    rcases h' : parseLoop (unbraced str) .start with ⟨ok', s'⟩
    rw [h, h'] at hok hout hhalf
    cases hok
    cases ok with
    | false => exact ⟨rfl, hout⟩
    | true => exact ⟨by dsimp only at hout hhalf ⊢; rw [hout, hhalf], hout⟩

end MajorPrivacy.Guid

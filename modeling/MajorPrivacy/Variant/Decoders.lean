/-
The decoders of the three implementations side by side. Each is brought to one form (a payload of
fixed size, or a length field and the payload it announces), and from that form follows for which
byte strings the three report the same: all but those of three kinds.
-/
import MajorPrivacy.Variant.SVariant
import MajorPrivacy.Variant.GoVariant

namespace MajorPrivacy.Variant

open LittleEndian

/-! ## One form for the three decoders -/

/-- A payload of `n` bytes right behind the type byte. -/
def fixedDecode (type : EType) (n : Nat) (rest : Bytes) : Option Decoded :=
  if n ≤ rest.length then some ⟨type, rest.take n, 1 + n⟩ else none

/-- The number in a length field of `w` bytes behind the type byte. -/
def fieldSize (w : Nat) (rest : Bytes) : Nat := ofLE (rest.take w)

/-- The length field of `w` bytes is there, and so is the payload it announces. -/
def FieldFits (w : Nat) (rest : Bytes) : Prop :=
  w ≤ rest.length ∧ fieldSize w rest ≤ rest.length - w

instance (w : Nat) (rest : Bytes) : Decidable (FieldFits w rest) := by
  unfold FieldFits; infer_instance

/-- A length field of `w` bytes and the payload it announces. -/
def fieldDecode (type : EType) (w : Nat) (rest : Bytes) : Option Decoded :=
  if FieldFits w rest then
    some ⟨type, (rest.drop w).take (fieldSize w rest), 1 + w + fieldSize w rest⟩
  else none

/-- The width of the length field a length code stands for, in C++ for every code. -/
def fieldWidth (code : UInt8) : Nat :=
  if code = varLen8 then 1 else if code = varLen16 then 2 else 4

/-- The payload size of a type byte without a length field. -/
def fixedSize (type : UInt8) : Nat :=
  if type &&& varTypeMask = varTypeEmpty then 0 else implicitSize (type &&& varLenMask)

theorem fieldSize_lt {w : Nat} {rest : Bytes} (h : w ≤ rest.length) : fieldSize w rest < 256 ^ w := by
  have := ofLE_lt (rest.take w)
  rwa [List.length_take, Nat.min_eq_left h] at this

theorem readValue_eq (w : Nat) (rest : Bytes) :
    readValue w rest = if w ≤ rest.length then some (fieldSize w rest, rest.drop w) else none := by
  unfold readValue readData fieldSize
  split <;> rfl

/-- C++: both a payload of fixed size and a length field, whatever the length code; the error
value is no length. -/
theorem cppFromPacket_cons (type : UInt8) (rest : Bytes) :
    cppFromPacket (type :: rest) =
      if type &&& varLenField ≠ 0 then
        if fieldSize (fieldWidth (type &&& varLenMask)) rest = invalidSize then none
        else fieldDecode (type &&& varTypeMask) (fieldWidth (type &&& varLenMask)) rest
      else fixedDecode (type &&& varTypeMask) (fixedSize type) rest := by
  have hval : (if type &&& varLenMask = varLen8 then readValue 1 rest
      else if type &&& varLenMask = varLen16 then readValue 2 rest else readValue 4 rest) =
      readValue (fieldWidth (type &&& varLenMask)) rest := by
    unfold fieldWidth; split_ifs <;> rfl
  have hfix : (if type &&& varTypeMask = varTypeEmpty then some (0, rest)
      else some (implicitSize (type &&& varLenMask), rest)) = some (fixedSize type, rest) := by
    unfold fixedSize; split_ifs <;> rfl
  unfold cppFromPacket readPacket readHeader
  by_cases hf : type &&& varLenField ≠ 0
  · simp only [if_pos hf, hval]
    rw [readValue_eq]
    generalize fieldWidth (type &&& varLenMask) = w
    unfold fieldDecode FieldFits
    by_cases hw : w ≤ rest.length
    · by_cases hs : fieldSize w rest ≤ rest.length - w
      · have hs' : ¬ rest.length - w < fieldSize w rest := by omega
        by_cases hi : fieldSize w rest = invalidSize
        · rw [hi] at hs'
          simp [hi, hs', hw]
        · simp only [hw, hs, hs', hi, if_true, if_false, and_self, readData, List.length_drop, List.length_cons,
            Option.some.injEq, Decoded.mk.injEq, true_and]
          omega
      · have hs' : rest.length - w < fieldSize w rest := by omega
        simp [hs, hs', hw]
    · simp [hw]
  · have hsz : fixedSize type ≠ invalidSize := by
      unfold fixedSize implicitSize invalidSize; split_ifs <;> decide
    simp only [if_neg hf, hfix, fixedDecode]
    by_cases hs : fixedSize type ≤ rest.length
    · have hs' : ¬ rest.length < fixedSize type := by omega
      simp only [if_neg hs', if_neg hsz, readData, if_pos hs, List.length_drop, List.length_cons,
        Option.some.injEq, Decoded.mk.injEq, true_and]
      omega
    · have hs' : rest.length < fixedSize type := by omega
      simp [hs, hs']

/-- C: no 64-bit length code, no length equal to the error value, no buffer of 4 GB or more. -/
theorem variantFromBuffer_cons (type : UInt8) (rest : Bytes) :
    variantFromBuffer (type :: rest) =
      if 1 + rest.length > ulongMax then none
      else if type &&& varLenField ≠ 0 then
        if type &&& varLenMask = varLen64 ∨ fieldSize (fieldWidth (type &&& varLenMask)) rest = invalidSize then none
        else fieldDecode (type &&& varTypeMask) (fieldWidth (type &&& varLenMask)) rest
      else fixedDecode (type &&& varTypeMask) (fixedSize type) rest := by
  unfold variantFromBuffer variantReadSize
  simp only [List.length_cons, Nat.add_comm rest.length 1]
  by_cases hn : 1 + rest.length > ulongMax
  · simp only [if_pos hn]
  simp only [if_neg hn]
  obtain ⟨h1, h2, h3, h4, h5, h6⟩ := lenCodes_ne
  by_cases hf : type &&& varLenField ≠ 0
  · simp only [if_pos hf]
    -- a field of `w` bytes that is there is read, and a payload that fits it is returned
    have field : ∀ w, (1 + rest.length ≥ 1 + w ↔ w ≤ rest.length) := by omega
    have read : ∀ w, w ≤ rest.length →
        (if ofLE (rest.take w) = invalidSize ∨ ofLE (rest.take w) > (rest.drop w).length then none
          else some (Decoded.mk (type &&& varTypeMask) ((rest.drop w).take (ofLE (rest.take w)))
            (1 + rest.length - (rest.drop w).length + ofLE (rest.take w)))) =
        if fieldSize w rest = invalidSize then none else fieldDecode (type &&& varTypeMask) w rest := by
      intro w hw
      unfold fieldDecode FieldFits fieldSize
      simp only [hw, true_and, List.length_drop]
      by_cases hi : ofLE (rest.take w) = invalidSize
      · simp [hi]
      · by_cases hs : ofLE (rest.take w) ≤ rest.length - w
        · have hs' : ¬ ofLE (rest.take w) > rest.length - w := by omega
          simp only [hi, hs', or_self, if_false, if_pos hs, Option.some.injEq, Decoded.mk.injEq, true_and]
          omega
        · have hs' : ofLE (rest.take w) > rest.length - w := by omega
          simp [hi, hs, hs']
    have short : ∀ w, ¬ w ≤ rest.length → fieldDecode (type &&& varTypeMask) w rest = none := by
      intro w hw; simp [fieldDecode, FieldFits, hw]
    rcases lenCode_cases type with h | h | h | h <;>
      simp only [h, field, h1, h2, h3, h4, h5, h6, h1.symm, h2.symm, h3.symm, h4.symm, h5.symm, h6.symm, fieldWidth,
        true_and, false_and, false_or, true_or, if_true, if_false]
    · by_cases hw : 1 ≤ rest.length
      · simp only [if_pos hw]; exact read 1 hw
      · simp [hw, short 1 hw]
    · by_cases hw : 2 ≤ rest.length
      · simp only [if_pos hw]; exact read 2 hw
      · simp [hw, short 2 hw]
    · by_cases hw : 4 ≤ rest.length
      · simp only [if_pos hw]; exact read 4 hw
      · simp [hw, short 4 hw]
  · simp only [if_neg hf]
    have hbr : (if type &&& varTypeMask = varTypeEmpty then (0, rest)
        else (implicitSize (type &&& varLenMask), rest)) = (fixedSize type, rest) := by
      unfold fixedSize; split_ifs <;> rfl
    have hsz : fixedSize type ≠ invalidSize := by
      unfold fixedSize implicitSize invalidSize; split_ifs <;> decide
    rw [hbr]
    unfold fixedDecode
    by_cases hs : fixedSize type ≤ rest.length
    · have hs' : ¬ fixedSize type > rest.length := by omega
      simp only [hsz, hs', or_self, if_false, if_pos hs, Option.some.injEq, Decoded.mk.injEq, true_and]
      omega
    · have hs' : fixedSize type > rest.length := by omega
      simp [hs, hs']

/-- Go: an empty variant has no length field even where the flag is set, and there is no 64-bit
length code. -/
theorem goFromBuffer_cons (type : UInt8) (rest : Bytes) :
    (goFromBuffer (type :: rest)).toOption =
      if type &&& varTypeMask = varTypeEmpty then fixedDecode varTypeEmpty 0 rest
      else if type &&& varLenField ≠ 0 then
        if type &&& varLenMask = varLen64 then none
        else fieldDecode (type &&& varTypeMask) (fieldWidth (type &&& varLenMask)) rest
      else fixedDecode (type &&& varTypeMask) (fixedSize type) rest := by
  unfold goFromBuffer goReadSize
  obtain ⟨h1, h2, h3, h4, h5, h6⟩ := lenCodes_ne
  by_cases he : type &&& varTypeMask = varTypeEmpty
  · simp [he, fixedDecode, Except.toOption]
  simp only [if_neg he]
  by_cases hf : type &&& varLenField ≠ 0
  · simp only [if_pos hf]
    have field : ∀ w, ((type :: rest).length < w + 1 ↔ ¬ w ≤ rest.length) := by
      intro w; rw [List.length_cons]; omega
    have read : ∀ w, w ≤ rest.length →
        (if 1 + w + ofLE (((type :: rest).drop 1).take w) > (type :: rest).length then
            (.error .errBufferTooSmall : Except GoError Decoded)
          else .ok ⟨type &&& varTypeMask, ((type :: rest).drop (1 + w)).take (ofLE (((type :: rest).drop 1).take w)),
            1 + w + ofLE (((type :: rest).drop 1).take w)⟩).toOption =
        fieldDecode (type &&& varTypeMask) w rest := by
      intro w hw
      have hd : (type :: rest).drop (1 + w) = rest.drop w := by rw [Nat.add_comm]; rfl
      unfold fieldDecode FieldFits fieldSize
      simp only [hw, true_and, List.drop_one, List.tail_cons, List.length_cons, hd]
      by_cases hs : ofLE (rest.take w) ≤ rest.length - w
      · have hs' : ¬ 1 + w + ofLE (rest.take w) > rest.length + 1 := by omega
        simp only [if_neg hs', if_pos hs, Except.toOption]
      · have hs' : 1 + w + ofLE (rest.take w) > rest.length + 1 := by omega
        simp only [if_pos hs', if_neg hs, Except.toOption]
    have short : ∀ w, ¬ w ≤ rest.length → fieldDecode (type &&& varTypeMask) w rest = none := by
      intro w hw; simp [fieldDecode, FieldFits, hw]
    have f1 := field 1
    have f2 := field 2
    have f4 := field 4
    simp only [Nat.reduceAdd] at f1 f2 f4
    rcases lenCode_cases type with h | h | h | h <;>
      simp only [h, f1, f2, f4, h1, h2, h3, h4, h5, h6, h1.symm, h2.symm, h3.symm, h4.symm, h5.symm, h6.symm, fieldWidth,
        if_true, if_false]
    · by_cases hw : 1 ≤ rest.length
      · simp only [hw, not_true, if_false]; exact read 1 hw
      · simp [hw, short 1 hw, Except.toOption]
    · by_cases hw : 2 ≤ rest.length
      · simp only [hw, not_true, if_false]; exact read 2 hw
      · simp [hw, short 2 hw, Except.toOption]
    · by_cases hw : 4 ≤ rest.length
      · simp only [hw, not_true, if_false]; exact read 4 hw
      · simp [hw, short 4 hw, Except.toOption]
    · rfl
  · simp only [if_neg hf, fixedSize, if_neg he, fixedDecode, Nat.add_zero, List.length_cons]
    by_cases hs : implicitSize (type &&& varLenMask) ≤ rest.length
    · have hs' : ¬ 1 + implicitSize (type &&& varLenMask) > rest.length + 1 := by omega
      simp only [if_neg hs', if_pos hs, Except.toOption, List.drop_one, List.tail_cons]
    · have hs' : 1 + implicitSize (type &&& varLenMask) > rest.length + 1 := by omega
      simp only [if_pos hs', if_neg hs, Except.toOption]

/-! ## Where the three decoders differ -/

/-- The three decoders all reject the bytes, or report the same. -/
def DecodersAgree (b : Bytes) : Prop :=
  cppFromPacket b = variantFromBuffer b ∧ variantFromBuffer b = (goFromBuffer b).toOption

/-- The type of an empty variant with the flag of a length field, which an empty variant has not:
Go passes over the flag, C++ and C read the field. -/
def EmptyWithField : Bytes → Prop
  | [] => False
  | type :: _ => type &&& varTypeMask = varTypeEmpty ∧ type &&& varLenField ≠ 0

/-- A length field with the 64-bit code, which no length field may have, and behind it what a
32-bit field asks for: C++ reads it as one, C and Go reject it. -/
def WideField : Bytes → Prop
  | [] => False
  | type :: rest => type &&& varLenField ≠ 0 ∧ type &&& varLenMask = varLen64 ∧
      FieldFits 4 rest ∧ fieldSize 4 rest ≠ invalidSize

/-- A whole variant at the start of 4 GB or more: C rejects any buffer of that size. -/
def Oversized : Bytes → Prop
  | [] => False
  | type :: rest => ulongMax < 1 + rest.length ∧ (type &&& varLenField ≠ 0 →
      type &&& varLenMask ≠ varLen64 ∧ FieldFits (fieldWidth (type &&& varLenMask)) rest)

theorem fixedSize_le (type : UInt8) : fixedSize type ≤ 8 := by
  unfold fixedSize implicitSize; split_ifs <;> omega

theorem fieldDecode_eq_none {type : EType} {w : Nat} {rest : Bytes} :
    fieldDecode type w rest = none ↔ ¬ FieldFits w rest := by
  unfold fieldDecode; split_ifs with h <;> simp [h]

theorem fixedDecode_eq_none {type : EType} {n : Nat} {rest : Bytes} :
    fixedDecode type n rest = none ↔ ¬ n ≤ rest.length := by
  unfold fixedDecode; split_ifs with h <;> simp [h]

theorem fieldWidth_len64 : fieldWidth varLen64 = 4 := by decide

/-- A length field that announces the error value does not fit a buffer below 4 GB. -/
theorem not_fieldFits_invalid {w : Nat} {rest : Bytes} (hn : 1 + rest.length ≤ ulongMax)
    (h : fieldSize w rest = invalidSize) : ¬ FieldFits w rest := by
  rintro ⟨-, hf⟩
  unfold invalidSize at h
  unfold ulongMax at hn
  omega

/-- An empty type with a length field: Go takes one byte, C++ and C at least two or none. -/
theorem emptyField_differ {type : UInt8} {rest : Bytes} (he : type &&& varTypeMask = varTypeEmpty)
    (hf : type &&& varLenField ≠ 0) :
    variantFromBuffer (type :: rest) ≠ (goFromBuffer (type :: rest)).toOption := by
  rw [variantFromBuffer_cons, goFromBuffer_cons, if_pos he, if_pos hf]
  have hgo : fixedDecode varTypeEmpty 0 rest = some ⟨varTypeEmpty, [], 1⟩ := by simp [fixedDecode]
  have hw : 1 ≤ fieldWidth (type &&& varLenMask) := by unfold fieldWidth; split_ifs <;> omega
  rw [hgo]
  intro h
  split_ifs at h
  unfold fieldDecode at h
  split_ifs at h
  simp only [Option.some.injEq, Decoded.mk.injEq] at h
  omega

/-- The three decoders agree on a byte string exactly when it is of none of the three kinds. -/
theorem decodersAgree_iff (b : Bytes) :
    DecodersAgree b ↔ ¬ EmptyWithField b ∧ ¬ WideField b ∧ ¬ Oversized b := by
  cases b with
  | nil => simp [DecodersAgree, EmptyWithField, WideField, Oversized, cppFromPacket, readPacket, readHeader,
      variantFromBuffer, goFromBuffer, Except.toOption]
  | cons type rest =>
    by_cases hf : type &&& varLenField ≠ 0
    · by_cases he : type &&& varTypeMask = varTypeEmpty
      · -- the first kind, whatever follows
        have := @emptyField_differ type rest he hf
        simp [DecodersAgree, EmptyWithField, he, hf, this]
      by_cases hc : type &&& varLenMask = varLen64
      · -- C and Go reject the 64-bit code, so C++ has to
        simp only [DecodersAgree, EmptyWithField, WideField, Oversized, cppFromPacket_cons, variantFromBuffer_cons,
          goFromBuffer_cons, hc, if_true, true_or, ite_self, and_true, he, false_and,
          not_false_iff, true_and, fieldWidth_len64, hf, ne_eq, not_true, imp_false, and_false]
        by_cases hi : fieldSize 4 rest = invalidSize
        · simp [hi]
        · simp [hi, fieldDecode_eq_none]
      · simp only [DecodersAgree, EmptyWithField, WideField, Oversized, cppFromPacket_cons, variantFromBuffer_cons,
          goFromBuffer_cons, hc, false_or, he, false_and, and_false, hf, ne_eq,
          not_false_iff, true_and, forall_const]
        by_cases hn : ulongMax < 1 + rest.length
        · simp only [hn, if_true, true_and]
          constructor
          · rintro ⟨-, h⟩
            exact fieldDecode_eq_none.1 h.symm
          · intro h
            simp [fieldDecode_eq_none.2 h]
        · simp only [hn, if_false, false_and, not_false_iff, iff_true, true_and]
          by_cases hi : fieldSize (fieldWidth (type &&& varLenMask)) rest = invalidSize
          · simp [hi, fieldDecode_eq_none.2 (not_fieldFits_invalid (by omega) hi)]
          · simp [hi]
    · have hgo : (goFromBuffer (type :: rest)).toOption = fixedDecode (type &&& varTypeMask) (fixedSize type) rest := by
        rw [goFromBuffer_cons, if_neg hf]
        by_cases he : type &&& varTypeMask = varTypeEmpty
        · simp [fixedSize, he]
        · simp [he]
      simp only [DecodersAgree, EmptyWithField, WideField, Oversized, cppFromPacket_cons, variantFromBuffer_cons,
        hgo, hf, and_false, false_and, not_false_iff, false_imp_iff, and_true, true_and, if_false]
      by_cases hn : ulongMax < 1 + rest.length
      · have h8 := fixedSize_le type
        have hd : fixedDecode (type &&& varTypeMask) (fixedSize type) rest ≠ none := by
          rw [Ne, fixedDecode_eq_none, not_not]
          unfold ulongMax at hn
          omega
        simp [hn, hd]
      · simp [hn]

/-- The smallest disagreement: an empty variant that says it has a length field of one byte. -/
theorem decoders_differ : ¬ ∀ b, DecodersAgree b := by
  intro h
  have := (h [varTypeEmpty ||| varLenField, 0]).2
  revert this
  decide

end MajorPrivacy.Variant

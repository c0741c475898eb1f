/-
The encoders of the three implementations side by side. Each writes a header that announces the
type and the size of the payload, and every reader takes any such header for what it announces; so
what one implementation writes all three read, whatever width each chose for the length field.
-/
import MajorPrivacy.Variant.Decoders

namespace MajorPrivacy.Variant

open LittleEndian

/-! ## Headers -/

/-- A header in front of `n` bytes: the size in the type byte, or behind it in a length field. -/
inductive Header (type : EType) (n : Nat) : Bytes → Prop
  | fixed {b : UInt8} (ht : b &&& varTypeMask = type) (hf : b &&& varLenField = 0) (hn : fixedSize b = n) :
      Header type n [b]
  | field {b : UInt8} (ht : b &&& varTypeMask = type) (hf : b &&& varLenField ≠ 0) (hc : b &&& varLenMask ≠ varLen64)
      (he : type ≠ varTypeEmpty) (hn : n < 256 ^ fieldWidth (b &&& varLenMask)) :
      Header type n (b :: toLE (fieldWidth (b &&& varLenMask)) n)

theorem Header.ne_nil {type : EType} {n : Nat} {header : Bytes} (h : Header type n header) : header ≠ [] := by
  cases h <;> simp

theorem readValue_toLE {w n : Nat} (h : n < 256 ^ w) (rest : Bytes) :
    readValue w (toLE w n ++ rest) = some (n, rest) := by
  simp only [readValue, readData, List.length_append, length_toLE, Nat.le_add_right, if_true, Option.map_some,
    Option.some.injEq, Prod.mk.injEq]
  rw [List.take_left' (length_toLE w n), List.drop_left' (length_toLE w n), ofLE_toLE_of_lt h]
  exact ⟨rfl, rfl⟩

theorem take_toLE {w n : Nat} (h : n < 256 ^ w) (rest : Bytes) : ofLE ((toLE w n ++ rest).take w) = n := by
  rw [List.take_left' (length_toLE w n), ofLE_toLE_of_lt h]

/-- C++ reads the header; behind it the whole payload has to follow. -/
theorem Header.readHeader {type : EType} {n : Nat} {header : Bytes} (h : Header type n header) (tail : Bytes) :
    readHeader (header ++ tail) = if tail.length < n then none else some (type, n, tail) := by
  cases h with
  | @fixed b ht hf hn =>
    subst ht
    have hfix : (if b &&& varTypeMask = varTypeEmpty then some (0, tail)
        else some (implicitSize (b &&& varLenMask), tail)) = some (n, tail) := by
      rw [← hn]
      unfold fixedSize
      split <;> rfl
    simp only [List.singleton_append, Variant.readHeader, hf, ne_eq, not_true_eq_false, if_false, hfix]
  | @field b ht hf hc he hn =>
    have hval : (if b &&& varLenMask = varLen8 then readValue 1 (toLE (fieldWidth (b &&& varLenMask)) n ++ tail)
        else if b &&& varLenMask = varLen16 then readValue 2 (toLE (fieldWidth (b &&& varLenMask)) n ++ tail)
        else readValue 4 (toLE (fieldWidth (b &&& varLenMask)) n ++ tail)) =
        readValue (fieldWidth (b &&& varLenMask)) (toLE (fieldWidth (b &&& varLenMask)) n ++ tail) := by
      unfold fieldWidth
      split_ifs <;> rfl
    rw [readValue_toLE hn] at hval
    simp only [List.cons_append, Variant.readHeader, hf, ne_eq, not_false_eq_true, if_true, hval, ht]

/-- C reads the header and stands behind it. -/
theorem Header.variantReadSize {type : EType} {n : Nat} {header : Bytes} (h : Header type n header) (tail : Bytes)
    {size : Nat} (hs : header.length ≤ size) : variantReadSize (header ++ tail) size = (n, tail) := by
  obtain ⟨h1, h2, h3, h4, h5, h6⟩ := lenCodes_ne
  cases h with
  | @fixed b ht hf hn =>
    have hfix : (if b &&& varTypeMask = varTypeEmpty then (0, tail)
        else (implicitSize (b &&& varLenMask), tail)) = (n, tail) := by
      rw [← hn]
      unfold fixedSize
      split <;> rfl
    simp only [List.singleton_append, Variant.variantReadSize, hf, ne_eq, not_true_eq_false, if_false, hfix]
  | @field b ht hf hc he hn =>
    rw [List.length_cons, length_toLE] at hs
    simp only [List.cons_append, Variant.variantReadSize, hf, ne_eq, not_false_eq_true, if_true]
    rcases lenCode_cases b with h | h | h | h
    · rw [h] at hn hs ⊢
      have hw : fieldWidth varLen8 = 1 := rfl
      rw [hw] at hn hs ⊢
      simp only [true_and, if_pos (show size ≥ 1 + 1 by omega), take_toLE hn, List.drop_left' (length_toLE 1 n)]
    · rw [h] at hn hs ⊢
      have hw : fieldWidth varLen16 = 2 := rfl
      rw [hw] at hn hs ⊢
      simp only [h1, false_and, if_false, true_and, if_pos (show size ≥ 1 + 2 by omega), take_toLE hn,
        List.drop_left' (length_toLE 2 n)]
    · rw [h] at hn hs ⊢
      have hw : fieldWidth varLen32 = 4 := rfl
      rw [hw] at hn hs ⊢
      simp only [h2, h4, false_and, if_false, true_and, if_pos (show size ≥ 1 + 4 by omega), take_toLE hn,
        List.drop_left' (length_toLE 4 n)]
    · exact absurd h hc

/-- Go reads the size and the width of the length field. -/
theorem Header.goReadSize {type : EType} {n : Nat} {header : Bytes} (h : Header type n header) (tail : Bytes) :
    ∃ b bytesRead, header.head? = some b ∧ header.length = 1 + bytesRead ∧ b &&& varTypeMask = type ∧
      goReadSize (header ++ tail) b = .ok (n, bytesRead) := by
  obtain ⟨h1, h2, h3, h4, h5, h6⟩ := lenCodes_ne
  cases h with
  | @fixed b ht hf hn =>
    refine ⟨b, 0, rfl, rfl, ht, ?_⟩
    unfold Variant.goReadSize
    unfold fixedSize at hn
    by_cases he : b &&& varTypeMask = varTypeEmpty
    · rw [if_pos he] at hn ⊢
      rw [hn]
    · rw [if_neg he] at hn ⊢
      rw [hf, if_neg (by simp), hn]
  | @field b ht hf hc he hn =>
    refine ⟨b, fieldWidth (b &&& varLenMask), rfl, by rw [List.length_cons, length_toLE, Nat.add_comm], ht, ?_⟩
    unfold Variant.goReadSize
    rw [if_neg (by rw [ht]; exact he), if_pos hf]
    simp only [List.cons_append, List.drop_one, List.tail_cons, List.length_cons, List.length_append, length_toLE]
    rcases lenCode_cases b with h | h | h | h
    · rw [h] at hn ⊢
      have hw : fieldWidth varLen8 = 1 := rfl
      rw [hw] at hn ⊢
      rw [if_pos rfl, if_neg (by omega), take_toLE hn]
    · rw [h] at hn ⊢
      have hw : fieldWidth varLen16 = 2 := rfl
      rw [hw] at hn ⊢
      rw [if_neg h1, if_pos rfl, if_neg (by omega), take_toLE hn]
    · rw [h] at hn ⊢
      have hw : fieldWidth varLen32 = 4 := rfl
      rw [hw] at hn ⊢
      rw [if_neg h2, if_neg h4, if_pos rfl, if_neg (by omega), take_toLE hn]
    · exact absurd h hc

/-! ## Decoding what follows a header -/

section Decoding

variable {type : EType} {payload header : Bytes}

theorem Header.readPacket (h : Header type payload.length header) (hi : payload.length < invalidSize) (rest : Bytes) :
    readPacket (header ++ payload ++ rest) = .ok (type, payload, rest) := by
  unfold Variant.readPacket
  rw [List.append_assoc, h.readHeader, if_neg (by simp)]
  simp only [if_neg (show ¬ payload.length = invalidSize by omega), readData, List.length_append, Nat.le_add_right,
    if_true, List.take_left, List.drop_left]

theorem Header.cppFromPacket (h : Header type payload.length header) (hi : payload.length < invalidSize) (rest : Bytes) :
    cppFromPacket (header ++ payload ++ rest) = some ⟨type, payload, header.length + payload.length⟩ := by
  unfold Variant.cppFromPacket
  rw [h.readPacket hi]
  simp only [List.length_append, Option.some.injEq, Decoded.mk.injEq, true_and]
  omega

theorem Header.variantFromBuffer (h : Header type payload.length header) (rest : Bytes)
    (hs : (header ++ payload ++ rest).length ≤ ulongMax) :
    variantFromBuffer (header ++ payload ++ rest) = some ⟨type, payload, header.length + payload.length⟩ := by
  have htype : ∃ b, ∃ field, header = b :: field ∧ b &&& varTypeMask = type := by
    cases h with
    | fixed ht _ _ => exact ⟨_, _, rfl, ht⟩
    | field ht _ _ _ _ => exact ⟨_, _, rfl, ht⟩
  obtain ⟨b, field, hb, ht⟩ := htype
  have hread := h.variantReadSize (payload ++ rest) (show _ ≤ (header ++ payload ++ rest).length by
    simp only [List.length_append]; omega)
  have hpos : 0 < header.length := List.length_pos_iff.2 h.ne_nil
  rw [← List.append_assoc] at hread
  have hlen : (header ++ payload ++ rest).length = header.length + payload.length + rest.length := by
    simp only [List.length_append]
  rw [hlen] at hs
  have hinv : ¬ (payload.length = invalidSize ∨ payload.length > (payload ++ rest).length) := by
    rw [List.length_append]
    unfold invalidSize
    unfold ulongMax at hs
    omega
  unfold Variant.variantFromBuffer
  rw [hb, List.cons_append, List.cons_append]
  simp only
  rw [show b :: (field ++ payload ++ rest) = header ++ payload ++ rest by rw [hb]; simp]
  rw [if_neg (by rw [hlen]; omega), hread]
  rw [if_neg hinv]
  simp only [List.take_left, ht, Option.some.injEq, Decoded.mk.injEq, true_and, List.length_append, hb]
  omega

theorem Header.goFromBuffer (h : Header type payload.length header) (rest : Bytes) :
    goFromBuffer (header ++ payload ++ rest) = .ok ⟨type, payload, header.length + payload.length⟩ := by
  obtain ⟨b, bytesRead, hb, hlen, ht, hread⟩ := h.goReadSize (payload ++ rest)
  obtain ⟨field, rfl⟩ : ∃ field, header = b :: field := by
    cases header with
    | nil => cases hb
    | cons c field => cases hb; exact ⟨field, rfl⟩
  rw [← List.append_assoc] at hread
  unfold Variant.goFromBuffer
  rw [List.cons_append, List.cons_append] at hread ⊢
  simp only [hread]
  have hdrop : (b :: (field ++ payload ++ rest)).drop (1 + bytesRead) = payload ++ rest := by
    have : b :: (field ++ payload ++ rest) = (b :: field) ++ (payload ++ rest) := by simp
    rw [this, List.drop_left' hlen]
  rw [if_neg (by simp only [List.length_cons, List.length_append] at hlen ⊢; omega), hdrop]
  simp only [List.take_left, ht, hlen]

end Decoding

/-! ## The encoders -/

section Encoders

variable {type : EType}

/-- The type byte for a payload whose size the length code stands for. -/
theorem header_code (ht : type &&& varTypeMask = type) {c : UInt8} (hc : c &&& varLenMask = c)
    (he : type ≠ varTypeEmpty) : Header type (implicitSize c) [type ||| c] := by
  obtain ⟨h₁, h₂, h₃⟩ := typeByte_fields ht hc
  refine .fixed h₁ h₂ ?_
  unfold fixedSize
  rw [h₁, if_neg he, h₃]

/-- The type byte with a length field behind it. -/
theorem header_field (ht : type &&& varTypeMask = type) {c : UInt8} (hc : c &&& varLenMask = c) (h64 : c ≠ varLen64)
    (he : type ≠ varTypeEmpty) {n : Nat} (hn : n < 256 ^ fieldWidth c) :
    Header type n ((type ||| varLenField ||| c) :: toLE (fieldWidth c) n) := by
  obtain ⟨h₁, h₂, h₃⟩ := typeByte_fields_field ht hc
  have := Header.field (n := n) h₁ h₂ (by rw [h₃]; exact h64) he (by rw [h₃]; exact hn)
  rwa [h₃] at this

theorem header_empty (ht : type = varTypeEmpty) : Header type 0 [type] := by
  subst ht
  exact .fixed (by decide) (by decide) (by decide)

/-- All three encoders take the sizes the type byte can say from the type byte, and write one of
the three length fields otherwise; they differ in where they change from one width to the next. -/
theorem header_sizes (ht : type &&& varTypeMask = type) (he : type ≠ varTypeEmpty) {n : Nat} (hn : n < 2 ^ 32)
    {m₁ m₂ : Nat} (h₁ : m₁ ≤ 0xFFFF + 1) (h₂ : m₂ ≤ 0xFF + 1) {field : Bytes}
    (hf : field = if n ≥ m₁ then (type ||| varLenField ||| varLen32) :: toLE 4 n
      else if n ≥ m₂ then (type ||| varLenField ||| varLen16) :: toLE 2 n
      else (type ||| varLenField ||| varLen8) :: toLE 1 n) :
    Header type n (if n = 1 then [type ||| varLen8] else if n = 2 then [type ||| varLen16]
      else if n = 4 then [type ||| varLen32] else if n = 8 then [type ||| varLen64] else field) := by
  split_ifs with h1 h2 h4 h8
  · subst h1; exact header_code (c := varLen8) ht (by decide) he
  · subst h2; exact header_code (c := varLen16) ht (by decide) he
  · subst h4; exact header_code (c := varLen32) ht (by decide) he
  · subst h8; exact header_code (c := varLen64) ht (by decide) he
  · subst hf
    split_ifs with h3 h5
    · exact header_field (c := varLen32) ht (by decide) (by decide) he (show n < 256 ^ 4 by omega)
    · exact header_field (c := varLen16) ht (by decide) (by decide) he (show n < 256 ^ 2 by omega)
    · exact header_field (c := varLen8) ht (by decide) (by decide) he (show n < 256 ^ 1 by omega)

theorem packetHeader_header (ht : type &&& varTypeMask = type) {n : Nat} (hn : n < 2 ^ 32)
    (he : type = varTypeEmpty → n = 0) : Header type n (packetHeader type n) := by
  unfold packetHeader
  by_cases h : type = varTypeEmpty
  · rw [if_pos h, he h]
    exact header_empty h
  · rw [if_neg h]
    exact header_sizes ht h hn (show 0x10000 ≤ _ by decide) (show 0x100 ≤ _ by decide) rfl

theorem variantWriteSize_header (ht : type &&& varTypeMask = type) {n : Nat} (hn : n < 2 ^ 32)
    (he : type = varTypeEmpty → n = 0) : Header type n (variantWriteSize type n) := by
  unfold variantWriteSize
  rw [ht]
  by_cases h : type = varTypeEmpty
  · simp only [if_pos h]
    rw [he h]
    exact header_empty h
  · simp only [if_neg h]
    exact header_sizes ht h hn (by decide) (by decide) rfl

theorem goHeader_header (ht : type &&& varTypeMask = type) {n : Nat} (hn : n < 2 ^ 32)
    (he : type = varTypeEmpty → n = 0) : Header type n (goHeader type n) := by
  unfold goHeader
  by_cases h : type = varTypeEmpty
  · rw [if_pos h, he h, ← h]
    exact header_empty h
  · rw [if_neg h]
    exact header_sizes ht h hn (by decide) (by decide) rfl

/-- `Variant_Finish` always writes a length field, as wide as the room of the container asks for. -/
theorem finishHeader_header (ht : type &&& varTypeMask = type) (he : type ≠ varTypeEmpty) {maxSize n : Nat}
    (hn : n ≤ maxSize) (hm : n < 2 ^ 32) : Header type n (finishHeader type maxSize n) := by
  unfold finishHeader
  rw [ht]
  unfold ushrtMax ucharMax
  split_ifs with h1 h2
  · exact header_field (c := varLen32) ht (by decide) (by decide) he (show n < 256 ^ 4 by omega)
  · exact header_field (c := varLen16) ht (by decide) (by decide) he (show n < 256 ^ 2 by omega)
  · exact header_field (c := varLen8) ht (by decide) (by decide) he (show n < 256 ^ 1 by omega)

/-- A variant as one of the encoders writes it. `Variant_Finish` writes what the container holds
that was prepared in the buffer, or a static payload of up to eight bytes, and nothing for an empty
variant. -/
inductive Written (type : EType) (payload : Bytes) : Bytes → Prop
  | toPacket : Written type payload (toPacket type payload)
  | variantToBuffer {maxSize : Nat} {packet : Bytes} (h : variantToBuffer type payload maxSize = some packet) :
      Written type payload packet
  | variantFinish {maxSize : Nat} (he : type ≠ varTypeEmpty) (hm : payload.length ≤ maxSize) :
      Written type payload (finishHeader type maxSize payload.length ++ payload)
  | variantFinishStatic (he : type ≠ varTypeEmpty) (hm : payload.length ≤ 8) :
      Written type payload (finishHeader type 0 payload.length ++ payload)
  | goToBuffer : Written type payload (goToBuffer type payload)

/-- What an encoder writes is a header for the payload, and the payload. -/
theorem Written.header {payload packet : Bytes} (h : Written type payload packet) (ht : type &&& varTypeMask = type)
    (he : type = varTypeEmpty → payload = []) (hn : payload.length < 2 ^ 32) :
    ∃ header, Header type payload.length header ∧ packet = header ++ payload := by
  have he' : type = varTypeEmpty → payload.length = 0 := fun h => by rw [he h, List.length_nil]
  cases h with
  | toPacket => exact ⟨_, packetHeader_header ht hn he', rfl⟩
  | variantToBuffer h =>
    unfold Variant.variantToBuffer at h
    split at h
    · cases h
    · cases h
      rw [ht]
      exact ⟨_, variantWriteSize_header ht hn he', rfl⟩
  | variantFinish he hm => exact ⟨_, finishHeader_header ht he hm hn, rfl⟩
  | variantFinishStatic he hm =>
    have hsmall : finishHeader type 0 payload.length = finishHeader type 8 payload.length := by
      unfold finishHeader ushrtMax ucharMax
      simp
    rw [hsmall]
    exact ⟨_, finishHeader_header ht he hm hn, rfl⟩
  | goToBuffer => exact ⟨_, goHeader_header ht hn he', rfl⟩

end Encoders

end MajorPrivacy.Variant

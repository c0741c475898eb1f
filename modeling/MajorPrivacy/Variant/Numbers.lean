/-
Integers read from a variant: `CVariant::To` (Variant.cpp), `Variant_ToInt` (SVariant.c) and the
`As` accessors of Go (variant.go), each with its own rule for a target of another width.
-/
import MajorPrivacy.Variant.GoVariant
import Mathlib.Algebra.Order.Ring.Int
import Mathlib.Tactic.Linarith

namespace MajorPrivacy.Variant

open LittleEndian

/-! ## The readers -/

/-- `CVariant::GetInt`: the bytes it leaves in the target. -/
def getInt (type : EType) (payload : Bytes) (size : Nat) : Except EResult Bytes :=
  if type = varTypeEmpty then .ok (List.replicate size 0)
  else if type ≠ varTypeSInt ∧ type ≠ varTypeUInt then .error .eErrTypeMismatch
  else if size < payload.length ∧ ∃ b ∈ payload.drop size, b ≠ 0 then .error .eErrIntegerOverflow
  else if size ≤ payload.length then .ok (payload.take size)
  else .ok (payload ++ List.replicate (size - payload.length) 0)

/-- `Variant_ToInt`: the bytes it writes from the start of the target on. The copy takes the size of
the payload, also where the target is smaller. -/
def variantToInt (type : EType) (data : Bytes) (size : Nat) : Option Bytes :=
  if data = [] ∨ (type ≠ varTypeSInt ∧ type ≠ varTypeUInt) then none
  else if size < data.length ∧ ∃ b ∈ data.drop size, b ≠ 0 then none
  else some (data ++ List.replicate (size - data.length) 0)

/-- `asUInt64`. -/
def goUInt64 (varType : EType) (data : Bytes) : Except GoError Nat :=
  if varType ≠ varTypeUInt then .error .errTypeMismatch
  else if data.length = 1 ∨ data.length = 2 ∨ data.length = 4 ∨ data.length = 8 then .ok (ofLE data)
  else .error .errInvalidFormat

/-- `asInt64`. -/
def goInt64 (varType : EType) (data : Bytes) : Except GoError Int :=
  if varType ≠ varTypeSInt then .error .errTypeMismatch
  else if data.length = 1 ∨ data.length = 2 ∨ data.length = 4 ∨ data.length = 8 then .ok (signedLE data)
  else .error .errInvalidFormat

/-- `AsUInt8`, `AsUInt16` and `AsUInt32` by the largest value of the target. -/
def goAsUInt (max : Nat) (varType : EType) (data : Bytes) (defaultVal : Nat) : Nat :=
  match goUInt64 varType data with
  | .error _ => defaultVal
  | .ok val => if val > max then defaultVal else val

def goAsUInt8 := goAsUInt 0xFF
def goAsUInt16 := goAsUInt 0xFFFF
def goAsUInt32 := goAsUInt 0xFFFFFFFF

/-- `AsUInt64`, which has no range to check. -/
def goAsUInt64 (varType : EType) (data : Bytes) (defaultVal : Nat) : Nat :=
  match goUInt64 varType data with
  | .error _ => defaultVal
  | .ok val => val

/-- `AsInt8`, `AsInt16` and `AsInt32` by the bounds of the target. -/
def goAsInt (min max : Int) (varType : EType) (data : Bytes) (defaultVal : Int) : Int :=
  match goInt64 varType data with
  | .error _ => defaultVal
  | .ok val => if val < min ∨ val > max then defaultVal else val

def goAsInt8 := goAsInt (-0x80) 0x7F
def goAsInt16 := goAsInt (-0x8000) 0x7FFF
def goAsInt32 := goAsInt (-0x80000000) 0x7FFFFFFF

/-- `AsInt64`. -/
def goAsInt64 (varType : EType) (data : Bytes) (defaultVal : Int) : Int :=
  match goInt64 varType data with
  | .error _ => defaultVal
  | .ok val => val

/-! ## Targets -/

/-- The widths of the integers the readers have targets for. -/
inductive Width
  | w8
  | w16
  | w32
  | w64
  deriving DecidableEq, Repr

def Width.bytes : Width → Nat
  | .w8 => 1
  | .w16 => 2
  | .w32 => 4
  | .w64 => 8

/-- What the bytes of an integer mean. -/
def number (signed : Bool) (bytes : Bytes) : Int := if signed then signedLE bytes else ofLE bytes

/-- The values an integer of `n` bytes can have. -/
def Fits (signed : Bool) (n : Nat) (value : Int) : Prop :=
  if signed then -2 ^ (8 * n - 1) ≤ value ∧ value < 2 ^ (8 * n - 1) else 0 ≤ value ∧ value < 256 ^ n

instance : ∀ (signed : Bool) (n : Nat) (value : Int), Decidable (Fits signed n value)
  | true, _, _ => inferInstanceAs (Decidable (_ ∧ _))
  | false, _, _ => inferInstanceAs (Decidable (_ ∧ _))

/-- `CVariant::To` for an integer target. -/
def cvTo (signed : Bool) (target : Width) (type : EType) (payload : Bytes) : Except EResult Int :=
  (getInt type payload target.bytes).map (number signed)

/-- `Variant_ToUInt8` to `Variant_ToSInt64`. -/
def variantTo (signed : Bool) (target : Width) (type : EType) (data : Bytes) (def_val : Int) : Int :=
  match variantToInt type data target.bytes with
  | none => def_val
  | some written => number signed (written.take target.bytes)

/-- The `As` accessor of a target; the default of an unsigned one is not negative. -/
def goAs : Bool → Width → EType → Bytes → Int → Int
  | true, .w8, varType, data, d => goAsInt8 varType data d
  | true, .w16, varType, data, d => goAsInt16 varType data d
  | true, .w32, varType, data, d => goAsInt32 varType data d
  | true, .w64, varType, data, d => goAsInt64 varType data d
  | false, .w8, varType, data, d => goAsUInt8 varType data d.toNat
  | false, .w16, varType, data, d => goAsUInt16 varType data d.toNat
  | false, .w32, varType, data, d => goAsUInt32 varType data d.toNat
  | false, .w64, varType, data, d => goAsUInt64 varType data d.toNat

/-- The type of an integer payload decides whether it is signed. -/
def isSigned (type : EType) : Bool := type = varTypeSInt

/-- The number a payload stands for. -/
def payloadValue (type : EType) (payload : Bytes) : Int := number (isSigned type) payload

/-- A variant of integer type with a payload the encoders write. -/
structure IsInteger (type : EType) (payload : Bytes) (width : Width) : Prop where
  type : type = varTypeUInt ∨ type = varTypeSInt
  length : payload.length = width.bytes

/-! ## Go -/

section
variable {type : EType} {payload : Bytes} {width : Width}

theorem IsInteger.four_lengths (h : IsInteger type payload width) :
    payload.length = 1 ∨ payload.length = 2 ∨ payload.length = 4 ∨ payload.length = 8 := by
  rw [h.length]
  cases width <;> simp [Width.bytes]

theorem IsInteger.ne_nil (h : IsInteger type payload width) : payload ≠ [] := by
  rintro rfl
  rcases h.four_lengths with h | h | h | h <;> cases h

theorem goUInt64_eq (h : IsInteger type payload width) (hs : isSigned type = false) :
    goUInt64 type payload = .ok (ofLE payload) := by
  rcases h.type with rfl | rfl
  · rw [goUInt64, if_neg (by simp), if_pos h.four_lengths]
  · cases hs

theorem goInt64_eq (h : IsInteger type payload width) (hs : isSigned type = true) :
    goInt64 type payload = .ok (signedLE payload) := by
  rcases h.type with rfl | rfl
  · cases hs
  · rw [goInt64, if_neg (by simp), if_pos h.four_lengths]

theorem goUInt64_mismatch (payload : Bytes) (hs : isSigned type = true) : goUInt64 type payload = .error .errTypeMismatch := by
  have ht : type = varTypeSInt := of_decide_eq_true hs
  subst ht
  rfl

theorem goInt64_mismatch (payload : Bytes) (hs : isSigned type = false) : goInt64 type payload = .error .errTypeMismatch :=
  if_pos (of_decide_eq_false hs)

/-- Every payload fits eight bytes of its own signedness. -/
theorem fits_w64 (h : IsInteger type payload width) : Fits (isSigned type) 8 (payloadValue type payload) := by
  have hle : payload.length ≤ 8 := by
    rw [h.length]
    cases width <;> decide
  cases hs : isSigned type
  · have hlt : ofLE payload < 256 ^ 8 :=
      lt_of_lt_of_le (ofLE_lt payload) (Nat.pow_le_pow_right (by norm_num) hle)
    simp only [Fits, payloadValue, number, hs, Bool.false_eq_true, if_false]
    exact ⟨Int.natCast_nonneg _, by exact_mod_cast hlt⟩
  · have hhalf : (2 : Int) ^ (8 * payload.length - 1) ≤ 2 ^ (8 * 8 - 1) :=
      pow_le_pow_right₀ (by norm_num) (by omega)
    have hr := signedLE_range h.ne_nil
    simp only [Fits, payloadValue, number, hs, if_true]
    constructor <;> linarith only [hr.1, hr.2, hhalf]

theorem goAs_unsigned (h : IsInteger type payload width) (hs : isSigned type = false) (target : Width) {d : Int}
    (hd : 0 ≤ d) :
    goAs false target type payload d = if Fits false target.bytes (ofLE payload) then (ofLE payload : Int) else d := by
  have h64 := fits_w64 h
  have hv := goUInt64_eq h hs
  simp only [hs, payloadValue, number, Fits, Bool.false_eq_true, if_false] at h64
  cases target <;>
    simp only [goAs, goAsUInt8, goAsUInt16, goAsUInt32, goAsUInt64, goAsUInt, hv, Fits, Width.bytes,
      Bool.false_eq_true, if_false] <;> split_ifs <;> omega

theorem goAs_signed (h : IsInteger type payload width) (hs : isSigned type = true) (target : Width) (d : Int) :
    goAs true target type payload d = if Fits true target.bytes (signedLE payload) then signedLE payload else d := by
  have h64 := fits_w64 h
  have hv := goInt64_eq h hs
  simp only [hs, payloadValue, number, Fits, if_true] at h64
  cases target <;>
    simp only [goAs, goAsInt8, goAsInt16, goAsInt32, goAsInt64, goAsInt, hv, Fits, Width.bytes, if_true] <;>
    split_ifs <;> omega

/-- A Go accessor gives the value to a target of the payload's signedness that has room for it, and
its default otherwise. -/
theorem goAs_eq (h : IsInteger type payload width) (signed : Bool) (target : Width) {d : Int}
    (hd : signed = false → 0 ≤ d) :
    goAs signed target type payload d =
      if isSigned type = signed ∧ Fits signed target.bytes (payloadValue type payload) then payloadValue type payload
      else d := by
  by_cases hs : isSigned type = signed
  · subst hs
    cases hs : isSigned type
    · simpa [payloadValue, number, hs] using goAs_unsigned h hs target (hd hs)
    · simpa [payloadValue, number, hs] using goAs_signed h hs target d
  · rw [if_neg (fun hc => hs hc.1)]
    cases signed
    · have hm := goUInt64_mismatch payload (Bool.eq_true_of_not_eq_false hs)
      cases target <;>
        simp [goAs, goAsUInt8, goAsUInt16, goAsUInt32, goAsUInt64, goAsUInt, hm, hd rfl]
    · have hm := goInt64_mismatch payload (Bool.eq_false_of_not_eq_true hs)
      cases target <;> simp [goAs, goAsInt8, goAsInt16, goAsInt32, goAsInt64, goAsInt, hm]

/-! ## C++ and C -/

/-- The test for bytes above the target asks for the room the whole number needs. -/
theorem overflow_iff (payload : Bytes) (size : Nat) :
    (size < payload.length ∧ ∃ b ∈ payload.drop size, b ≠ 0) ↔ 256 ^ size ≤ ofLE payload := by
  by_cases hs : size < payload.length
  · have hz := drop_zeros_iff (Nat.le_of_lt hs)
    rw [← not_lt, ← hz]
    simp [hs]
  · have hlt : ofLE payload < 256 ^ size :=
      lt_of_lt_of_le (ofLE_lt payload) (Nat.pow_le_pow_right (by norm_num) (by omega))
    simp only [hs, false_and, false_iff]
    omega

/-- Both readers leave the low bytes of the number in the target, which they fill up with zeros. -/
theorem take_zeros {size : Nat} (hlt : ofLE payload < 256 ^ size) :
    (payload ++ List.replicate (size - payload.length) 0).take size = toLE size (ofLE payload) := by
  have hlen : ((payload ++ List.replicate (size - payload.length) 0).take size).length = size := by
    simp only [List.length_take, List.length_append, List.length_replicate]
    omega
  have hval : ofLE ((payload ++ List.replicate (size - payload.length) 0).take size) = ofLE payload := by
    rw [ofLE_take_of_lt (by simp only [List.length_append, List.length_replicate]; omega)
      (by rw [ofLE_append_zeros]; exact hlt), ofLE_append_zeros]
  have hself := toLE_ofLE ((payload ++ List.replicate (size - payload.length) 0).take size)
  rw [hlen, hval] at hself
  exact hself.symm

theorem getInt_eq (h : IsInteger type payload width) (size : Nat) :
    getInt type payload size =
      if 256 ^ size ≤ ofLE payload then .error .eErrIntegerOverflow else .ok (toLE size (ofLE payload)) := by
  have he : type ≠ varTypeEmpty := by rcases h.type with rfl | rfl <;> decide
  have ht : ¬(type ≠ varTypeSInt ∧ type ≠ varTypeUInt) := by
    rcases h.type with rfl | rfl <;> decide
  unfold getInt
  rw [if_neg he, if_neg ht]
  simp only [overflow_iff]
  by_cases hv : 256 ^ size ≤ ofLE payload
  · rw [if_pos hv, if_pos hv]
  · rw [if_neg hv, if_neg hv, ← take_zeros (not_le.1 hv)]
    split_ifs with hle
    · rw [Nat.sub_eq_zero_of_le hle, List.replicate_zero, List.append_nil]
    · rw [List.take_of_length_le (by simp only [List.length_append, List.length_replicate]; omega)]

theorem variantToInt_eq (h : IsInteger type payload width) (size : Nat) :
    (variantToInt type payload size).map (·.take size) =
      if 256 ^ size ≤ ofLE payload then none else some (toLE size (ofLE payload)) := by
  have ht : ¬(payload = [] ∨ (type ≠ varTypeSInt ∧ type ≠ varTypeUInt)) := by
    rintro (hn | ht)
    · exact h.ne_nil hn
    · rcases h.type with rfl | rfl
      · exact ht.2 rfl
      · exact ht.1 rfl
  unfold variantToInt
  rw [if_neg ht]
  simp only [overflow_iff]
  by_cases hv : 256 ^ size ≤ ofLE payload
  · rw [if_pos hv, if_pos hv, Option.map_none]
  · rw [if_neg hv, if_neg hv, Option.map_some, take_zeros (not_le.1 hv)]

/-- A target with room for a number that is not negative has its value. -/
theorem number_toLE {signed : Bool} {size n : Nat} (hsize : 0 < size) (hf : Fits signed size n) :
    number signed (toLE size n) = n := by
  cases signed
  · have hlt : n < 256 ^ size := by exact_mod_cast hf.2
    simp only [number, Bool.false_eq_true, if_false, ofLE_toLE_of_lt hlt]
  · have hlt : n < 2 ^ (8 * size - 1) := by exact_mod_cast hf.2
    have hhalf := two_mul_half hsize
    have hval : ofLE (toLE size n) = n := ofLE_toLE_of_lt (by omega)
    simp only [number, if_true]
    rw [signedLE_of_lt (by rw [hval, length_toLE]; omega), hval]

/-- A number that fits a target has no bytes above it. -/
theorem Fits.lt {signed : Bool} {size n : Nat} (hsize : 0 < size) (hf : Fits signed size n) : n < 256 ^ size := by
  cases signed
  · exact_mod_cast hf.2
  · have hlt : n < 2 ^ (8 * size - 1) := by exact_mod_cast hf.2
    have hhalf := two_mul_half hsize
    omega

/-- A payload that is not negative stands for the number of its bytes. -/
theorem payloadValue_nonneg (hn : 0 ≤ payloadValue type payload) : payloadValue type payload = ofLE payload := by
  unfold payloadValue number at *
  split_ifs at hn ⊢
  · exact signedLE_nonneg hn
  · rfl

theorem Width.bytes_pos (width : Width) : 0 < width.bytes := by cases width <;> decide

/-- What both readers give: the number of the payload's low bytes, read as the target is. -/
theorem cvTo_eq (h : IsInteger type payload width) (signed : Bool) (target : Width) :
    cvTo signed target type payload =
      if 256 ^ target.bytes ≤ ofLE payload then .error .eErrIntegerOverflow
      else .ok (number signed (toLE target.bytes (ofLE payload))) := by
  rw [cvTo, getInt_eq h]
  split_ifs <;> rfl

theorem variantTo_eq (h : IsInteger type payload width) (signed : Bool) (target : Width) (d : Int) :
    variantTo signed target type payload d =
      if 256 ^ target.bytes ≤ ofLE payload then d else number signed (toLE target.bytes (ofLE payload)) := by
  have hv := variantToInt_eq h target.bytes
  unfold variantTo
  split_ifs at hv ⊢
  · rw [Option.map_eq_none_iff.1 hv]
  · rcases Option.map_eq_some_iff.1 hv with ⟨written, hw, ht⟩
    rw [hw]
    simp only [ht]

end

/-! ## The three readers -/

/-- The readers give the same: the value when the target has room for it, else each its failure. -/
def ReadersAgree (type : EType) (payload : Bytes) (signed : Bool) (target : Width) (d : Int) : Prop :=
  if Fits signed target.bytes (payloadValue type payload) then
    cvTo signed target type payload = .ok (payloadValue type payload) ∧
      variantTo signed target type payload d = payloadValue type payload ∧
      goAs signed target type payload d = payloadValue type payload
  else
    cvTo signed target type payload = .error .eErrIntegerOverflow ∧ variantTo signed target type payload d = d ∧
      goAs signed target type payload d = d

/-- What the readers do alike by design. Go asks for the signedness of the type; a value that is not
negative reaches every target with room for it, and none when it has a byte above the target; and a
target of the payload's own width and signedness takes every value. -/
structure ReadsByDesign (type : EType) (payload : Bytes) (width : Width) (signed : Bool) (target : Width) (d : Int) :
    Prop where
  go : goAs signed target type payload d =
    if isSigned type = signed ∧ Fits signed target.bytes (payloadValue type payload) then payloadValue type payload
    else d
  fits : 0 ≤ payloadValue type payload → Fits signed target.bytes (payloadValue type payload) →
    cvTo signed target type payload = .ok (payloadValue type payload) ∧
      variantTo signed target type payload d = payloadValue type payload
  overflow : 256 ^ target.bytes ≤ payloadValue type payload →
    cvTo signed target type payload = .error .eErrIntegerOverflow ∧ variantTo signed target type payload d = d ∧
      goAs signed target type payload d = d
  same : target = width → signed = isSigned type →
    cvTo signed target type payload = .ok (payloadValue type payload) ∧
      variantTo signed target type payload d = payloadValue type payload ∧
      goAs signed target type payload d = payloadValue type payload

/-- A value with a byte above the target does not fit it. -/
theorem not_fits_of_overflow (signed : Bool) {size : Nat} {value : Int} (hsize : 0 < size)
    (h : 256 ^ size ≤ value) : ¬ Fits signed size value := by
  intro hf
  have hn : 0 ≤ value := le_trans (by positivity) h
  lift value to Nat using hn
  have hle : 256 ^ size ≤ value := by exact_mod_cast h
  exact absurd (hf.lt hsize) (not_lt.2 hle)

/-- A payload fits the width it has. -/
theorem fits_same {type : EType} {payload : Bytes} {width : Width} (h : IsInteger type payload width) :
    Fits (isSigned type) width.bytes (payloadValue type payload) := by
  rw [← h.length]
  unfold Fits payloadValue number
  split_ifs
  · exact signedLE_range h.ne_nil
  · exact ⟨Int.natCast_nonneg _, by exact_mod_cast ofLE_lt payload⟩

theorem reads_by_design {type : EType} {payload : Bytes} {width : Width} (h : IsInteger type payload width)
    (signed : Bool) (target : Width) (d : Int) (hd : signed = false → 0 ≤ d) :
    ReadsByDesign type payload width signed target d := by
  have hgo := goAs_eq h signed target hd
  refine ⟨hgo, ?_, ?_, ?_⟩
  · intro hn hf
    rw [payloadValue_nonneg hn] at hf ⊢
    have hlt := hf.lt target.bytes_pos
    rw [cvTo_eq h, variantTo_eq h, if_neg (by omega), if_neg (by omega), number_toLE target.bytes_pos hf]
    exact ⟨rfl, rfl⟩
  · intro hv
    have hnf := not_fits_of_overflow signed target.bytes_pos hv
    have hn : 0 ≤ payloadValue type payload := le_trans (by positivity) hv
    rw [payloadValue_nonneg hn] at hv
    have hle : 256 ^ target.bytes ≤ ofLE payload := by exact_mod_cast hv
    rw [cvTo_eq h, variantTo_eq h, if_pos hle, if_pos hle, hgo, if_neg (fun hc => hnf hc.2)]
    exact ⟨rfl, rfl, rfl⟩
  · rintro rfl rfl
    have hlt : ofLE payload < 256 ^ target.bytes := by
      rw [← h.length]
      exact ofLE_lt payload
    have hself : toLE target.bytes (ofLE payload) = payload := by rw [← h.length, toLE_ofLE]
    rw [cvTo_eq h, variantTo_eq h, if_neg (by omega), if_neg (by omega), hself, hgo, if_pos ⟨rfl, fits_same h⟩]
    exact ⟨rfl, rfl, rfl⟩

/-- `-128` in one byte, read as a signed byte. -/
theorem reads_by_design_min : ReadsByDesign varTypeSInt [0x80] .w8 true .w8 7 :=
  reads_by_design ⟨Or.inr rfl, rfl⟩ true .w8 7 (by decide)

/-- Go does not read an unsigned five as a signed number; and a negative number of one byte is another
number in four, but in Go. -/
theorem readers_differ :
    ¬ (ReadersAgree varTypeUInt [5] true .w8 0) ∧ ¬ (ReadersAgree varTypeSInt [0xFF] true .w32 0) := by
  constructor
  · rintro h
    rw [ReadersAgree, if_pos (by decide)] at h
    exact absurd h.2.2 (by decide)
  · rintro h
    rw [ReadersAgree, if_pos (by decide)] at h
    exact absurd h.2.1 (by decide)

end MajorPrivacy.Variant

/-
The type byte of a packed variant (VariantDefs.h): five bits of type, a length-field flag and a
two-bit length code, which the C++, C and Go implementations share.
-/
import MajorPrivacy.Lib.LittleEndian
import Mathlib.Data.Fintype.Basic

namespace MajorPrivacy.Variant

open LittleEndian

export LittleEndian (Bytes)

/-- `VAR_TYPE`: the code casts any five-bit tag to it, so the tag itself is kept. -/
abbrev EType := UInt8

def varTypeMask : UInt8 := 0b00011111

def varTypeEmpty : EType := 0b00000000
def varTypeMap : EType := 0b00000001
def varTypeList : EType := 0b00000010
def varTypeIndex : EType := 0b00000011
def varTypeBytes : EType := 0b00000111
def varTypeAscii : EType := 0b00001000
def varTypeUtf8 : EType := 0b00001001
def varTypeUnicode : EType := 0b00001010
def varTypeUInt : EType := 0b00001100
def varTypeSInt : EType := 0b00001101
def varTypeDouble : EType := 0b00001110

def varLenField : UInt8 := 0b00100000
def varLenMask : UInt8 := 0b11000000
def varLen8 : UInt8 := 0b00000000
def varLen16 : UInt8 := 0b01000000
def varLen32 : UInt8 := 0b10000000
def varLen64 : UInt8 := 0b11000000

def varStatic : UInt8 := 0b11000000

/-- The error value of `ReadHeader` and `Variant_ReadSize`. -/
def invalidSize : Nat := 0xFFFFFFFF

/-- The size a type byte without a length field stands for. -/
def implicitSize (code : UInt8) : Nat :=
  if code = varLen8 then 1 else if code = varLen16 then 2 else if code = varLen32 then 4 else 8

/-! ## The fields of a type byte -/

theorem forall_uint8 {p : UInt8 → Prop} (h : ∀ n : Fin 256, p (UInt8.ofFin n)) (b : UInt8) : p b := by
  have := h b.toFin
  simpa using this

/-- The length code is one of the four. -/
theorem lenCode_cases (b : UInt8) :
    b &&& varLenMask = varLen8 ∨ b &&& varLenMask = varLen16 ∨
      b &&& varLenMask = varLen32 ∨ b &&& varLenMask = varLen64 := by
  revert b; apply forall_uint8; decide +kernel

theorem lenCodes_ne : varLen16 ≠ varLen8 ∧ varLen32 ≠ varLen8 ∧ varLen64 ≠ varLen8 ∧
    varLen32 ≠ varLen16 ∧ varLen64 ≠ varLen16 ∧ varLen64 ≠ varLen32 := by decide

@[simp] theorem type_idem (b : UInt8) : b &&& varTypeMask &&& varTypeMask = b &&& varTypeMask := by
  revert b; apply forall_uint8; decide +kernel

/-- A type byte without a length field, put together from its type and its length code. -/
theorem typeByte_fields {t c : UInt8} (ht : t &&& varTypeMask = t) (hc : c &&& varLenMask = c) :
    (t ||| c) &&& varTypeMask = t ∧ (t ||| c) &&& varLenField = 0 ∧ (t ||| c) &&& varLenMask = c := by
  have hcs := lenCode_cases c
  rw [hc] at hcs
  rcases hcs with rfl | rfl | rfl | rfl <;> revert t <;> apply forall_uint8 <;> decide +kernel

/-- A type byte with a length field. -/
theorem typeByte_fields_field {t c : UInt8} (ht : t &&& varTypeMask = t) (hc : c &&& varLenMask = c) :
    (t ||| varLenField ||| c) &&& varTypeMask = t ∧ (t ||| varLenField ||| c) &&& varLenField ≠ 0 ∧
      (t ||| varLenField ||| c) &&& varLenMask = c := by
  have hcs := lenCode_cases c
  rw [hc] at hcs
  rcases hcs with rfl | rfl | rfl | rfl <;> revert t <;> apply forall_uint8 <;> decide +kernel

end MajorPrivacy.Variant

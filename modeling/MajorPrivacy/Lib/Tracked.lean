/-
Computations in 64 bits that keep record of a wrap-around. Where none is recorded, the values are those
of the natural numbers.
-/
import Mathlib.Data.Nat.Bitwise

namespace MajorPrivacy

/-- A value, and whether some operation on the way to it left the range. -/
structure Tracked (α : Type) where
  val : α
  wrapped : Bool

namespace Tracked

variable {α β : Type}

instance : Monad Tracked where
  pure a := ⟨a, false⟩
  bind x f := ⟨(f x.val).val, x.wrapped || (f x.val).wrapped⟩

@[simp] theorem pure_val (a : α) : (pure a : Tracked α).val = a := rfl

@[simp] theorem pure_wrapped (a : α) : (pure a : Tracked α).wrapped = false := rfl

@[simp] theorem bind_val (x : Tracked α) (f : α → Tracked β) : (x >>= f).val = (f x.val).val := rfl

def add (a b : UInt64) : Tracked UInt64 := ⟨a + b, decide (2 ^ 64 ≤ a.toNat + b.toNat)⟩

def sub (a b : UInt64) : Tracked UInt64 := ⟨a - b, decide (a.toNat < b.toNat)⟩

def mul (a b : UInt64) : Tracked UInt64 := ⟨a * b, decide (2 ^ 64 ≤ a.toNat * b.toNat)⟩

theorem add_eq {a b : UInt64} (h : a.toNat + b.toNat < 2 ^ 64) : ∃ c, add a b = pure c ∧ c.toNat = a.toNat + b.toNat := by
  refine ⟨a + b, ?_, by rw [UInt64.toNat_add, Nat.mod_eq_of_lt h]⟩
  unfold add
  rw [decide_eq_false (Nat.not_le.2 h)]
  rfl

end Tracked

end MajorPrivacy

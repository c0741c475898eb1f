/-
Blocks of memory that are asked for, may be refused, and are given back. The blocks are numbered by the requests they were
given for, so that a block is never taken for one that was there before.
-/
import Mathlib.Data.List.Basic

namespace BlockHeap

/-- How often memory was asked for, and the blocks that are in use. -/
@[ext] structure Heap where
  asked : Nat
  live : List Nat
  issued : ∀ b ∈ live, b < asked

namespace Heap

/-- A block is asked for; `grants` says which requests succeed. -/
def alloc (grants : Nat → Bool) (h : Heap) : Option Nat × Heap :=
  if grants h.asked then
    (some h.asked, ⟨h.asked + 1, h.asked :: h.live, fun b hb => by
      obtain rfl | hb := List.mem_cons.1 hb
      · exact Nat.lt_succ_self _
      · exact Nat.lt_succ_of_lt (h.issued b hb)⟩)
  else (none, ⟨h.asked + 1, h.live, fun b hb => Nat.lt_succ_of_lt (h.issued b hb)⟩)

/-- A block is given back, if there is one. -/
def free (h : Heap) : Option Nat → Heap
  | none => h
  | some b => ⟨h.asked, h.live.erase b, fun c hc => h.issued c (List.mem_of_mem_erase hc)⟩

section Alloc

variable {grants : Nat → Bool} {h : Heap} {b : Nat}

theorem asked_alloc (grants : Nat → Bool) (h : Heap) : (h.alloc grants).2.asked = h.asked + 1 := by
  unfold alloc
  split <;> rfl

theorem alloc_granted (hg : grants h.asked = true) : (h.alloc grants).1 = some h.asked ∧ (h.alloc grants).2.live = h.asked :: h.live := by
  unfold alloc
  rw [if_pos hg]
  exact ⟨rfl, rfl⟩

theorem alloc_refused (hg : grants h.asked = false) : (h.alloc grants).1 = none ∧ (h.alloc grants).2.live = h.live := by
  unfold alloc
  rw [if_neg (ne_true_of_eq_false hg)]
  exact ⟨rfl, rfl⟩

/-- A block that is given was not in use. -/
theorem eq_asked_of_alloc (hb : (h.alloc grants).1 = some b) : b = h.asked ∧ b ∈ (h.alloc grants).2.live := by
  obtain hg | hg := Bool.eq_false_or_eq_true (grants h.asked)
  · obtain ⟨hfst, hlive⟩ := alloc_granted hg
    rw [hfst] at hb
    cases hb
    rw [hlive]
    exact ⟨rfl, List.mem_cons_self⟩
  · rw [(alloc_refused hg).1] at hb
    exact nomatch hb

theorem mem_alloc (hb : b ∈ h.live) : b ∈ (h.alloc grants).2.live := by
  obtain hg | hg := Bool.eq_false_or_eq_true (grants h.asked)
  · rw [(alloc_granted hg).2]
    exact List.mem_cons_of_mem _ hb
  · rw [(alloc_refused hg).2]
    exact hb

end Alloc

@[simp] theorem asked_free (h : Heap) (b : Option Nat) : (h.free b).asked = h.asked := by
  cases b <;> rfl

/-- A block that is given back leaves the others in use. -/
theorem mem_free {h : Heap} {b : Nat} {c : Option Nat} (hb : b ∈ h.live) (hne : c ≠ some b) : b ∈ (h.free c).live := by
  cases c with
  | none => exact hb
  | some c => exact (List.mem_erase_of_ne fun heq => hne (congrArg some heq.symm)).2 hb

end Heap

end BlockHeap

/-
Entries with links both ways, by address. A run of entries is linked if each points to the one in front of it and to
the one behind it, and the outermost to what is given for the two ends.
-/
import Mathlib.Data.List.Basic

namespace LinkedEntries

structure Entry (V : Type) where
  Data : V
  Next : Option Nat
  Prev : Option Nat

abbrev Heap (V : Type) := Nat → Entry V

variable {V : Type}

def write (h : Heap V) (a : Nat) (e : Entry V) : Heap V := fun b => if b = a then e else h b

def setNext (h : Heap V) (a : Nat) (Next : Option Nat) : Heap V := write h a { h a with Next := Next }

def setPrev (h : Heap V) (a : Nat) (Prev : Option Nat) : Heap V := write h a { h a with Prev := Prev }

@[simp] theorem write_same (h : Heap V) (a : Nat) (e : Entry V) : write h a e a = e := if_pos rfl

theorem write_ne (h : Heap V) {a b : Nat} (e : Entry V) (hne : b ≠ a) : write h a e b = h b := if_neg hne

@[simp] theorem setNext_data (h : Heap V) (a : Nat) (Next : Option Nat) (b : Nat) : (setNext h a Next b).Data = (h b).Data := by
  unfold setNext write
  split <;> simp [*]

@[simp] theorem setPrev_data (h : Heap V) (a : Nat) (Prev : Option Nat) (b : Nat) : (setPrev h a Prev b).Data = (h b).Data := by
  unfold setPrev write
  split <;> simp [*]

/-- The entries of a run and their links. -/
def Linked (h : Heap V) : Option Nat → List Nat → Option Nat → Prop
  | _, [], _ => True
  | prev, a :: l, next => (h a).Prev = prev ∧ (h a).Next = l.head?.or next ∧ Linked h (some a) l next

theorem linked_append {h : Heap V} : ∀ {l l' : List Nat} {prev next : Option Nat}, Linked h prev (l ++ l') next ↔
    Linked h prev l (l'.head?.or next) ∧ Linked h (l.getLast?.or prev) l' next
  | [], l', prev, next => by simp [Linked]
  | a :: l, l', prev, next => by
    have hlast : (a :: l).getLast?.or prev = l.getLast?.or (some a) := by
      cases l with
      | nil => rfl
      | cons b l => rw [List.getLast?_cons_cons, List.getLast?_eq_some_getLast (List.cons_ne_nil b l)]; rfl
    rw [List.cons_append, Linked, Linked, linked_append, hlast, List.head?_append, Option.or_assoc]
    simp only [and_assoc]

theorem linked_congr {h h' : Heap V} : ∀ {l : List Nat} {prev next : Option Nat}, (∀ a ∈ l, h' a = h a) →
    (Linked h' prev l next ↔ Linked h prev l next)
  | [], _, _, _ => Iff.rfl
  | a :: l, prev, next, hsame => by
    rw [Linked, Linked, hsame a List.mem_cons_self, linked_congr fun b hb => hsame b (List.mem_cons_of_mem a hb)]

/-- A write elsewhere. -/
theorem linked_write {h : Heap V} {l : List Nat} {prev next : Option Nat} {a : Nat} (e : Entry V) (ha : a ∉ l) :
    Linked (write h a e) prev l next ↔ Linked h prev l next := by
  refine linked_congr fun b hb => write_ne h e ?_
  rintro rfl
  exact ha hb

/-- Another entry in front of a run. -/
theorem linked_setPrev {h : Heap V} {a : Nat} {l : List Nat} {prev next : Option Nat} (hl : Linked h prev (a :: l) next)
    (ha : a ∉ l) (prev' : Option Nat) : Linked (setPrev h a prev') prev' (a :: l) next := by
  obtain ⟨-, hnext, hrest⟩ := hl
  refine ⟨by simp [setPrev], by simpa [setPrev] using hnext, ?_⟩
  exact (linked_write _ ha).2 hrest

/-- Another entry behind a run. -/
theorem linked_setNext {h : Heap V} {a : Nat} {l : List Nat} {prev next : Option Nat} (hl : Linked h prev (l ++ [a]) next)
    (ha : a ∉ l) (next' : Option Nat) : Linked (setNext h a next') prev (l ++ [a]) next' := by
  obtain ⟨hfront, hprev, -, -⟩ := linked_append.1 hl
  refine linked_append.2 ⟨(linked_write _ ha).2 hfront, by simpa [setNext] using hprev, by simp [setNext], trivial⟩

/-- An entry in the middle of a run. -/
theorem Linked.middle {h : Heap V} {l l' : List Nat} {a : Nat} {prev next : Option Nat} (hl : Linked h prev (l ++ a :: l') next) :
    (h a).Prev = l.getLast?.or prev ∧ (h a).Next = l'.head?.or next := by
  obtain ⟨-, hprev, hnext, -⟩ := linked_append.1 hl
  exact ⟨hprev, hnext⟩

end LinkedEntries

/-
Searching a text from a position on, for the first place where the rest of the text looks as wanted: where it
starts with a given pattern, or with one of some characters.
-/
import Mathlib.Data.List.Basic

namespace Search

variable {α : Type}

/-- The first position from which on the text satisfies `p`, before its end. -/
def find (p : List α → Bool) : List α → Option Nat
  | [] => none
  | c :: text => if p (c :: text) then some 0 else (find p text).map (· + 1)

def findFrom (p : List α → Bool) (text : List α) (pos : Nat) : Option Nat := (find p (text.drop pos)).map (pos + ·)

def startsWith [BEq α] (pattern text : List α) : Bool := pattern.isPrefixOf text

def oneOf (q : α → Bool) : List α → Bool
  | [] => false
  | c :: _ => q c

/-- Only a text that begins with one of the characters of `q` can be what is looked for. -/
def BeginsWith (p : List α → Bool) (q : α → Bool) : Prop := ∀ c text, p (c :: text) = true → q c = true

theorem beginsWith_oneOf (q : α → Bool) : BeginsWith (oneOf q) q := fun _ _ h => h

theorem beginsWith_startsWith [BEq α] [LawfulBEq α] (c : α) (pattern : List α) : BeginsWith (startsWith (c :: pattern)) (· == c) := by
  intro c' text h
  rw [startsWith, List.isPrefixOf_cons_cons, Bool.and_eq_true] at h
  rw [eq_of_beq h.1]
  exact beq_self_eq_true c'

theorem startsWith_iff [BEq α] [LawfulBEq α] {pattern text : List α} : startsWith pattern text = true ↔ pattern <+: text :=
  List.isPrefixOf_iff_prefix

theorem startsWith_append [BEq α] [LawfulBEq α] (pattern text : List α) : startsWith pattern (pattern ++ text) = true :=
  startsWith_iff.2 (List.prefix_append pattern text)

section Find

variable {p : List α → Bool} {q : α → Bool}

theorem find_lt : ∀ {text : List α} {i : Nat}, find p text = some i → i < text.length
  | [], _, h => by cases h
  | c :: text, i, h => by
    rw [find] at h
    split at h
    · obtain rfl := Option.some.inj h
      exact Nat.zero_lt_succ _
    · obtain ⟨j, hj, rfl⟩ := Option.map_eq_some_iff.1 h
      exact Nat.succ_lt_succ (find_lt hj)

/-- What cannot be the beginning is passed over. -/
theorem find_append (hq : BeginsWith p q) : ∀ {junk : List α}, (∀ c ∈ junk, q c = false) → ∀ text,
    find p (junk ++ text) = (find p text).map (junk.length + ·)
  | [], _, text => by
    rw [List.nil_append, List.length_nil]
    simp only [Nat.zero_add, Option.map_id']
  | c :: junk, h, text => by
    obtain ⟨hc, hjunk⟩ := List.forall_mem_cons.1 h
    have hp : ¬ p (c :: (junk ++ text)) = true := fun hp => by rw [hq c _ hp] at hc; cases hc
    rw [List.cons_append, find, if_neg hp, find_append hq hjunk, Option.map_map, List.length_cons]
    congr 1
    funext i
    simp only [Function.comp_apply]
    omega

theorem find_cons {c : α} {text : List α} (h : p (c :: text) = true) : find p (c :: text) = some 0 := if_pos h

theorem findFrom_bounds {text : List α} {pos i : Nat} (h : findFrom p text pos = some i) : pos ≤ i ∧ i < text.length := by
  obtain ⟨j, hj, rfl⟩ := Option.map_eq_some_iff.1 h
  have hlt := find_lt hj
  rw [List.length_drop] at hlt
  omega

theorem findFrom_eq (hq : BeginsWith p q) {text junk rest : List α} {c : α} {pos : Nat} (htext : text.drop pos = junk ++ c :: rest)
    (hjunk : ∀ c ∈ junk, q c = false) (hp : p (c :: rest) = true) : findFrom p text pos = some (pos + junk.length) := by
  rw [findFrom, htext, find_append hq hjunk, find_cons hp]
  rfl

theorem length_le_of_find (hq : BeginsWith p q) {junk text : List α} (hjunk : ∀ c ∈ junk, q c = false) {i : Nat}
    (h : find p (junk ++ text) = some i) : junk.length ≤ i := by
  rw [find_append hq hjunk] at h
  obtain ⟨j, -, rfl⟩ := Option.map_eq_some_iff.1 h
  exact Nat.le_add_right _ _

end Find

section Pattern

variable [BEq α] [LawfulBEq α] {pattern : List α}

theorem length_le_of_find_startsWith : ∀ {text : List α} {i : Nat}, find (startsWith pattern) text = some i → pattern.length ≤ text.length
  | [], _, h => by cases h
  | c :: text, i, h => by
    rw [find] at h
    split at h
    · rename_i hp
      exact (startsWith_iff.1 hp).length_le
    · obtain ⟨j, hj, -⟩ := Option.map_eq_some_iff.1 h
      exact Nat.le_succ_of_le (length_le_of_find_startsWith hj)

/-- A pattern that is in the front of a text is not found before it. -/
theorem find_append_of_some (rest : List α) : ∀ {text : List α} {i : Nat}, find (startsWith pattern) text = some i →
    find (startsWith pattern) (text ++ rest) = some i
  | [], _, h => by cases h
  | c :: text, i, h => by
    rw [find] at h
    rw [List.cons_append, find]
    split at h
    · rename_i hp
      have hp' : startsWith pattern (c :: (text ++ rest)) = true :=
        startsWith_iff.2 ((startsWith_iff.1 hp).trans (List.prefix_append (c :: text) rest))
      rw [if_pos hp']
      exact h
    · rename_i hp
      obtain ⟨j, hj, rfl⟩ := Option.map_eq_some_iff.1 h
      have hlen := length_le_of_find_startsWith hj
      have hnot : ¬ startsWith pattern (c :: (text ++ rest)) = true := fun hp' =>
        hp (startsWith_iff.2 (List.prefix_of_prefix_length_le (startsWith_iff.1 hp') (List.prefix_append (c :: text) rest)
          (Nat.le_succ_of_le hlen)))
      rw [if_neg hnot, find_append_of_some rest hj]
      rfl

end Pattern

end Search

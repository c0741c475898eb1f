/-
The run of a deterministic machine: where it is after so many steps, and what it emits on the way.
A machine over finitely many states stops or comes back to where it was.
-/
import Mathlib.Data.Fintype.Pigeonhole

namespace Orbit

variable {σ α : Type}

/-! ## Runs -/

/-- The state `n` steps on, unless the machine stops before. -/
def steps (f : σ → Option σ) : Nat → σ → Option σ
  | 0, s => some s
  | n + 1, s => (f s).bind (steps f n)

/-- What the next `n` steps emit. -/
def emitted (f : σ → Option σ) (e : σ → Option α) : Nat → σ → List α
  | 0, _ => []
  | n + 1, s => (e s).toList ++ (f s).elim [] (emitted f e n)

/-- The machine never stops. -/
def Endless (f : σ → Option σ) (s : σ) : Prop := ∀ n, steps f n s ≠ none

section Runs
variable {f : σ → Option σ} {e : σ → Option α} {s t u : σ} {m n : Nat}

theorem steps_succ (h : f s = some t) : steps f (n + 1) s = steps f n t := by
  simp [steps, h]

theorem steps_one (h : f s = some t) : steps f 1 s = some t := steps_succ h

theorem emitted_succ (h : f s = some t) : emitted f e (n + 1) s = (e s).toList ++ emitted f e n t := by
  simp [emitted, h]

theorem steps_add (n : Nat) (h : steps f m s = some t) : steps f (m + n) s = steps f n t := by
  induction m generalizing s with
  | zero =>
    cases h
    rw [Nat.zero_add]
  | succ m ih =>
    rcases Option.bind_eq_some_iff.1 h with ⟨s', hs, hm⟩
    rw [Nat.succ_add, steps_succ hs]
    exact ih hm

theorem emitted_add (n : Nat) (h : steps f m s = some t) : emitted f e (m + n) s = emitted f e m s ++ emitted f e n t := by
  induction m generalizing s with
  | zero =>
    cases h
    rw [Nat.zero_add]
    rfl
  | succ m ih =>
    rcases Option.bind_eq_some_iff.1 h with ⟨s', hs, hm⟩
    rw [Nat.succ_add, emitted_succ hs, emitted_succ hs, ih hm, List.append_assoc]

theorem steps_snoc (h : steps f m s = some t) (ht : f t = some u) : steps f (m + 1) s = some u := by
  rw [steps_add 1 h, steps_succ ht]
  rfl

theorem emitted_snoc (h : steps f m s = some t) (ht : f t = some u) : emitted f e (m + 1) s = emitted f e m s ++ (e t).toList := by
  rw [emitted_add 1 h, emitted_succ ht, emitted, List.append_nil]

theorem emitted_initial (hle : m ≤ n) (h : steps f m s ≠ none) : emitted f e m s <+: emitted f e n s := by
  rcases Option.ne_none_iff_exists'.1 h with ⟨t, ht⟩
  rcases Nat.exists_eq_add_of_le hle with ⟨k, rfl⟩
  rw [emitted_add k ht]
  exact List.prefix_append _ _

theorem steps_none_of_le (hle : m ≤ n) (h : steps f m s = none) : steps f n s = none := by
  by_contra hn
  induction m generalizing s n with
  | zero => cases h
  | succ m ih =>
    rcases Nat.exists_eq_add_of_le hle with ⟨k, rfl⟩
    rw [Nat.add_right_comm] at hn
    cases hs : f s with
    | none => simp [steps, hs] at hn
    | some s' =>
      rw [steps_succ hs] at h hn
      exact ih (Nat.le_add_right m k) h hn

/-- Where a machine that stops stands at last. -/
theorem exists_last (h : steps f n s = none) : ∃ k t, steps f k s = some t ∧ f t = none := by
  induction n generalizing s with
  | zero => cases h
  | succ n ih =>
    cases hs : f s with
    | none => exact ⟨0, s, rfl, hs⟩
    | some s' =>
      rw [steps_succ hs] at h
      rcases ih h with ⟨k, t, hk, ht⟩
      exact ⟨k + 1, t, by rw [steps_succ hs, hk], ht⟩

theorem Endless.of_steps (h : Endless f s) (hs : steps f m s = some t) : Endless f t := by
  intro n
  rw [← steps_add n hs]
  exact h (m + n)

theorem Endless.of_reached (h : Endless f t) (hs : steps f m s = some t) : Endless f s := by
  intro n hn
  apply h n
  rw [← steps_add n hs]
  exact steps_none_of_le (Nat.le_add_left n m) hn

end Runs

/-! ## Cycles -/

section Cycles
variable {f : σ → Option σ} {e : σ → Option α} {s c d : σ} {m n : Nat}

theorem steps_mul (h : steps f n c = some c) (k : Nat) : steps f (k * n) c = some c := by
  induction k with
  | zero => rw [Nat.zero_mul]; rfl
  | succ k ih => rw [Nat.succ_mul, steps_add n ih, h]

theorem mem_emitted_mul {a : α} (h : steps f n c = some c) (k : Nat) (ha : a ∈ emitted f e (k * n) c) :
    a ∈ emitted f e n c := by
  induction k with
  | zero => simp [emitted] at ha
  | succ k ih =>
    rw [Nat.succ_mul, emitted_add n (steps_mul h k)] at ha
    rcases List.mem_append.1 ha with ha | ha
    · exact ih ha
    · exact ha

/-- All that a machine ever emits on a cycle it emits on every way round. -/
theorem mem_emitted_of_cycle {a : α} (hn : 0 < n) (h : steps f n c = some c) (ha : a ∈ emitted f e m c) :
    a ∈ emitted f e n c := by
  have hle : m ≤ m * n := Nat.le_mul_of_pos_right m hn
  apply mem_emitted_mul h m
  apply (emitted_initial hle _).subset ha
  intro hm
  have hmul := steps_mul h m
  rw [steps_none_of_le hle hm] at hmul
  cases hmul

theorem endless_of_cycle (hn : 0 < n) (h : steps f n c = some c) : Endless f c := by
  intro m hm
  have hmul := steps_mul h m
  rw [steps_none_of_le (Nat.le_mul_of_pos_right m hn) hm] at hmul
  cases hmul

/-- From wherever a run comes by, it goes on to the cycle it ends in. -/
theorem steps_to_cycle (hn : 0 < n) (h : steps f n c = some c) (hc : steps f m s = some c) {k : Nat}
    (hd : steps f k s = some d) : ∃ j, steps f j d = some c := by
  have hle : k ≤ m + k * n := Nat.le_add_left_of_le (Nat.le_mul_of_pos_right k hn)
  rcases Nat.exists_eq_add_of_le hle with ⟨j, hj⟩
  refine ⟨j, ?_⟩
  rw [← steps_add j hd, ← hj, steps_add (k * n) hc, steps_mul h]

/-- A machine over finitely many states that never stops comes back to a state. -/
theorem Endless.exists_cycle [Finite σ] (h : Endless f s) :
    ∃ m n c, 0 < n ∧ steps f m s = some c ∧ steps f n c = some c := by
  have hstates : ∀ n, ∃ t, steps f n s = some t := fun n => Option.ne_none_iff_exists'.1 (h n)
  choose g hg using hstates
  rcases Finite.exists_ne_map_eq_of_infinite g with ⟨a, b, hne, heq⟩
  wlog hlt : a < b generalizing a b
  · exact this b a hne.symm heq.symm (by omega)
  · refine ⟨a, b - a, g a, by omega, hg a, ?_⟩
    rw [← steps_add (b - a) (hg a), show a + (b - a) = b by omega, hg b, heq]

end Cycles

end Orbit

/-
Computations that do not fail: `Succeeds x P` says that `x` gives a value, and one that has the property `P`. The rules
follow how a computation is put together, so that a proof goes along its definition.
-/
import Mathlib.Tactic.Basic

/-- The computation gives a value with the property. -/
def Succeeds {ε α : Type} (x : Except ε α) (P : α → Prop) : Prop := ∃ a, x = .ok a ∧ P a

namespace Succeeds

variable {ε α β σ : Type} {x : Except ε α} {f : α → Except ε β} {P P' : α → Prop} {Q : β → Prop}

theorem pure {a : α} (h : P a) : Succeeds (Pure.pure a : Except ε α) P := ⟨a, rfl, h⟩

theorem bind (hx : Succeeds x P) (hf : ∀ a, P a → Succeeds (f a) Q) : Succeeds (x >>= f) Q := by
  obtain ⟨a, rfl, ha⟩ := hx
  exact hf a ha

theorem mono (hx : Succeeds x P) (h : ∀ a, P a → P' a) : Succeeds x P' := by
  obtain ⟨a, heq, ha⟩ := hx
  exact ⟨a, heq, h a ha⟩

theorem map {g : α → β} (hx : Succeeds x P) (h : ∀ a, P a → Q (g a)) : Succeeds (g <$> x) Q := by
  obtain ⟨a, rfl, ha⟩ := hx
  exact ⟨g a, rfl, h a ha⟩

theorem ite {c : Prop} [Decidable c] {y : Except ε α} (hx : c → Succeeds x P) (hy : ¬ c → Succeeds y P) :
    Succeeds (if c then x else y) P := by
  by_cases h : c
  · rw [if_pos h]
    exact hx h
  · rw [if_neg h]
    exact hy h

/-- Every step keeps `I`, and `G` as long as it is not `Bad`; so do all of them, each in the state where it is taken. -/
theorem foldlM {step : σ → α → Except ε σ} {I G : σ → Prop} {Bad : σ → α → Prop}
    (hstep : ∀ s a, I s → Succeeds (step s a) fun s' => I s' ∧ (G s' ↔ G s ∧ ¬ Bad s a)) :
    ∀ (l : List α) (s : σ), I s → Succeeds (l.foldlM step s) fun s' =>
      I s' ∧ (G s' ↔ G s ∧ ∀ pre a post t, l = pre ++ a :: post → pre.foldlM step s = .ok t → ¬ Bad t a)
  | [], s, h => .pure ⟨h, (and_iff_left fun pre a post _ hl => absurd hl.symm (by simp)).symm⟩
  | a :: l, s, h => by
    obtain ⟨s₁, heq, h₁, hG₁⟩ := hstep s a h
    rw [List.foldlM_cons, heq]
    refine (foldlM hstep l s₁ h₁).mono fun s' ⟨h', hG'⟩ => ⟨h', ?_⟩
    rw [hG', hG₁, and_assoc]
    refine and_congr_right fun _ => ⟨fun ⟨hfirst, hlater⟩ pre b post t hl ht => ?_, fun hall => ⟨?_, fun pre b post t hl ht => ?_⟩⟩
    · obtain _ | ⟨c, pre⟩ := pre
      · obtain ⟨rfl, rfl⟩ := List.cons.inj hl
        obtain rfl := Except.ok.inj ht
        exact hfirst
      · obtain ⟨rfl, rfl⟩ := List.cons.inj hl
        rw [List.foldlM_cons, heq] at ht
        exact hlater pre b post t rfl ht
    · exact hall [] a l s rfl rfl
    · refine hall (a :: pre) b post t (by rw [hl, List.cons_append]) ?_
      rw [List.foldlM_cons, heq]
      exact ht

end Succeeds

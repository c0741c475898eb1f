/-
Programs that ask: a script ends with a result, fails, or asks a question and goes on with the
answer. What it gives and what it asks depend on a relation that says which answers there are.
-/
import Mathlib.Logic.Basic

/-- A program over questions `I` with answers `O`. -/
inductive Script (I O α : Type)
  | done (a : α)
  | fail
  | ask (i : I) (k : O → Script I O α)

namespace Script

variable {I O α β : Type}

def bind : Script I O α → (α → Script I O β) → Script I O β
  | done a, f => f a
  | fail, _ => fail
  | ask i k, f => ask i fun o => (k o).bind f

instance : Monad (Script I O) where
  pure := done
  bind := Script.bind

@[simp] theorem done_bind (a : α) (f : α → Script I O β) : (done a >>= f) = f a := rfl
@[simp] theorem fail_bind (f : α → Script I O β) : ((fail : Script I O α) >>= f) = fail := rfl
@[simp] theorem ask_bind (i : I) (k : O → Script I O α) (f : α → Script I O β) :
    (ask i k >>= f) = ask i fun o => k o >>= f := rfl

/-! ## What a script gives and asks -/

/-- The script ends with the result when it is answered so. -/
inductive Gives (answers : I → O → Prop) : Script I O α → α → Prop
  | done {a : α} : Gives answers (done a) a
  | ask {i : I} {k : O → Script I O α} {o : O} {a : α} (ho : answers i o) (hk : Gives answers (k o) a) :
    Gives answers (ask i k) a

/-- The script comes to the question when it is answered so. -/
inductive Asks (answers : I → O → Prop) : Script I O α → I → Prop
  | here {i : I} {k : O → Script I O α} : Asks answers (ask i k) i
  | there {i j : I} {k : O → Script I O α} {o : O} (ho : answers i o) (hk : Asks answers (k o) j) :
    Asks answers (ask i k) j

section Answers
variable {answers answers' : I → O → Prop} {s : Script I O α} {a : α} {i : I}

theorem Asks.mono (h : Asks answers s i) (himp : ∀ i o, answers i o → answers' i o) : Asks answers' s i := by
  induction h with
  | here => exact .here
  | there ho _ ih => exact .there (himp _ _ ho) ih

/-- Other answers to the questions that are asked give the same. -/
theorem Gives.mono (h : Gives answers s a) (himp : ∀ i, Asks answers s i → ∀ o, answers i o → answers' i o) :
    Gives answers' s a := by
  induction h with
  | done => exact .done
  | ask ho _ ih => exact .ask (himp _ .here _ ho) (ih fun i hi => himp i (.there ho hi))

end Answers

/-! ## The rule of scripts -/

/-- With answers in `Q` the script asks only what is in `P`, and ends in `R`. -/
def Within (P : I → Prop) (Q : I → O → Prop) (R : α → Prop) : Script I O α → Prop
  | done a => R a
  | fail => True
  | ask i k => P i ∧ ∀ o, Q i o → Within P Q R (k o)

section Within
variable {P : I → Prop} {Q : I → O → Prop} {R : α → Prop}

theorem Within.bind {R' : β → Prop} {f : α → Script I O β} {s : Script I O α} (h : Within P Q R s)
    (hf : ∀ a, R a → Within P Q R' (f a)) : Within P Q R' (s >>= f) := by
  induction s with
  | done a => exact hf a h
  | fail => trivial
  | ask i k ih =>
    rcases h with ⟨hi, hk⟩
    exact ⟨hi, fun o ho => ih o (hk o ho)⟩

theorem Within.asks {answers : I → O → Prop} {s : Script I O α} {i : I} (h : Within P Q R s)
    (himp : ∀ i o, answers i o → Q i o) (hi : Asks answers s i) : P i := by
  induction hi with
  | here => exact h.1
  | there ho _ ih => exact ih (h.2 _ (himp _ _ ho))

end Within

end Script

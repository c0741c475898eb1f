/-
Binary search for the first element that is not below a bound. In a list whose elements below the
bound stand in front of the others it finds where these begin, so that the list is cut in two filters.
-/
import Mathlib.Data.List.Basic

namespace MajorPrivacy.LowerBound

variable {α : Type} (below : α → Bool)

/-- The loop; the interval from `low` to `high` is halved in each round. -/
def loop (data : List α) : Nat → Nat → Nat → Nat
  | 0, low, _ => low
  | rounds + 1, low, high =>
    if low < high then
      let mid := low + (high - low) / 2
      if data[mid]?.any below then loop data rounds (mid + 1) high else loop data rounds low mid
    else low

def lowerBound (data : List α) : Nat := loop below data data.length 0 data.length

/-- The elements below the bound stand in front. -/
def Split (data : List α) : Prop := data.Pairwise fun a b => below b → below a

variable {below}

theorem Split.filter_append {data : List α} (h : Split below data) : data = data.filter below ++ data.filter (!below ·) := by
  induction data with
  | nil => rfl
  | cons a data ih =>
    rcases List.pairwise_cons.1 h with ⟨ha, hdata⟩
    by_cases hbelow : below a
    · rw [List.filter_cons_of_pos hbelow, List.filter_cons_of_neg (by simp [hbelow]), List.cons_append, ← ih hdata]
    · have hnone : ∀ b ∈ data, ¬ below b := fun b hb hbb => hbelow (ha b hb hbb)
      rw [List.filter_cons_of_neg hbelow, List.filter_cons_of_pos (by simp [hbelow]), List.filter_eq_nil_iff.2 hnone,
        List.nil_append, List.filter_eq_self.2 fun b hb => by simp [hnone b hb]]

/-- The loop ends at the cut, which stays between the ends of the interval. -/
theorem loop_eq {front back : List α} (hfront : ∀ a ∈ front, below a) (hback : ∀ a ∈ back, ¬ below a) :
    ∀ (rounds low high : Nat), low ≤ front.length → front.length ≤ high → high ≤ (front ++ back).length → high - low ≤ rounds →
      loop below (front ++ back) rounds low high = front.length
  | 0, low, high, hlow, hhigh, _, hrounds => by
    rw [loop]
    omega
  | rounds + 1, low, high, hlow, hhigh, hlen, hrounds => by
    rw [loop]
    split
    · rename_i hlt
      have hmid : low + (high - low) / 2 < (front ++ back).length := by omega
      dsimp only
      rw [List.getElem?_eq_getElem hmid, Option.any_some]
      by_cases hin : low + (high - low) / 2 < front.length
      · have hbelow := hfront _ (List.getElem_mem hin)
        rw [List.getElem_append_left hin, if_pos hbelow]
        exact loop_eq hfront hback rounds _ _ (by omega) hhigh hlen (by omega)
      · have hnot := hback _ (List.getElem_mem (by rw [List.length_append] at hmid; omega :
          low + (high - low) / 2 - front.length < back.length))
        rw [List.getElem_append_right (by omega), if_neg hnot]
        exact loop_eq hfront hback rounds _ _ hlow (by omega) (by omega) (by omega)
    · omega

theorem Split.lowerBound_eq {data : List α} (h : Split below data) : lowerBound below data = (data.filter below).length := by
  have hcut := h.filter_append
  generalize hfront : data.filter below = front at hcut
  generalize hback : data.filter (!below ·) = back at hcut
  subst hcut
  unfold lowerBound
  refine loop_eq (fun a ha => ?_) (fun a ha => ?_) _ _ _ (Nat.zero_le _) ?_ (Nat.le_refl _) ?_
  · rw [← hfront] at ha
    exact (List.mem_filter.1 ha).2
  · rw [← hback] at ha
    simpa using (List.mem_filter.1 ha).2
  · rw [List.length_append]
    omega
  · omega

/-- What it leaves. -/
theorem Split.drop_lowerBound {data : List α} (h : Split below data) : data.drop (lowerBound below data) = data.filter (!below ·) := by
  rw [h.lowerBound_eq]
  exact (congrArg (List.drop _) h.filter_append).trans List.drop_left

end MajorPrivacy.LowerBound

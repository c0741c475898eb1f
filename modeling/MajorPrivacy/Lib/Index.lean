/-
An index of a list: what a partial function makes of its items, each as often as it stands there and
in any order.
-/
import Mathlib.Data.List.Basic
import Mathlib.Data.List.Perm.Basic

namespace Index

variable {α β : Type} {f : α → Option β} {items : List α} {index : List β}

def IsIndex (f : α → Option β) (items : List α) (index : List β) : Prop := index.Perm (items.filterMap f)

theorem isIndex_nil : IsIndex f [] [] := .refl _

theorem IsIndex.mem_iff (h : IsIndex f items index) {b : β} : b ∈ index ↔ ∃ a ∈ items, f a = some b := by
  rw [List.Perm.mem_iff h, List.mem_filterMap]

theorem IsIndex.congr {g : α → Option β} (h : IsIndex f items index) (hg : ∀ a ∈ items, g a = f a) : IsIndex g items index := by
  unfold IsIndex
  rw [List.filterMap_congr hg]
  exact h

/-- An item more that is in the index. -/
theorem IsIndex.append_some (h : IsIndex f items index) {a : α} {b : β} (hb : f a = some b) :
    IsIndex f (items ++ [a]) (index ++ [b]) := by
  unfold IsIndex
  rw [List.filterMap_append, List.filterMap_cons_some hb]
  exact h.append_right [b]

/-- An item more that is not. -/
theorem IsIndex.append_none (h : IsIndex f items index) {a : α} (hb : f a = none) : IsIndex f (items ++ [a]) index := by
  unfold IsIndex
  rw [List.filterMap_append, List.filterMap_cons_none hb, List.filterMap_nil, List.append_nil]
  exact h

/-- An index whose entries carry what tells their items apart has none twice. -/
theorem IsIndex.nodup_map {γ : Type} (h : IsIndex f items index) {g : α → γ} {g' : β → γ} (hn : (items.map g).Nodup)
    (hg : ∀ a b, f a = some b → g' b = g a) : (index.map g').Nodup := by
  refine (List.Perm.map g' h).nodup_iff.2 (hn.sublist ?_)
  clear h hn
  induction items with
  | nil => exact .slnil
  | cons a items ih =>
    cases hb : f a with
    | none =>
      rw [List.filterMap_cons_none hb, List.map_cons]
      exact ih.cons _
    | some b =>
      rw [List.filterMap_cons_some hb, List.map_cons, List.map_cons, hg a b hb]
      exact ih.cons_cons _

variable [BEq α] [LawfulBEq α]

theorem IsIndex.erase_some [BEq β] [LawfulBEq β] (h : IsIndex f items index) {a : α} {b : β} (ha : a ∈ items) (hb : f a = some b) :
    IsIndex f (items.erase a) (index.erase b) := by
  have hperm := (h.trans ((List.perm_cons_erase ha).filterMap f)).erase b
  rw [List.filterMap_cons_some hb, List.erase_cons_head] at hperm
  exact hperm

theorem IsIndex.erase_none (h : IsIndex f items index) {a : α} (hb : f a = none) : IsIndex f (items.erase a) index := by
  by_cases ha : a ∈ items
  · have hperm := h.trans ((List.perm_cons_erase ha).filterMap f)
    rw [List.filterMap_cons_none hb] at hperm
    exact hperm
  · rw [List.erase_of_not_mem ha]
    exact h

end Index

/-
Replicas kept up to date by deltas. A collection of keyed entries is described by rounds, each of
which mentions the keys of one part that are still there and writes fields of them; a reader holds
a copy of it and is sent, after each round, the keys to forget and the fields to merge. The rule of
the library says which deltas take the copy from one state of the collection to the next.
-/
import Mathlib.Data.List.Basic
import Mathlib.Data.List.Nodup
import Mathlib.Logic.Basic

namespace Replica

/-! ## Fields and copies -/

/-- The fields of one entry. -/
abbrev Fields (F P : Type) := F → Option P

/-- What is known of each key. -/
abbrev Copy (K F P : Type) := K → Option (Fields F P)

section Fields

variable {F P : Type} [DecidableEq F]

def Fields.none : Fields F P := fun _ => Option.none

/-- The fields after the writes of a list, the last write to a field counting. -/
def Fields.merge (fields : Fields F P) : List (F × P) → Fields F P
  | [] => fields
  | (f, p) :: writes => Fields.merge (fun g => if g = f then some p else fields g) writes

theorem Fields.merge_append (fields : Fields F P) (w₁ w₂ : List (F × P)) :
    fields.merge (w₁ ++ w₂) = (fields.merge w₁).merge w₂ := by
  induction w₁ generalizing fields with
  | nil => rfl
  | cons w w₁ ih => exact ih _

theorem Fields.merge_single (fields : Fields F P) (f g : F) (p : P) :
    fields.merge [(f, p)] g = if g = f then some p else fields g := rfl

/-- A field that is not written keeps its value. -/
theorem Fields.merge_of_not_mem {writes : List (F × P)} {g : F} (fields : Fields F P)
    (h : ∀ p, (g, p) ∉ writes) : fields.merge writes g = fields g := by
  induction writes generalizing fields with
  | nil => rfl
  | cons w writes ih =>
    obtain ⟨f, p⟩ := w
    rw [Fields.merge, ih _ fun q hq => h q (List.mem_cons_of_mem _ hq)]
    have hgf : g ≠ f := fun e => h p (e ▸ List.mem_cons_self)
    exact if_neg hgf

/-- A field written once has what was written. -/
theorem Fields.merge_of_mem {writes : List (F × P)} {g : F} {p : P} (fields : Fields F P)
    (hnd : (writes.map (·.1)).Nodup) (h : (g, p) ∈ writes) : fields.merge writes g = some p := by
  induction writes generalizing fields with
  | nil => cases h
  | cons w writes ih =>
    obtain ⟨f, q⟩ := w
    rw [List.map_cons, List.nodup_cons] at hnd
    rw [Fields.merge]
    rcases List.mem_cons.1 h with heq | h
    · cases heq
      rw [Fields.merge_of_not_mem]
      · exact if_pos rfl
      · intro q' hq'
        exact hnd.1 (List.mem_map_of_mem (f := (·.1)) hq')
    · exact ih _ hnd.2 h

end Fields

/-! ## Deltas -/

/-- What a reader is sent: the keys to forget, and the fields to merge by key. -/
structure Delta (K F P : Type) where
  removed : List K
  changed : List (K × List (F × P))

section Delta

variable {K F P : Type} [DecidableEq K] [DecidableEq F]

def Copy.remove (copy : Copy K F P) (key : K) : Copy K F P :=
  fun k => if k = key then none else copy k

def Copy.merge (copy : Copy K F P) (key : K) (writes : List (F × P)) : Copy K F P :=
  fun k => if k = key then some (((copy key).getD Fields.none).merge writes) else copy k

/-- The reader's part: forget, then merge. -/
def Copy.apply (copy : Copy K F P) (delta : Delta K F P) : Copy K F P :=
  delta.changed.foldl (fun copy entry => copy.merge entry.1 entry.2) (delta.removed.foldl Copy.remove copy)

omit [DecidableEq F] in
theorem Copy.foldl_remove (removed : List K) (copy : Copy K F P) (key : K) :
    removed.foldl Copy.remove copy key = if key ∈ removed then none else copy key := by
  induction removed generalizing copy with
  | nil => simp
  | cons k removed ih =>
    rw [List.foldl_cons, ih, Copy.remove]
    by_cases h₁ : key ∈ removed <;> by_cases h₂ : key = k <;> simp [h₁, h₂]

theorem Copy.foldl_merge_of_not_mem (changed : List (K × List (F × P))) (copy : Copy K F P) {key : K}
    (h : ∀ writes, (key, writes) ∉ changed) :
    changed.foldl (fun copy entry => copy.merge entry.1 entry.2) copy key = copy key := by
  induction changed generalizing copy with
  | nil => rfl
  | cons entry changed ih =>
    rw [List.foldl_cons, ih _ fun writes hw => h writes (List.mem_cons_of_mem _ hw)]
    have hne : key ≠ entry.1 := fun e => h entry.2 (e ▸ List.mem_cons_self)
    exact if_neg hne

theorem Copy.foldl_merge_of_mem (changed : List (K × List (F × P))) (copy : Copy K F P) {key : K}
    {writes : List (F × P)} (hnd : (changed.map (·.1)).Nodup) (h : (key, writes) ∈ changed) :
    changed.foldl (fun copy entry => copy.merge entry.1 entry.2) copy key =
      some (((copy key).getD Fields.none).merge writes) := by
  induction changed generalizing copy with
  | nil => cases h
  | cons entry changed ih =>
    rw [List.map_cons, List.nodup_cons] at hnd
    rw [List.foldl_cons]
    rcases List.mem_cons.1 h with heq | h
    · subst heq
      rw [Copy.foldl_merge_of_not_mem]
      · exact if_pos rfl
      · intro w hw
        exact hnd.1 (List.mem_map_of_mem (f := (·.1)) hw)
    · have hne : key ≠ entry.1 := fun e => hnd.1 (e ▸ List.mem_map_of_mem (f := (·.1)) h)
      rw [ih _ hnd.2 h]
      simp only [Copy.merge, if_neg hne]

end Delta

/-! ## Rounds -/

/-- What a round says: a key is still there, or a field of it has a value. -/
inductive Event (K F P : Type)
  | mention (key : K)
  | write (key : K) (field : F) (value : P)

namespace Event

variable {K F P : Type}

def key : Event K F P → K
  | mention k => k
  | write k _ _ => k

end Event

section Rounds

variable {K F P : Type} [DecidableEq K] [DecidableEq F]

/-- The round mentions the key; a write counts. -/
def Mentioned (events : List (Event K F P)) (key : K) : Prop := ∃ e ∈ events, e.key = key

instance (events : List (Event K F P)) (key : K) : Decidable (Mentioned events key) := by
  unfold Mentioned; infer_instance

/-- The writes of a round to one key. -/
def written (events : List (Event K F P)) (key : K) : List (F × P) :=
  events.filterMap fun
    | .mention _ => none
    | .write k f p => if k = key then some (f, p) else none

/-- The collection after a round over a part: a key of the part that is mentioned is there, with
the fields it had and those written; any other key of the part is gone. -/
def round (part : K → Bool) (events : List (Event K F P)) (state : Copy K F P) : Copy K F P := fun key =>
  if part key then
    if Mentioned events key then some (((state key).getD Fields.none).merge (written events key)) else none
  else state key

/-- A key without any field is not shown to the reader. -/
def HasField (fields : Fields F P) : Prop := ∃ f, (fields f).isSome

open Classical in
/-- What the reader should hold: the keys that have a field. -/
noncomputable def visible (state : Copy K F P) : Copy K F P := fun key =>
  match state key with
  | some fields => if HasField fields then some fields else none
  | none => none

omit [DecidableEq K] [DecidableEq F] in
theorem mentioned_append (e₁ e₂ : List (Event K F P)) (key : K) :
    Mentioned (e₁ ++ e₂) key ↔ Mentioned e₁ key ∨ Mentioned e₂ key := by
  simp only [Mentioned, List.mem_append, or_and_right, exists_or]

omit [DecidableEq F] in
theorem written_append (e₁ e₂ : List (Event K F P)) (key : K) :
    written (e₁ ++ e₂) key = written e₁ key ++ written e₂ key :=
  List.filterMap_append

omit [DecidableEq F] in
/-- A key that is not mentioned is not written. -/
theorem written_of_not_mentioned {events : List (Event K F P)} {key : K} (h : ¬ Mentioned events key) :
    written events key = [] := by
  unfold written
  rw [List.filterMap_eq_nil_iff]
  intro e he
  cases e with
  | mention k => rfl
  | write k f p =>
    have hk : k ≠ key := fun hk => h ⟨_, he, hk⟩
    simp [hk]

omit [DecidableEq K] [DecidableEq F] in
theorem visible_eq_none {state : Copy K F P} {key : K} :
    visible state key = none ↔ ∀ fields, state key = some fields → ¬ HasField fields := by
  unfold visible
  cases state key with
  | none => simp
  | some fields => by_cases h : HasField fields <;> simp [h]

omit [DecidableEq K] [DecidableEq F] in
theorem visible_of_hasField {state : Copy K F P} {key : K} (fields : Fields F P) (hs : state key = some fields)
    (h : HasField fields) : visible state key = some fields := by
  unfold visible
  rw [hs]
  exact if_pos h

omit [DecidableEq K] [DecidableEq F] in
/-- A reader that has not heard of a key and one that has read the same fields. -/
theorem getD_visible (state : Copy K F P) (key : K) :
    (visible state key).getD Fields.none = (state key).getD Fields.none := by
  unfold visible
  cases state key with
  | none => rfl
  | some fields =>
    by_cases h : HasField fields
    · simp [h]
    · have : fields = Fields.none := by
        funext f
        by_contra hf
        exact h ⟨f, Option.isSome_iff_ne_none.2 hf⟩
      simp [this, HasField, Fields.none]

/-- The fields a key has once the events of a round are in. -/
def fieldsAfter (state : Copy K F P) (events : List (Event K F P)) (key : K) : Fields F P :=
  ((state key).getD Fields.none).merge (written events key)

theorem fieldsAfter_nil (state : Copy K F P) (key : K) :
    fieldsAfter state ([] : List (Event K F P)) key = (state key).getD Fields.none := rfl

theorem fieldsAfter_mention (state : Copy K F P) (events : List (Event K F P)) (k key : K) :
    fieldsAfter state (events ++ [.mention k]) key = fieldsAfter state events key := by
  unfold fieldsAfter
  rw [written_append]
  simp [written]

theorem fieldsAfter_write (state : Copy K F P) (events : List (Event K F P)) (k key : K) (f g : F) (p : P) :
    fieldsAfter state (events ++ [.write k f p]) key g =
      if key = k ∧ g = f then some p else fieldsAfter state events key g := by
  unfold fieldsAfter
  rw [written_append, Fields.merge_append]
  by_cases hk : key = k
  · subst hk
    simp [written, Fields.merge_single]
  · simp [written, hk, Ne.symm hk, Fields.merge]

omit [DecidableEq K] [DecidableEq F] in
theorem mentioned_append_single (events : List (Event K F P)) (e : Event K F P) (key : K) :
    Mentioned (events ++ [e]) key ↔ Mentioned events key ∨ key = e.key := by
  rw [mentioned_append]
  simp [Mentioned, eq_comm]

/-- The deltas that belong to a round: the vanished keys the reader knows, each once, and for each
mentioned key every field that differs from what the reader has. -/
structure Delta.Describes (delta : Delta K F P) (part : K → Bool) (events : List (Event K F P))
    (state : Copy K F P) : Prop where
  removed_nodup : delta.removed.Nodup
  mem_removed : ∀ key, key ∈ delta.removed ↔
    part key = true ∧ ¬ Mentioned events key ∧ visible state key ≠ none
  changed_nodup : (delta.changed.map (·.1)).Nodup
  changed_mentioned : ∀ key writes, (key, writes) ∈ delta.changed → part key = true ∧ Mentioned events key
  changed_fields : ∀ key writes, (key, writes) ∈ delta.changed →
    writes ≠ [] ∧ (writes.map (·.1)).Nodup ∧ ∀ f p, (f, p) ∈ writes → fieldsAfter state events key f = some p
  complete : ∀ key f, part key = true → Mentioned events key →
    (∀ writes, (key, writes) ∈ delta.changed → ∀ p, (f, p) ∉ writes) →
    fieldsAfter state events key f = (state key).getD Fields.none f

/-- A copy of what is visible before a round becomes one of what is visible after it. -/
theorem Delta.Describes.apply_eq {delta : Delta K F P} {part : K → Bool} {events : List (Event K F P)}
    {state : Copy K F P} (h : delta.Describes part events state) :
    (visible state).apply delta = visible (round part events state) := by
  funext key
  unfold Copy.apply
  by_cases hch : ∃ writes, (key, writes) ∈ delta.changed
  · -- a changed key: the merged fields are those after the round, and there is at least one
    obtain ⟨writes, hw⟩ := hch
    obtain ⟨hpart, hmen⟩ := h.changed_mentioned key writes hw
    obtain ⟨hne, hnd, hval⟩ := h.changed_fields key writes hw
    have hrem : key ∉ delta.removed := fun hr => ((h.mem_removed key).1 hr).2.1 hmen
    rw [Copy.foldl_merge_of_mem _ _ h.changed_nodup hw, Copy.foldl_remove, if_neg hrem, getD_visible]
    have hmerge : ((state key).getD Fields.none).merge writes = fieldsAfter state events key := by
      funext f
      by_cases hf : ∃ p, (f, p) ∈ writes
      · obtain ⟨p, hp⟩ := hf
        rw [Fields.merge_of_mem _ hnd hp, hval f p hp]
      · rw [Fields.merge_of_not_mem _ fun p hp => hf ⟨p, hp⟩]
        refine (h.complete key f hpart hmen fun w hw' p hp => ?_).symm
        have : w = writes := by
          have := List.inj_on_of_nodup_map h.changed_nodup hw' hw rfl
          exact (Prod.mk.inj this).2
        exact hf ⟨p, this ▸ hp⟩
    have hround : round part events state key = some (fieldsAfter state events key) := by
      simp [round, hpart, hmen, fieldsAfter]
    have hhas : HasField (fieldsAfter state events key) := by
      obtain ⟨⟨f, p⟩, hfp⟩ := List.exists_mem_of_ne_nil writes hne
      exact ⟨f, by rw [hval f p hfp]; rfl⟩
    rw [hmerge, visible_of_hasField _ hround hhas]
  · have hnot : ∀ writes, (key, writes) ∉ delta.changed := fun w hw => hch ⟨w, hw⟩
    rw [Copy.foldl_merge_of_not_mem _ _ hnot, Copy.foldl_remove]
    by_cases hpart : part key = true
    · by_cases hmen : Mentioned events key
      · -- mentioned and unchanged: its fields are the ones the reader has
        have hrem : key ∉ delta.removed := fun hr => ((h.mem_removed key).1 hr).2.1 hmen
        have hsame : fieldsAfter state events key = (state key).getD Fields.none := by
          funext f
          exact h.complete key f hpart hmen fun w hw => absurd hw (hnot w)
        have hround : round part events state key = some ((state key).getD Fields.none) := by
          rw [← hsame]
          simp [round, hpart, hmen, fieldsAfter]
        rw [if_neg hrem]
        cases hs : state key with
        | none =>
          have hno : ¬ HasField (Fields.none : Fields F P) := by simp [HasField, Fields.none]
          rw [hs] at hround
          simp [visible, hs, hround, hno]
        | some fields =>
          rw [hs] at hround
          simp [visible, hs, hround]
      · -- gone: removed if the reader knew it
        have hgone : visible (round part events state) key = none := by
          rw [visible_eq_none]
          intro fields hf
          simp [round, hpart, hmen] at hf
        rw [hgone]
        by_cases hv : visible state key = none
        · simp [hv]
        · rw [if_pos ((h.mem_removed key).2 ⟨hpart, hmen, hv⟩)]
    · have hrem : key ∉ delta.removed := fun hr => hpart ((h.mem_removed key).1 hr).1
      rw [if_neg hrem]
      simp [visible, round, hpart]

end Rounds

end Replica

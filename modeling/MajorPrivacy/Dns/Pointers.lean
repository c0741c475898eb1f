/-
Pointers in a DNS packet. `read_reference` is a machine over the places of the packet, which are 16
bits wide, that remembers the last pointer it followed and stops when it meets the same one again.
It never stops just where it goes round a loop that the guard does not know: one without a pointer,
one with a pointer to the front of the packet, one with pointers to two places.
-/
import MajorPrivacy.Dns.Packet
import MajorPrivacy.Lib.Orbit
import Mathlib.Data.Finite.Prod

namespace MajorPrivacy.Dns

open LittleEndian Outcome Orbit

/-! ## The moves of `read_reference` -/

/-- What `read_reference` finds at a place. -/
inductive Move
  | fail
  | stop
  | label (text : Bytes) (next : UInt16)
  | jump (target : UInt16)

def move (origin : Bytes) (offset : UInt16) : Move :=
  match origin[offset.toNat]? with
  | none => .fail
  | some len =>
    let offset := offset + 1
    if len &&& 0xc0 = 0xc0 then
      if offset.toNat = origin.length then .fail
      else .jump (pointerOffset len (origin.getD offset.toNat 0))
    else if len = 0 then .stop
    else if origin.length - offset.toNat < len.toNat then .fail
    else .label ((origin.drop offset.toNat).take len.toNat) (offset + len.toUInt16)

theorem readReference_zero {o l : UInt16} {origin : Bytes} {name : Name} : readReference 0 o l origin name = unfinished := rfl

theorem readReference_succ {fuel : Nat} {o l : UInt16} {origin : Bytes} {name : Name} :
    readReference (fuel + 1) o l origin name =
      match move origin o with
      | .fail => failure
      | .stop => success name
      | .label text next => readReference fuel next l origin (name ++ [text])
      | .jump target =>
        if l ≠ 0 ∧ target = l then failure else readReference fuel target target origin name := by
  simp only [readReference, move]
  cases origin[o.toNat]? with
  | none => rfl
  | some len =>
    simp only
    split_ifs <;> simp_all

/-- Where the packet leads to from a place. -/
def next (origin : Bytes) (offset : UInt16) : Option UInt16 :=
  match move origin offset with
  | .fail | .stop => none
  | .label _ next => some next
  | .jump target => some target

/-- Where the pointer points that stands at a place. -/
def target (origin : Bytes) (offset : UInt16) : Option UInt16 :=
  match move origin offset with
  | .jump target => some target
  | _ => none

/-- `offset` and `last_offset` after one round of the loop, if there is another. -/
def guarded (origin : Bytes) : UInt16 × UInt16 → Option (UInt16 × UInt16)
  | (offset, last_offset) =>
    match move origin offset with
    | .fail | .stop => none
    | .label _ next => some (next, last_offset)
    | .jump target => if last_offset ≠ 0 ∧ target = last_offset then none else some (target, target)

section Machine
variable {origin : Bytes} {o p l t : UInt16} {n m : Nat}

theorem target_eq_some : target origin o = some t ↔ move origin o = .jump t := by
  unfold target
  cases move origin o <;> simp

theorem next_of_target (h : target origin o = some t) : next origin o = some t := by
  rw [next, target_eq_some.1 h]

/-- A round goes where the packet leads to, and remembers the pointer that it followed. -/
theorem guarded_eq_some : guarded origin (o, l) = some (p, t) ↔
    next origin o = some p ∧ t = (target origin o).getD l ∧ ¬ (l ≠ 0 ∧ target origin o = some l) := by
  simp only [guarded, next, target]
  cases move origin o with
  | fail => simp
  | stop => simp
  | label text q => simp [eq_comm]
  | jump q =>
    by_cases hguard : l ≠ 0 ∧ q = l
    · simp [hguard]
    · simp only [if_neg hguard, Option.some.injEq, Prod.mk.injEq, Option.getD_some]
      constructor
      · rintro ⟨hq, ht⟩
        exact ⟨hq, ht.symm, hguard⟩
      · rintro ⟨hq, ht, -⟩
        exact ⟨hq, ht.symm⟩

theorem guarded_eq_none : guarded origin (o, l) = none ↔
    next origin o = none ∨ l ≠ 0 ∧ target origin o = some l := by
  simp only [guarded, next, target]
  cases move origin o <;> simp

theorem readReference_unfinished {fuel : Nat} : ∀ {o l : UInt16} {name : Name},
    readReference fuel o l origin name = unfinished ↔ steps (guarded origin) fuel (o, l) ≠ none := by
  induction fuel with
  | zero => simp [readReference, steps]
  | succ fuel ih =>
    intro o l name
    rw [readReference_succ, steps, guarded]
    cases move origin o with
    | fail => simp
    | stop => simp
    | label text next => simpa using ih
    | jump target =>
      by_cases hguard : l ≠ 0 ∧ target = l
      · simp [hguard]
      · simpa [if_neg hguard] using ih

end Machine

/-! ## Loops -/

/-- The guard knows a loop whose pointers all point to one and the same place, not the front. -/
def Known (targets : List UInt16) : Prop := ∃ t ≠ 0, targets ≠ [] ∧ ∀ u ∈ targets, u = t

/-- From the place the packet leads into a loop that the guard does not know. -/
def LeadsRound (origin : Bytes) (offset : UInt16) : Prop :=
  ∃ m n p, 0 < n ∧ steps (next origin) m offset = some p ∧ steps (next origin) n p = some p ∧
    ¬ Known (emitted (next origin) (target origin) n p)

section Loops
variable {origin : Bytes} {o p l t : UInt16} {n m : Nat}

/-- The rounds of the loop are steps through the packet. -/
theorem steps_of_guarded (h : steps (guarded origin) n (o, l) = some (p, t)) :
    steps (next origin) n o = some p ∧ t = (emitted (next origin) (target origin) n o).getLast?.getD l := by
  induction n generalizing o l with
  | zero =>
    cases h
    exact ⟨rfl, rfl⟩
  | succ n ih =>
    rcases Option.bind_eq_some_iff.1 h with ⟨⟨q, u⟩, hround, hrest⟩
    rcases guarded_eq_some.1 hround with ⟨hnext, hu, -⟩
    rcases ih hrest with ⟨hsteps, ht⟩
    rw [steps_succ hnext, emitted_succ hnext]
    refine ⟨hsteps, ?_⟩
    rw [ht, hu]
    cases target origin o with
    | none => simp
    | some v => cases emitted (next origin) (target origin) n q <;> simp [List.getLast?_cons]

/-- Past a pointer that the guard remembers no round goes over pointers to the same place only. -/
theorem emitted_eq_nil (h : steps (guarded origin) n (o, l) = some (p, t)) (hl : l ≠ 0)
    (hall : ∀ u ∈ emitted (next origin) (target origin) n o, u = l) : emitted (next origin) (target origin) n o = [] := by
  induction n generalizing o with
  | zero => rfl
  | succ n ih =>
    rcases Option.bind_eq_some_iff.1 h with ⟨⟨q, u⟩, hround, hrest⟩
    rcases guarded_eq_some.1 hround with ⟨hnext, hu, hguard⟩
    rw [emitted_succ hnext] at hall ⊢
    cases htarget : target origin o with
    | none =>
      rw [htarget] at hall hu
      cases hu
      exact ih hrest fun v hv => hall v (List.mem_append_right _ hv)
    | some v =>
      rw [htarget] at hall hguard
      exact absurd ⟨hl, congrArg some (hall v (by simp))⟩ hguard

/-- Where the last pointer led to, and that no other was met since. -/
def Since (origin : Bytes) (l o : UInt16) : Prop :=
  l = 0 ∨ ∃ r, steps (next origin) r l = some o ∧ emitted (next origin) (target origin) r l = []

theorem Since.label (h : Since origin l o) (hnext : next origin o = some p) (htarget : target origin o = none) :
    Since origin l p := by
  rcases h with h0 | ⟨r, hsteps, hnil⟩
  · exact .inl h0
  · refine .inr ⟨r + 1, steps_snoc hsteps hnext, ?_⟩
    rw [emitted_snoc hsteps hnext, hnil, htarget]
    rfl

theorem Since.jump : Since origin t t := .inr ⟨0, rfl, rfl⟩

theorem Since.steps (h : Since origin l o) (hrun : steps (guarded origin) n (o, l) = some (p, t)) : Since origin t p := by
  induction n generalizing o l with
  | zero =>
    cases hrun
    exact h
  | succ n ih =>
    rcases Option.bind_eq_some_iff.1 hrun with ⟨⟨q, u⟩, hround, hrest⟩
    rcases guarded_eq_some.1 hround with ⟨hnext, hu, -⟩
    apply ih _ hrest
    cases htarget : target origin o with
    | none =>
      rw [htarget] at hu
      cases hu
      exact h.label hnext htarget
    | some v =>
      rw [htarget] at hu
      cases hu
      cases hnext.symm.trans (next_of_target htarget)
      exact Since.jump

/-- Where the guard stops the reading there is a loop, over one pointer. -/
theorem Since.cycle (h : Since origin l o) (hl : l ≠ 0) (htarget : target origin o = some l) :
    ∃ n, 0 < n ∧ Orbit.steps (next origin) n l = some l ∧ emitted (next origin) (target origin) n l = [l] := by
  rcases h with h0 | ⟨r, hsteps, hnil⟩
  · exact absurd h0 hl
  · have hnext := next_of_target htarget
    refine ⟨r + 1, Nat.succ_pos r, steps_snoc hsteps hnext, ?_⟩
    rw [emitted_snoc hsteps hnext, hnil, htarget]
    rfl

instance finite_uint16 : Finite UInt16 := Finite.of_injective UInt16.toFin fun _ _ => UInt16.toFin_inj.1

/-- `read_reference` never ends just where the packet leads into a loop that the guard does not know. -/
theorem endless_iff : Endless (guarded origin) (o, 0) ↔ LeadsRound origin o := by
  constructor
  · intro h
    rcases h.exists_cycle with ⟨m, n, ⟨p, l⟩, hn, hm, hcycle⟩
    rcases steps_of_guarded hm with ⟨hmp, -⟩
    rcases steps_of_guarded hcycle with ⟨hnp, hl⟩
    refine ⟨m, n, p, hn, hmp, hnp, ?_⟩
    rintro ⟨t, ht, hne, hall⟩
    have hlast : l = t := by
      rw [hl, List.getLast?_eq_some_getLast hne, Option.getD_some]
      exact hall _ (List.getLast_mem hne)
    exact hne (emitted_eq_nil hcycle (hlast ▸ ht) (hlast ▸ hall))
  · rintro ⟨m, n, p, hn, hm, hcycle, hnot⟩ k hk
    rcases exists_last hk with ⟨j, ⟨q, l⟩, hj, hstop⟩
    rcases steps_of_guarded hj with ⟨hq, -⟩
    have hraw : Endless (next origin) o := (endless_of_cycle hn hcycle).of_reached hm
    rcases guarded_eq_none.1 hstop with hnone | ⟨hl, htarget⟩
    · exact hraw (j + 1) (by rw [steps_add 1 hq]; simp [Orbit.steps, hnone])
    · have hsince : Since origin l q := Since.steps (.inl rfl) hj
      rcases hsince.cycle hl htarget with ⟨r, hr, hback, honly⟩
      -- both loops lie on the one way from `o`, so each leads to the other
      have hreach := steps_snoc hq (next_of_target htarget)
      rcases steps_to_cycle hn hcycle hm hreach with ⟨a, ha⟩
      rcases steps_to_cycle hr hback hback ha with ⟨b, hb⟩
      apply hnot
      refine ⟨l, hl, ?_, fun u hu => ?_⟩
      · have hmem : l ∈ emitted (next origin) (target origin) (b + r) p := by
          rw [emitted_add r hb, honly]
          simp
        exact List.ne_nil_of_mem (mem_emitted_of_cycle hn hcycle hmem)
      · have hmem : u ∈ emitted (next origin) (target origin) (a + n) l := by
          rw [emitted_add n ha]
          exact List.mem_append_right _ hu
        have hone := mem_emitted_of_cycle hr hback hmem
        rw [honly] at hone
        exact List.mem_singleton.1 hone

end Loops

end MajorPrivacy.Dns

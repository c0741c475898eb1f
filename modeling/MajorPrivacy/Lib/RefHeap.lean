/-
A heap of reference-counted cells. A value may hold one cell, and a cell holds values. In a balanced
heap the count of every cell is the number of values that hold it, both those in other cells and the
roots outside the heap, so a held cell is there, a cell with one holder can be written without
anyone else noticing, and giving up a value frees just what nobody holds any more.
-/
import Mathlib.Data.List.Basic
import Mathlib.Algebra.BigOperators.Group.List.Basic
import Mathlib.Algebra.GroupWithZero.Nat

namespace RefHeap

structure Cell (B : Type) where
  refs : Nat
  body : B

/-- The cell of an address, or nothing where it was freed. -/
abbrev Heap (B : Type) := List (Option (Cell B))

/-- The cell a value holds, and the values a cell is made of. -/
class Layout (B : Type) (V : outParam Type) where
  addr : V → Option Nat
  elements : B → List V

open Layout

variable {B V : Type}

def Heap.get (h : Heap B) (a : Nat) : Option (Cell B) := (h[a]?).join

/-- A new cell with one holder, at the address behind all others. -/
def Heap.alloc (h : Heap B) (body : B) : Heap B := h ++ [some ⟨1, body⟩]

theorem Heap.lt_length_of_get {h : Heap B} {a : Nat} {c : Cell B} (hc : h.get a = some c) : a < h.length := by
  unfold Heap.get at hc
  by_contra hlt
  rw [List.getElem?_eq_none (by omega)] at hc
  cases hc

theorem Heap.getElem?_of_get {h : Heap B} {a : Nat} {c : Cell B} (hc : h.get a = some c) : h[a]? = some (some c) :=
  Option.join_eq_some_iff.1 hc

theorem Heap.get_set {h : Heap B} {a : Nat} (ha : a < h.length) (o : Option (Cell B)) (b : Nat) :
    Heap.get (h.set a o) b = if b = a then o else h.get b := by
  unfold Heap.get
  rw [List.getElem?_set]
  by_cases hb : a = b
  · subst hb
    simp [ha]
  · rw [if_neg hb, if_neg fun h => hb h.symm]

theorem Heap.get_alloc (h : Heap B) (body : B) (b : Nat) :
    (h.alloc body).get b = if b = h.length then some ⟨1, body⟩ else h.get b := by
  unfold Heap.get Heap.alloc
  by_cases hb : b = h.length
  · subst hb
    simp
  · rw [if_neg hb]
    by_cases hlt : b < h.length
    · rw [List.getElem?_append_left hlt]
    · rw [List.getElem?_eq_none (by simp; omega), List.getElem?_eq_none (by omega)]

theorem Heap.get_length (h : Heap B) : h.get h.length = none := by
  simp [Heap.get]

theorem sum_map_set {A : Type} (f : A → Nat) : ∀ {l : List A} {i : Nat} {x : A} (y : A), l[i]? = some x →
    ((l.set i y).map f).sum + f x = (l.map f).sum + f y
  | [], _, _, _, h => by simp at h
  | z :: l, 0, x, y, h => by
    simp only [List.getElem?_cons_zero, Option.some.injEq] at h
    subst h
    simp only [List.set_cons_zero, List.map_cons, List.sum_cons]
    omega
  | z :: l, i + 1, x, y, h => by
    rw [List.getElem?_cons_succ] at h
    have ih := sum_map_set f y h
    simp only [List.set_cons_succ, List.map_cons, List.sum_cons]
    omega

variable [Layout B V]

/-! ## Giving values up and sharing them -/

/-- Gives up the values of a list, and those of every cell that nobody holds then. -/
def releaseLoop : Nat → List V → Heap B → Option (Heap B)
  | _, [], h => some h
  | 0, _ :: _, _ => none
  | fuel + 1, v :: work, h =>
    match addr B v with
    | none => releaseLoop fuel work h
    | some a =>
      match h.get a with
      | none => none
      | some c =>
        if c.refs = 1 then releaseLoop fuel (elements c.body ++ work) (h.set a none)
        else releaseLoop fuel work (h.set a (some { c with refs := c.refs - 1 }))

/-- How many values the cells hold. -/
def weight (h : Heap B) : Nat := (h.map fun o => o.elim 0 fun c => (elements c.body).length).sum

/-- Every value that is given up leaves the heap for good. -/
def release (h : Heap B) (values : List V) : Option (Heap B) := releaseLoop (weight h + values.length) values h

/-- One more holder for the cell of a value. -/
def share (h : Heap B) (v : V) : Option (Heap B) :=
  match addr B v with
  | none => some h
  | some a => (h.get a).map fun c => h.set a (some { c with refs := c.refs + 1 })

/-! ## Balance -/

/-- How many of the values hold the cell at `a`. -/
def holders (B : Type) [Layout B V] (values : List V) (a : Nat) : Nat :=
  values.countP fun v => decide (addr B v = some a)

def cellHolders (a : Nat) (o : Option (Cell B)) : Nat := o.elim 0 fun c => holders B (elements c.body) a

def held (h : Heap B) (roots : List V) (a : Nat) : Nat := holders B roots a + (h.map (cellHolders a)).sum

structure Balanced (h : Heap B) (roots : List V) : Prop where
  refs : ∀ a, (h.get a).elim 0 Cell.refs = held h roots a
  pos : ∀ a c, h.get a = some c → 0 < c.refs

@[simp] theorem holders_nil (a : Nat) : holders B ([] : List V) a = 0 := rfl

@[simp] theorem holders_append (l₁ l₂ : List V) (a : Nat) : holders B (l₁ ++ l₂) a = holders B l₁ a + holders B l₂ a :=
  List.countP_append

theorem holders_cons (v : V) (l : List V) (a : Nat) :
    holders B (v :: l) a = holders B l a + if addr B v = some a then 1 else 0 := by
  unfold holders
  rw [List.countP_cons]
  simp

theorem holders_perm {l₁ l₂ : List V} (hp : l₁.Perm l₂) (a : Nat) : holders B l₁ a = holders B l₂ a :=
  hp.countP_eq _

theorem holders_pos {l : List V} {v : V} {a : Nat} (hv : v ∈ l) (ha : addr B v = some a) : 0 < holders B l a :=
  List.countP_pos_iff.2 ⟨v, hv, by simpa using ha⟩

theorem held_set {h : Heap B} {a : Nat} {c : Cell B} (hc : h.get a = some c) (o : Option (Cell B)) (roots : List V) (b : Nat) :
    held (h.set a o) roots b + holders B (elements c.body) b = held h roots b + cellHolders b o := by
  have := sum_map_set (cellHolders b) o (Heap.getElem?_of_get hc)
  have hcell : cellHolders b (some c) = holders B (elements c.body) b := rfl
  rw [hcell] at this
  unfold held
  omega

theorem cellHolders_le_held {h : Heap B} {a : Nat} {c : Cell B} (hc : h.get a = some c) (roots : List V) (b : Nat) :
    holders B (elements c.body) b ≤ held h roots b := by
  have := held_set hc none roots b
  unfold cellHolders at this
  simp only [Option.elim_none, Nat.add_zero] at this
  omega

namespace Balanced

variable {h : Heap B} {roots : List V}

theorem perm {roots' : List V} (hb : Balanced h roots) (hp : roots.Perm roots') : Balanced h roots' :=
  ⟨fun a => by rw [hb.refs a, held, held, holders_perm hp], hb.pos⟩

/-- A cell that is held is there. -/
theorem live_of_held {a : Nat} (hb : Balanced h roots) (hheld : 0 < held h roots a) : ∃ c, h.get a = some c := by
  have hrefs := hb.refs a
  cases hc : h.get a with
  | none =>
    rw [hc, Option.elim_none] at hrefs
    omega
  | some c => exact ⟨c, rfl⟩

theorem live_root {v : V} {a : Nat} (hb : Balanced h roots) (hv : v ∈ roots) (ha : addr B v = some a) :
    ∃ c, h.get a = some c :=
  hb.live_of_held (Nat.lt_of_lt_of_le (holders_pos hv ha) (Nat.le_add_right _ _))

theorem refs_eq {a : Nat} {c : Cell B} (hb : Balanced h roots) (hc : h.get a = some c) : c.refs = held h roots a := by
  have hrefs := hb.refs a
  rw [hc] at hrefs
  exact hrefs

/-- The only holder of a cell. -/
theorem unique {v : V} {a : Nat} {c : Cell B} (hb : Balanced h (v :: roots)) (ha : addr B v = some a)
    (hc : h.get a = some c) (h1 : c.refs = 1) :
    (∀ w ∈ roots, addr B w ≠ some a) ∧ ∀ b c', h.get b = some c' → ∀ w ∈ elements c'.body, addr B w ≠ some a := by
  have hrefs := hb.refs_eq hc
  unfold held at hrefs
  rw [holders_cons, if_pos ha] at hrefs
  constructor
  · intro w hw hwa
    have := holders_pos hw hwa
    omega
  · intro b c' hc' w hw hwa
    have hpos := holders_pos hw hwa
    have hle := cellHolders_le_held hc' ([] : List V) a
    unfold held at hle
    rw [holders_nil] at hle
    omega

end Balanced

/-! ## What the operations do to the balance -/

section Operations

variable {h : Heap B} {roots : List V}

/-- Values change places between the roots and a cell. -/
theorem Balanced.exchange {a : Nat} {c : Cell B} {body : B} {new old : List V} (hb : Balanced h (new ++ roots))
    (hc : h.get a = some c) (hp : (elements c.body ++ new).Perm (elements body ++ old)) :
    Balanced (h.set a (some { c with body := body })) (old ++ roots) := by
  have hlt := Heap.lt_length_of_get hc
  have hcount := fun b => holders_perm (B := B) hp b
  constructor
  · intro b
    have hset := held_set hc (some { c with body := body }) (old ++ roots) b
    have hrefs := hb.refs b
    have hnew := hcount b
    simp only [cellHolders, Option.elim_some] at hset
    unfold held at hset hrefs ⊢
    simp only [holders_append] at hset hrefs hnew ⊢
    rw [Heap.get_set hlt]
    split
    · rename_i hba
      subst hba
      rw [hc] at hrefs
      simp only [Option.elim_some] at hrefs ⊢
      omega
    · omega
  · intro b c' hc'
    rw [Heap.get_set hlt] at hc'
    split at hc'
    · cases hc'
      exact hb.pos a c hc
    · exact hb.pos b c' hc'

/-- A new cell takes its values over from the roots. -/
theorem Balanced.alloc {body : B} {v : V} (hb : Balanced h (elements body ++ roots)) (hv : addr B v = some h.length) :
    Balanced (h.alloc body) (v :: roots) := by
  constructor
  · intro b
    have hrefs := hb.refs b
    unfold held at hrefs ⊢
    rw [Heap.get_alloc, holders_cons, hv]
    have hsum : ((h.alloc body).map (cellHolders b)).sum = (h.map (cellHolders b)).sum + holders B (elements body) b := by
      unfold Heap.alloc
      rw [List.map_append, List.sum_append]
      simp [cellHolders]
    rw [hsum]
    rw [holders_append] at hrefs
    by_cases hbl : b = h.length
    · subst hbl
      rw [Heap.get_length] at hrefs
      simp only [Option.elim_none] at hrefs
      rw [if_pos rfl, if_pos rfl]
      simp only [Option.elim_some]
      omega
    · rw [if_neg hbl, if_neg fun he => hbl (Option.some.inj he).symm]
      omega
  · intro b c hc
    rw [Heap.get_alloc] at hc
    split at hc
    · cases hc
      exact Nat.one_pos
    · exact hb.pos b c hc

/-- The cells of a heap are cells of another, with the same content. -/
def Keeps (h h' : Heap B) : Prop := ∀ a c', h'.get a = some c' → ∃ c, h.get a = some c ∧ c'.body = c.body

theorem Keeps.refl (h : Heap B) : Keeps h h := fun _ c hc => ⟨c, hc, rfl⟩

theorem Keeps.trans {h₁ h₂ h₃ : Heap B} (h₁₂ : Keeps h₁ h₂) (h₂₃ : Keeps h₂ h₃) : Keeps h₁ h₃ := by
  intro a c hc
  obtain ⟨c', hc', hbody⟩ := h₂₃ a c hc
  obtain ⟨c'', hc'', hbody'⟩ := h₁₂ a c' hc'
  exact ⟨c'', hc'', hbody.trans hbody'⟩

/-- Giving up values that are roots. -/
theorem releaseLoop_spec : ∀ (fuel : Nat) {work : List V} {h : Heap B}, weight h + work.length ≤ fuel →
    Balanced h (work ++ roots) → ∃ h', releaseLoop fuel work h = some h' ∧ Balanced h' roots ∧ Keeps h h' ∧
      h'.length = h.length
  | fuel, [], h, _, hb => ⟨h, by unfold releaseLoop; cases fuel <;> rfl, hb, .refl h, rfl⟩
  | 0, v :: work, h, hf, _ => by simp at hf
  | fuel + 1, v :: work, h, hf, hb => by
    rw [releaseLoop]
    rw [List.length_cons] at hf
    cases ha : addr B v with
    | none =>
      refine releaseLoop_spec fuel (by omega) ⟨fun b => ?_, hb.pos⟩
      rw [hb.refs b, held, held, List.cons_append, holders_cons, ha]
      simp
    | some a =>
      obtain ⟨c, hc⟩ := hb.live_root List.mem_cons_self ha
      have hlt := Heap.lt_length_of_get hc
      have hrefs := hb.refs_eq hc
      unfold held at hrefs
      rw [List.cons_append, holders_cons, if_pos ha] at hrefs
      simp only [hc]
      split
      · -- the last holder: the values of the cell are given up too
        rename_i h1
        have hw := sum_map_set (fun o : Option (Cell B) => o.elim 0 fun c => (elements c.body).length) none
          (Heap.getElem?_of_get hc)
        simp only [Option.elim_none, Option.elim_some, Nat.add_zero] at hw
        have hfuel : weight (h.set a none) + (elements c.body ++ work).length ≤ fuel := by
          unfold weight at hf ⊢
          rw [List.length_append]
          omega
        have hbal : Balanced (h.set a none) ((elements c.body ++ work) ++ roots) := by
          constructor
          · intro b
            have hset := held_set hc none ((elements c.body ++ work) ++ roots) b
            have hrefsb := hb.refs b
            simp only [cellHolders, Option.elim_none, Nat.add_zero] at hset
            unfold held at hset hrefsb ⊢
            rw [List.cons_append, holders_cons] at hrefsb
            simp only [holders_append] at hset hrefsb hrefs ⊢
            rw [Heap.get_set hlt]
            split
            · rename_i hba
              subst hba
              rw [hc] at hrefsb
              simp only [Option.elim_some, Option.elim_none, if_pos ha] at hrefsb ⊢
              omega
            · rename_i hba
              rw [ha, if_neg fun he => hba (Option.some.inj he).symm] at hrefsb
              omega
          · intro b c' hc'
            rw [Heap.get_set hlt] at hc'
            split at hc'
            · cases hc'
            · exact hb.pos b c' hc'
        obtain ⟨h', hrel, hbal', hk, hlen⟩ := releaseLoop_spec fuel hfuel hbal
        refine ⟨h', hrel, hbal', .trans (fun b c' hc' => ?_) hk, by rw [hlen, List.length_set]⟩
        rw [Heap.get_set hlt] at hc'
        split at hc'
        · cases hc'
        · exact ⟨c', hc', rfl⟩
      · rename_i h1
        have hw := sum_map_set (fun o : Option (Cell B) => o.elim 0 fun c => (elements c.body).length)
          (some { c with refs := c.refs - 1 }) (Heap.getElem?_of_get hc)
        simp only [Option.elim_some] at hw
        have hfuel : weight (h.set a (some { c with refs := c.refs - 1 })) + work.length ≤ fuel := by
          unfold weight at hf ⊢
          omega
        have hpos := hb.pos a c hc
        have hbal : Balanced (h.set a (some { c with refs := c.refs - 1 })) (work ++ roots) := by
          constructor
          · intro b
            have hset := held_set hc (some { c with refs := c.refs - 1 }) (work ++ roots) b
            have hrefsb := hb.refs b
            simp only [cellHolders, Option.elim_some] at hset
            unfold held at hset hrefsb ⊢
            rw [List.cons_append, holders_cons] at hrefsb
            simp only [holders_append] at hset hrefsb hrefs ⊢
            rw [Heap.get_set hlt]
            split
            · rename_i hba
              subst hba
              rw [hc] at hrefsb
              simp only [Option.elim_some, if_pos ha] at hrefsb ⊢
              omega
            · rename_i hba
              rw [ha, if_neg fun he => hba (Option.some.inj he).symm] at hrefsb
              omega
          · intro b c' hc'
            rw [Heap.get_set hlt] at hc'
            split at hc'
            · cases hc'
              simp only
              omega
            · exact hb.pos b c' hc'
        obtain ⟨h', hrel, hbal', hk, hlen⟩ := releaseLoop_spec fuel hfuel hbal
        refine ⟨h', hrel, hbal', .trans (fun b c' hc' => ?_) hk, by rw [hlen, List.length_set]⟩
        rw [Heap.get_set hlt] at hc'
        split at hc'
        · rename_i hba
          cases hc'
          exact ⟨c, hba ▸ hc, rfl⟩
        · exact ⟨c', hc', rfl⟩

theorem release_spec {values : List V} (hb : Balanced h (values ++ roots)) :
    ∃ h', release h values = some h' ∧ Balanced h' roots ∧ Keeps h h' ∧ h'.length = h.length :=
  releaseLoop_spec _ (Nat.le_refl _) hb

/-- Another value for the cell of a value. -/
theorem share_spec {v w : V} (hb : Balanced h roots) (hlive : ∀ a, addr B v = some a → ∃ c, h.get a = some c)
    (hw : addr B w = addr B v) : ∃ h', share h v = some h' ∧ Balanced h' (w :: roots) ∧ Keeps h h' ∧ Keeps h' h ∧
      h'.length = h.length := by
  unfold share
  cases ha : addr B v with
  | none =>
    refine ⟨h, rfl, ⟨fun b => ?_, hb.pos⟩, .refl h, .refl h, rfl⟩
    rw [hb.refs b, held, held, holders_cons, hw, ha]
    simp
  | some a =>
    obtain ⟨c, hc⟩ := hlive a ha
    have hlt := Heap.lt_length_of_get hc
    simp only [hc, Option.map_some]
    refine ⟨_, rfl, ⟨fun b => ?_, fun b c' hc' => ?_⟩, fun b c' hc' => ?_, fun b c' hc' => ?_, List.length_set⟩
    · have hset := held_set hc (some { c with refs := c.refs + 1 }) (w :: roots) b
      have hrefs := hb.refs b
      simp only [cellHolders, Option.elim_some] at hset
      unfold held at hset hrefs ⊢
      rw [holders_cons, hw, ha] at hset ⊢
      rw [Heap.get_set hlt]
      split
      · rename_i hba
        subst hba
        rw [hc] at hrefs
        simp only [Option.elim_some, if_true] at hrefs hset ⊢
        omega
      · rename_i hba
        rw [if_neg fun he => hba (Option.some.inj he).symm] at hset ⊢
        omega
    · rw [Heap.get_set hlt] at hc'
      split at hc'
      · cases hc'
        exact Nat.succ_pos _
      · exact hb.pos b c' hc'
    · rw [Heap.get_set hlt] at hc'
      split at hc'
      · rename_i hba
        cases hc'
        exact ⟨c, hba ▸ hc, rfl⟩
      · exact ⟨c', hc', rfl⟩
    · refine ⟨if b = a then { c with refs := c.refs + 1 } else c', ?_, ?_⟩
      · rw [Heap.get_set hlt]
        split
        · rfl
        · exact hc'
      · split
        · rename_i hba
          rw [hba, hc] at hc'
          cases hc'
          rfl
        · rfl

end Operations

end RefHeap

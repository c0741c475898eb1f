/-
Arrays of objects in blocks of raw memory. An object is constructed in a cell and destroyed in it
again; what reaches behind the block, or meets a cell without an object, is a fault. Every object has
a number of its own, and the ledger says which were made and which destroyed.
-/
import Mathlib.Data.List.Basic
import Mathlib.Data.List.Range
import Mathlib.Data.List.Nodup

namespace ObjectArray

/-! ## Cells -/

structure Object (V : Type) where
  id : Nat
  value : V

/-- The cells of a block, some of them with an object. -/
abbrev Cells (V : Type) := List (Option (Object V))

/-- A write behind the block, a use of a cell as the object it does not have, a read through a
reference to an object that is gone, an object made a part of itself. -/
inductive Misuse
  | overrun
  | wild
  | dangling
  | cyclic
  deriving DecidableEq

/-- How many objects were made, and which were destroyed. -/
structure Ledger where
  made : Nat
  destroyed : List Nat
  deriving DecidableEq

@[simp] theorem ok_bind {α β : Type} (a : α) (f : α → Except Misuse β) : (Except.ok a >>= f) = f a := rfl

@[simp] theorem error_bind {α β : Type} (e : Misuse) (f : α → Except Misuse β) : (Except.error e >>= f) = Except.error e := rfl

section Cells
variable {V : Type}

def raw (capacity : Nat) : Cells V := List.replicate capacity none

def objectAt (cells : Cells V) (i : Nat) : Except Misuse (Object V) :=
  match cells[i]? with
  | some (some o) => .ok o
  | _ => .error .wild

def construct (cells : Cells V) (i : Nat) (v : V) (m : Ledger) : Except Misuse (Cells V × Ledger) :=
  if i < cells.length then .ok (cells.set i (some ⟨m.made, v⟩), { m with made := m.made + 1 }) else .error .overrun

def assign (cells : Cells V) (i : Nat) (v : V) : Except Misuse (Cells V) :=
  (objectAt cells i).map fun o => cells.set i (some { o with value := v })

def destroy (cells : Cells V) (i : Nat) (m : Ledger) : Except Misuse (Cells V × Ledger) :=
  (objectAt cells i).map fun o => (cells.set i none, { m with destroyed := o.id :: m.destroyed })

/-- Copies of the first `count` objects of a block, in the same cells of another. -/
def copyInto (copy : V → V) (source : Cells V) (count : Nat) (cells : Cells V) (m : Ledger) : Except Misuse (Cells V × Ledger) :=
  (List.range count).foldlM (fun s i => objectAt source i >>= fun o => construct s.1 i (copy o.value) s.2) (cells, m)

/-- The first `count` objects of a block destroyed. -/
def freeAll (cells : Cells V) (count : Nat) (m : Ledger) : Except Misuse Ledger :=
  (List.range count).foldlM (fun m i => (objectAt cells i).map fun o => { m with destroyed := o.id :: m.destroyed }) m

end Cells

/-! ## Objects in front -/

/-- The block has these objects in its first cells, and nothing behind them. -/
structure Holds {V : Type} (cells : Cells V) (capacity : Nat) (os : List (Object V)) : Prop where
  cells_eq : cells = os.map some ++ raw (capacity - os.length)
  length_le : os.length ≤ capacity

section Holds
variable {V : Type} {cells : Cells V} {capacity : Nat} {os : List (Object V)} {i : Nat} {m : Ledger}

theorem holds_raw : Holds (raw capacity : Cells V) capacity [] := ⟨rfl, Nat.zero_le _⟩

theorem Holds.length (h : Holds cells capacity os) : cells.length = capacity := by
  have hle := h.length_le
  rw [h.cells_eq, List.length_append, List.length_map, raw, List.length_replicate]
  omega

theorem Holds.objectAt (h : Holds cells capacity os) (hi : i < os.length) : objectAt cells i = .ok os[i] := by
  have hget : cells[i]? = some (some os[i]) := by
    rw [h.cells_eq, List.getElem?_append_left (by rw [List.length_map]; exact hi), List.getElem?_map,
      List.getElem?_eq_getElem hi]
    rfl
  rw [ObjectArray.objectAt, hget]

theorem Holds.objectAt_wild (h : Holds cells capacity os) (hi : os.length ≤ i) : ObjectArray.objectAt cells i = .error .wild := by
  have hget : cells[i]? = none ∨ cells[i]? = some none := by
    rw [h.cells_eq, List.getElem?_append_right (by rw [List.length_map]; exact hi), raw, List.getElem?_replicate]
    split_ifs
    · exact .inr rfl
    · exact .inl rfl
  rcases hget with hget | hget <;> rw [ObjectArray.objectAt, hget]

theorem Holds.construct (h : Holds cells capacity os) (hroom : os.length < capacity) (v : V) :
    ∃ cells', construct cells os.length v m = .ok (cells', { m with made := m.made + 1 }) ∧
      Holds cells' capacity (os ++ [⟨m.made, v⟩]) := by
  refine ⟨_, if_pos (by rw [h.length]; exact hroom), ?_, ?_⟩
  · have hset : (os.map some ++ raw (capacity - os.length) : Cells V).set os.length (some ⟨m.made, v⟩) =
        os.map some ++ (raw (capacity - os.length)).set 0 (some ⟨m.made, v⟩) := by
      rw [List.set_append_right _ _ (by rw [List.length_map]), List.length_map, Nat.sub_self]
    have hraw : (raw (capacity - os.length) : Cells V) = none :: raw (capacity - (os.length + 1)) := by
      rw [raw, show capacity - os.length = capacity - (os.length + 1) + 1 by omega]
      rfl
    rw [h.cells_eq, hset, hraw, List.set_cons_zero, List.map_append, List.length_append, List.append_assoc]
    rfl
  · rw [List.length_append]
    exact hroom

theorem Holds.construct_overrun (h : Holds cells capacity os) {v : V} (hi : capacity ≤ i) :
    ObjectArray.construct cells i v m = .error .overrun :=
  if_neg (by rw [h.length]; omega)

theorem Holds.assign (h : Holds cells capacity os) (hi : i < os.length) (v : V) :
    ∃ cells', assign cells i v = .ok cells' ∧ Holds cells' capacity (os.set i ⟨os[i].id, v⟩) := by
  refine ⟨cells.set i (some ⟨os[i].id, v⟩), ?_, ?_, ?_⟩
  · rw [ObjectArray.assign, h.objectAt hi]
    rfl
  · rw [h.cells_eq, List.set_append_left _ _ (by rw [List.length_map]; exact hi), List.map_set, List.length_set]
  · rw [List.length_set]
    exact h.length_le

theorem foldlM_snoc {α β : Type} (f : β → α → Except Misuse β) (b : β) (l : List α) (a : α) :
    (l ++ [a]).foldlM f b = l.foldlM f b >>= fun b => f b a := by
  rw [List.foldlM_append]
  congr 1
  funext b
  rw [List.foldlM_cons]
  cases f b a <;> rfl

/-- The copies are new objects with the values of the old. -/
theorem Holds.copyInto (h : Holds cells capacity os) (copy : V → V) {capacity' n : Nat} (hn : n ≤ os.length)
    (hroom : n ≤ capacity') : ∃ cells' os', copyInto copy cells n (raw capacity') m = .ok (cells', { m with made := m.made + n }) ∧
      Holds cells' capacity' os' ∧ os'.map (·.value) = (os.take n).map (fun o => copy o.value) ∧
      os'.map (·.id) = List.range' m.made n := by
  induction n with
  | zero => exact ⟨_, [], rfl, holds_raw, rfl, rfl⟩
  | succ n ih =>
    rcases ih (by omega) (by omega) with ⟨cells', os', hcopy, hholds, hvalues, hids⟩
    have hlen : os'.length = n := by
      have := congrArg List.length hids
      rwa [List.length_map, List.length_range'] at this
    rcases hholds.construct (m := { m with made := m.made + n }) (by omega) (copy os[n].value) with ⟨cells'', hnew, hholds'⟩
    refine ⟨cells'', _, ?_, hholds', ?_, ?_⟩
    · rw [hlen] at hnew
      rw [ObjectArray.copyInto] at hcopy ⊢
      rw [List.range_succ, foldlM_snoc, hcopy]
      show ObjectArray.objectAt cells n >>= _ = _
      rw [h.objectAt (by omega)]
      exact hnew
    · rw [List.map_append, hvalues, List.take_add_one, List.map_append, List.getElem?_eq_getElem (by omega)]
      rfl
    · rw [List.map_append, hids, List.range'_concat]
      simp

theorem Holds.copyInto_overrun (h : Holds cells capacity os) (copy : V → V) {capacity' : Nat} (hshort : capacity' < os.length) :
    ObjectArray.copyInto copy cells os.length (raw capacity') m = .error .overrun := by
  rcases h.copyInto (m := m) copy (n := capacity') (by omega) le_rfl with ⟨cells', os', hcopy, hholds, -, -⟩
  have hrange : List.range os.length = List.range capacity' ++ [capacity'] ++ List.range' (capacity' + 1) (os.length - (capacity' + 1)) := by
    have hsplit := List.range'_append_1 (s := 0) (m := capacity' + 1) (n := os.length - (capacity' + 1))
    rw [Nat.zero_add, Nat.add_sub_cancel' hshort] at hsplit
    rw [← List.range_succ, List.range_eq_range', List.range_eq_range', hsplit]
  rw [ObjectArray.copyInto] at hcopy ⊢
  rw [hrange, List.foldlM_append, foldlM_snoc, hcopy]
  show (ObjectArray.objectAt cells capacity' >>= _) >>= _ = _
  rw [h.objectAt hshort]
  show ObjectArray.construct cells' capacity' _ _ >>= _ = _
  rw [hholds.construct_overrun le_rfl]
  rfl

theorem Holds.freeAll (h : Holds cells capacity os) {n : Nat} (hn : n ≤ os.length) :
    freeAll cells n m = .ok { m with destroyed := ((os.take n).map (·.id)).reverse ++ m.destroyed } := by
  induction n with
  | zero => rfl
  | succ n ih =>
    rw [ObjectArray.freeAll] at ih ⊢
    rw [List.range_succ, foldlM_snoc, ih (by omega)]
    show Except.map _ (ObjectArray.objectAt cells n) = _
    rw [h.objectAt (by omega), List.take_add_one, List.getElem?_eq_getElem (by omega), List.map_append, List.reverse_append]
    rfl

theorem Holds.readAll (h : Holds cells capacity os) : (List.range os.length).mapM (ObjectArray.objectAt cells) = .ok os := by
  have hpart : ∀ n ≤ os.length, (List.range n).mapM (ObjectArray.objectAt cells) = .ok (os.take n) := by
    intro n hn
    induction n with
    | zero => rfl
    | succ n ih =>
      rw [List.range_succ, List.mapM_append, ih (by omega), ok_bind, List.mapM_cons, h.objectAt (by omega),
        List.take_add_one, List.getElem?_eq_getElem (by omega)]
      rfl
  rw [hpart os.length le_rfl, List.take_length]

end Holds

/-! ## The ledger -/

/-- How often a number stands for an object that was destroyed. -/
def Ledger.gone (m : Ledger) (id : Nat) : Nat := m.destroyed.count id

/-- How often a number stands for one of the objects. -/
def living {V : Type} (os : List (Object V)) (id : Nat) : Nat := (os.map (·.id)).count id

/-- From the one ledger to the other just new objects were made, and each object is still there that
was not destroyed. -/
structure Traded {V : Type} (m : Ledger) (os : List (Object V)) (m' : Ledger) (os' : List (Object V)) : Prop where
  made_le : m.made ≤ m'.made
  count_eq : ∀ id, m'.gone id + living os' id = m.gone id + living os id + if m.made ≤ id ∧ id < m'.made then 1 else 0

section Traded
variable {V : Type} {m m' m'' : Ledger} {os os' os'' : List (Object V)}

theorem living_append (os os' : List (Object V)) (id : Nat) : living (os ++ os') id = living os id + living os' id := by
  rw [living, List.map_append, List.count_append]
  rfl

theorem Traded.rfl : Traded m os m os := by
  refine ⟨le_rfl, fun id => ?_⟩
  rw [if_neg (by omega), Nat.add_zero]

theorem Traded.trans (h : Traded m os m' os') (h' : Traded m' os' m'' os'') : Traded m os m'' os'' := by
  have h₁ := h.made_le
  have h₂ := h'.made_le
  refine ⟨le_trans h₁ h₂, fun id => ?_⟩
  have hc := h.count_eq id
  have hc' := h'.count_eq id
  split_ifs at hc hc' ⊢ <;> omega

/-- A new object. -/
theorem Traded.construct (v : V) : Traded m os { m with made := m.made + 1 } (os ++ [⟨m.made, v⟩]) := by
  refine ⟨Nat.le_succ _, fun id => ?_⟩
  have hnew : living [(⟨m.made, v⟩ : Object V)] id = if m.made ≤ id ∧ id < m.made + 1 then 1 else 0 := by
    rw [← List.count_range_1']
    rfl
  rw [living_append, hnew, ← Nat.add_assoc]
  rfl

/-- Other objects took the place of these. -/
theorem Traded.replace {n : Nat} (hids : os'.map (·.id) = List.range' m.made n) :
    Traded m os ⟨m.made + n, (os.map (·.id)).reverse ++ m.destroyed⟩ os' := by
  refine ⟨Nat.le_add_right _ _, fun id => ?_⟩
  show _ = m.gone id + living os id + if m.made ≤ id ∧ id < m.made + n then 1 else 0
  rw [Ledger.gone, living, hids, List.count_range_1', List.count_append, List.count_reverse, Ledger.gone, living]
  omega

end Traded

end ObjectArray

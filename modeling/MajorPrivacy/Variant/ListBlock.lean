/-
The array behind a list variant (Variant.cpp): `SList` with its elements in a block of so many cells,
how `ListAppend` makes the block grow, `ListRemove`, `CloneList` and `FreeList`. An append works just
where it finds room, which a full block of no or one element never gives; a removal never works,
since it destroys the cell behind the last element. Allocations succeed here.
-/
import MajorPrivacy.Lib.ObjectArray
import MajorPrivacy.Variant.Content

namespace MajorPrivacy.Variant.ListBlock

open ObjectArray

/-! ## Lists -/

structure SList where
  count : Nat
  capacity : Nat
  data : Cells Content

/-- `AllocList`. -/
def allocList (capacity : Nat) : SList := ⟨0, capacity, raw capacity⟩

/-- `FreeList`. -/
def freeList (pList : SList) (m : Ledger) : Except Misuse Ledger := freeAll pList.data pList.count m

/-- What the capacity of a full list grows to, in 32 bits. -/
def growth (capacity : Nat) : Nat := capacity * 3 % 2 ^ 32 / 2

/-- The growth of `ListAppend`. -/
def grow (pList : SList) (m : Ledger) : Except Misuse (SList × Ledger) :=
  if pList.count ≥ pList.capacity then do
    let ptr := allocList (growth pList.capacity)
    let (data, m) ← copyInto Content.shared pList.data pList.count ptr.data m
    let m ← freeList pList m
    .ok (⟨pList.count, ptr.capacity, data⟩, m)
  else .ok (pList, m)

/-- The variant `ListAppend` is given: one outside the list, or an element of it where it stands. -/
inductive Source
  | outside (v : Content)
  | inside (i : Nat)

/-- What the new element is made of, after the list has grown. -/
def Source.read (pVariant : Source) (pList grown : SList) : Except Misuse Content :=
  match pVariant with
  | .outside v => .ok v
  | .inside i =>
    if pList.count ≥ pList.capacity then .error .dangling -- the element was freed with the old block
    else (objectAt grown.data i).map (·.value)

/-- `ListAppend`. -/
def listAppend (pList : SList) (pVariant : Source) (m : Ledger) : Except Misuse (SList × Ledger) := do
  let (grown, m) ← grow pList m
  let v ← pVariant.read pList grown
  let (data, m) ← construct grown.data grown.count v.shared m
  .ok (⟨(grown.count + 1) % 2 ^ 32, grown.capacity, data⟩, m)

/-- The elements behind `index` assigned each to the one in front of it. -/
def moveDown (data : Cells Content) (index count : Nat) : Except Misuse (Cells Content) :=
  (List.range' index (count - 1 - index)).foldlM
    (fun data i => objectAt data (i + 1) >>= fun o => assign data i o.value.shared) data

/-- `ListRemove`. -/
def listRemove (pList : SList) (index : Nat) (m : Ledger) : Except Misuse (SList × Ledger) :=
  if index ≥ pList.count then .ok (pList, m)
  else do
    let data ← moveDown pList.data index pList.count
    let (data, m) ← destroy data pList.count m
    .ok ({ pList with data := data }, m)

/-- Variants appended one after the other. -/
def appendAll (vs : List Content) (pList : SList) (m : Ledger) : Except Misuse (SList × Ledger) :=
  vs.foldlM (fun s v => listAppend s.1 (.outside v) s.2) (pList, m)

/-- `CloneList`. -/
def cloneList (pSrcList : SList) (full : Bool) (m : Ledger) : Except Misuse (SList × Ledger) :=
  (List.range pSrcList.count).foldlM (fun s i => do
    let o ← objectAt pSrcList.data i
    listAppend s.1 (.outside (if full then o.value.clone else o.value.shared)) s.2) (allocList pSrcList.count, m)

/-! ## Sound lists -/

/-- The elements of a list that is as it should be: all that its block holds, and copied as they are. -/
structure Sound (pList : SList) (os : List (Object Content)) : Prop where
  holds : Holds pList.data pList.capacity os
  count_eq : pList.count = os.length
  capacity_lt : pList.capacity < 2 ^ 32
  shared_eq : ∀ o ∈ os, o.value.shared = o.value

/-- The objects in the block of a list. -/
def SList.objects (pList : SList) : List (Object Content) := pList.data.filterMap id

def values (os : List (Object Content)) : List Content := os.map (·.value)

/-- There is room for an element, or a growing list gets some. -/
def HasRoom (pList : SList) : Prop := pList.count < pList.capacity ∨ pList.capacity < growth pList.capacity

instance (pList : SList) : Decidable (HasRoom pList) := inferInstanceAs (Decidable (_ ∨ _))

/-- So many appends find room in a list with this count and capacity. -/
def Fits : Nat → Nat → Nat → Prop
  | 0, _, _ => True
  | n + 1, count, capacity =>
    if count < capacity then Fits n (count + 1) capacity
    else capacity < growth capacity ∧ Fits n (count + 1) (growth capacity)

/-- The capacity of a list with this count and capacity after so many appends. -/
def capacityAfter : Nat → Nat → Nat → Nat
  | 0, _, capacity => capacity
  | n + 1, count, capacity =>
    if count < capacity then capacityAfter n (count + 1) capacity else capacityAfter n (count + 1) (growth capacity)

theorem growth_lt (capacity : Nat) : growth capacity < 2 ^ 32 := by
  unfold growth
  omega

theorem fits_self (n count : Nat) : Fits n count (count + n) := by
  induction n generalizing count with
  | zero => trivial
  | succ n ih =>
    rw [Fits, if_pos (by omega), show count + (n + 1) = count + 1 + n by omega]
    exact ih (count + 1)

theorem shared_shared (v : Content) : v.shared.shared = v.shared := by
  cases v with
  | flat type ro payload =>
    rw [Content.shared, Content.ofBytes]
    split_ifs with h <;> simp [Content.shared, Content.ofBytes, h]
  | _ => rfl

theorem shared_ofBytes (type : EType) (payload : Bytes) : (Content.ofBytes type payload).shared = Content.ofBytes type payload :=
  shared_shared (.flat type false payload)

theorem shared_clone (v : Content) : v.clone.shared = v.clone := by
  cases v with
  | flat type ro payload => rw [Content.clone, shared_ofBytes]
  | buffer data => rw [Content.clone, Content.shared]
  | strA type str => rw [Content.clone, Content.shared]
  | strW str => rw [Content.clone, Content.shared]
  | map p t =>
    rw [Content.clone_map]
    rfl
  | list p l =>
    rw [Content.clone_list]
    rfl
  | index p t =>
    rw [Content.clone_index]
    rfl

section Sound
variable {pList : SList} {os : List (Object Content)} {m : Ledger}

theorem sound_allocList {c : Nat} (h : c < 2 ^ 32) : Sound (allocList c) [] :=
  ⟨holds_raw, rfl, h, fun _ ho => absurd ho (List.not_mem_nil)⟩

theorem Sound.objects_eq (h : Sound pList os) : pList.objects = os := by
  have hsome : (os.map some).filterMap id = os := by
    rw [List.filterMap_map]
    exact List.filterMap_some
  have hnone : ∀ n, (raw n : Cells Content).filterMap id = [] := by
    intro n
    rw [List.filterMap_eq_nil_iff]
    intro c hc
    rw [List.eq_of_mem_replicate hc]
    rfl
  rw [SList.objects, h.holds.cells_eq, List.filterMap_append, hsome, hnone, List.append_nil]

theorem Sound.count_le (h : Sound pList os) : pList.count ≤ pList.capacity := by
  rw [h.count_eq]
  exact h.holds.length_le

theorem shared_of_values {os' : List (Object Content)} (h : ∀ o ∈ os, o.value.shared = o.value)
    (hvalues : values os' = values os) : ∀ o ∈ os', o.value.shared = o.value := by
  intro o ho
  have hmem : o.value ∈ values os := hvalues ▸ List.mem_map_of_mem ho
  rcases List.mem_map.1 hmem with ⟨o', ho', heq⟩
  rw [← heq]
  exact h o' ho'

/-- A list with room grows into one with the same elements and a cell left. -/
theorem Sound.grow (h : Sound pList os) (hroom : HasRoom pList) : ∃ pList' os' m', grow pList m = .ok (pList', m') ∧
    Sound pList' os' ∧ values os' = values os ∧ Traded m os m' os' ∧
    pList'.capacity = (if pList.count < pList.capacity then pList.capacity else growth pList.capacity) ∧
    pList'.count = pList.count ∧ pList'.count < pList'.capacity := by
  by_cases hlt : pList.count < pList.capacity
  · refine ⟨pList, os, m, if_neg (by omega), h, rfl, Traded.rfl, ?_, rfl, hlt⟩
    rw [if_pos hlt]
  · have hcap : pList.capacity = os.length := by
      have := h.count_le
      rw [h.count_eq] at this hlt
      omega
    have hgrow : os.length < growth pList.capacity := by
      rcases hroom with hc | hc
      · exact absurd hc hlt
      · rwa [← hcap]
    rcases h.holds.copyInto (m := m) Content.shared le_rfl (Nat.le_of_lt hgrow) with ⟨data, os', hcopy, hholds, hvalues, hids⟩
    rw [List.take_length] at hvalues
    have hsame : values os' = values os := hvalues.trans (List.map_congr_left h.shared_eq)
    have hlen : os'.length = os.length := by
      have := congrArg List.length hids
      rwa [List.length_map, List.length_range'] at this
    refine ⟨⟨pList.count, growth pList.capacity, data⟩, os', _, ?_, ⟨hholds, ?_, growth_lt _, shared_of_values h.shared_eq hsame⟩,
      hsame, Traded.replace hids, ?_, rfl, ?_⟩
    · have hfree := h.holds.freeAll (m := ⟨m.made + os.length, m.destroyed⟩) le_rfl
      rw [List.take_length] at hfree
      rw [ListBlock.grow, if_pos (by omega)]
      simp only [allocList, freeList, h.count_eq, hcopy, hfree, ok_bind]
    · rw [hlen]
      exact h.count_eq
    · rw [if_neg hlt]
    · show pList.count < growth pList.capacity
      rw [h.count_eq]
      exact hgrow

/-- The variant can be read when the element is made of it. -/
def Source.Reads (pVariant : Source) (pList : SList) (os : List (Object Content)) (v : Content) : Prop :=
  match pVariant with
  | .outside w => v = w
  | .inside i => pList.count < pList.capacity ∧ (values os)[i]? = some v

theorem Sound.listAppend (h : Sound pList os) (hroom : HasRoom pList) {p : Source} {v : Content}
    (hread : p.Reads pList os v) : ∃ pList' os' m', listAppend pList p m = .ok (pList', m') ∧
    Sound pList' os' ∧ values os' = values os ++ [v.shared] ∧ Traded m os m' os' ∧ pList'.count = pList.count + 1 ∧
    pList'.capacity = (if pList.count < pList.capacity then pList.capacity else growth pList.capacity) := by
  rcases h.grow (m := m) hroom with ⟨grown, os', m', hgrow, hsound, hvalues, htraded, hcapacity, hcount, hlt⟩
  have hsource : p.read pList grown = .ok v := by
    cases p with
    | outside w =>
      cases hread
      rfl
    | inside i =>
      rcases hread with ⟨hsmall, hget⟩
      rw [← hvalues, values, List.getElem?_map] at hget
      rcases Option.map_eq_some_iff.1 hget with ⟨o, ho, rfl⟩
      rcases List.getElem?_eq_some_iff.1 ho with ⟨hi, rfl⟩
      rw [Source.read, if_neg (by omega), hsound.holds.objectAt hi]
      rfl
  rw [hsound.count_eq] at hlt
  rcases hsound.holds.construct (m := m') hlt v.shared with ⟨data, hnew, hholds⟩
  have hbig := hsound.capacity_lt
  refine ⟨⟨grown.count + 1, grown.capacity, data⟩, _, _, ?_, ⟨hholds, ?_, hbig, ?_⟩, ?_, htraded.trans (Traded.construct v.shared),
    ?_, hcapacity⟩
  · simp only [ListBlock.listAppend, hgrow, ok_bind, hsource, hsound.count_eq, hnew]
    rw [Nat.mod_eq_of_lt (by omega)]
  · show grown.count + 1 = _
    rw [hsound.count_eq, List.length_append]
    rfl
  · intro o ho
    rcases List.mem_append.1 ho with ho | ho
    · exact hsound.shared_eq o ho
    · rw [List.mem_singleton.1 ho]
      exact shared_shared v
  · rw [values, List.map_append]
    exact congrArg (· ++ _) hvalues
  · show grown.count + 1 = _
    rw [hcount]

/-- Without room, or with a reference into the block that is freed, the append goes wrong. -/
theorem Sound.listAppend_fault (h : Sound pList os) {p : Source}
    (hnot : ¬ HasRoom pList ∨ ∃ i, p = .inside i ∧ ¬ pList.count < pList.capacity) :
    ∃ f, ListBlock.listAppend pList p m = .error f := by
  by_cases hroom : HasRoom pList
  · rcases hnot with hnot | ⟨i, rfl, hfull⟩
    · exact absurd hroom hnot
    · rcases h.grow (m := m) hroom with ⟨grown, os', m', hgrow, -⟩
      refine ⟨.dangling, ?_⟩
      have hread : Source.read (.inside i) pList grown = .error .dangling := if_pos (by omega)
      simp only [ListBlock.listAppend, hgrow, ok_bind, hread, error_bind]
  · have hcount := h.count_le
    have hfull : ¬ pList.count < pList.capacity := fun hlt => hroom (.inl hlt)
    have hsmall : ¬ pList.capacity < growth pList.capacity := fun hlt => hroom (.inr hlt)
    have hlen : pList.capacity = os.length := by
      have hc := h.count_eq
      omega
    by_cases hshort : growth pList.capacity < os.length
    · refine ⟨.overrun, ?_⟩
      have hcopy := h.holds.copyInto_overrun (m := m) Content.shared hshort
      rw [ListBlock.listAppend, ListBlock.grow, if_pos (by omega)]
      simp only [allocList, h.count_eq, hcopy, error_bind]
    · rcases h.holds.copyInto (m := m) Content.shared le_rfl (show os.length ≤ growth pList.capacity by omega) with
        ⟨data, os', hcopy, hholds, -, -⟩
      have hfree := h.holds.freeAll (m := ⟨m.made + os.length, m.destroyed⟩) le_rfl
      rw [ListBlock.listAppend, ListBlock.grow, if_pos (by omega)]
      simp only [allocList, freeList, h.count_eq, hcopy, hfree, ok_bind]
      cases p.read pList ⟨os.length, growth pList.capacity, data⟩ with
      | error f => exact ⟨f, rfl⟩
      | ok v =>
        refine ⟨.overrun, ?_⟩
        rw [ok_bind, hholds.construct_overrun (by omega)]
        rfl

theorem Sound.appendAll {vs : List Content} : ∀ {pList : SList} {os : List (Object Content)} {m : Ledger}, Sound pList os →
    Fits vs.length pList.count pList.capacity → ∃ pList' os' m', appendAll vs pList m = .ok (pList', m') ∧ Sound pList' os' ∧
    values os' = values os ++ vs.map Content.shared ∧ Traded m os m' os' ∧ pList'.count = pList.count + vs.length ∧
    pList'.capacity = capacityAfter vs.length pList.count pList.capacity := by
  induction vs with
  | nil =>
    intro pList os m h _
    exact ⟨pList, os, m, rfl, h, (List.append_nil _).symm, Traded.rfl, rfl, rfl⟩
  | cons v vs ih =>
    intro pList os m h hfits
    have hroom : HasRoom pList := by
      rw [List.length_cons, Fits] at hfits
      split_ifs at hfits with hlt
      · exact .inl hlt
      · exact .inr hfits.1
    rcases h.listAppend (m := m) hroom (p := .outside v) rfl with
      ⟨pList', os', m', happend, hsound, hvalues, htraded, hcount, hcapacity⟩
    have hrest : Fits vs.length pList'.count pList'.capacity := by
      rw [hcount, hcapacity]
      rw [List.length_cons, Fits] at hfits
      split_ifs at hfits ⊢
      · exact hfits
      · exact hfits.2
    rcases ih (m := m') hsound hrest with ⟨pList'', os'', m'', hall, hsound', hvalues', htraded', hcount', hcapacity'⟩
    refine ⟨pList'', os'', m'', ?_, hsound', ?_, htraded.trans htraded', ?_, ?_⟩
    · rw [ListBlock.appendAll, List.foldlM_cons, happend]
      exact hall
    · rw [hvalues', hvalues, List.append_assoc]
      rfl
    · rw [hcount', hcount, List.length_cons]
      omega
    · rw [hcapacity', hcount, hcapacity, List.length_cons, capacityAfter]
      split_ifs <;> rfl

theorem Sound.appendAll_fault {vs : List Content} : ∀ {pList : SList} {os : List (Object Content)} {m : Ledger}, Sound pList os →
    ¬ Fits vs.length pList.count pList.capacity → ∃ f, ListBlock.appendAll vs pList m = .error f := by
  induction vs with
  | nil =>
    intro pList os m _ hnot
    exact absurd trivial hnot
  | cons v vs ih =>
    intro pList os m h hnot
    by_cases hroom : HasRoom pList
    · rcases h.listAppend (m := m) hroom (p := .outside v) rfl with
        ⟨pList', os', m', happend, hsound, -, -, hcount, hcapacity⟩
      have hrest : ¬ Fits vs.length pList'.count pList'.capacity := by
        intro hfits
        apply hnot
        rw [hcount, hcapacity] at hfits
        rw [List.length_cons, Fits]
        split_ifs at hfits ⊢ with hlt
        · exact hfits
        · exact ⟨hroom.resolve_left hlt, hfits⟩
      rcases ih (m := m') hsound hrest with ⟨f, hf⟩
      refine ⟨f, ?_⟩
      rw [ListBlock.appendAll, List.foldlM_cons, happend]
      exact hf
    · rcases h.listAppend_fault (m := m) (p := .outside v) (.inl hroom) with ⟨f, hf⟩
      refine ⟨f, ?_⟩
      rw [ListBlock.appendAll, List.foldlM_cons, hf]
      rfl

/-! ## Removing -/

/-- Wherever the elements are moved down, as many stand there afterwards. -/
theorem moveDown_holds : ∀ {is : List Nat} {data data' : Cells Content} {os : List (Object Content)} {capacity : Nat},
    Holds data capacity os →
    is.foldlM (fun data i => objectAt data (i + 1) >>= fun o => assign data i o.value.shared) data = .ok data' →
    ∃ os', Holds data' capacity os' ∧ os'.length = os.length
  | [], data, data', os, capacity, h, heq => by
    cases heq
    exact ⟨os, h, rfl⟩
  | i :: is, data, data', os, capacity, h, heq => by
    rw [List.foldlM_cons] at heq
    by_cases hi : i + 1 < os.length
    · rcases h.assign (i := i) (by omega) os[i + 1].value.shared with ⟨data₁, hassign, hholds⟩
      rw [h.objectAt hi, ok_bind, hassign, ok_bind] at heq
      rcases moveDown_holds hholds heq with ⟨os', hholds', hlen⟩
      rw [List.length_set] at hlen
      exact ⟨os', hholds', hlen⟩
    · rw [h.objectAt_wild (by omega)] at heq
      cases heq

/-- A removal of an element destroys the cell behind the last one, which has none. -/
theorem Sound.listRemove_fault (h : Sound pList os) {i : Nat} (hindex : i < pList.count) :
    ∃ f, listRemove pList i m = .error f := by
  rw [listRemove, if_neg (by omega)]
  cases hmove : moveDown pList.data i pList.count with
  | error f => exact ⟨f, rfl⟩
  | ok data =>
    rcases moveDown_holds h.holds hmove with ⟨os', hholds, hlen⟩
    have hcount := h.count_eq
    refine ⟨.wild, ?_⟩
    rw [ok_bind, destroy, hholds.objectAt_wild (by omega)]
    rfl

/-! ## Cloning -/

theorem appendAll_snoc (vs : List Content) (v : Content) (pList : SList) (m : Ledger) :
    ListBlock.appendAll (vs ++ [v]) pList m =
      ListBlock.appendAll vs pList m >>= fun s => ListBlock.listAppend s.1 (.outside v) s.2 :=
  foldlM_snoc _ _ _ _

/-- What an element is cloned to. -/
def cloned (full : Bool) (v : Content) : Content := if full then v.clone else v.shared

theorem Sound.cloneList_eq (h : Sound pList os) (full : Bool) :
    cloneList pList full m = ListBlock.appendAll ((values os).map (cloned full)) (allocList pList.count) m := by
  have hpart : ∀ n ≤ os.length, (List.range n).foldlM (fun s i => do
      let o ← objectAt pList.data i
      ListBlock.listAppend s.1 (.outside (cloned full o.value)) s.2) (allocList pList.count, m) =
        ListBlock.appendAll ((values (os.take n)).map (cloned full)) (allocList pList.count) m := by
    intro n hn
    induction n with
    | zero => rfl
    | succ n ih =>
      have hvalues : (values (os.take (n + 1))).map (cloned full) = (values (os.take n)).map (cloned full) ++ [cloned full os[n].value] := by
        rw [List.take_add_one, List.getElem?_eq_getElem (by omega), values, List.map_append, List.map_append]
        rfl
      rw [List.range_succ, foldlM_snoc, ih (by omega), hvalues, appendAll_snoc]
      simp only [h.holds.objectAt (show n < os.length by omega), ok_bind]
  have hall := hpart os.length le_rfl
  rw [List.take_length] at hall
  rw [cloneList, ← hall, h.count_eq]
  rfl

theorem Sound.cloneList (h : Sound pList os) (full : Bool) : ∃ pList' os' m', cloneList pList full m = .ok (pList', m') ∧
    Sound pList' os' ∧ values os' = (values os).map (cloned full) ∧ Traded m [] m' os' := by
  have hlt : pList.count < 2 ^ 32 := Nat.lt_of_le_of_lt h.count_le h.capacity_lt
  have hfits : Fits ((values os).map (cloned full)).length (allocList pList.count).count (allocList pList.count).capacity := by
    have hself := fits_self os.length 0
    rw [Nat.zero_add] at hself
    rw [List.length_map, values, List.length_map, allocList, h.count_eq]
    exact hself
  rcases (sound_allocList hlt).appendAll (m := m) hfits with ⟨pList', os', m', hall, hsound, hvalues, htraded, -, -⟩
  refine ⟨pList', os', m', (h.cloneList_eq full).trans hall, hsound, ?_, htraded⟩
  rw [hvalues, values, List.map_nil, List.nil_append, List.map_map]
  apply List.map_congr_left
  intro v _
  show (cloned full v).shared = cloned full v
  cases full with
  | true => exact shared_clone v
  | false => exact shared_shared v

end Sound

end MajorPrivacy.Variant.ListBlock

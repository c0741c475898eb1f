/-
Runs of calls on tables: as long as nothing is taken and nothing erased through an iterator, every
table is the multimap its calls make of it, and the first such call breaks that.
-/
import MajorPrivacy.Core.MultimapSharing

namespace MajorPrivacy.Core

open RefHeap

/-! ## Removals that find nothing -/

theorem unlinkLoop_of_no_match {K V : Type} {match_ : K × V → Bool} (bAll : Bool) : ∀ {chain : List (K × V)},
    (∀ e ∈ chain, match_ e = false) → (unlinkLoop match_ bAll chain).2 = []
  | [], _ => rfl
  | e :: next, h => by
    have ih := unlinkLoop_of_no_match bAll fun e he => h e (List.mem_cons_of_mem _ he)
    rw [unlinkLoop, h e List.mem_cons_self]
    exact ih

theorem Multimap.change_eq_self {K V : Type} [DecidableEq K] {m : Multimap K V} {key : K} {f : List V → List V} (hf : f (m.values key) = m.values key) :
    m.change key f = m := by
  rcases m with ⟨pMem, values⟩
  unfold Multimap.change
  congr
  funext k
  split
  · rename_i hk
    rw [hk]
    exact hf
  · rfl

namespace Tables

theorem modify_congr {A : Type} {l : List A} {i : Nat} {f g : A → A} (hfg : ∀ x, l[i]? = some x → f x = g x) :
    l.modify i f = l.modify i g := by
  apply List.ext_getElem?
  rintro j
  rw [List.getElem?_modify, List.getElem?_modify]
  rcases hx : l[j]? with _ | x
  · rfl
  · by_cases hij : i = j
    · subst hij
      simp [hfg x hx]
    · simp [hij]

/-- A call that changes nothing. -/
theorem modify_eq_self {A : Type} {l : List A} {i : Nat} {f : A → A} (hf : ∀ x, l[i]? = some x → f x = x) :
    l.modify i f = l :=
  (modify_congr (g := id) hf).trans (List.modify_id i l)

variable {K V : Type} [Hasher K] [DecidableEq K] {w : Tables K V} {ms : List (Multimap K V)} {i : Nat}

/-! ## The calls -/

/-- What a call has to work with: a table whose data is its own. -/
structure Own (w : Tables K V) (ms : List (Multimap K V)) (i : Nat) (obj : TableObj) (a : Nat) (t : Table K (Entry V)) :
    Prop where
  inv : Inv w ms
  obj_eq : w.objs[i]? = some obj
  ptr_eq : obj.ptr = some a
  cell_eq : w.heap.get a = some ⟨1, t⟩
  data_eq : w.data i = some t
  sound : Sound t
  values_eq : ∀ m, ms[i]? = some m → ∀ key, t.values key = m.values key

theorem Inv.data (h : Inv w ms) {m : Multimap K V} (hm : ms[i]? = some m) : ∃ t, w.data i = some t ∧ Placed t.buckets ∧
    t.count = t.toList.length ∧ (∀ key, t.values key = m.values key) ∧
    (t = .empty ∨ ∃ a c, w.heap.get a = some c ∧ c.body = t) := by
  rcases h.obj (List.getElem?_eq_some_iff.1 hm).1 with ⟨obj, hobj, hlive⟩
  have hold := (h.holds i obj m hobj hm).2
  unfold Tables.data
  rw [hobj, Option.bind_some]
  rcases hptr : obj.ptr with _ | a
  · rw [hptr] at hold
    refine ⟨.empty, rfl, placed_replicate 0, rfl, fun key => ?_, .inl rfl⟩
    rw [hold key]
    rfl
  · rw [hptr] at hold
    rcases hold with ⟨c, hc, hv⟩
    refine ⟨c.body, by simp only [hc, Option.map_some], (h.sound a c hc).placed, (h.sound a c hc).count_eq, hv,
      .inr ⟨a, c, hc, rfl⟩⟩

theorem Inv.own (h : Inv w ms) (hi : i < ms.length) : ∃ w' obj a t, w.makeExclusive i = some w' ∧ Own w' ms i obj a t := by
  rcases h.obj hi with ⟨obj, hobj, -⟩
  rcases h.makeExclusive hobj with ⟨w', obj', a, ⟨refs, t⟩, hw', hinv, hobj', hptr, hc, h1, -⟩
  simp only at h1
  subst h1
  refine ⟨w', obj', a, t, hw', hinv, hobj', hptr, hc, ?_, hinv.sound a _ hc, fun m hm key => ?_⟩
  · unfold Tables.data
    rw [hobj', Option.bind_some, hptr]
    simp only [hc, Option.map_some]
  · have hold := (hinv.holds i obj' m hobj' hm).2
    rw [hptr] at hold
    rcases hold with ⟨c, hc', hv⟩
    cases hc.symm.trans hc'
    exact hv key

section Own
variable {obj : TableObj} {a : Nat} {t : Table K (Entry V)}

theorem findValue_isSome_iff (h : Own w ms i obj a t) {m : Multimap K V} (hm : ms[i]? = some m) (key : K) :
    (t.findValue key).isSome ↔ m.values key ≠ [] := by
  rw [← h.values_eq m hm, Table.values, Table.findValue, findEntry_eq]
  rcases valuesOf t.buckets key with _ | ⟨e, l⟩ <;> simp

/-- `RemoveImpl` and the counting of what it took away. -/
theorem Own.removeImpl (h : Own w ms i obj a t) {key : K} {match_ : K × Entry V → Bool} {q : V → Bool} {bAll bCount : Bool}
    {log : Nat → List LogEntry} {g : Multimap K V → Multimap K V}
    (hm : ∀ e, match_ e = (decide (e.1 = key) && q e.2.value))
    (hlog : (t.unlinked key match_ bAll).flatMap (fun e => log e.2.id) =
      (t.unlinked key match_ bAll).map fun e => LogEntry.destroyed e.2.id)
    (hcount : bCount = true ∨ t.unlinked key match_ bAll = [])
    (hg : ∀ m, g m = m.change key (leftOf q bAll)) :
    ∃ w', w.removeImpl i key match_ bAll bCount log = some w' ∧ Inv w' (ms.modify i g) := by
  have hnew : (if bCount then t.count - (t.unlinked key match_ bAll).length else t.count) =
      t.count - (t.unlinked key match_ bAll).length := by
    rcases hcount with rfl | hnil
    · rfl
    · rw [hnil]
      split <;> rfl
  unfold Tables.removeImpl
  simp only [h.data_eq, Option.bind_some, hlog]
  have hcell : w.heap.get a = some ⟨1, t⟩ := h.cell_eq
  refine h.inv.modify h.obj_eq h.ptr_eq hcell rfl ?_ ?_ ?_ ?_ ?_ (Nat.le_refl _) ?_
  · rw [hnew]
    exact h.sound.unlink key match_ bAll
  · rintro m hmi
    rw [hg m]
    refine ⟨rfl, fun k => ?_⟩
    have hvalues := values_unlink (t := t) hm bAll k
    rw [h.values_eq m hmi] at hvalues
    exact hvalues
  · rintro id
    have hids := count_ids_unlink h.sound.ne_nil key match_ bAll id
    have hgone : ((t.unlinked key match_ bAll).map fun e => LogEntry.destroyed e.2.id) =
        ((t.unlinked key match_ bAll).map (·.2.id)).map LogEntry.destroyed := by
      rw [List.map_map]
      rfl
    have hlog := count_map_destroyed ((t.unlinked key match_ bAll).map (·.2.id)) id
    rw [hgone, hlog.1, hlog.2]
    exact hids
  · rintro id hid
    simp at hid
  · rintro id
    rw [List.count_eq_zero.2 (by simp)]
    exact Nat.zero_le 1
  · exact readsOk_append_of_no_read h.inv.reads (by simp)

end Own

theorem Inv.insert (h : Inv w ms) (hi : i < ms.length) (key : K) (value : V) (mode : InsertMode) :
    ∃ w', w.insert i key value mode = some w' ∧ Inv w' (ms.modify i fun m => m.insert key value mode) := by
  rcases h.own hi with ⟨w, obj, a, t, hw, hown⟩
  have hcell := hown.cell_eq
  unfold Tables.insert
  rw [hw, Option.bind_some, hown.data_eq, Option.bind_some]
  rcases List.getElem?_eq_some_iff.2 ⟨hi, rfl⟩ with hmi
  by_cases hfound : mode ≠ .eMulti ∧ (t.findValue key).isSome
  · have hin : ∀ m, ms[i]? = some m → mode ≠ .eMulti ∧ m.values key ≠ [] := fun m hm =>
      ⟨hfound.1, (findValue_isSome_iff hown hm key).1 hfound.2⟩
    rw [if_pos hfound]
    by_cases hno : mode = .eNoReplace
    · rw [if_pos hno]
      refine ⟨w, rfl, ?_⟩
      rw [modify_eq_self fun m hm => by rw [Multimap.insert, if_pos (hin m hm), if_pos hno]]
      exact hown.inv
    · -- the value is assigned, which neither makes nor destroys an entry
      rw [if_neg hno]
      refine hown.inv.modify hown.obj_eq hown.ptr_eq hcell rfl (hown.sound.write key value) ?_ ?_ (by simp) (by simp) (Nat.le_refl _)
        hown.inv.reads
      · rintro m hm
        rw [Multimap.insert, if_pos (hin m hm), if_neg hno]
        refine ⟨rfl, fun k => ?_⟩
        rw [values_write, hown.values_eq m hm]
        by_cases hk : k = key
        · subst hk
          have hne := (hin m hm).2
          simp only [Multimap.change, if_pos]
          rcases hl : m.values k with _ | ⟨v, l⟩
          · exact absurd hl hne
          · rfl
        · simp only [Multimap.change, if_neg hk]
      · rintro id
        rw [ids_write hown.sound]
        rfl
  · have hout : ∀ m, ms[i]? = some m → ¬ (mode ≠ .eMulti ∧ m.values key ≠ []) := fun m hm hh =>
      hfound ⟨hh.1, (findValue_isSome_iff hown hm key).2 hh.2⟩
    rw [if_neg hfound]
    by_cases hno : mode = .eNoInsert
    · rw [if_pos hno]
      refine ⟨w, rfl, ?_⟩
      rw [modify_eq_self fun m hm => by rw [Multimap.insert, if_neg (hout m hm), if_pos hno]]
      exact hown.inv
    · rw [if_neg hno]
      refine hown.inv.modify hown.obj_eq hown.ptr_eq hcell rfl (hown.sound.insertValue key _) ?_ ?_ ?_ ?_ (Nat.le_succ _) ?_
      · rintro m hm
        rw [Multimap.insert, if_neg (hout m hm), if_neg hno]
        refine ⟨rfl, fun k => ?_⟩
        rw [values_insertValue hown.sound, hown.values_eq m hm]
        rfl
      · rintro id
        rw [count_ids_insertValue hown.sound]
        simp [List.count_cons]
      · rintro id hid
        rw [List.mem_singleton, LogEntry.made.injEq] at hid
        omega
      · rintro id
        exact List.count_le_length
      · exact readsOk_append_of_no_read hown.inv.reads (by simp)
/-- Nothing is unlinked under a key that has no value. -/
theorem unlinked_eq_nil {t : Table K (Entry V)} {key : K} (h : t.values key = []) {match_ : K × Entry V → Bool}
    (hm : ∀ e, match_ e = true → e.1 = key) (bAll : Bool) : t.unlinked key match_ bAll = [] := by
  apply unlinkLoop_of_no_match
  rintro e he
  by_contra hmatch
  have hkey := hm e (by simpa using hmatch)
  have hmem : e.2 ∈ valuesOf t.buckets key := mem_chainValues.2 (hkey ▸ he)
  rw [Table.values, List.map_eq_nil_iff] at h
  rw [h] at hmem
  cases hmem

theorem leftOf_true (bAll : Bool) (values : List V) : leftOf (fun _ => true) bAll values = if bAll then [] else values.tail := by
  cases bAll <;> cases values <;> simp [leftOf]

theorem Inv.remove (h : Inv w ms) (hi : i < ms.length) (key : K) (bAll : Bool) :
    ∃ w', w.remove i key bAll = some w' ∧ Inv w' (ms.modify i fun m => m.change key fun l => if bAll then [] else l.tail) := by
  rcases h.own hi with ⟨w, obj, a, t, hw, hown⟩
  unfold Tables.remove
  rw [hw, Option.bind_some]
  refine hown.removeImpl (q := fun _ => true) (by simp) List.map_eq_flatMap.symm (.inl rfl) ?_
  rintro m
  rw [show leftOf (fun _ => true) bAll = fun l : List V => if bAll then [] else l.tail from funext (leftOf_true bAll)]

theorem Inv.removeValue [DecidableEq V] (h : Inv w ms) (hi : i < ms.length) (key : K) (value : V) (bAll : Bool) :
    ∃ w', w.removeValue i key value bAll = some w' ∧
      Inv w' (ms.modify i fun m => m.change key fun l => if bAll then l.filter (· ≠ value) else l.erase value) := by
  rcases h.own hi with ⟨w, obj, a, t, hw, hown⟩
  have hleft : leftOf (fun v => decide (v = value)) bAll =
      fun l : List V => if bAll then l.filter (· ≠ value) else l.erase value := by
    funext l
    cases bAll
    · simp only [leftOf, List.erase_eq_eraseP']
      rfl
    · simp [leftOf]
  unfold Tables.removeValue
  rw [hw, Option.bind_some]
  refine hown.removeImpl (q := fun v => decide (v = value)) (by simp) List.map_eq_flatMap.symm (.inl rfl) ?_
  rintro m
  rw [hleft]

/-- `Take` of a key that has no value. -/
theorem Inv.take (h : Inv w ms) (hi : i < ms.length) {key : K} (hnone : ∀ m, ms[i]? = some m → m.values key = []) :
    ∃ w', w.take i key = some w' ∧ Inv w' (ms.modify i fun m => m.change key List.tail) := by
  rcases h.own hi with ⟨w, obj, a, t, hw, hown⟩
  have hm := List.getElem?_eq_getElem hi
  have hnil : t.unlinked key (fun e => decide (e.1 = key)) false = [] :=
    unlinked_eq_nil ((hown.values_eq _ hm key).trans (hnone _ hm)) (by simp) false
  unfold Tables.take
  rw [hw, Option.bind_some]
  apply hown.removeImpl (q := fun _ => true) (by simp) (by rw [hnil]; rfl) (.inr hnil)
  rintro m
  rw [show leftOf (fun _ => true) false = List.tail (α := V) from funext (leftOf_true false)]

/-- `Merge` of the entries of another table. -/
theorem Own.merge {obj : TableObj} {a : Nat} {own : Table K (Entry V)} (h : Own w ms i obj a own)
    (hclear : ∀ m, ms[i]? = some m → ∀ key, m.values key = []) {j : Nat} {other : Multimap K V} (hj : ms[j]? = some other)
    {t : Table K (Entry V)} (hdata : w.data j = some t) :
    ∃ w', w.modify i (fun own => own.merge t.toList w.nextId) (w.nextId + w.nextId)
        ((t.toList.map fun e => LogEntry.made (e.2.fresh w.nextId).id) ++ t.ids.map LogEntry.read) = some w' ∧
      Inv w' (ms.modify i fun m => { m with values := fun key => (other.values key).reverse }) := by
  rcases h.inv.data hj with ⟨t', hdata', hplaced, -, hvalues, hat⟩
  cases hdata.symm.trans hdata'
  have hcell := h.cell_eq
  have hfresh : (t.toList.map fun e => (e.2.fresh w.nextId).id) = t.ids.map (w.nextId + ·) := by
    rw [Table.ids, List.map_map]
    rfl
  have hcount : ∀ id, (t.ids.map (w.nextId + ·)).count id ≤ 1 ∧
      (id ∈ t.ids.map (w.nextId + ·) → w.nextId ≤ id ∧ id < w.nextId + w.nextId) := by
    rintro id
    rcases hat with rfl | ⟨b, c, hc, rfl⟩
    · exact ⟨Nat.zero_le 1, fun he => by cases he⟩
    · exact h.inv.count_fresh hc id
  have hlog : (t.toList.map fun e => LogEntry.made (e.2.fresh w.nextId).id) = (t.ids.map (w.nextId + ·)).map LogEntry.made := by
    rw [← hfresh, List.map_map]
    rfl
  have hmade : ∀ id, ((t.ids.map (w.nextId + ·)).map LogEntry.made ++ t.ids.map LogEntry.read).count (.made id) =
      (t.ids.map (w.nextId + ·)).count id := by
    rintro id
    rw [List.count_append, (count_map_made _ id).1, (count_map_read _ id).1, Nat.add_zero]
  rw [hlog]
  refine h.inv.modify h.obj_eq h.ptr_eq hcell rfl (.merge _ h.sound _) ?_ ?_ ?_ ?_ (Nat.le_add_right _ _) ?_
  · rintro m hm
    refine ⟨rfl, fun key => ?_⟩
    rw [values_merge key w.nextId _ h.sound, h.values_eq m hm, hclear m hm, List.append_nil, Table.toList,
      chainValues_flatten hplaced]
    exact congrArg List.reverse (hvalues key)
  · rintro id
    rw [count_ids_merge id w.nextId _ h.sound, hmade, hfresh, List.count_append, (count_map_made _ id).2, (count_map_read _ id).2]
    rfl
  · rintro id hid
    rw [List.mem_append, List.mem_map] at hid
    rcases hid with ⟨x, hx, hxe⟩ | hid
    · cases hxe
      exact (hcount id).2 hx
    · simp at hid
  · rintro id
    rw [hmade]
    exact (hcount id).1
  · rw [List.append_assoc]
    refine readsOk_append_of_no_read (readsOk_append h.inv.reads (by simp) ?_) (by simp)
    rintro id hid
    rcases List.mem_map.1 hid with ⟨x, hx, hxe⟩
    cases hxe
    rcases hat with rfl | ⟨b, c, hc, rfl⟩
    · cases hx
    · exact h.inv.not_destroyed hc hx

theorem Inv.assign (h : Inv w ms) (hi : i < ms.length) {j : Nat} {other : Multimap K V} (hj : ms[j]? = some other) :
    ∃ w', w.assign i j = some w' ∧ Inv w' (ms.modify i fun m => m.assign other) := by
  rcases h.obj hi with ⟨obj, hobj, -⟩
  rcases h.obj (List.getElem?_eq_some_iff.1 hj).1 with ⟨src, hsrc, -⟩
  have hsrcHolds := h.holds j src other hsrc hj
  unfold Tables.assign
  rw [hobj, Option.bind_some, hsrc, Option.bind_some]
  by_cases hsame : obj.ptr = src.ptr ∧ obj.pMem = src.pMem
  · rw [if_pos hsame]
    refine ⟨w, rfl, ?_⟩
    rw [modify_eq_self]
    · exact h
    · rintro m hm
      have hholds := h.holds i obj m hobj hm
      have hpool : m.pMem = other.pMem := by rw [← hholds.1, ← hsrcHolds.1, hsame.2]
      have hvalues : m.values = other.values := by
        have h₁ := hholds.2
        have h₂ := hsrcHolds.2
        rw [hsame.1] at h₁
        rcases hptr : src.ptr with _ | a
        · rw [hptr] at h₁ h₂
          funext key
          rw [h₁ key, h₂ key]
        · rw [hptr] at h₁ h₂
          rcases h₁ with ⟨c, hc, hv⟩
          rcases h₂ with ⟨c', hc', hv'⟩
          cases hc.symm.trans hc'
          funext key
          rw [← hv key, ← hv' key]
      rw [Multimap.assign, if_neg fun hne => hne.2 hpool]
      rcases m with ⟨pMem, values⟩
      rcases other with ⟨pMem', values'⟩
      simp only at hpool hvalues
      rw [hpool, hvalues]
  · have hij : j ≠ i := by
      rintro rfl
      cases hobj.symm.trans hsrc
      exact hsame ⟨rfl, rfl⟩
    have hpool : ∀ m, ms[i]? = some m → m.pMem = obj.pMem := fun m hm => ((h.holds i obj m hobj hm).1).symm
    rcases h.detachData hobj with ⟨w₁, hw₁, hobjs, hinv⟩
    have hj₁ : (ms.modify i fun m => { m with values := fun _ => [] })[j]? = some other := by
      rw [List.getElem?_modify_ne _ _ (Ne.symm hij)]
      exact hj
    have hclear : ∀ m, (ms.modify i fun m => { m with values := fun _ => [] })[i]? = some m → ∀ key, m.values key = [] := by
      rintro m hm key
      simp only [List.getElem?_modify, if_pos, List.getElem?_eq_getElem hi, Option.map_eq_map, Option.map_some,
        Option.some.injEq] at hm
      rw [← hm]
    rw [if_neg hsame]
    by_cases hdiff : obj.pMem ≠ none ∧ obj.pMem ≠ src.pMem
    · -- the entries are copied into the pool of the table
      rw [if_pos hdiff, hw₁, Option.bind_some]
      rcases hinv.own (by rw [List.length_modify]; exact hi) with ⟨w₂, obj₂, a, own, hw₂, hown⟩
      rw [hw₂, Option.bind_some]
      rcases hown.inv.data hj₁ with ⟨t, hdata, -⟩
      rw [hdata, Option.bind_some]
      rcases hown.merge hclear hj₁ hdata with ⟨w₃, hw₃, hinv₃⟩
      refine ⟨w₃, hw₃, ?_⟩
      rw [List.modify_modify_eq] at hinv₃
      rw [modify_congr]
      · exact hinv₃
      · rintro m hm
        rw [Multimap.assign, if_pos]
        · rfl
        · rw [hpool m hm, ← hsrcHolds.1]
          exact hdiff
    · rw [if_neg hdiff, hw₁, Option.bind_some]
      have hobj₁ : w₁.objs[i]? = some { obj with ptr := none } := by
        rw [hobjs, List.getElem?_set_self (List.getElem?_eq_some_iff.1 hobj).1]
      have hsrc₁ : w₁.objs[j]? = some src := by
        rw [hobjs, List.getElem?_set_ne (Ne.symm hij)]
        exact hsrc
      rcases hinv.attachData hobj₁ rfl hsrc₁ hj₁ with ⟨w₂, hw₂, hinv₂⟩
      refine ⟨w₂, hw₂, ?_⟩
      rw [List.modify_modify_eq] at hinv₂
      rw [modify_congr]
      · exact hinv₂
      · rintro m hm
        rw [Multimap.assign, if_neg]
        · rfl
        · rw [hpool m hm, ← hsrcHolds.1]
          exact hdiff

/-! ## Removals that are not counted -/

theorem Inv.refines (h : Inv w ms) : Refines w ms := by
  refine ⟨fun i m hm => ?_, h.once, h.reads⟩
  rcases h.data hm with ⟨t, hdata, hplaced, hcount, hvalues, -⟩
  refine ⟨t, hdata, hcount, fun key => ?_, fun key index => ?_⟩
  · rw [Table.toList, chainValues_flatten hplaced]
    exact hvalues key
  · rw [← List.getElem?_map]
    exact congrArg (·[index]?) (hvalues key)

theorem Inv.new (h : Inv w ms) (pMem : Option Nat) :
    Inv { w with objs := w.objs ++ [⟨pMem, none⟩] } (ms ++ [⟨pMem, fun _ => []⟩]) := by
  refine ⟨?_, h.sound, by simp [h.length_eq], ?_, h.once, h.fresh, h.reads⟩
  · have hb : Balanced w.heap (⟨pMem, none⟩ :: w.objs) := (balanced_none rfl).2 h.balanced
    exact hb.perm (List.perm_append_singleton _ _).symm
  · rintro j obj m hobj hm
    rw [List.getElem?_append] at hobj hm
    rw [h.length_eq] at hobj
    split at hobj
    · rename_i hlt
      rw [if_pos hlt] at hm
      exact h.holds j obj m hobj hm
    · rename_i hlt
      rw [if_neg hlt] at hm
      rw [List.getElem?_singleton] at hobj hm
      split at hobj
      · rename_i h0
        rw [if_pos h0] at hm
        cases hobj
        cases hm
        exact ⟨rfl, fun _ => rfl⟩
      · cases hobj

theorem Inv.not_destroyed_of_data (h : Inv w ms) {m : Multimap K V} (hm : ms[i]? = some m) {t : Table K (Entry V)}
    (hdata : w.data i = some t) {id : Nat} (hid : id ∈ t.ids) : .destroyed id ∉ w.log := by
  rcases h.data hm with ⟨t', hdata', -, -, -, hat⟩
  cases hdata.symm.trans hdata'
  rcases hat with rfl | ⟨a, c, hc, rfl⟩
  · cases hid
  · exact h.not_destroyed hc hid

/-- Reading changes nothing but the log. -/
theorem Inv.read (h : Inv w ms) {ids : List Nat} (hids : ∀ id ∈ ids, .destroyed id ∉ w.log) :
    Inv { w with log := ids.map LogEntry.read ++ w.log } ms := by
  refine ⟨h.balanced, h.sound, h.length_eq, h.holds, fun id => ?_, fun id hid hm => ?_, ?_⟩
  · have hread := count_map_read ids id
    rw [List.count_append, List.count_append, hread.1, hread.2, Nat.zero_add, Nat.zero_add]
    exact h.once id
  · rcases List.mem_append.1 hm with hm | hm
    · simp at hm
    · exact h.fresh id hid hm
  · refine readsOk_append h.reads (by simp) fun id hm => ?_
    rcases List.mem_map.1 hm with ⟨x, hx, hxe⟩
    rw [← LogEntry.read.inj hxe]
    exact hids x hx

section Runs
variable [DecidableEq V]

/-- The tables a call names exist. -/
def Named (ms : List (Multimap K V)) : Op K V → Prop
  | .new _ => True
  | .insert i _ _ _ | .remove i _ _ | .removeValue i _ _ _ | .take i _ | .erase i _ _ | .find i _ _ | .walk i
  | .makeExclusive i | .clear i => i < ms.length
  | .assign i j => i < ms.length ∧ j < ms.length

/-- A `Take` of a key that is there, or an `erase` of an iterator that stands on an entry. -/
def Hits (ms : List (Multimap K V)) : Op K V → Prop
  | .take i key => ∃ m, ms[i]? = some m ∧ m.values key ≠ []
  | .erase i key index => ∃ m, ms[i]? = some m ∧ index < (m.values key).length
  | _ => False

/-- In every state of a run the tables are the multimaps. -/
def AllRefine (w : Tables K V) (ms : List (Multimap K V)) : List (Op K V) → Prop
  | [] => Refines w ms
  | op :: ops => Refines w ms ∧ ∃ w', w.step op = some w' ∧ AllRefine w' (Multimap.step ms op) ops

/-- A call that hits nothing is the call on the multimaps. -/
theorem Inv.step (h : Inv w ms) {op : Op K V} (hnamed : Named ms op) (hhits : ¬ Hits ms op) :
    ∃ w', w.step op = some w' ∧ Inv w' (Multimap.step ms op) := by
  cases op with
  | new pMem => exact ⟨_, rfl, h.new pMem⟩
  | insert i key value mode => exact h.insert hnamed key value mode
  | remove i key bAll => exact h.remove hnamed key bAll
  | removeValue i key value bAll => exact h.removeValue hnamed key value bAll
  | take i key => exact h.take hnamed fun m hm => by_contra fun hne => hhits ⟨m, hm, hne⟩
  | erase i key index =>
    rcases (⟨_, List.getElem?_eq_getElem hnamed⟩ : ∃ m, ms[i]? = some m) with ⟨m, hm⟩
    rcases h.data hm with ⟨t, hdata, -, -, hvalues, -⟩
    have hle : (m.values key).length ≤ index := by
      by_contra hlt
      exact hhits ⟨m, hm, by omega⟩
    have hlen := congrArg List.length (hvalues key)
    rw [Table.values, List.length_map] at hlen
    refine ⟨w, ?_, ?_⟩
    · rw [Tables.step, Tables.erase, hdata, Option.bind_some, if_pos (by omega)]
    · rw [Multimap.step, modify_eq_self]
      · exact h
      · rintro m' hm'
        cases hm.symm.trans hm'
        exact Multimap.change_eq_self (List.eraseIdx_of_length_le hle)
  | find i key index =>
    have hm := List.getElem?_eq_getElem hnamed
    rcases h.data hm with ⟨t, hdata, hplaced, -⟩
    refine ⟨_, by rw [Tables.step, Tables.find, hdata, Option.map_some], ?_⟩
    have hmap : ((valuesOf t.buckets key)[index]?.toList.map fun entry => LogEntry.read entry.id) =
        ((valuesOf t.buckets key)[index]?.toList.map Entry.id).map LogEntry.read := by
      rw [List.map_map]
      rfl
    rw [hmap]
    refine h.read fun id hid => h.not_destroyed_of_data hm hdata ?_
    rcases List.mem_map.1 hid with ⟨entry, hentry, rfl⟩
    rw [Option.mem_toList] at hentry
    have hmem := List.mem_of_getElem? hentry
    rw [← chainValues_flatten hplaced] at hmem
    exact List.mem_map_of_mem (mem_chainValues.1 hmem)
  | walk i =>
    have hm := List.getElem?_eq_getElem hnamed
    rcases h.data hm with ⟨t, hdata, -⟩
    refine ⟨_, by rw [Tables.step, Tables.walk, hdata, Option.map_some], ?_⟩
    exact h.read fun id hid => h.not_destroyed_of_data hm hdata hid
  | makeExclusive i =>
    rcases h.obj hnamed with ⟨obj, hobj, -⟩
    rw [Tables.step, hobj, Option.bind_some]
    by_cases hnone : obj.ptr = none
    · rw [if_pos hnone]
      exact ⟨w, rfl, h⟩
    · rw [if_neg hnone]
      rcases h.own hnamed with ⟨w', obj', a, t, hw', hown⟩
      exact ⟨w', hw', hown.inv⟩
  | assign i j =>
    have hj := List.getElem?_eq_getElem hnamed.2
    rw [Multimap.step, hj]
    exact h.assign hnamed.1 hj
  | clear i =>
    rcases h.obj hnamed with ⟨obj, hobj, -⟩
    rcases h.detachData hobj with ⟨w', hw', -, hinv⟩
    exact ⟨w', hw', hinv⟩

theorem AllRefine.head {ops : List (Op K V)} (h : AllRefine w ms ops) : Refines w ms := by
  cases ops with
  | nil => exact h
  | cons op ops => exact h.1

end Runs

end Tables

end MajorPrivacy.Core

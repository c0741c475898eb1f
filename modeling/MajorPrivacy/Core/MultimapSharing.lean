/-
Tables that share their data: what holds of them between any two calls, and that letting go of data,
taking it over, copying it and changing it keep that so.
-/
import Mathlib.Data.List.Count
import MajorPrivacy.Core.MultimapSteps

namespace MajorPrivacy.Core

open RefHeap

namespace Tables

variable {K V : Type}

/-! ## The law -/

/-- The entries that exist. -/
def live (heap : Heap (Table K (Entry V))) : List Nat := heap.flatMap fun o => o.elim [] fun c => c.body.ids

/-- No entry is read after it was destroyed; the last event stands first. -/
def ReadsOk : List LogEntry → Prop
  | [] => True
  | e :: older => (∀ id, e = .read id → .destroyed id ∉ older) ∧ ReadsOk older

/-- Every entry that was made, and no other, exists or was destroyed once. -/
def DestroyedOnce (w : Tables K V) : Prop :=
  ∀ id, (live w.heap).count id + w.log.count (.destroyed id) = w.log.count (.made id) ∧ w.log.count (.made id) ≤ 1

section Law
variable [Hasher K] [DecidableEq K]

/-- The tables are the multimaps: in what they count, in what a walk meets and in what a look-up finds;
and values are destroyed once and not read afterwards. -/
structure Refines (w : Tables K V) (ms : List (Multimap K V)) : Prop where
  tables : ∀ (i : Nat) m, ms[i]? = some m → ∃ t, w.data i = some t ∧ t.count = t.toList.length ∧
    (∀ key, (chainValues key t.toList).map Entry.value = m.values key) ∧
    ∀ key (index : Nat), ((valuesOf t.buckets key)[index]?).map Entry.value = (m.values key)[index]?
  once : DestroyedOnce w
  reads : ReadsOk w.log

/-! ## The invariant -/

/-- What an object points at is what its multimap says. -/
def Holds (heap : Heap (Table K (Entry V))) (obj : TableObj) (m : Multimap K V) : Prop :=
  obj.pMem = m.pMem ∧
    match obj.ptr with
    | none => ∀ key, m.values key = []
    | some a => ∃ c, heap.get a = some c ∧ ∀ key, c.body.values key = m.values key

structure Inv (w : Tables K V) (ms : List (Multimap K V)) : Prop where
  balanced : Balanced w.heap w.objs
  sound : ∀ a c, w.heap.get a = some c → Sound c.body
  length_eq : w.objs.length = ms.length
  holds : ∀ (i : Nat) obj m, w.objs[i]? = some obj → ms[i]? = some m → Holds w.heap obj m
  once : DestroyedOnce w
  fresh : ∀ id, w.nextId ≤ id → .made id ∉ w.log
  reads : ReadsOk w.log

end Law

/-! ### The log -/

section Counts
variable (ids : List Nat) (id : Nat)

theorem count_map_made : (ids.map LogEntry.made).count (.made id) = ids.count id ∧
    (ids.map LogEntry.made).count (.destroyed id) = 0 :=
  ⟨List.count_map_of_injective _ _ (fun _ _ he => LogEntry.made.inj he) id, List.count_eq_zero.2 (by simp)⟩

theorem count_map_read : (ids.map LogEntry.read).count (.made id) = 0 ∧ (ids.map LogEntry.read).count (.destroyed id) = 0 :=
  ⟨List.count_eq_zero.2 (by simp), List.count_eq_zero.2 (by simp)⟩

theorem count_map_destroyed : (ids.map LogEntry.destroyed).count (.made id) = 0 ∧
    (ids.map LogEntry.destroyed).count (.destroyed id) = ids.count id :=
  ⟨List.count_eq_zero.2 (by simp), List.count_map_of_injective _ _ (fun _ _ he => LogEntry.destroyed.inj he) id⟩

end Counts

theorem readsOk_append {log : List LogEntry} (h : ReadsOk log) : ∀ {new : List LogEntry},
    (∀ id, .destroyed id ∉ new) → (∀ id, .read id ∈ new → .destroyed id ∉ log) → ReadsOk (new ++ log)
  | [], _, _ => h
  | e :: new, hd, hr => by
    refine ⟨?_, readsOk_append h (fun id he => hd id (List.mem_cons_of_mem _ he)) fun id he => hr id (List.mem_cons_of_mem _ he)⟩
    rintro id rfl he
    rcases List.mem_append.1 he with he | he
    · exact hd id (List.mem_cons_of_mem _ he)
    · exact hr id List.mem_cons_self he

theorem readsOk_append_of_no_read {log : List LogEntry} (h : ReadsOk log) : ∀ {new : List LogEntry},
    (∀ id, .read id ∉ new) → ReadsOk (new ++ log)
  | [], _ => h
  | e :: new, hr => by
    refine ⟨?_, readsOk_append_of_no_read h fun id he => hr id (List.mem_cons_of_mem _ he)⟩
    rintro id rfl
    exact absurd List.mem_cons_self (hr id)

/-! ### The entries that exist -/

theorem count_live_set {heap : Heap (Table K (Entry V))} {a : Nat} {c : Cell (Table K (Entry V))}
    (hc : heap.get a = some c) (o : Option (Cell (Table K (Entry V)))) (id : Nat) :
    (live (heap.set a o)).count id + c.body.ids.count id =
      (live heap).count id + (o.elim [] fun c => c.body.ids).count id := by
  have h := sum_map_set (fun o => (o.elim [] fun c : Cell (Table K (Entry V)) => c.body.ids).count id) o
    (Heap.getElem?_of_get hc)
  unfold live
  simp only [List.count_flatMap, Function.comp_def]
  simpa using h

theorem count_live_alloc (heap : Heap (Table K (Entry V))) (body : Table K (Entry V)) (id : Nat) :
    (live (heap.alloc body)).count id = (live heap).count id + body.ids.count id := by
  simp [live, Heap.alloc]

theorem mem_live {heap : Heap (Table K (Entry V))} {a : Nat} {c : Cell (Table K (Entry V))} (hc : heap.get a = some c)
    {id : Nat} (h : id ∈ c.body.ids) : id ∈ live heap := by
  unfold live
  rw [List.mem_flatMap]
  exact ⟨some c, List.mem_of_getElem? (Heap.getElem?_of_get hc), h⟩

theorem count_le_live {heap : Heap (Table K (Entry V))} {a : Nat} {c : Cell (Table K (Entry V))}
    (hc : heap.get a = some c) (id : Nat) : c.body.ids.count id ≤ (live heap).count id := by
  have hset := count_live_set hc none id
  simp only [Option.elim_none, List.count_nil] at hset
  omega

/-! ### Sharing -/

theorem release_one {heap : Heap (Table K (Entry V))} {obj : TableObj} {a : Nat} {c : Cell (Table K (Entry V))}
    (ha : obj.ptr = some a) (hc : heap.get a = some c) :
    release heap [obj] = some (heap.set a (if c.refs = 1 then none else some { c with refs := c.refs - 1 })) := by
  have haddr : Layout.addr (Table K (Entry V)) obj = some a := ha
  have hnil : Layout.elements c.body = ([] : List TableObj) := rfl
  unfold release
  rw [List.length_singleton, releaseLoop, haddr]
  simp only [hc, hnil, List.nil_append]
  split <;> rw [releaseLoop]

theorem share_one {heap : Heap (Table K (Entry V))} {obj : TableObj} {a : Nat} {c : Cell (Table K (Entry V))}
    (ha : obj.ptr = some a) (hc : heap.get a = some c) :
    share heap obj = some (heap.set a (some { c with refs := c.refs + 1 })) := by
  have haddr : Layout.addr (Table K (Entry V)) obj = some a := ha
  rw [share, haddr]
  simp only [hc, Option.map_some]

section Holders
variable {heap : Heap (Table K (Entry V))} {objs : List TableObj} {i : Nat} {obj : TableObj}

theorem perm_eraseIdx (hi : objs[i]? = some obj) : objs.Perm (obj :: objs.eraseIdx i) := by
  rcases List.getElem?_eq_some_iff.1 hi with ⟨hlt, rfl⟩
  exact (List.getElem_cons_eraseIdx_perm hlt).symm

theorem perm_set (hi : objs[i]? = some obj) (obj' : TableObj) : (objs.set i obj').Perm (obj' :: objs.eraseIdx i) := by
  rcases List.getElem?_eq_some_iff.1 hi with ⟨hlt, -⟩
  exact List.set_perm_cons_eraseIdx hlt obj'

/-- Data with one holder is no other object's. -/
theorem ptr_ne (hb : Balanced heap objs) (hi : objs[i]? = some obj) {a : Nat} (ha : obj.ptr = some a)
    {c : Cell (Table K (Entry V))} (hc : heap.get a = some c) (h1 : c.refs = 1) {j : Nat} (hj : j ≠ i) {obj' : TableObj}
    (hobj' : objs[j]? = some obj') : obj'.ptr ≠ some a := by
  have hu := (hb.perm (perm_eraseIdx hi)).unique ha hc h1
  apply hu.1 obj'
  rw [List.mem_eraseIdx_iff_getElem?]
  exact ⟨j, hj, hobj'⟩

/-- What is left of a heap when an object lets go of its data is what it was. -/
theorem keep_of_keeps {heap' : Heap (Table K (Entry V))} (hk : Keeps heap heap')
    (hb : Balanced heap' (objs.eraseIdx i)) {j : Nat} {other : TableObj} (hj : j ≠ i) (hother : objs[j]? = some other)
    {a : Nat} {c : Cell (Table K (Entry V))} (ha : other.ptr = some a) (hc : heap.get a = some c) :
    ∃ c', heap'.get a = some c' ∧ c'.body = c.body := by
  have hmem : other ∈ objs.eraseIdx i := List.mem_eraseIdx_iff_getElem?.2 ⟨j, hj, hother⟩
  rcases hb.live_root hmem ha with ⟨c', hc'⟩
  rcases hk a c' hc' with ⟨c₀, hc₀, hbody⟩
  cases hc.symm.trans hc₀
  exact ⟨c', hc', hbody⟩

theorem balanced_none (hobj : obj.ptr = none) :
    Balanced heap (obj :: objs) ↔ Balanced heap objs := by
  have haddr : Layout.addr (Table K (Entry V)) obj = none := hobj
  have hheld : ∀ a, held heap (obj :: objs) a = held heap objs a := by
    rintro a
    unfold held
    rw [holders_cons, haddr]
    simp
  constructor
  · rintro ⟨hr, hp⟩
    exact ⟨fun a => (hr a).trans (hheld a), hp⟩
  · rintro ⟨hr, hp⟩
    exact ⟨fun a => (hr a).trans (hheld a).symm, hp⟩

end Holders

/-! ## The parts of a call -/

section Parts
variable [Hasher K] [DecidableEq K] {w : Tables K V} {ms : List (Multimap K V)} {i : Nat}

theorem Inv.obj (h : Inv w ms) (hi : i < ms.length) : ∃ obj, w.objs[i]? = some obj ∧
    ∀ a, obj.ptr = some a → ∃ c, w.heap.get a = some c := by
  rw [← h.length_eq] at hi
  refine ⟨w.objs[i], List.getElem?_eq_getElem hi, fun a ha => ?_⟩
  exact h.balanced.live_root (List.getElem_mem hi) ha

/-- Entries that exist were not destroyed. -/
theorem Inv.not_destroyed (h : Inv w ms) {a : Nat} {c : Cell (Table K (Entry V))} (hc : w.heap.get a = some c) {id : Nat}
    (hid : id ∈ c.body.ids) : .destroyed id ∉ w.log := by
  have hlive := List.count_pos_iff.2 (mem_live hc hid)
  have honce := h.once id
  rw [← List.count_eq_zero]
  omega

theorem Inv.id_lt (h : Inv w ms) {a : Nat} {c : Cell (Table K (Entry V))} (hc : w.heap.get a = some c) {id : Nat}
    (hid : id ∈ c.body.ids) : id < w.nextId := by
  have hlive := List.count_pos_iff.2 (mem_live hc hid)
  have honce := h.once id
  have hmade : .made id ∈ w.log := by
    rw [← List.count_pos_iff]
    omega
  by_contra hge
  exact h.fresh id (by omega) hmade

/-- The numbers a copy of the data gets: unused ones, none of them twice. -/
theorem Inv.count_fresh (h : Inv w ms) {a : Nat} {c : Cell (Table K (Entry V))} (hc : w.heap.get a = some c) (id : Nat) :
    (c.body.ids.map (w.nextId + ·)).count id ≤ 1 ∧
      (id ∈ c.body.ids.map (w.nextId + ·) → w.nextId ≤ id ∧ id < w.nextId + w.nextId) := by
  by_cases hm : id ∈ c.body.ids.map (w.nextId + ·)
  · rcases List.mem_map.1 hm with ⟨x, hx, rfl⟩
    have hlt := h.id_lt hc hx
    have hle := count_le_live hc x
    have honce := h.once x
    have hinj : Function.Injective (w.nextId + ·) := fun x y hxy => by
      simp only at hxy
      omega
    rw [List.count_map_of_injective _ _ hinj]
    exact ⟨by omega, fun _ => by omega⟩
  · rw [List.count_eq_zero.2 hm]
    exact ⟨Nat.zero_le 1, fun he => absurd he hm⟩

theorem Holds.congr {heap heap' : Heap (Table K (Entry V))} {obj : TableObj} {m : Multimap K V}
    (hk : ∀ a c, obj.ptr = some a → heap.get a = some c → ∃ c', heap'.get a = some c' ∧ c'.body = c.body)
    (h : Holds heap obj m) : Holds heap' obj m := by
  refine ⟨h.1, ?_⟩
  have hval := h.2
  rcases hptr : obj.ptr with _ | a
  · rw [hptr] at hval
    exact hval
  · rw [hptr] at hval
    rcases hval with ⟨c, hc, hv⟩
    rcases hk a c hptr hc with ⟨c', hc', hbody⟩
    exact ⟨c', hc', by rw [hbody]; exact hv⟩

/-- A call changes one table: what it points at, and the data there. -/
theorem Inv.of_set (h : Inv w ms) {obj obj' : TableObj} (hobj : w.objs[i]? = some obj) {heap : Heap (Table K (Entry V))}
    {nextId : Nat} {log : List LogEntry} {g : Multimap K V → Multimap K V}
    (hbal : Balanced heap (obj' :: w.objs.eraseIdx i)) (hsound : ∀ a c, heap.get a = some c → Sound c.body)
    (hkeep : ∀ j other, j ≠ i → w.objs[j]? = some other → ∀ a c, other.ptr = some a → w.heap.get a = some c →
      ∃ c', heap.get a = some c' ∧ c'.body = c.body)
    (hholds : ∀ m, ms[i]? = some m → Holds heap obj' (g m))
    (honce : ∀ id, (live heap).count id + log.count (.destroyed id) = log.count (.made id) ∧ log.count (.made id) ≤ 1)
    (hfresh : ∀ id, nextId ≤ id → .made id ∉ log) (hreads : ReadsOk log) :
    Inv ⟨w.objs.set i obj', heap, nextId, log⟩ (ms.modify i g) := by
  refine ⟨hbal.perm (perm_set hobj obj').symm, hsound, ?_, ?_, honce, hfresh, hreads⟩
  · rw [List.length_set, List.length_modify]
    exact h.length_eq
  · rintro j other m' hother hm'
    rw [List.getElem?_modify] at hm'
    rcases hm : ms[j]? with _ | m
    · rw [hm] at hm'
      cases hm'
    simp only [hm, Option.map_eq_map, Option.map_some, Option.some.injEq] at hm'
    by_cases hij : i = j
    · subst hij
      rw [if_pos rfl] at hm'
      subst hm'
      rw [List.getElem?_set_self (List.getElem?_eq_some_iff.1 hobj).1] at hother
      cases hother
      exact hholds m hm
    · rw [if_neg hij] at hm'
      subst hm'
      rw [List.getElem?_set_ne hij] at hother
      exact (h.holds j other m hother hm).congr (hkeep j other (Ne.symm hij) hother)

/-- A call changes data that no other table holds. -/
theorem Inv.modify (h : Inv w ms) {obj : TableObj} (hobj : w.objs[i]? = some obj) {a : Nat} (ha : obj.ptr = some a)
    {c : Cell (Table K (Entry V))} (hc : w.heap.get a = some c) (h1 : c.refs = 1)
    {f : Table K (Entry V) → Table K (Entry V)} {g : Multimap K V → Multimap K V} {nextId : Nat} {log : List LogEntry}
    (hs : Sound (f c.body)) (hg : ∀ m, ms[i]? = some m → (g m).pMem = m.pMem ∧ ∀ key, (f c.body).values key = (g m).values key)
    (hids : ∀ id, (f c.body).ids.count id + log.count (.destroyed id) = c.body.ids.count id + log.count (.made id))
    (hmade : ∀ id, .made id ∈ log → w.nextId ≤ id ∧ id < nextId) (hnodup : ∀ id, log.count (.made id) ≤ 1)
    (hnext : w.nextId ≤ nextId) (hreads : ReadsOk (log ++ w.log)) :
    ∃ w', w.modify i f nextId log = some w' ∧ Inv w' (ms.modify i g) := by
  have hlt := Heap.lt_length_of_get hc
  refine ⟨⟨w.objs.set i obj, w.heap.set a (some { c with body := f c.body }), nextId, log ++ w.log⟩, ?_, ?_⟩
  · rw [Tables.modify, hobj, Option.bind_some, ha, Option.bind_some, hc, Option.map_some]
    rcases List.getElem?_eq_some_iff.1 hobj with ⟨hlt, rfl⟩
    rw [List.set_getElem_self]
  refine h.of_set hobj ?_ ?_ ?_ ?_ ?_ ?_ hreads
  · -- no data gains or loses a holder
    have hb : Balanced w.heap ([] ++ obj :: w.objs.eraseIdx i) := h.balanced.perm (perm_eraseIdx hobj)
    have hnone : (Layout.elements c.body ++ []).Perm (Layout.elements (f c.body) ++ ([] : List TableObj)) := .refl _
    exact hb.exchange hc hnone
  · rintro b c' hc'
    rw [Heap.get_set hlt] at hc'
    split at hc'
    · cases hc'
      exact hs
    · exact h.sound b c' hc'
  · rintro j other hj hother b c' hb hc'
    have hne := ptr_ne h.balanced hobj ha hc h1 hj hother
    refine ⟨c', ?_, rfl⟩
    rw [Heap.get_set hlt, if_neg fun he => hne (hb.trans (congrArg some he))]
    exact hc'
  · rintro m hm
    rcases hg m hm with ⟨hp, hv⟩
    refine ⟨(h.holds i obj m hobj hm).1.trans hp.symm, ?_⟩
    simp only [ha]
    exact ⟨_, by rw [Heap.get_set hlt, if_pos rfl], hv⟩
  · rintro id
    have hset := count_live_set hc (some { c with body := f c.body }) id
    have honce := h.once id
    have hid := hids id
    have hnd := hnodup id
    simp only [Option.elim_some] at hset
    rw [List.count_append, List.count_append]
    refine ⟨by omega, ?_⟩
    by_cases hm : LogEntry.made id ∈ log
    · have hzero : w.log.count (.made id) = 0 := List.count_eq_zero.2 (h.fresh id (hmade id hm).1)
      omega
    · rw [List.count_eq_zero.2 hm, Nat.zero_add]
      exact honce.2
  · rintro id hid hm
    rcases List.mem_append.1 hm with hm | hm
    · have := (hmade id hm).2
      omega
    · exact h.fresh id (by omega) hm

/-! ### Sharing the data -/

/-- `DetachData`: the object is left without entries, and what nobody holds any more is destroyed. -/
theorem Inv.detachData (h : Inv w ms) {obj : TableObj} (hobj : w.objs[i]? = some obj) :
    ∃ w', w.detachData i = some w' ∧ w'.objs = w.objs.set i { obj with ptr := none } ∧
      Inv w' (ms.modify i fun m => { m with values := fun _ => [] }) := by
  rcases hptr : obj.ptr with _ | a
  · refine ⟨w, ?_, ?_, ?_⟩
    · rw [Tables.detachData, hobj, Option.bind_some, hptr]
    · rcases List.getElem?_eq_some_iff.1 hobj with ⟨hlt, rfl⟩
      rw [← hptr, List.set_getElem_self]
    · have hset : w = ⟨w.objs.set i obj, w.heap, w.nextId, w.log⟩ := by
        rcases List.getElem?_eq_some_iff.1 hobj with ⟨hlt, rfl⟩
        rw [List.set_getElem_self]
      rw [hset]
      refine h.of_set hobj (h.balanced.perm (perm_eraseIdx hobj)) h.sound (fun j other _ _ b c _ hc => ⟨c, hc, rfl⟩) ?_
        h.once h.fresh h.reads
      rintro m hm
      refine ⟨(h.holds i obj m hobj hm).1, ?_⟩
      rw [hptr]
      exact fun _ => rfl
  · rcases h.balanced.live_root (List.mem_of_getElem? hobj) hptr with ⟨c, hc⟩
    have hlt := Heap.lt_length_of_get hc
    have hrel := release_one hptr hc
    rcases release_spec (show Balanced w.heap ([obj] ++ w.objs.eraseIdx i) from h.balanced.perm (perm_eraseIdx hobj)) with ⟨heap, hrel', hb, hk, hlen⟩
    rw [hrel] at hrel'
    refine ⟨⟨w.objs.set i { obj with ptr := none }, heap, w.nextId,
      if c.refs = 1 then c.body.ids.map LogEntry.destroyed ++ w.log else w.log⟩, ?_, rfl, ?_⟩
    · rw [Tables.detachData, hobj, Option.bind_some, hptr]
      simp only [hc, Option.bind_some, hrel, hrel', Option.map_some]
    cases hrel'
    refine h.of_set hobj ((balanced_none rfl).2 hb) ?_ (fun j other hj hother b c' hb' hc' => keep_of_keeps hk hb hj hother hb' hc')
      ?_ ?_ ?_ ?_
    · rintro b c' hc'
      rcases hk b c' hc' with ⟨c₀, hc₀, hbody⟩
      rw [hbody]
      exact h.sound b c₀ hc₀
    · rintro m hm
      exact ⟨(h.holds i obj m hobj hm).1, fun _ => rfl⟩
    · rintro id
      have hset := count_live_set hc (if c.refs = 1 then none else some { c with refs := c.refs - 1 }) id
      have honce := h.once id
      by_cases h1 : c.refs = 1
      · simp only [if_pos h1, Option.elim_none, List.count_nil] at hset ⊢
        rw [List.count_append, List.count_append]
        have hlog := count_map_destroyed c.body.ids id
        omega
      · simp only [if_neg h1, Option.elim_some] at hset ⊢
        omega
    · rintro id hid hm
      apply h.fresh id hid
      split at hm
      · rcases List.mem_append.1 hm with hm | hm
        · simp at hm
        · exact hm
      · exact hm
    · split
      · exact readsOk_append_of_no_read h.reads (by simp)
      · exact h.reads

/-- `AttachData` of an object that has let go of its data: it has the data of another one, and its pool. -/
theorem Inv.attachData (h : Inv w ms) {obj other : TableObj} (hobj : w.objs[i]? = some obj) (hnone : obj.ptr = none) {j : Nat}
    (hother : w.objs[j]? = some other) {m : Multimap K V} (hm : ms[j]? = some m) :
    ∃ w', w.attachData i other.pMem other = some w' ∧ Inv w' (ms.modify i fun _ => m) := by
  have hholds := h.holds j other m hother hm
  have hrest := (balanced_none hnone).1 (h.balanced.perm (perm_eraseIdx hobj))
  have hlive : ∀ a, Layout.addr (Table K (Entry V)) other = some a → ∃ c, w.heap.get a = some c := fun a ha =>
    h.balanced.live_root (List.mem_of_getElem? hother) ha
  rcases share_spec (w := other) hrest hlive rfl with ⟨heap, hshare, hb, hk, hk', hlen⟩
  refine ⟨_, by rw [Tables.attachData, hshare, Option.map_some], ?_⟩
  refine h.of_set hobj hb ?_ (fun j other _ _ a c _ hc => ?_) (fun _ _ => hholds.congr fun a c _ hc => ?_) ?_ h.fresh h.reads
  · rintro a c hc
    rcases hk a c hc with ⟨c₀, hc₀, hbody⟩
    rw [hbody]
    exact h.sound a c₀ hc₀
  · rcases hk' a c hc with ⟨c', hc', hbody⟩
    exact ⟨c', hc', hbody.symm⟩
  · rcases hk' a c hc with ⟨c', hc', hbody⟩
    exact ⟨c', hc', hbody.symm⟩
  · rintro id
    have honce := h.once id
    rcases hptr : other.ptr with _ | a
    · have haddr : Layout.addr (Table K (Entry V)) other = none := hptr
      rw [share, haddr] at hshare
      cases hshare
      exact honce
    · rcases hlive a hptr with ⟨c, hc⟩
      rw [share_one hptr hc] at hshare
      cases hshare
      have hset := count_live_set hc (some { c with refs := c.refs + 1 }) id
      simp only [Option.elim_some] at hset
      omega

/-- `MakeExclusive`: the same entries, and no other table holds them. -/
theorem Inv.makeExclusive (h : Inv w ms) {obj : TableObj} (hobj : w.objs[i]? = some obj) :
    ∃ w' obj' a c, w.makeExclusive i = some w' ∧ Inv w' ms ∧ w'.objs[i]? = some obj' ∧ obj'.ptr = some a ∧
      w'.heap.get a = some c ∧ c.refs = 1 ∧ ∀ j, j ≠ i → w'.objs[j]? = w.objs[j]? := by
  have hid : ms.modify i id = ms := List.modify_id _ _
  rcases hptr : obj.ptr with _ | a
  · -- the first bucket
    refine ⟨_, { obj with ptr := some w.heap.length }, w.heap.length, ⟨1, Table.makeExclusive .empty⟩,
      by rw [Tables.makeExclusive, hobj, Option.bind_some, hptr], ?_, ?_, rfl, ?_, rfl, ?_⟩
    · rw [← hid]
      have hb := (balanced_none hptr).1 (h.balanced.perm (perm_eraseIdx hobj))
      refine h.of_set hobj (Balanced.alloc hb rfl) ?_ ?_ ?_ ?_ h.fresh h.reads
      · rintro b c hc
        rw [Heap.get_alloc] at hc
        split at hc
        · cases hc
          exact sound_first
        · exact h.sound b c hc
      · rintro j other hj hother b c hb hc
        refine ⟨c, ?_, rfl⟩
        rw [Heap.get_alloc, if_neg (Nat.ne_of_lt (Heap.lt_length_of_get hc))]
        exact hc
      · rintro m hm
        have hold := h.holds i obj m hobj hm
        refine ⟨hold.1, ⟨1, Table.makeExclusive .empty⟩, by rw [Heap.get_alloc, if_pos rfl], ?_⟩
        have hval := hold.2
        rw [hptr] at hval
        rintro key
        rw [id, hval key]
        exact values_first key
      · rintro id
        rw [count_live_alloc]
        exact h.once id
    · rw [List.getElem?_set_self (List.getElem?_eq_some_iff.1 hobj).1]
    · rw [Heap.get_alloc, if_pos rfl]
    · rintro j hj
      rw [List.getElem?_set_ne (Ne.symm hj)]
  · rcases h.balanced.live_root (List.mem_of_getElem? hobj) hptr with ⟨c, hc⟩
    have hlt := Heap.lt_length_of_get hc
    have hpos := h.balanced.pos a c hc
    by_cases h1 : c.refs > 1
    · -- a copy, whose entries have numbers of their own
      have hrest : Balanced w.heap ([obj] ++ w.objs.eraseIdx i) := h.balanced.perm (perm_eraseIdx hobj)
      have hget : (w.heap.alloc (c.body.cloned w.nextId)).get a = some c := by
        rw [Heap.get_alloc, if_neg (Nat.ne_of_lt hlt)]
        exact hc
      have hne : c.refs ≠ 1 := by omega
      have hset : (w.heap.alloc (c.body.cloned w.nextId)).set a (some { c with refs := c.refs - 1 }) =
          Heap.alloc (w.heap.set a (some { c with refs := c.refs - 1 })) (c.body.cloned w.nextId) := by
        unfold Heap.alloc
        exact List.set_append_left _ _ hlt
      rcases release_spec hrest with ⟨heap, hrel, hb, hk, hlen⟩
      rw [release_one hptr hc, if_neg hne, Option.some.injEq] at hrel
      have hids := ids_cloned (h.sound a c hc).placed w.nextId
      refine ⟨⟨w.objs.set i { obj with ptr := some w.heap.length }, heap.alloc (c.body.cloned w.nextId), w.nextId + w.nextId,
          (c.body.cloned w.nextId).ids.map LogEntry.made ++ c.body.ids.map LogEntry.read ++ w.log⟩,
        { obj with ptr := some w.heap.length }, w.heap.length, ⟨1, c.body.cloned w.nextId⟩, ?_, ?_, ?_, rfl, ?_, rfl, ?_⟩
      · rw [Tables.makeExclusive, hobj, Option.bind_some, hptr]
        simp only [hc, Option.bind_some]
        rw [if_pos h1]
        unfold Tables.detachData
        simp only [hobj, hptr, Option.bind_some, hget, release_one hptr hget, if_neg hne, Option.map_some, List.set_set, hset, hrel]
      · rw [← hid]
        refine h.of_set hobj (Balanced.alloc hb (by rw [hlen]; rfl)) ?_ ?_ ?_ ?_ ?_ ?_
        · rintro b c' hc'
          rw [Heap.get_alloc] at hc'
          split at hc'
          · cases hc'
            exact (h.sound a c hc).cloned w.nextId
          · rcases hk b c' hc' with ⟨c₀, hc₀, hbody⟩
            rw [hbody]
            exact h.sound b c₀ hc₀
        · rintro j other hj hother b c' hb' hc'
          rcases keep_of_keeps hk hb hj hother hb' hc' with ⟨c₀, hc₀, hbody⟩
          refine ⟨c₀, ?_, hbody⟩
          rw [Heap.get_alloc, if_neg (Nat.ne_of_lt (Heap.lt_length_of_get hc₀))]
          exact hc₀
        · rintro m hm
          have hold := h.holds i obj m hobj hm
          refine ⟨hold.1, ⟨1, c.body.cloned w.nextId⟩, by rw [Heap.get_alloc, hlen, if_pos rfl], ?_⟩
          have hval := hold.2
          rw [hptr] at hval
          rcases hval with ⟨c₀, hc₀, hv⟩
          cases hc.symm.trans hc₀
          rintro key
          rw [values_cloned (h.sound a c hc).placed]
          exact hv key
        · rintro id
          have hlive := count_live_set hc (some { c with refs := c.refs - 1 }) id
          have honce := h.once id
          have hfresh := h.count_fresh hc id
          have hmade := count_map_made (c.body.cloned w.nextId).ids id
          have hread := count_map_read c.body.ids id
          rw [hrel] at hlive
          simp only [Option.elim_some] at hlive
          rw [count_live_alloc, List.count_append, List.count_append, List.count_append, List.count_append, hmade.1, hmade.2,
            hread.1, hread.2, hids]
          refine ⟨by omega, ?_⟩
          by_cases hm : id ∈ c.body.ids.map (w.nextId + ·)
          · have hzero : w.log.count (.made id) = 0 := List.count_eq_zero.2 (h.fresh id (hfresh.2 hm).1)
            omega
          · rw [List.count_eq_zero.2 hm]
            omega
        · rintro id hid' hm
          rw [List.append_assoc] at hm
          rcases List.mem_append.1 hm with hm | hm
          · rcases List.mem_map.1 hm with ⟨x, hx, hxe⟩
            cases hxe
            rw [hids] at hx
            have := ((h.count_fresh hc id).2 hx).2
            omega
          · rcases List.mem_append.1 hm with hm | hm
            · simp at hm
            · exact h.fresh id (by omega) hm
        · rw [List.append_assoc]
          refine readsOk_append_of_no_read (readsOk_append h.reads (by simp) ?_) (by simp)
          rintro id hm
          rcases List.mem_map.1 hm with ⟨x, hx, hxe⟩
          cases hxe
          exact h.not_destroyed hc hx
      · rw [List.getElem?_set_self (List.getElem?_eq_some_iff.1 hobj).1]
      · rw [Heap.get_alloc, hlen, if_pos rfl]
      · rintro j hj
        rw [List.getElem?_set_ne (Ne.symm hj)]
    · refine ⟨w, obj, a, c, ?_, h, hobj, hptr, hc, by omega, fun _ _ => rfl⟩
      rw [Tables.makeExclusive, hobj, Option.bind_some, hptr]
      simp only [hc, Option.bind_some]
      rw [if_neg h1]

end Parts

end Tables

end MajorPrivacy.Core

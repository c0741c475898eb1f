/-
Runs of programs over list variants. The world of a program shows its sequences, and each operation
that meets its condition takes it to one that shows what the operation makes of them; an operation
that does not goes wrong. So a program runs on lists as on sequences just where all of them do.
-/
import MajorPrivacy.Variant.Sequences

namespace MajorPrivacy.Variant.ListBlock

open ObjectArray
open ListVariant (Answer Result)

/-! ## Worlds -/

section At
variable {α : Type} {l : List (Option α)} {k j : Nat} {x : α} {y : Option α}

theorem at?_eq_some : at? l k = some x ↔ l[k]? = some (some x) := by
  unfold at?
  cases l[k]? <;> simp

theorem lt_of_at? (h : at? l k = some x) : k < l.length := (List.getElem?_eq_some_iff.1 (at?_eq_some.1 h)).1

theorem at?_set (h : k < l.length) : at? (l.set k y) j = if j = k then y else at? l j := by
  unfold at?
  rw [List.getElem?_set]
  by_cases hj : k = j
  · subst hj
    rw [if_pos rfl, if_pos h, if_pos rfl]
    rfl
  · rw [if_neg hj, if_neg (Ne.symm hj)]

theorem set_at? (h : at? l k = some x) : l.set k (some x) = l := by
  rcases List.getElem?_eq_some_iff.1 (at?_eq_some.1 h) with ⟨hlt, hget⟩
  rw [← hget]
  exact List.set_getElem_self hlt

theorem at?_snoc : at? (l ++ [y]) k = if k = l.length then y else at? l k := by
  unfold at?
  rcases Nat.lt_trichotomy k l.length with h | h | h
  · rw [List.getElem?_append_left h, if_neg (by omega)]
  · subst h
    rw [List.getElem?_concat_length, if_pos rfl]
    rfl
  · rw [List.getElem?_eq_none (by simp; omega), if_neg (by omega), List.getElem?_eq_none (by omega)]

theorem sum_set (f : Option α → Nat) {l : List (Option α)} {k : Nat} {x y : Option α} (h : l[k]? = some x) :
    ((l.set k y).map f).sum + f x = (l.map f).sum + f y := by
  induction l generalizing k with
  | nil => cases h
  | cons z l ih =>
    cases k with
    | zero =>
      cases h
      simp only [List.set_cons_zero, List.map_cons, List.sum_cons]
      omega
    | succ k =>
      have := ih h
      simp only [List.set_cons_succ, List.map_cons, List.sum_cons]
      omega

end At

/-- How often a number stands for an element of one of the lists. -/
def World.living (w : World) (id : Nat) : Nat := (w.lists.map fun v => ObjectArray.living (objectsOf v) id).sum

/-- Each element that was made was destroyed once, or is in one place of one list. -/
def World.Accounted (w : World) : Prop := ∀ id, w.m.gone id + w.living id = if id < w.m.made then 1 else 0

/-- The lists stand for the sequences. -/
def World.Shows (w : World) (ss : Seqs) : Prop := w.lists.length = ss.length ∧ ∀ k, Agree (at? w.lists k) (at? ss k)

section Worlds
variable {w : World} {ss : Seqs} {k : Nat} {v : ListVariant} {s : Seq}

theorem World.Shows.at_some (h : w.Shows ss) (hk : at? w.lists k = some v) : ∃ s, at? ss k = some s ∧ Rep v s := by
  have hagree := h.2 k
  rw [hk] at hagree
  cases hs : at? ss k with
  | none =>
    rw [hs] at hagree
    exact hagree.elim
  | some s =>
    rw [hs] at hagree
    exact ⟨s, rfl, hagree⟩

theorem World.Shows.at_none (h : w.Shows ss) (hk : at? w.lists k = none) : at? ss k = none := by
  have hagree := h.2 k
  rw [hk] at hagree
  cases hs : at? ss k with
  | none => rfl
  | some s =>
    rw [hs] at hagree
    exact hagree.elim

theorem World.Shows.set (h : w.Shows ss) (hk : k < w.lists.length) {v : Option ListVariant} {s : Option Seq}
    (hagree : Agree v s) (m : Ledger) : World.Shows ⟨w.lists.set k v, m⟩ (ss.set k s) := by
  refine ⟨by rw [List.length_set, List.length_set]; exact h.1, fun j => ?_⟩
  rw [at?_set hk, at?_set (by rw [← h.1]; exact hk)]
  split_ifs
  · exact hagree
  · exact h.2 j

theorem World.Shows.snoc (h : w.Shows ss) {s : Seq} (hrep : Rep v s) (m : Ledger) :
    World.Shows ⟨w.lists ++ [some v], m⟩ (ss ++ [some s]) := by
  refine ⟨by rw [List.length_append, List.length_append, h.1]; rfl, fun j => ?_⟩
  rw [at?_snoc, at?_snoc, h.1]
  split_ifs
  · exact hrep
  · exact h.2 j

theorem World.Accounted.set (h : w.Accounted) (hk : at? w.lists k = some v) {v' : Option ListVariant} {m : Ledger}
    (htraded : Traded w.m v.objects m (objectsOf v')) : World.Accounted ⟨w.lists.set k v', m⟩ := by
  intro id
  have hsum := sum_set (fun v => ObjectArray.living (objectsOf v) id) (y := v') (at?_eq_some.1 hk)
  have hcount := htraded.count_eq id
  have hold := h id
  have hle := htraded.made_le
  unfold World.living at hold ⊢
  simp only [objectsOf] at hsum hcount hold ⊢
  split_ifs at hcount hold ⊢ <;> omega

theorem World.Accounted.snoc (h : w.Accounted) {m : Ledger} (htraded : Traded w.m [] m v.objects) :
    World.Accounted ⟨w.lists ++ [some v], m⟩ := by
  intro id
  have hcount := htraded.count_eq id
  have hold := h id
  have hle := htraded.made_le
  have hempty : ObjectArray.living ([] : List (Object Content)) id = 0 := rfl
  have hsnoc : World.living ⟨w.lists ++ [some v], m⟩ id = w.living id + ObjectArray.living v.objects id := by
    rw [World.living, List.map_append, List.sum_append, List.map_singleton, List.sum_singleton]
    rfl
  rw [hsnoc]
  show m.gone id + _ = if id < m.made then 1 else 0
  split_ifs at hcount hold ⊢ <;> omega

/-- The world shows the sequences, with all elements accounted for. -/
structure Sees (w : World) (ss : Seqs) : Prop where
  shown : w.Shows ss
  accounted : w.Accounted

theorem Sees.empty : Sees World.empty [] := by
  refine ⟨⟨rfl, fun k => trivial⟩, fun id => ?_⟩
  exact (if_neg (Nat.not_lt_zero id)).symm

theorem Sees.onList (h : Sees w ss) {c : ListVariant → Ledger → Except Misuse Result} {s' : Option Seq} {r : Answer → Prop}
    (hk : at? w.lists k = some v) (hserves : Serves c v s' r) :
    ∃ w' a, w.onList k c = .ok (w', a) ∧ Sees w' (ss.set k s') ∧ r a := by
  rcases hserves w.m with ⟨v', m', a, hcall, hagree, htraded, hright⟩
  refine ⟨⟨w.lists.set k v', m'⟩, a, ?_, ⟨h.shown.set (lt_of_at? hk) hagree m', h.accounted.set hk htraded⟩, hright⟩
  rw [World.onList, hk]
  simp only [hcall, ok_bind]

theorem onList_none {call : ListVariant → Ledger → Except Misuse Result} (hk : at? w.lists k = none) :
    w.onList k call = .ok (w, .done) := by
  rw [World.onList, hk]

theorem onList_fails {call : ListVariant → Ledger → Except Misuse Result} {right : Answer → Prop} (hk : at? w.lists k = some v)
    (hfails : Fails call v right) : (∃ f, w.onList k call = .error f) ∨ ∃ w' a, w.onList k call = .ok (w', a) ∧ ¬ right a := by
  rcases hfails w.m with ⟨f, hf⟩ | ⟨⟨v', m', a⟩, hcall, hnot⟩
  · left
    refine ⟨f, ?_⟩
    rw [World.onList, hk]
    simp only [hf, error_bind]
  · right
    refine ⟨⟨w.lists.set k v', m'⟩, a, ?_, hnot⟩
    rw [World.onList, hk]
    simp only [hcall, ok_bind]

/-! ## Steps -/

/-- What an operation does when it does what it does to the sequences. -/
def Goes (w : World) (ss : Seqs) (op : Op) : Prop :=
  ∃ w' a, w.step op = .ok (w', a) ∧ Sees w' (ss.step op) ∧ ss.Right op a

/-- An operation goes wrong, or its answer is not right. -/
def GoesWrong (w : World) (ss : Seqs) (op : Op) : Prop :=
  (∃ f, w.step op = .error f) ∨ ∃ w' a, w.step op = .ok (w', a) ∧ ¬ ss.Right op a

theorem update_some (hk : at? ss k = some s) (f : Seq → Seq) : ss.update k f = ss.set k (some (f s)) := by
  rw [Seqs.update, hk]
  rfl

theorem update_none (hk : at? ss k = none) (f : Seq → Seq) : ss.update k f = ss := by
  rw [Seqs.update, hk]
  apply List.ext_getElem?
  intro j
  rw [List.getElem?_set]
  split_ifs with hj hlt
  · subst hj
    have hget : ss[k]? = some ss[k] := List.getElem?_eq_getElem hlt
    rw [at?, hget] at hk
    rw [hget]
    exact congrArg some hk.symm
  · subst hj
    exact (List.getElem?_eq_none (by omega)).symm
  · rfl

/-- A call on a list, which may not be there. -/
theorem Sees.change (h : Sees w ss) {c : ListVariant → Ledger → Except Misuse Result} {f : Seq → Seq} {r : Seq → Answer → Prop}
    (hserves : ∀ v s, at? w.lists k = some v → at? ss k = some s → Rep v s → Serves c v (some (f s)) (r s)) :
    ∃ w' a, w.onList k c = .ok (w', a) ∧ Sees w' (ss.update k f) ∧ ∀ s, at? ss k = some s → r s a := by
  cases hk : at? w.lists k with
  | none =>
    have hs := h.shown.at_none hk
    refine ⟨w, .done, onList_none hk, ?_, fun s hs' => ?_⟩
    · rw [update_none hs]
      exact h
    · rw [hs] at hs'
      cases hs'
  | some v =>
    rcases h.shown.at_some hk with ⟨s, hs, hrep⟩
    rcases h.onList hk (hserves v s hk hs hrep) with ⟨w', a, hcall, hsees, hright⟩
    refine ⟨w', a, hcall, ?_, fun s' hs' => ?_⟩
    · rw [update_some hs]
      exact hsees
    · rw [hs] at hs'
      cases hs'
      exact hright

/-- A call that does not change the sequence. -/
theorem Sees.query (h : Sees w ss) {c : ListVariant → Ledger → Except Misuse Result} {r : Seq → Answer → Prop}
    (hserves : ∀ v s, at? w.lists k = some v → Rep v s → Serves c v (some s) (r s)) :
    ∃ w' a, w.onList k c = .ok (w', a) ∧ Sees w' ss ∧ ∀ s, at? ss k = some s → r s a := by
  have hsame : ss.update k id = ss := by
    cases hs : at? ss k with
    | none => exact update_none hs id
    | some s => rw [update_some hs, id, set_at? hs]
  rcases h.change (f := id) fun v s hk _ hrep => hserves v s hk hrep with ⟨w', a, hcall, hsees, hright⟩
  rw [hsame] at hsees
  exact ⟨w', a, hcall, hsees, hright⟩

theorem Rep.append_same (h : Rep v s) (hro : v.bReadOnly = true) (u : Content) : s.append u = s := by
  rw [Seq.append, h.bReadOnly_eq, hro]
  rfl

theorem Sees.append (h : Sees w ss) {p : Source} {u : Content}
    (hmeets : ∀ v, at? w.lists k = some v → v.bReadOnly = false → v.Opens ∧ v.Grows ∧
      ∀ s, at? ss k = some s → p.Made v s u) :
    ∃ w' a, w.onList k (ListVariant.append p) = .ok (w', a) ∧ Sees w' (ss.update k (.append u)) ∧
      ∀ s, at? ss k = some s → s.Changed a := by
  apply h.change
  intro v s hk hs hrep
  cases hro : v.bReadOnly with
  | false =>
    rcases hmeets v hk hro with ⟨hopens, hgrows, hmade⟩
    exact hrep.append hro hopens hgrows (hmade s hs)
  | true =>
    rw [hrep.append_same hro]
    exact hrep.refuses hro fun m => if_pos hro

theorem Sees.new (h : Sees w ss) {v : ListVariant} {s : Seq} (hrep : Rep v s) {m : Ledger} (htraded : Traded w.m [] m v.objects) :
    Sees (w.new v m).1 (ss ++ [some s]) :=
  ⟨h.shown.snoc hrep m, h.accounted.snoc htraded⟩

theorem Sees.appendSelf (h : Sees w ss) (hmeets : w.Meets (.appendSelf k)) : Goes w ss (.appendSelf k) := by
  apply h.change
  intro v s hk _ hrep
  rw [hrep.append_same (hmeets v hk)]
  exact hrep.refuses (hmeets v hk) fun m => if_pos (hmeets v hk)

theorem Sees.remove (h : Sees w ss) {i : UInt32} (hmeets : w.Meets (.remove k i)) : Goes w ss (.remove k i) := by
  apply h.change (r := fun s a => s.Changed a ∨ s.bReadOnly = false ∧ s.items = [] ∧ a = .error .eErrIsEmpty)
  intro v s hk _ hrep
  cases hro : v.bReadOnly with
  | false =>
    rcases hmeets v hk hro with ⟨hopens, hi⟩
    exact hrep.remove hro hopens hi
  | true =>
    have hsame : s.remove i = s := by
      rw [Seq.remove, if_pos (.inl (hrep.bReadOnly_eq.trans hro))]
    rw [hsame]
    intro m
    rcases hrep.refuses hro (c := ListVariant.remove i) (fun m => if_pos hro) m with ⟨v', m', a, hcall, hagree, htraded, hchanged⟩
    exact ⟨v', m', a, hcall, hagree, htraded, .inl hchanged⟩

theorem Sees.clone (h : Sees w ss) (k : Nat) (full : Bool) : Goes w ss (.clone k full) := by
  cases hk : at? w.lists k with
  | none =>
    have hstep : w.step (.clone k full) = .ok (w, .done) := by
      rw [World.step, hk]
    refine ⟨w, .done, hstep, ?_, rfl⟩
    rw [Seqs.step, h.shown.at_none hk]
    exact h
  | some v =>
    rcases h.shown.at_some hk with ⟨s, hs, hrep⟩
    rcases hrep.clone full w.m with ⟨v', m', hclone, hrep', htraded⟩
    have hstep : w.step (.clone k full) = .ok (w.new v' m') := by
      rw [World.step, hk]
      simp only [hclone, ok_bind]
    refine ⟨_, _, hstep, ?_, rfl⟩
    rw [Seqs.step, hs]
    exact h.new hrep' htraded

theorem Sees.unfreeze (h : Sees w ss) (k : Nat) : Goes w ss (.unfreeze k) := by
  cases hk : at? w.lists k with
  | none =>
    refine ⟨w, .done, onList_none hk, ?_, rfl⟩
    rw [Seqs.step, update_none (h.shown.at_none hk)]
    exact h
  | some v =>
    rcases h.shown.at_some hk with ⟨s, hs, hrep⟩
    rcases h.onList hk hrep.unfreeze with ⟨w', a, hcall, hsees, hright⟩
    refine ⟨w', a, hcall, ?_, hright⟩
    rw [Seqs.step, update_some hs]
    exact hsees

theorem Sees.destroy (h : Sees w ss) (k : Nat) : Goes w ss (.destroy k) := by
  cases hk : at? w.lists k with
  | none =>
    refine ⟨w, .done, onList_none hk, ?_, rfl⟩
    have hsame := update_none (h.shown.at_none hk) id
    rw [Seqs.update, h.shown.at_none hk] at hsame
    rw [Seqs.step]
    exact hsame.symm ▸ h
  | some v =>
    rcases h.shown.at_some hk with ⟨s, hs, hrep⟩
    exact h.onList hk hrep.destroy

theorem step_goes (h : Sees w ss) {op : Op} (hmeets : w.Meets op) : Goes w ss op := by
  cases op with
  | create => exact ⟨_, _, rfl, h.new (v := .raw false ⟨[], [], rfl⟩) ⟨rfl, rfl, .inr rfl⟩ Traded.rfl, rfl⟩
  | parse payload => exact ⟨_, _, rfl, h.new (v := .raw true payload) ⟨rfl, rfl, .inl rfl⟩ Traded.rfl, rfl⟩
  | append k u => exact h.append fun v hk hro => ⟨(hmeets v hk hro).1, (hmeets v hk hro).2, fun _ _ => rfl⟩
  | appendElement k j i =>
    cases hj : at? w.lists j with
    | none =>
      have hs := h.shown.at_none hj
      have hstep : w.step (.appendElement k j i) = .ok (w, .done) := by
        rw [World.step, onList_none hj]
        rfl
      refine ⟨w, .done, hstep, ?_, fun s v hk hv => ?_⟩
      · rw [Seqs.step, hs]
        exact h
      · rw [hs] at hv
        cases hv
    | some u =>
      rcases hmeets u hj with ⟨hopens, hmeets⟩
      rcases h.shown.at_some hj with ⟨s, hs, hrep⟩
      rcases hrep.ptrAt hopens i w.m with ⟨v', m', a, hcall, hagree, htraded, rfl⟩
      rcases hrep.ptrAt_same hopens hcall with ⟨u', rfl, hro, hlength, hcapacity, hopens'⟩
      have hlt := lt_of_at? hj
      have hptr : w.onList j (ListVariant.ptrAt i) = .ok (⟨w.lists.set j (some u'), m'⟩, .element s.items[i.toNat]?) := by
        rw [World.onList, hj]
        simp only [hcall, ok_bind]
      have hsees : Sees ⟨w.lists.set j (some u'), m'⟩ ss := by
        have hshows := h.shown.set hlt hagree m'
        rw [set_at? hs] at hshows
        exact ⟨hshows, h.accounted.set hj htraded⟩
      cases hitem : s.items[i.toNat]? with
      | none =>
        have hstep : w.step (.appendElement k j i) = .ok (⟨w.lists.set j (some u'), m'⟩, .done) := by
          rw [World.step, hptr, hitem]
          rfl
        refine ⟨_, _, hstep, ?_, fun t v hk hv => ?_⟩
        · rw [Seqs.step, hs, Option.bind_some, hitem]
          exact hsees
        · rw [hs, Option.bind_some, hitem] at hv
          cases hv
      | some x =>
        have hi : i.toNat < u.length := by
          rw [hrep.length_eq]
          exact (List.getElem?_eq_some_iff.1 hitem).1
        rcases hsees.append (k := k) (p := if j = k then .inside i.toNat else .outside x) (u := x) (fun v hk hvro => by
          dsimp only at hk
          rw [at?_set hlt] at hk
          by_cases hkj : j = k
          · subst hkj
            rw [if_pos rfl] at hk
            cases hk
            rcases hmeets hi u hj (hro ▸ hvro) with ⟨-, hgrows, hroom⟩
            refine ⟨hopens', ?_, fun t ht => ?_⟩
            · rw [ListVariant.Grows, hlength, hcapacity]
              exact hgrows
            · rw [hs] at ht
              cases ht
              rw [if_pos rfl, Source.Made, hlength, hcapacity]
              exact ⟨hroom rfl, hitem⟩
          · rw [if_neg (Ne.symm hkj)] at hk
            rcases hmeets hi v hk hvro with ⟨hvopens, hgrows, -⟩
            refine ⟨hvopens, hgrows, fun t ht => ?_⟩
            rw [if_neg hkj]
            rfl) with ⟨w', a, happend, hsees', hchanged⟩
        refine ⟨w', a, ?_, ?_, fun t v hk hv => hchanged t hk⟩
        · rw [World.step, hptr, hitem]
          exact happend
        · rw [Seqs.step, hs, Option.bind_some, hitem]
          exact hsees'
  | appendSelf k => exact h.appendSelf hmeets
  | remove k i => exact h.remove hmeets
  | ptrAt k i =>
    exact h.query (r := fun s a => a = .element s.items[i.toNat]?) fun v s hk hrep => hrep.ptrAt (hmeets v hk) i
  | count k =>
    exact h.query (r := fun s a => a = .count s.items.length) fun v s hk hrep => hrep.count (hmeets v hk)
  | clone k full => exact h.clone k full
  | mkPayload k =>
    exact h.query (r := fun s a => ∃ b, a = .payload b ∧ s.Writes b) fun v s hk hrep => hrep.mkPayload (hmeets v hk)
  | unfreeze k => exact h.unfreeze k
  | destroy k => exact h.destroy k

/-- A call that opens a list it cannot open. -/
theorem onList_fault {c : ListVariant → Ledger → Except Misuse Result} (hk : at? w.lists k = some v)
    (hc : ∀ m, ∃ f, c v m = .error f) : ∃ f, w.onList k c = .error f := by
  rcases hc w.m with ⟨f, hf⟩
  refine ⟨f, ?_⟩
  rw [World.onList, hk]
  simp only [hf, error_bind]

theorem ptrAt_fault (hnot : ¬ v.Opens) (i : UInt32) (m : Ledger) : ∃ f, v.ptrAt i m = .error f := by
  rcases getList_fault (m := m) hnot false with ⟨f, hf⟩
  exact ⟨f, by rw [ListVariant.ptrAt, hf]; rfl⟩

theorem count_fault (hnot : ¬ v.Opens) (m : Ledger) : ∃ f, v.count m = .error f := by
  rcases getList_fault (m := m) hnot false with ⟨f, hf⟩
  exact ⟨f, by rw [ListVariant.count, hf]; rfl⟩

theorem Sees.appendElement_wrong (h : Sees w ss) {j : Nat} {i : UInt32} (hnot : ¬ w.Meets (.appendElement k j i)) :
    GoesWrong w ss (.appendElement k j i) := by
  rw [World.Meets] at hnot
  push Not at hnot
  rcases hnot with ⟨u, hj, hnot⟩
  by_cases hopens : u.Opens
  · rcases hnot hopens with ⟨hi, v, hk, hro, hwrong⟩
    rcases h.shown.at_some hj with ⟨s, hs, hrep⟩
    rcases hrep.ptrAt hopens i w.m with ⟨v', m', a, hcall, hagree, -, rfl⟩
    rcases hrep.ptrAt_same hopens hcall with ⟨u', rfl, hro', hlength, hcapacity, hopens'⟩
    have hlt := lt_of_at? hj
    have hptr : w.onList j (ListVariant.ptrAt i) = .ok (⟨w.lists.set j (some u'), m'⟩, .element s.items[i.toNat]?) := by
      rw [World.onList, hj]
      simp only [hcall, ok_bind]
    rw [hrep.length_eq] at hi
    have hitem : s.items[i.toNat]? = some s.items[i.toNat] := List.getElem?_eq_getElem hi
    have hfails : ∃ v₁, at? (w.lists.set j (some u')) k = some v₁ ∧
        Fails (ListVariant.append (if j = k then .inside i.toNat else .outside s.items[i.toNat])) v₁
          (ss.Right (.appendElement k j i)) := by
      by_cases hkj : j = k
      · subst hkj
        cases hj.symm.trans hk
        refine ⟨u', by rw [at?_set hlt, if_pos rfl], ?_⟩
        have hrep' : Rep u' s := hagree
        apply hrep'.append_fails (hro'.trans hro)
        rintro ⟨-, hgrows, hroom⟩
        rw [ListVariant.Grows, hlength, hcapacity] at hgrows
        rw [if_pos rfl, hlength, hcapacity] at hroom
        exact absurd (hroom _ rfl) (Nat.not_lt.2 (hwrong hopens hgrows).2)
      · refine ⟨v, by rw [at?_set hlt, if_neg (Ne.symm hkj)]; exact hk, ?_⟩
        rcases h.shown.at_some hk with ⟨t, -, hrep'⟩
        apply hrep'.append_fails hro
        rintro ⟨hvopens, hgrows, -⟩
        exact hkj (hwrong hvopens hgrows).1
    rcases hfails with ⟨v₁, hk₁, hfails⟩
    have hstep : w.step (.appendElement k j i) = World.onList ⟨w.lists.set j (some u'), m'⟩ k
        (ListVariant.append (if j = k then .inside i.toNat else .outside s.items[i.toNat])) := by
      rw [World.step, hptr, hitem]
      rfl
    rw [GoesWrong, hstep]
    exact onList_fails hk₁ hfails
  · left
    rcases onList_fault (c := ListVariant.ptrAt i) hj (ptrAt_fault hopens i) with ⟨f, hf⟩
    refine ⟨f, ?_⟩
    rw [World.step, hf]
    rfl

theorem step_wrong (h : Sees w ss) {op : Op} (hnot : ¬ w.Meets op) : GoesWrong w ss op := by
  cases op with
  | create => exact absurd trivial hnot
  | parse payload => exact absurd trivial hnot
  | append k u =>
    rw [World.Meets] at hnot
    push Not at hnot
    rcases hnot with ⟨v, hk, hro, hwrong⟩
    rcases h.shown.at_some hk with ⟨s, -, hrep⟩
    have hfails : Fails (ListVariant.append (.outside u)) v (ss.Right (.append k u)) := by
      apply hrep.append_fails hro
      rintro ⟨hopens, hgrows, -⟩
      exact hwrong hopens hgrows
    exact onList_fails hk hfails
  | appendElement k j i => exact h.appendElement_wrong hnot
  | appendSelf k =>
    rw [World.Meets] at hnot
    push Not at hnot
    rcases hnot with ⟨v, hk, hro⟩
    exact .inl (onList_fault hk fun m => ⟨.cyclic, if_neg hro⟩)
  | remove k i =>
    rw [World.Meets] at hnot
    push Not at hnot
    rcases hnot with ⟨v, hk, hro, hwrong⟩
    rcases h.shown.at_some hk with ⟨s, -, hrep⟩
    have hfails : Fails (ListVariant.remove i) v (ss.Right (.remove k i)) := by
      apply hrep.remove_fails hro
      rintro ⟨hopens, hi⟩
      exact absurd hi (Nat.not_le.2 (hwrong hopens))
    exact onList_fails hk hfails
  | ptrAt k i =>
    rw [World.Meets] at hnot
    push Not at hnot
    rcases hnot with ⟨v, hk, hopens⟩
    exact .inl (onList_fault hk (ptrAt_fault hopens i))
  | count k =>
    rw [World.Meets] at hnot
    push Not at hnot
    rcases hnot with ⟨v, hk, hopens⟩
    exact .inl (onList_fault hk (count_fault hopens))
  | clone k full => exact absurd trivial hnot
  | mkPayload k =>
    rw [World.Meets] at hnot
    push Not at hnot
    rcases hnot with ⟨v, hk, hspoilt⟩
    rcases h.shown.at_some hk with ⟨s, hs, hrep⟩
    rcases onList_fails hk (hrep.mkPayload_fails hspoilt) with hfault | ⟨w', a, hcall, hwrong⟩
    · exact .inl hfault
    · exact .inr ⟨w', a, hcall, fun hright => hwrong (hright s hs)⟩
  | unfreeze k => exact absurd trivial hnot
  | destroy k => exact absurd trivial hnot

/-! ## Runs -/

/-- The blocks have room for the elements that are in them. -/
def World.WithinCapacity (w : World) : Prop :=
  ∀ k parsed pList, at? w.lists k = some (.container parsed pList) → pList.count ≤ pList.capacity ∧ pList.data.length = pList.capacity

theorem Sees.withinCapacity (h : Sees w ss) : w.WithinCapacity := by
  intro k parsed pList hk
  rcases h.shown.at_some hk with ⟨s, -, hrep⟩
  exact ⟨hrep.1.count_le, hrep.1.holds.length⟩

/-- The program runs on the lists as it would on sequences: every answer is right, and it ends with lists
that stand for the sequences, within their capacities, and with all elements accounted for. -/
def Behaves (w : World) (ss : Seqs) (ops : List Op) : Prop :=
  ∃ w' answers, w.run ops = .ok (w', answers) ∧ ss.AllRight ops answers ∧ w'.Shows (ss.run ops) ∧ w'.Accounted ∧
    w'.WithinCapacity

theorem run_cons {op : Op} {ops : List Op} {w' : World} {answers : List Answer} (h : w.run (op :: ops) = .ok (w', answers)) :
    ∃ w₁ a rest, w.step op = .ok (w₁, a) ∧ World.run w₁ ops = .ok (w', rest) ∧ answers = a :: rest := by
  rw [World.run] at h
  cases hstep : w.step op with
  | error f =>
    rw [hstep] at h
    cases h
  | ok r =>
    rcases r with ⟨w₁, a⟩
    rw [hstep, ok_bind] at h
    simp only at h
    cases hrest : World.run w₁ ops with
    | error f =>
      rw [hrest] at h
      cases h
    | ok r =>
      rw [hrest] at h
      cases h
      exact ⟨w₁, a, r.2, rfl, hrest, rfl⟩

theorem Sees.behaves : ∀ {ops : List Op} {w : World} {ss : Seqs}, Sees w ss → (Behaves w ss ops ↔ w.MeetsAll ops)
  | [], w, ss, h => by
    constructor
    · exact fun _ => trivial
    · exact fun _ => ⟨w, [], rfl, trivial, h.shown, h.accounted, h.withinCapacity⟩
  | op :: ops, w, ss, h => by
    constructor
    · rintro ⟨w', answers, hrun, hright, hends⟩
      rcases run_cons hrun with ⟨w₁, a, rest, hstep, hrest, rfl⟩
      by_cases hmeets : w.Meets op
      · refine ⟨hmeets, fun w₂ a₂ hstep₂ => ?_⟩
        cases hstep.symm.trans hstep₂
        rcases step_goes h hmeets with ⟨w₂, a₂, hstep₂, hsees, -⟩
        cases hstep.symm.trans hstep₂
        exact (Sees.behaves hsees).1 ⟨w', rest, hrest, hright.2, hends⟩
      · rcases step_wrong h hmeets with ⟨f, hf⟩ | ⟨w₂, a₂, hstep₂, hwrong⟩
        · cases hstep.symm.trans hf
        · cases hstep.symm.trans hstep₂
          exact absurd hright.1 hwrong
    · rintro ⟨hmeets, hall⟩
      rcases step_goes h hmeets with ⟨w₁, a, hstep, hsees, hright⟩
      rcases (Sees.behaves hsees).2 (hall w₁ a hstep) with ⟨w', answers, hrun, hrights, hends⟩
      refine ⟨w', a :: answers, ?_, ⟨hright, hrights⟩, hends⟩
      rw [World.run, hstep, ok_bind]
      simp only [hrun, ok_bind]

end Worlds

/-- A program runs on list variants as on sequences just where each of its operations meets its condition. -/
theorem behaves_iff (ops : List Op) : Behaves World.empty [] ops ↔ World.empty.MeetsAll ops := Sees.empty.behaves

/-- The removal of the one element of a list destroys a second one that is not there. -/
theorem not_behaves : ¬ ∀ ops, Behaves World.empty [] ops := by
  intro h
  rcases h [.create, .append 0 (.flat varTypeUInt false [1]), .remove 0 0] with ⟨w, answers, hrun, -⟩
  cases hrun

end MajorPrivacy.Variant.ListBlock

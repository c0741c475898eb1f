/-
Iteration in `FW::List` (List.h), and `Append` and `Prepand` of a list. Reverse iteration begins at the head, so it ends
after one entry, and so does `Prepand` of a list.
-/
import MajorPrivacy.Core.LinkedList

namespace MajorPrivacy.Core

section Calls

variable {V : Type} [Inhabited V]

namespace FwList

/-- `begin`, which is the head for both directions. -/
def begin (m : FwList V) : Option Nat := m.bind (·.Head)

def iterate (m : FwList V) (bReverse : Bool) (steps : Nat) : Option (List V) :=
  match m with
  | none => some []
  | some d => d.iterate bReverse steps d.Head

/-- `Append` and `Prepand` of another list: the values an iterator passes are put in one by one. -/
def pour (put : Grants → FwList V → V → Option (Bool × FwList V)) (bReverse : Bool) (d : SListData V) :
    Nat → Option Nat → List Grants → FwList V → Option (Bool × FwList V)
  | _, none, _, m => some (true, m)
  | 0, some _, _, _ => none
  | steps + 1, some I, grants, m =>
    (put (grants.headD ⟨false, true, true⟩) m (d.entries I).Data).bind fun (ok, m) =>
      if ok then pour put bReverse d steps (d.increment bReverse (some I)) grants.tail m else some (false, m)

def pourList (put : Grants → FwList V → V → Option (Bool × FwList V)) (bReverse : Bool) (other : FwList V) (steps : Nat)
    (grants : List Grants) (m : FwList V) : Option (Bool × FwList V) :=
  match other with
  | none => some (true, m)
  | some d => pour put bReverse d steps d.Head grants m

/-- The same where the other list is the list itself and nobody shares its data: the iterator stands in what is changed. -/
def pourSelf (put : Grants → FwList V → V → Option (Bool × FwList V)) (bReverse : Bool) :
    Nat → Option Nat → List Grants → FwList V → Option (Bool × FwList V)
  | _, none, _, m => some (true, m)
  | 0, some _, _, _ => none
  | steps + 1, some I, grants, m =>
    m.bind fun d => (put { grants.headD ⟨false, true, true⟩ with shared := false } m (d.entries I).Data).bind fun (ok, m) =>
      if ok then pourSelf put bReverse steps (m.bind fun d => d.increment bReverse (some I)) grants.tail m else some (false, m)

/-- `Append` and `Prepand` of the list itself; data that are shared are left to the others by the first copy. -/
def pourOwn (put : Grants → FwList V → V → Option (Bool × FwList V)) (bReverse : Bool) (steps : Nat) (grants : List Grants)
    (m : FwList V) : Option (Bool × FwList V) :=
  if (grants.headD ⟨false, true, true⟩).shared then pourList put bReverse m steps grants m
  else pourSelf put bReverse steps m.begin grants m

variable {m : FwList V} {s : Option (List V)}

/-! ## Iteration -/

/-- An iteration ends and passes these values. -/
def Iterates (m : FwList V) (bReverse : Bool) (vs : List V) : Prop := ∃ steps, m.iterate bReverse steps = some vs

omit [Inhabited V] in
theorem iterates_forward (h : Rep m s) : Iterates m false (s.getD []) := by
  cases m with
  | none =>
    cases s with
    | some vs => exact absurd h id
    | none => exact ⟨0, rfl⟩
  | some d =>
    cases s with
    | none => exact absurd h id
    | some vs =>
      obtain ⟨l, hl, rfl⟩ := h
      refine ⟨l.length, ?_⟩
      rw [iterate, hl.head]
      exact SListData.iterate_forward hl.linked (le_refl _)

omit [Inhabited V] in
theorem iterates_forward_iff (h : Rep m s) (vs : List V) : Iterates m false vs ↔ vs = s.getD [] := by
  constructor
  · rintro ⟨steps, hsteps⟩
    obtain ⟨steps', hsteps'⟩ := iterates_forward h
    cases m with
    | none => exact Option.some.inj (hsteps.symm.trans hsteps')
    | some d => exact SListData.iterate_unique hsteps hsteps'
  · rintro rfl
    exact iterates_forward h

omit [Inhabited V] in
/-- Reverse iteration passes the head only. -/
theorem iterates_reverse_iff (h : Rep m s) (vs : List V) : Iterates m true vs ↔ vs = (s.getD []).take 1 := by
  cases m with
  | none =>
    cases s with
    | some vs => exact absurd h id
    | none =>
      constructor
      · rintro ⟨steps, hsteps⟩
        exact (Option.some.inj hsteps).symm
      · rintro rfl
        exact ⟨0, rfl⟩
  | some d =>
    cases s with
    | none => exact absurd h id
    | some vs =>
      obtain ⟨l, hl, rfl⟩ := h
      constructor
      · rintro ⟨steps, hsteps⟩
        have hsteps : d.iterate true steps d.Head = some vs := hsteps
        obtain hrun | ⟨-, -, hrun⟩ := SListData.iterate_reverse hl steps
        · exact Option.some.inj (hsteps.symm.trans hrun)
        · rw [hrun] at hsteps
          cases hsteps
      · rintro rfl
        refine ⟨1, ?_⟩
        obtain hrun | ⟨hzero, -⟩ := SListData.iterate_reverse hl 1
        · exact hrun
        · cases hzero

/-! ## Other lists -/

/-- The values put in one by one. -/
def pourValues (put : Grants → FwList V → V → Option (Bool × FwList V)) : List V → List Grants → FwList V →
    Option (Bool × FwList V)
  | [], _, m => some (true, m)
  | v :: vs, grants, m => (put (grants.headD ⟨false, true, true⟩) m v).bind fun (ok, m) =>
    if ok then pourValues put vs grants.tail m else some (false, m)

/-- There is memory for some values one by one. -/
def Granted : List Grants → Bool → Nat → Prop
  | _, _, 0 => True
  | grants, fresh, n + 1 =>
    ((grants.headD ⟨false, true, true⟩).ready fresh && (grants.headD ⟨false, true, true⟩).node) = true ∧ Granted grants.tail false n

section Pours

variable {put : Grants → FwList V → V → Option (Bool × FwList V)} {bReverse : Bool} {d : SListData V}

omit [Inhabited V] in
/-- An iteration puts in the values it passes. -/
theorem pour_eq : ∀ {steps : Nat} {I : Option Nat} {vs : List V} (grants : List Grants) (m : FwList V),
    d.iterate bReverse steps I = some vs → pour put bReverse d steps I grants m = pourValues put vs grants m
  | steps, none, vs, grants, m, h => by
    obtain rfl : [] = vs := by cases steps <;> exact Option.some.inj h
    cases steps <;> rfl
  | 0, some I, vs, grants, m, h => by cases h
  | steps + 1, some I, vs, grants, m, h => by
    obtain ⟨vs, hrest, rfl⟩ := Option.map_eq_some_iff.1 h
    rw [pour, pourValues]
    refine congrArg _ (funext fun r => ?_)
    obtain ⟨ok, m⟩ := r
    dsimp only
    rw [pour_eq grants.tail m hrest]

omit [Inhabited V] in
/-- What came to its end has iterated to the end. -/
theorem iterate_of_pour : ∀ {steps : Nat} {I : Option Nat} {grants : List Grants} {m m' : FwList V},
    pour put bReverse d steps I grants m = some (true, m') → ∃ vs, d.iterate bReverse steps I = some vs
  | steps, none, _, _, _, _ => ⟨[], by cases steps <;> rfl⟩
  | 0, some I, _, _, _, h => by cases h
  | steps + 1, some I, grants, m, m', h => by
    rw [pour] at h
    obtain ⟨⟨ok, m₁⟩, -, h⟩ := Option.bind_eq_some_iff.1 h
    cases ok with
    | false => cases h
    | true =>
      obtain ⟨vs, hvs⟩ := iterate_of_pour h
      exact ⟨_, by rw [SListData.iterate, hvs]; rfl⟩

/-- A call that ends with a list of these values. -/
def Yields (run : Nat → Option (Bool × FwList V)) (vs : List V) : Prop :=
  ∃ steps m', run steps = some (true, m') ∧ ∃ s', Rep m' s' ∧ s'.getD [] = vs

omit [Inhabited V] in
theorem yields_pourList {other : FwList V} {ws : List V} (hws : Iterates other bReverse ws)
    (honly : ∀ ws', Iterates other bReverse ws' → ws' = ws) (grants : List Grants) (m : FwList V) (vs : List V) :
    Yields (fun steps => pourList put bReverse other steps grants m) vs ↔ Yields (fun _ => pourValues put ws grants m) vs := by
  cases other with
  | none =>
    obtain rfl : [] = ws := honly [] ⟨0, rfl⟩
    exact Iff.rfl
  | some d =>
    constructor
    · rintro ⟨steps, m', hrun, hs⟩
      have hrun : pour put bReverse d steps d.Head grants m = some (true, m') := hrun
      obtain ⟨ws', hws'⟩ := iterate_of_pour hrun
      obtain rfl := honly ws' ⟨steps, hws'⟩
      rw [pour_eq grants m hws'] at hrun
      exact ⟨0, m', hrun, hs⟩
    · rintro ⟨_, m', hrun, hs⟩
      obtain ⟨steps, hsteps⟩ := hws
      have hsteps : d.iterate bReverse steps d.Head = some ws := hsteps
      exact ⟨steps, m', (pour_eq grants m hsteps).trans hrun, hs⟩

end Pours

/-- Values put in one by one, as far as there is memory. -/
theorem pourValues_spec {place : SListData V → Option Nat → Nat → Option (SListData V)} {join : List V → V → List V}
    (hputs : Puts place join) : ∀ (ws : List V) (grants : List Grants) {m : FwList V} {s : Option (List V)}, Rep m s →
      ∃ ok m' s', pourValues (put place) ws grants m = some (ok, m') ∧ Rep m' s' ∧ (ok = true ↔ Granted grants s.isNone ws.length) ∧
        (ok = true → s'.getD [] = ws.foldl join (s.getD []))
  | [], _, m, s, h => ⟨true, m, s, rfl, h, iff_of_true rfl trivial, fun _ => rfl⟩
  | w :: ws, grants, m, s, h => by
    obtain ⟨m₁, hput, hrep⟩ := put_spec hputs h (grants.headD ⟨false, true, true⟩) w
    rw [pourValues, hput, Option.bind_some]
    dsimp only
    cases hok : ((grants.headD ⟨false, true, true⟩).ready s.isNone && (grants.headD ⟨false, true, true⟩).node) with
    | false =>
      refine ⟨false, m₁, _, rfl, hrep, iff_of_false Bool.false_ne_true ?_, fun hcon => by cases hcon⟩
      rintro ⟨htrue, -⟩
      rw [hok] at htrue
      cases htrue
    | true =>
      obtain ⟨hready, hnode⟩ := Bool.and_eq_true_iff.1 hok
      have hs : (change (grants.headD ⟨false, true, true⟩) s fun vs =>
          if (grants.headD ⟨false, true, true⟩).node then join vs w else vs) = some (join (s.getD []) w) := by
        rw [change, hready, if_pos rfl, hnode, if_pos rfl]
      rw [hs] at hrep
      obtain ⟨ok, m', s', hrun, hrep', hgranted, hvalues⟩ := pourValues_spec hputs ws grants.tail hrep
      refine ⟨ok, m', s', hrun, hrep', ?_, hvalues⟩
      rw [hgranted]
      exact ⟨fun hrest => ⟨hok, hrest⟩, fun hall => hall.2⟩

/-- The call ends with these values where there is memory for them and they come in this way. -/
theorem yields_pourValues {place : SListData V → Option Nat → Nat → Option (SListData V)} {join : List V → V → List V}
    (hputs : Puts place join) (h : Rep m s) (ws : List V) (grants : List Grants) (vs : List V) :
    Yields (fun _ => pourValues (put place) ws grants m) vs ↔ Granted grants s.isNone ws.length ∧ ws.foldl join (s.getD []) = vs := by
  obtain ⟨ok, m', s', hrun, hrep, hgranted, hvalues⟩ := pourValues_spec hputs ws grants h
  rw [← hgranted]
  constructor
  · rintro ⟨_, m₁, hrun₁, s₁, hrep₁, rfl⟩
    obtain ⟨rfl, rfl⟩ := Prod.mk.inj (Option.some.inj (hrun.symm.trans hrun₁))
    refine ⟨rfl, (hvalues rfl).symm.trans ?_⟩
    rw [rep_unique hrep hrep₁]
  · rintro ⟨rfl, hvs⟩
    exact ⟨0, m', hrun, s', hrep, (hvalues rfl).trans hvs⟩

/-! ## The list itself -/

omit [Inhabited V] in
/-- The iterator never comes to an end, if the next entry is always there. -/
theorem pourSelf_ne_true {put : Grants → FwList V → V → Option (Bool × FwList V)} {bReverse : Bool} {At : SListData V → Nat → Prop}
    (hstep : ∀ {d I} (g : Grants), g.shared = false → At d I → ∃ r, put g (some d) (d.entries I).Data = some r ∧
      (r.1 = false ∨ ∃ d' I', r.2 = some d' ∧ d'.increment bReverse (some I) = some I' ∧ At d' I')) :
    ∀ {steps : Nat} {d : SListData V} {I : Nat} {grants : List Grants} {m' : FwList V}, At d I →
      pourSelf put bReverse steps (some I) grants (some d) ≠ some (true, m')
  | 0, _, _, _, _, _ => fun hcon => by cases hcon
  | steps + 1, d, I, grants, m', h => by
    obtain ⟨⟨ok, m₁⟩, hput, hnext⟩ := hstep { grants.headD ⟨false, true, true⟩ with shared := false } rfl h
    rw [pourSelf, Option.bind_some, hput, Option.bind_some]
    dsimp only
    obtain rfl | ⟨d', I', rfl, hinc, hat⟩ := hnext
    · exact fun hcon => by cases hcon
    · cases ok with
      | false => exact fun hcon => by cases hcon
      | true =>
        rw [if_pos rfl, Option.bind_some, hinc]
        exact pourSelf_ne_true hstep hat

/-- A value is put in where nobody shares the data. -/
theorem put_unshared (place : SListData V → Option Nat → Nat → Option (SListData V)) {g : Grants} (hg : g.shared = false)
    (d : SListData V) (Value : V) : put place g (some d) Value =
      if g.node then (place (d.alloc Value) none d.top).map fun d => (true, some d) else some (false, some d) := by
  simp [put, makeExclusive, hg]

theorem appendSelf_ne_true {steps : Nat} {d : SListData V} {l : List Nat} (h : d.Valid l) {I : Nat} (hI : I ∈ l) {grants : List Grants}
    {m' : FwList V} : pourSelf append false steps (some I) grants (some d) ≠ some (true, m') := by
  refine @pourSelf_ne_true _ append false (fun d I => ∃ l, d.Valid l ∧ I ∈ l) ?_ _ _ _ _ _ ⟨l, h, hI⟩
  rintro d I g hg ⟨l, hl, hmem⟩
  unfold append
  rw [put_unshared _ hg]
  cases g.node with
  | false => exact ⟨_, rfl, .inl rfl⟩
  | true =>
    obtain ⟨halloc, -, -⟩ := hl.alloc (d.entries I).Data
    obtain ⟨d', hd', hvalid, -, -⟩ := halloc.insertAfter_back hl.top_not_mem (Nat.lt_succ_self _) (.inr rfl)
    rw [if_pos rfl, hd']
    obtain ⟨f, r, rfl⟩ := List.append_of_mem hmem
    have hlinked := hvalid.linked
    rw [List.append_assoc, List.cons_append] at hlinked
    have hnext := hlinked.middle.2
    have hinc : d'.increment false (some I) = (r ++ [d.top]).head? := by
      rw [SListData.increment, Option.bind_some, if_neg Bool.false_ne_true, hnext, Option.or_none]
    cases r with
    | nil => exact ⟨_, rfl, .inr ⟨d', d.top, rfl, hinc, _, hvalid, List.mem_append_right _ (List.mem_singleton_self _)⟩⟩
    | cons b r => exact ⟨_, rfl, .inr ⟨d', b, rfl, hinc, _, hvalid, by simp⟩⟩

theorem prepandSelf_ne_true {steps : Nat} {d : SListData V} {l : List Nat} {I : Nat} (h : d.Valid (I :: l)) {grants : List Grants}
    {m' : FwList V} : pourSelf prepand true steps (some I) grants (some d) ≠ some (true, m') := by
  refine @pourSelf_ne_true _ prepand true (fun d I => ∃ l, d.Valid (I :: l)) ?_ _ _ _ _ _ ⟨l, h⟩
  rintro d I g hg ⟨l, hl⟩
  unfold prepand
  rw [put_unshared _ hg]
  cases g.node with
  | false => exact ⟨_, rfl, .inl rfl⟩
  | true =>
    obtain ⟨halloc, -, -⟩ := hl.alloc (d.entries I).Data
    obtain ⟨d', hd', hvalid, -, -⟩ := halloc.insertBefore_front hl.top_not_mem (Nat.lt_succ_self _) (.inr rfl)
    rw [if_pos rfl, hd']
    have hinc : d'.increment true (some I) = some d.top := by
      rw [SListData.increment, Option.bind_some, if_pos rfl]
      exact hvalid.linked.2.2.1
    exact ⟨_, rfl, .inr ⟨d', d.top, rfl, hinc, _, hvalid⟩⟩

section Own

variable {put : Grants → FwList V → V → Option (Bool × FwList V)} {bReverse : Bool}

omit [Inhabited V] in
theorem yields_pourOwn_nil (h : Rep m s) (hnil : s.getD [] = []) (grants : List Grants) :
    Yields (fun steps => pourOwn put bReverse steps grants m) [] := by
  refine ⟨0, m, ?_, s, h, hnil⟩
  have hbegin : m.begin = none := by
    cases m with
    | none => rfl
    | some d =>
      cases s with
      | none => exact absurd h id
      | some vs =>
        obtain ⟨l, hl, rfl⟩ := h
        obtain rfl := List.map_eq_nil_iff.1 hnil
        exact hl.head
  unfold pourOwn
  split
  · cases m with
    | none => rfl
    | some d =>
      have hbegin : d.Head = none := hbegin
      change pour put bReverse d 0 d.Head grants (some d) = _
      rw [hbegin]
      rfl
  · rw [hbegin]
    rfl

omit [Inhabited V] in
/-- The list itself, if it has entries, comes to an end only where its data are shared and stay with the others. -/
theorem yields_pourOwn_iff (h : Rep m s) (hne : s.getD [] ≠ []) {ws : List V} (hws : ∀ ws', Iterates m bReverse ws' ↔ ws' = ws)
    (hself : ∀ {d l steps grants m'}, d.Valid l → l ≠ [] → pourSelf put bReverse steps d.Head grants (some d) ≠ some (true, m'))
    (grants : List Grants) (vs : List V) : Yields (fun steps => pourOwn put bReverse steps grants m) vs ↔
      (grants.headD ⟨false, true, true⟩).shared = true ∧ Yields (fun _ => pourValues put ws grants m) vs := by
  rw [← @yields_pourList _ put bReverse m ws ((hws ws).2 rfl) (fun ws' => (hws ws').1) grants m vs]
  unfold pourOwn
  by_cases hshared : (grants.headD ⟨false, true, true⟩).shared = true
  · simp only [hshared, if_true, true_and]
  · simp only [if_neg hshared]
    refine iff_of_false ?_ fun hand => hshared hand.1
    rintro ⟨steps, m', hrun, -⟩
    cases m with
    | none =>
      cases s with
      | none => exact hne rfl
      | some vs => exact h
    | some d =>
      cases s with
      | none => exact h
      | some vs =>
        obtain ⟨l, hl, rfl⟩ := h
        exact hself hl (fun hl' => hne (by rw [hl']; rfl)) hrun

end Own

end FwList

omit [Inhabited V] in
theorem foldl_append (ws vs : List V) : ws.foldl (fun vs Value => vs ++ [Value]) vs = vs ++ ws := by
  induction ws generalizing vs with
  | nil => rw [List.foldl_nil, List.append_nil]
  | cons w ws ih => rw [List.foldl_cons, ih, List.append_assoc, List.singleton_append]

omit [Inhabited V] in
/-- At most one value of a list can stand for the list. -/
theorem prepand_iff (grants : List Grants) (fresh : Bool) (ws vs : List V) : (FwList.Granted grants fresh (ws.take 1).length ∧
    (ws.take 1).foldl (fun vs Value => Value :: vs) vs = ws ++ vs) ↔ ws.length ≤ 1 ∧ FwList.Granted grants fresh ws.length := by
  cases ws with
  | nil => exact iff_of_true ⟨trivial, rfl⟩ ⟨Nat.zero_le _, trivial⟩
  | cons w ws =>
    cases ws with
    | nil => exact ⟨fun h => ⟨le_refl _, h.1⟩, fun h => ⟨h.2, rfl⟩⟩
    | cons w' ws =>
      refine iff_of_false ?_ fun h => absurd h.1 (by simp)
      rintro ⟨-, hlist⟩
      have hlength : vs.length + 1 = (w :: w' :: ws ++ vs).length := congrArg List.length hlist
      simp only [List.length_cons, List.length_append] at hlength
      omega

open FwList in
/-- Two lists after any calls. They are linked and counted as lists of values and forward iteration passes these; reverse
iteration is right for at most one value, and so is `Prepand` of a list. The list itself is put into itself without end,
unless its data are shared. -/
theorem listCalls_iff (calls calls' : List (ListCall V)) : ∃ m other, listAfter calls = some m ∧ listAfter calls' = some other ∧
    Rep m (valuesAfter calls) ∧ Rep other (valuesAfter calls') ∧
    let vs := (valuesAfter calls).getD []
    let ws := (valuesAfter calls').getD []
    let fresh := (valuesAfter calls).isNone
    Iterates m false vs ∧ (Iterates m true vs.reverse ↔ vs.length ≤ 1) ∧ ∀ grants,
      (Yields (fun steps => pourList append false other steps grants m) (vs ++ ws) ↔ Granted grants fresh ws.length) ∧
      (Yields (fun steps => pourList prepand true other steps grants m) (ws ++ vs) ↔ ws.length ≤ 1 ∧ Granted grants fresh ws.length) ∧
      (Yields (fun steps => pourOwn append false steps grants m) (vs ++ vs) ↔
        vs = [] ∨ (grants.headD ⟨false, true, true⟩).shared = true ∧ Granted grants fresh vs.length) ∧
      (Yields (fun steps => pourOwn prepand true steps grants m) (vs ++ vs) ↔
        vs = [] ∨ (grants.headD ⟨false, true, true⟩).shared = true ∧ vs.length ≤ 1 ∧ Granted grants fresh vs.length) := by
  obtain ⟨m, hm, h⟩ := rep_listAfter calls
  obtain ⟨other, hother, h'⟩ := rep_listAfter calls'
  refine ⟨m, other, hm, hother, h, h', ?_⟩
  generalize valuesAfter calls = s at h ⊢
  generalize valuesAfter calls' = s' at h' ⊢
  refine ⟨iterates_forward h, ?_, fun grants => ⟨?_, ?_, ?_, ?_⟩⟩
  · rw [iterates_reverse_iff h]
    cases s.getD [] with
    | nil => exact iff_of_true rfl (Nat.zero_le _)
    | cons v vs =>
      constructor
      · intro heq
        have hlength : (v :: vs).reverse.length = 1 := congrArg List.length heq
        rw [List.length_reverse] at hlength
        exact le_of_eq hlength
      · intro hle
        obtain rfl : vs = [] := List.eq_nil_of_length_eq_zero (by simpa using hle)
        rfl
  · rw [yields_pourList (iterates_forward h') fun ws' => (iterates_forward_iff h' ws').1]
    refine (yields_pourValues puts_insertAfter h _ grants _).trans ?_
    rw [foldl_append]
    exact and_iff_left rfl
  · rw [yields_pourList ((iterates_reverse_iff h' _).2 rfl) fun ws' => (iterates_reverse_iff h' ws').1]
    exact (yields_pourValues puts_insertBefore h _ grants _).trans (prepand_iff grants _ _ _)
  · by_cases hnil : s.getD [] = []
    · refine iff_of_true ?_ (.inl hnil)
      rw [hnil]
      exact yields_pourOwn_nil h hnil grants
    · rw [or_iff_right hnil]
      refine (yields_pourOwn_iff h hnil (iterates_forward_iff h) ?_ grants _).trans (and_congr_right fun _ => ?_)
      · rintro d l steps grants m' hl hne
        obtain ⟨a, l, rfl⟩ := List.exists_cons_of_ne_nil hne
        rw [hl.head]
        exact appendSelf_ne_true hl List.mem_cons_self
      · refine (yields_pourValues puts_insertAfter h _ grants _).trans ?_
        rw [foldl_append]
        exact and_iff_left rfl
  · by_cases hnil : s.getD [] = []
    · refine iff_of_true ?_ (.inl hnil)
      rw [hnil]
      exact yields_pourOwn_nil h hnil grants
    · rw [or_iff_right hnil]
      refine (yields_pourOwn_iff h hnil (iterates_reverse_iff h) ?_ grants _).trans (and_congr_right fun _ => ?_)
      · rintro d l steps grants m' hl hne
        obtain ⟨a, l, rfl⟩ := List.exists_cons_of_ne_nil hne
        rw [hl.head]
        exact prepandSelf_ne_true hl
      · exact (yields_pourValues puts_insertBefore h _ grants _).trans (prepand_iff grants _ _ _)

end Calls

/-- The list 1, 2: reverse iteration passes 1 only. -/
theorem listCalls_iff_two : ∃ m, listAfter [.append ⟨false, true, true⟩ 1, .append ⟨false, true, true⟩ 2] = some m ∧
    FwList.Iterates m false [1, 2] ∧ ¬ FwList.Iterates m true [2, 1] := by
  obtain ⟨m, hm, h⟩ := @FwList.rep_listAfter Nat _ [.append ⟨false, true, true⟩ 1, .append ⟨false, true, true⟩ 2]
  refine ⟨m, hm, FwList.iterates_forward h, fun hreverse => ?_⟩
  rw [FwList.iterates_reverse_iff h] at hreverse
  cases hreverse

end MajorPrivacy.Core

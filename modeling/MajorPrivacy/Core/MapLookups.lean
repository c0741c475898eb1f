/-
Look-ups by order in `FW::Map` (Map.h). The search for the next key stops at the first node it does not pass, and a
null pointer is taken for a node.
-/
import MajorPrivacy.Core.Map

namespace MajorPrivacy.Core

open ColoredTree ColorTree

/-- What look-ups return. -/
inductive Iterator (α : Type)
  | node (s : Spot α)
  | nullptr
  | atEnd

section Lookups

variable {K V : Type} [LinearOrder K]

namespace Map

/-- A node, or the null node. -/
def iterator : Option (Spot (K × V)) → Iterator (K × V)
  | some pNode => .node pNode
  | none => .atEnd

/-- `find_le`. -/
def findLe (m : Map K V) (key : K) (bOrEqual : Bool) : Iterator (K × V) :=
  match m with
  | none => .atEnd
  | some d =>
    match rbtreeFindLessEqual key d.root [] none with
    | (_, none) => .nullptr
    | (exact, some pNode) => if exact && !bOrEqual then iterator pNode.previous else .node pNode

/-- `find_ge`. -/
def findGe (m : Map K V) (key : K) (bOrEqual : Bool) : Iterator (K × V) :=
  match m with
  | none => .atEnd
  | some d =>
    match rbtreeFindGreaterEqual key d.root [] with
    | (_, none) => .nullptr
    | (exact, some pNode) => if exact && !bOrEqual then iterator pNode.next else .node pNode

def lowerBound (m : Map K V) (key : K) : Iterator (K × V) := m.findGe key true

def upperBound (m : Map K V) (key : K) : Iterator (K × V) := m.findGe key false

/-! ## What is found -/

/-- The entry with the best of the keys that are wanted, and the entries behind it from there on. -/
def Finds (m : Map K V) (Wanted : K → Prop) (Best : K → K → Prop) : Iterator (K × V) → Prop
  | .node s => s.before ++ s.entry :: s.after = m.entries ∧ Visits s.next s.after ∧ Wanted s.entry.1 ∧
      ∀ e ∈ m.entries, Wanted e.1 → Best s.entry.1 e.1
  | .nullptr => False
  | .atEnd => ∀ e ∈ m.entries, ¬ Wanted e.1

/-- On the way to the right there is a node that is not below the key, and nothing better in its left subtree. -/
def descentGe (key : K) : ColorTree (K × V) → Prop
  | nil => False
  | node _ l e r =>
    if key < e.1 then ∀ a ∈ l.toList, a.1 < key ∨ a.1 = e.1
    else if e.1 < key then descentGe key r
    else True

/-- Likewise for the nodes above the key; behind an equal node there is no other. -/
def descentGt (key : K) : ColorTree (K × V) → Prop
  | nil => False
  | node _ l e r =>
    if key < e.1 then ∀ a ∈ l.toList, a.1 ≤ key ∨ a.1 = e.1
    else if e.1 < key then descentGt key r
    else ∀ a ∈ r.toList, key < a.1

/-- Where the descent ends: nowhere, at the key, or at a larger one. -/
inductive Ends (key : K) (root t : ColorTree (K × V)) : Bool × Option (Spot (K × V)) → Prop
  | nowhere (hge : ¬ descentGe key t) (hgt : ¬ descentGt key t) : Ends key root t (false, none)
  | equal {s : Spot (K × V)} (hroot : s.root = root) (hkey : s.entry.1 = key) (hge : descentGe key t)
      (hgt : descentGt key t ↔ ∀ a ∈ s.after, key < a.1) : Ends key root t (true, some s)
  | above {s : Spot (K × V)} (hroot : s.root = root) (hkey : key < s.entry.1)
      (hge : descentGe key t ↔ ∀ a ∈ s.before, a.1 < key ∨ a.1 = s.entry.1)
      (hgt : descentGt key t ↔ ∀ a ∈ s.before, a.1 ≤ key ∨ a.1 = s.entry.1) : Ends key root t (false, some s)

theorem rbtreeFindGreaterEqual_ends (key : K) : ∀ (t : ColorTree (K × V)) (path : Path (K × V)), Path.after path = [] →
    (∀ a ∈ Path.before path, a.1 < key) → Ordered t.toList → Ends key (fill path t) t (rbtreeFindGreaterEqual key t path)
  | nil, path, _, _, _ => .nowhere id id
  | node c l e r, path, hafter, hbefore, ho => by
    obtain ⟨-, hr, hle, -⟩ := ordered_append ho
    unfold rbtreeFindGreaterEqual
    by_cases hlt : key < e.1
    · rw [if_pos hlt]
      refine .above rfl hlt ?_ ?_
      · rw [descentGe, if_pos hlt]
        simp only [Spot.before, List.mem_append, or_imp, forall_and]
        exact ⟨fun h => ⟨fun a ha => .inl (hbefore a ha), h⟩, fun h => h.2⟩
      · rw [descentGt, if_pos hlt]
        simp only [Spot.before, List.mem_append, or_imp, forall_and]
        exact ⟨fun h => ⟨fun a ha => .inl (le_of_lt (hbefore a ha)), h⟩, fun h => h.2⟩
    rw [if_neg hlt]
    by_cases hgt : e.1 < key
    · rw [if_pos hgt]
      have hdeeper : Ends key (fill path (node c l e r)) r (rbtreeFindGreaterEqual key r (⟨.right, c, e, l⟩ :: path)) := by
        refine rbtreeFindGreaterEqual_ends key r (⟨.right, c, e, l⟩ :: path) hafter (fun a ha => ?_) hr
        obtain ha | ha := List.mem_append.1 ha
        · exact hbefore a ha
        obtain ha | ha := List.mem_append.1 ha
        · exact lt_of_le_of_lt (hle a ha) hgt
        · rw [List.mem_singleton.1 ha]
          exact hgt
      have hge : descentGe key (node c l e r) = descentGe key r := by rw [descentGe, if_neg hlt, if_pos hgt]
      have hgt : descentGt key (node c l e r) = descentGt key r := by rw [descentGt, if_neg hlt, if_pos hgt]
      generalize rbtreeFindGreaterEqual key r (⟨.right, c, e, l⟩ :: path) = found at hdeeper
      cases hdeeper with
      | nowhere h h' => exact .nowhere (hge ▸ h) (hgt ▸ h')
      | equal hroot hkey h h' => exact .equal hroot hkey (hge ▸ h) (hgt ▸ h')
      | above hroot hkey h h' => exact .above hroot hkey (hge ▸ h) (hgt ▸ h')
    · rw [if_neg hgt]
      refine .equal rfl (le_antisymm (le_of_not_gt hlt) (le_of_not_gt hgt)) ?_ ?_
      · rw [descentGe, if_neg hlt, if_neg hgt]
        exact trivial
      · rw [descentGt, if_neg hlt, if_neg hgt, Spot.after, hafter, List.append_nil]

variable {m : Map K V}

omit [LinearOrder K] in
/-- A node of the tree is the right one if its key is. -/
theorem finds_node {d : SMapData K V} {s : Spot (K × V)} (hs : s.root = d.root) (Wanted : K → Prop) (Best : K → K → Prop) :
    Finds (some d) Wanted Best (.node s) ↔ Wanted s.entry.1 ∧
      (∀ a ∈ s.before, Wanted a.1 → Best s.entry.1 a.1) ∧ (Wanted s.entry.1 → Best s.entry.1 s.entry.1) ∧
        ∀ a ∈ s.after, Wanted a.1 → Best s.entry.1 a.1 := by
  have hall : s.before ++ s.entry :: s.after = Map.entries (some d) := by
    rw [← Spot.toList_root, hs]
    rfl
  unfold Finds
  rw [← hall]
  simp only [List.mem_append, List.mem_cons, or_imp, forall_and, forall_eq, true_and]
  exact ⟨fun h => h.2, fun h => ⟨visits_after _ s rfl, h⟩⟩

/-- The entries in front of a node and behind it. -/
theorem ordered_spot {d : SMapData K V} (hd : d.Valid) {s : Spot (K × V)} (hs : s.root = d.root) :
    (∀ a ∈ s.before, a.1 ≤ s.entry.1) ∧ ∀ a ∈ s.after, s.entry.1 ≤ a.1 := by
  have hordered := hd.ordered
  rw [← hs, Spot.toList_root] at hordered
  exact (ordered_append hordered).2.2

/-- `find_ge`, and so `lower_bound`. -/
theorem findGe_iff (h : Valid m) (key : K) :
    Finds m (key ≤ ·) (· ≤ ·) (m.findGe key true) ↔ ∀ d, m = some d → descentGe key d.root := by
  cases m with
  | none => exact iff_of_true (fun e he => by cases he) fun d hd => by cases hd
  | some d =>
    have hd := h d rfl
    have hends := rbtreeFindGreaterEqual_ends key d.root [] rfl (fun a ha => by cases ha) hd.ordered
    have honly : (∀ d', some d = some d' → descentGe key d'.root) ↔ descentGe key d.root :=
      ⟨fun h => h d rfl, fun h d' hd' => Option.some.inj hd' ▸ h⟩
    rw [honly]
    unfold findGe
    dsimp only
    cases hrun : rbtreeFindGreaterEqual key d.root [] with | mk exact found =>
    rw [hrun] at hends
    cases hends with
    | nowhere hge _ => exact iff_of_false id hge
    | @equal s hroot hkey hge _ =>
      obtain ⟨hfront, hback⟩ := ordered_spot hd hroot
      refine iff_of_true ((finds_node hroot _ _).2 ⟨le_of_eq hkey.symm, fun a _ ha => ?_, fun _ => le_refl _, fun a ha _ => hback a ha⟩) hge
      rw [hkey]
      exact ha
    | @above s hroot hkey hge _ =>
      obtain ⟨hfront, hback⟩ := ordered_spot hd hroot
      refine (finds_node hroot _ _).trans (Iff.trans ?_ hge.symm)
      constructor
      · rintro ⟨-, hbest, -⟩ a ha
        by_cases hlt : a.1 < key
        · exact .inl hlt
        · exact .inr (le_antisymm (hfront a ha) (hbest a ha (le_of_not_gt hlt)))
      · intro hnone
        refine ⟨le_of_lt hkey, fun a ha hwanted => ?_, fun _ => le_refl _, fun a ha _ => hback a ha⟩
        obtain hlt | heq := hnone a ha
        · exact absurd hwanted (not_le_of_gt hlt)
        · exact le_of_eq heq.symm

theorem upperBound_iff (h : Valid m) (key : K) :
    Finds m (key < ·) (· ≤ ·) (m.upperBound key) ↔ ∀ d, m = some d → descentGt key d.root := by
  cases m with
  | none => exact iff_of_true (fun e he => by cases he) fun d hd => by cases hd
  | some d =>
    have hd := h d rfl
    have hends := rbtreeFindGreaterEqual_ends key d.root [] rfl (fun a ha => by cases ha) hd.ordered
    have honly : (∀ d', some d = some d' → descentGt key d'.root) ↔ descentGt key d.root :=
      ⟨fun h => h d rfl, fun h d' hd' => Option.some.inj hd' ▸ h⟩
    rw [honly]
    unfold upperBound findGe
    dsimp only
    cases hrun : rbtreeFindGreaterEqual key d.root [] with | mk exact found =>
    rw [hrun] at hends
    cases hends with
    | nowhere _ hgt => exact iff_of_false id hgt
    | @equal s hroot hkey _ hgt =>
      obtain ⟨hfront, hback⟩ := ordered_spot hd hroot
      refine Iff.trans ?_ hgt.symm
      have hroot : s.root = d.root := hroot
      obtain ⟨hnone, hsome⟩ := next_spec s
      change Finds (some d) _ _ (iterator s.next) ↔ _
      cases hnext : s.next with
      | none =>
        have hend := hnone hnext
        refine iff_of_true (fun e he hwanted => ?_) fun a ha => by rw [hend] at ha; cases ha
        change e ∈ d.root.toList at he
        rw [← hroot, Spot.toList_root, hend] at he
        obtain he | he := List.mem_append.1 he
        · exact absurd (lt_of_lt_of_le hwanted (hkey ▸ hfront e he)) (lt_irrefl key)
        · rw [List.mem_singleton.1 he, hkey] at hwanted
          exact lt_irrefl key hwanted
      | some n =>
        obtain ⟨hroot', hbefore, hafter⟩ := hsome n hnext
        obtain ⟨-, hback'⟩ := ordered_spot hd (hroot'.trans hroot)
        refine (finds_node (hroot'.trans hroot) _ _).trans ?_
        rw [← hafter]
        constructor
        · rintro ⟨hwanted, -⟩ a ha
          obtain rfl | ha := List.mem_cons.1 ha
          · exact hwanted
          · exact lt_of_lt_of_le hwanted (hback' a ha)
        · intro hall
          refine ⟨hall _ List.mem_cons_self, fun a ha hwanted => ?_, fun _ => le_refl _, fun a ha _ => hback' a ha⟩
          rw [hbefore] at ha
          obtain ha | ha := List.mem_append.1 ha
          · exact absurd (lt_of_lt_of_le hwanted (hkey ▸ hfront a ha)) (lt_irrefl key)
          · rw [List.mem_singleton.1 ha, hkey] at hwanted
            exact absurd hwanted (lt_irrefl key)
    | @above s hroot hkey _ hgt =>
      obtain ⟨hfront, hback⟩ := ordered_spot hd hroot
      refine (finds_node hroot _ _).trans (Iff.trans ?_ hgt.symm)
      constructor
      · rintro ⟨-, hbest, -⟩ a ha
        by_cases hle : a.1 ≤ key
        · exact .inl hle
        · exact .inr (le_antisymm (hfront a ha) (hbest a ha (lt_of_not_ge hle)))
      · intro hnone
        refine ⟨hkey, fun a ha hwanted => ?_, fun _ => le_refl _, fun a ha _ => hback a ha⟩
        obtain hle | heq := hnone a ha
        · exact absurd hwanted (not_lt_of_ge hle)
        · exact le_of_eq heq.symm

theorem findLe_iff (h : Valid m) (key : K) :
    Finds m (· ≤ key) (· ≥ ·) (m.findLe key true) ↔ ∀ d, m = some d → ∃ e ∈ m.entries, e.1 ≤ key := by
  cases m with
  | none => exact iff_of_true (fun e he => by cases he) fun d hd => by cases hd
  | some d =>
    have hd := h d rfl
    have honly : (∀ d', some d = some d' → ∃ e ∈ entries (some d), e.1 ≤ key) ↔ ∃ e ∈ d.root.toList, e.1 ≤ key :=
      ⟨fun h => h d rfl, fun h d' _ => h⟩
    rw [honly]
    unfold findLe
    dsimp only
    have hmem : ∀ {s : Spot (K × V)}, s.root = d.root → s.entry ∈ d.root.toList := by
      intro s hs
      rw [← hs, Spot.toList_root]
      exact List.mem_append_right _ List.mem_cons_self
    obtain ⟨s, hrun, hroot, hkey⟩ | ⟨hne, ⟨hall, hrun⟩ | ⟨s, hrun, hroot, -, hlt, hbest⟩⟩ :=
      rbtreeFindLessEqual_spec key d.root [] none hd.ordered
    · rw [hrun]
      have hle : s.entry.1 ≤ key := le_of_eq hkey
      refine iff_of_true ((finds_node hroot _ _).2 ⟨hle, ?_, fun _ => le_refl _, ?_⟩) ⟨_, hmem hroot, hle⟩
      · exact fun a _ hwanted => hkey ▸ hwanted
      · exact fun a _ hwanted => hkey ▸ hwanted
    · rw [hrun]
      refine iff_of_false id ?_
      rintro ⟨e, he, hle⟩
      exact absurd (hall e he) (not_lt_of_ge hle)
    · rw [hrun]
      have hbest : ∀ e ∈ d.root.toList, e.1 ≤ key → e.1 ≤ s.entry.1 := fun e he hle =>
        hbest e he (lt_of_le_of_ne hle (hne e he))
      rw [← (show s.root = d.root from hroot), Spot.toList_root] at hbest
      refine iff_of_true ((finds_node hroot _ _).2 ⟨le_of_lt hlt, ?_, fun _ => le_refl _, ?_⟩) ⟨_, hmem hroot, le_of_lt hlt⟩
      · exact fun a ha => hbest a (List.mem_append_left _ ha)
      · exact fun a ha => hbest a (List.mem_append_right _ (List.mem_cons_of_mem _ ha))

end Map

/-- Look-ups by order after any calls. Those for larger keys are right if the descent to the right comes to a node that
is large enough, and nothing to the left of it is better; the one for smaller keys if there are any. -/
theorem mapLookups_iff [DecidableEq V] (calls : List (MapCall K V)) : ∃ m, mapAfter calls = some m ∧ ∀ key,
    (m.Finds (key ≤ ·) (· ≤ ·) (m.lowerBound key) ↔ ∀ d, m = some d → Map.descentGe key d.root) ∧
      (m.Finds (key < ·) (· ≤ ·) (m.upperBound key) ↔ ∀ d, m = some d → Map.descentGt key d.root) ∧
        (m.Finds (key ≤ ·) (· ≤ ·) (m.findGe key true) ↔ ∀ d, m = some d → Map.descentGe key d.root) ∧
          (m.Finds (· ≤ key) (· ≥ ·) (m.findLe key true) ↔ ∀ d, m = some d → ∃ e ∈ m.entries, e.1 ≤ key) := by
  obtain ⟨m, hm, hvalid⟩ := Map.valid_mapAfter calls
  exact ⟨m, hm, fun key => ⟨Map.findGe_iff hvalid key, Map.upperBound_iff hvalid key, Map.findGe_iff hvalid key,
    Map.findLe_iff hvalid key⟩⟩

end Lookups

/-- The keys 2, 1 and 3: the look-up for 1 stops at the root. -/
theorem mapLookups_iff_root : ∃ m, mapAfter [.insert ⟨false, true, true⟩ 2 0 .eNormal, .insert ⟨false, true, true⟩ 1 0 .eNormal,
    .insert ⟨false, true, true⟩ 3 0 .eNormal] = some m ∧ ¬ m.Finds ((1 : Nat) ≤ ·) (· ≤ ·) (m.lowerBound 1) := by
  refine ⟨some ⟨node .black (node .red nil (1, 0) nil) (2, 0) (node .red nil (3, 0) nil), 3⟩, rfl, fun h => ?_⟩
  exact absurd (h.2.2.2 (1, 0) (by decide) (by decide)) (by decide)

end MajorPrivacy.Core

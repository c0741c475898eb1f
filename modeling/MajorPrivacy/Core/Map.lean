/-
`FW::Map` (Map.h): what any history of insertions and removals leaves, and what removals take out. `Remove` with
a value does not look at equal keys in front of the one it finds.
-/
import MajorPrivacy.Core.Multimap
import MajorPrivacy.Core.RBTree

namespace MajorPrivacy.Core

open ColoredTree ColorTree

/-- `SMapData`. -/
structure SMapData (K V : Type) where
  root : ColorTree (K × V)
  count : Nat

/-- A map, which may have no data yet. -/
abbrev Map (K V : Type) := Option (SMapData K V)

/-- Whether another map shares the data in a call, and whether there is memory for data of one's own and for a node. -/
structure Grants where
  shared : Bool
  exclusive : Bool
  node : Bool

inductive EInsertResult
  | eOK | eNoMemory | eKeyExists | eNoEntry
  deriving DecidableEq

section Calls

variable {K V : Type} [LinearOrder K]

/-! ## Changes

`none` is a write to the null node. -/

namespace SMapData

def empty : SMapData K V := ⟨nil, 0⟩

/-- `rbtree_insert`. -/
def insert (d : SMapData K V) (data : K × V) : Option (SMapData K V) :=
  (rbtreeInsert data d.root []).map fun root => ⟨root, d.count + 1⟩

/-- `rbtree_delete`. -/
def delete (d : SMapData K V) (toDelete : Spot (K × V)) : Option (SMapData K V) :=
  (rbtreeDelete toDelete).map fun root => ⟨root, d.count - 1⟩

/-- The copy that `MakeExclusive` makes, entry by entry. -/
def copy (d : SMapData K V) : Option (SMapData K V) := d.root.toList.foldlM insert empty

/-- Another value at a node. -/
def setValue (d : SMapData K V) (s : Spot (K × V)) (value : V) : SMapData K V :=
  ⟨fill s.path (node s.color s.left (s.entry.1, value) s.right), d.count⟩

end SMapData

namespace Map

/-- `MakeExclusive`: the data to change, if there is memory for it. -/
def makeExclusive (g : Grants) : Map K V → Option (Option (SMapData K V))
  | none => some (if g.exclusive then some .empty else none)
  | some d => if g.shared then (if g.exclusive then d.copy.map some else some none) else some (some d)

/-- `Insert`. -/
def insert (g : Grants) (m : Map K V) (key : K) (value : V) (mode : InsertMode) : Option (EInsertResult × Map K V) :=
  (makeExclusive g m).bind fun
    | none => some (.eNoMemory, m)
    | some d =>
      match if mode = .eMulti then none else rbtreeSearch d.root key with
      | some pNode => some (if mode = .eNoReplace then (.eKeyExists, some d) else (.eOK, some (d.setValue pNode value)))
      | none =>
        if mode = .eNoInsert then some (.eNoEntry, some d)
        else if g.node then (d.insert (key, value)).map fun d => (.eOK, some d)
        else some (.eNoMemory, some d)

/-- `Remove` with a key. -/
def removeKey (g : Grants) (m : Map K V) (key : K) : Option (Bool × Map K V) :=
  (makeExclusive g m).bind fun
    | none => some (false, m)
    | some d =>
      match rbtreeSearch d.root key with
      | some pNode => (d.delete pNode).map fun d => (true, some d)
      | none => some (false, some d)

/-- `Take`; no value stands for the one of the default constructor. -/
def take (g : Grants) (m : Map K V) (key : K) : Option (Option V × Map K V) :=
  match m with
  | none => some (none, none)
  | some d =>
    (makeExclusive g (some d)).bind fun
      | none => some (none, m)
      | some d =>
        match rbtreeSearch d.root key with
        | some pNode => (d.delete pNode).map fun d => (some pNode.entry.2, some d)
        | none => some (none, some d)

/-- The loop of `Remove` with a value, from a node on. -/
def seek [DecidableEq V] (key : K) (value : V) (I : Spot (K × V)) : Option (Spot (K × V)) :=
  if I.entry.1 = key then
    if I.entry.2 = value then some I
    else
      match _h : I.next with
      | none => none
      | some next => seek key value next
  else none
  termination_by I.after.length
  decreasing_by
    rw [← ((next_spec I).2 next _h).2.2]
    exact Nat.lt_succ_self _

/-- `Remove` with a key and a value. -/
def removeValue [DecidableEq V] (g : Grants) (m : Map K V) (key : K) (value : V) : Option (Bool × Map K V) :=
  (makeExclusive g m).bind fun
    | none => some (false, m)
    | some d =>
      match (rbtreeSearch d.root key).bind (seek key value) with
      | some pNode => (d.delete pNode).map fun d => (true, some d)
      | none => some (false, some d)

/-! ## Histories -/

def entries : Map K V → List (K × V)
  | none => []
  | some d => d.root.toList

end Map

/-- A call that changes a map. -/
inductive MapCall (K V : Type)
  | insert (g : Grants) (key : K) (value : V) (mode : InsertMode)
  | removeKey (g : Grants) (key : K)
  | removeValue (g : Grants) (key : K) (value : V)
  | take (g : Grants) (key : K)
  | clear

def MapCall.run [DecidableEq V] (m : Map K V) : MapCall K V → Option (Map K V)
  | insert g key value mode => (m.insert g key value mode).map (·.2)
  | removeKey g key => (m.removeKey g key).map (·.2)
  | removeValue g key value => (m.removeValue g key value).map (·.2)
  | take g key => (m.take g key).map (·.2)
  | clear => some none

/-- What a history of calls leaves of a new map. -/
def mapAfter [DecidableEq V] (calls : List (MapCall K V)) : Option (Map K V) := calls.foldlM MapCall.run none

/-! ## Validity -/

/-- A balanced tree with the entries by key, and their number. -/
structure SMapData.Valid (d : SMapData K V) : Prop where
  redBlack : RedBlack d.root
  ordered : Ordered d.root.toList
  count : d.count = d.root.toList.length

namespace SMapData.Valid

variable {d : SMapData K V}

theorem empty : (SMapData.empty : SMapData K V).Valid := ⟨redBlack_nil, .nil, rfl⟩

theorem insert (h : d.Valid) (data : K × V) :
    ∃ d', d.insert data = some d' ∧ d'.Valid ∧ d'.root.toList = putIn data d.root.toList := by
  obtain ⟨root, hroot, hredBlack⟩ := redBlack_rbtreeInsert data d.root [] h.redBlack
  have hlist : root.toList = putIn data d.root.toList := by
    rw [toList_rbtreeInsert h.ordered hroot, Path.before, Path.after, List.nil_append, List.append_nil]
  refine ⟨⟨root, d.count + 1⟩, by rw [SMapData.insert, hroot]; rfl, ⟨hredBlack, ?_, ?_⟩, hlist⟩
  · rw [hlist]
    exact ordered_putIn h.ordered
  · rw [hlist, List.orderedInsert_length, h.count]

theorem delete (h : d.Valid) {s : Spot (K × V)} (hs : s.root = d.root) :
    ∃ d', d.delete s = some d' ∧ d'.Valid ∧ d'.root.toList = s.before ++ s.after ∧ d'.count + 1 = d.count := by
  obtain ⟨root, hroot, hredBlack⟩ := redBlack_rbtreeDelete (hs ▸ h.redBlack)
  have hlist := toList_rbtreeDelete hroot
  have hall : d.root.toList = s.before ++ s.entry :: s.after := by rw [← hs, Spot.toList_root]
  have hlength : d.root.toList.length = (s.before ++ s.after).length + 1 := by
    rw [hall]
    simp only [List.length_append, List.length_cons]
    omega
  have hcount := h.count
  refine ⟨⟨root, d.count - 1⟩, by rw [SMapData.delete, hroot]; rfl, ⟨hredBlack, ?_, ?_⟩, hlist, ?_⟩
  · rw [hlist]
    have hordered := h.ordered
    rw [hall] at hordered
    exact hordered.sublist (List.Sublist.append_left (List.sublist_cons_self _ _) _)
  · rw [hlist]
    dsimp only
    omega
  · dsimp only
    omega

/-- The copy has the entries in their order, in a tree of its own. -/
theorem copy (h : d.Valid) : ∃ d', d.copy = some d' ∧ d'.Valid ∧ d'.root.toList = d.root.toList := by
  have hloop : ∀ (l done : List (K × V)) (acc : SMapData K V), acc.Valid → acc.root.toList = done → Ordered (done ++ l) →
      ∃ d', l.foldlM SMapData.insert acc = some d' ∧ d'.Valid ∧ d'.root.toList = done ++ l := by
    intro l
    induction l with
    | nil => exact fun done acc hacc hdone _ => ⟨acc, rfl, hacc, by rw [hdone, List.append_nil]⟩
    | cons e l ih =>
      intro done acc hacc hdone hordered
      obtain ⟨d', hd', hvalid, hlist⟩ := hacc.insert e
      have hlast : putIn e done = done ++ [e] := by
        have hle := (ordered_append hordered).2.2.1
        have hskip := @putIn_append_right K V _ e [] done fun a ha => not_lt_of_ge (hle a ha)
        rw [List.append_nil] at hskip
        exact hskip
      rw [hdone, hlast] at hlist
      have hrest : Ordered (done ++ [e] ++ l) := by
        rw [List.append_assoc]
        exact hordered
      obtain ⟨d'', hd'', hvalid', hlist'⟩ := ih (done ++ [e]) d' hvalid hlist hrest
      refine ⟨d'', ?_, hvalid', by rw [hlist', List.append_assoc]; rfl⟩
      rw [List.foldlM_cons, hd']
      exact hd''
  exact hloop d.root.toList [] .empty .empty rfl h.ordered

theorem setValue (h : d.Valid) {s : Spot (K × V)} (hs : s.root = d.root) (value : V) :
    (d.setValue s value).Valid ∧ (d.setValue s value).root.toList = s.before ++ (s.entry.1, value) :: s.after := by
  obtain ⟨c, l, e, r, path⟩ := s
  have hall : d.root.toList = Spot.before ⟨c, l, e, r, path⟩ ++ e :: Spot.after ⟨c, l, e, r, path⟩ := by
    rw [← hs, Spot.toList_root]
  have hlist : (d.setValue ⟨c, l, e, r, path⟩ value).root.toList =
      Spot.before ⟨c, l, e, r, path⟩ ++ (e.1, value) :: Spot.after ⟨c, l, e, r, path⟩ :=
    Spot.toList_root ⟨c, l, (e.1, value), r, path⟩
  refine ⟨⟨?_, ?_, ?_⟩, hlist⟩
  · obtain ⟨⟨n, hb⟩, hc⟩ := h.redBlack
    rw [← hs] at hb hc
    obtain ⟨m, hb', hf⟩ := @fits_fill _ path (node c l e r) n hb hc
    have hsame : Balanced (node c l (e.1, value) r) m := by
      cases c <;> exact hb'
    exact redBlack_fill hsame hf
  · have hkeys : ∀ l : List (K × V), Ordered l ↔ (l.map Prod.fst).Pairwise (· ≤ ·) := fun l => List.pairwise_map.symm
    have hordered := h.ordered
    rw [hall, hkeys] at hordered
    rw [hlist, hkeys]
    simpa using hordered
  · have hcount := h.count
    rw [hall] at hcount
    rw [hlist]
    simpa [SMapData.setValue] using hcount

end SMapData.Valid

namespace Map

/-- The data of a map is valid. -/
def Valid (m : Map K V) : Prop := ∀ d, m = some d → d.Valid

variable {m : Map K V}

theorem valid_some {d : SMapData K V} (h : d.Valid) : Map.Valid (some d) := by
  rintro d' ⟨⟩
  exact h

/-- The data to change holds the same entries. -/
theorem makeExclusive_spec (h : Valid m) (g : Grants) : ∃ r, makeExclusive g m = some r ∧
    (r = none ∨ ∃ d, r = some d ∧ d.Valid ∧ d.root.toList = entries m) := by
  cases m with
  | none =>
    cases hg : g.exclusive with
    | false => exact ⟨none, by simp [makeExclusive, hg], .inl rfl⟩
    | true => exact ⟨some .empty, by simp [makeExclusive, hg], .inr ⟨_, rfl, .empty, rfl⟩⟩
  | some d =>
    have hd := h d rfl
    obtain ⟨d', hcopy, hvalid, hlist⟩ := hd.copy
    have hrun : makeExclusive g (some d) =
        if g.shared then (if g.exclusive then d.copy.map some else some none) else some (some d) := rfl
    rw [hrun]
    split
    · split
      · exact ⟨some d', by rw [hcopy]; rfl, .inr ⟨d', rfl, hvalid, hlist⟩⟩
      · exact ⟨none, rfl, .inl rfl⟩
    · exact ⟨some d, rfl, .inr ⟨d, rfl, hd, rfl⟩⟩

/-- A search finds a node with the key, or there is none. -/
theorem rbtreeSearch_spec {root : ColorTree (K × V)} (h : Ordered root.toList) (key : K) :
    (∃ s, rbtreeSearch root key = some s ∧ s.root = root ∧ s.entry.1 = key) ∨
      rbtreeSearch root key = none ∧ ∀ e ∈ root.toList, e.1 ≠ key := by
  unfold rbtreeSearch
  obtain ⟨s, hrun, hroot, hkey⟩ | ⟨hnone, ⟨-, hrun⟩ | ⟨s, hrun, -⟩⟩ := rbtreeFindLessEqual_spec key root [] none h
  · rw [hrun]
    exact .inl ⟨s, rfl, hroot, hkey⟩
  · rw [hrun]
    exact .inr ⟨rfl, hnone⟩
  · rw [hrun]
    exact .inr ⟨rfl, hnone⟩

theorem valid_insert (h : Valid m) (g : Grants) (key : K) (value : V) (mode : InsertMode) :
    ∃ r, m.insert g key value mode = some r ∧ Valid r.2 := by
  obtain ⟨r, hr, rfl | ⟨d, rfl, hd, -⟩⟩ := makeExclusive_spec h g
  · exact ⟨_, by rw [insert, hr]; rfl, h⟩
  rw [insert, hr, Option.bind_some]
  dsimp only
  split
  · rename_i pNode hfound
    have hs : pNode.root = d.root := by
      split at hfound
      · cases hfound
      · obtain ⟨s, hs, hroot, -⟩ | ⟨hs, -⟩ := rbtreeSearch_spec hd.ordered key
        · obtain rfl := Option.some.inj (hs.symm.trans hfound)
          exact hroot
        · rw [hs] at hfound
          cases hfound
    split
    · exact ⟨_, rfl, valid_some hd⟩
    · exact ⟨_, rfl, valid_some (hd.setValue hs value).1⟩
  · split
    · exact ⟨_, rfl, valid_some hd⟩
    split
    · obtain ⟨d', hd', hvalid, -⟩ := hd.insert (key, value)
      exact ⟨_, by rw [hd']; rfl, valid_some hvalid⟩
    · exact ⟨_, rfl, valid_some hd⟩

/-! ## Removals -/

/-- `Count`. -/
def count (m : Map K V) : Nat :=
  match m with
  | none => 0
  | some d => d.count

/-- One entry is gone. -/
structure RemovedOne (m m' : Map K V) (e : K × V) : Prop where
  entries : ∃ front back, m.entries = front ++ e :: back ∧ m'.entries = front ++ back
  count : m'.count + 1 = m.count

structure Unchanged (m m' : Map K V) : Prop where
  entries : m'.entries = m.entries
  count : m'.count = m.count

/-- `Remove` with a key takes out one entry with the key if it reports so, and else none. -/
def RemovesKey (g : Grants) (m : Map K V) (key : K) : Prop :=
  ∃ r, m.removeKey g key = some r ∧ Valid r.2 ∧
    if r.1 = true then ∃ e, e.1 = key ∧ RemovedOne m r.2 e else Unchanged m r.2

/-- Likewise `Take`, with the value of the entry. -/
def Takes (g : Grants) (m : Map K V) (key : K) : Prop :=
  ∃ r, m.take g key = some r ∧ Valid r.2 ∧
    match r.1 with
    | some value => RemovedOne m r.2 (key, value)
    | none => Unchanged m r.2

/-- `Remove` with a key and a value takes out one such entry if there is one, and reports that. -/
def RemovesValue [DecidableEq V] (g : Grants) (m : Map K V) (key : K) (value : V) : Prop :=
  ∃ r, m.removeValue g key value = some r ∧ Valid r.2 ∧
    ((key, value) ∈ m.entries → r.1 = true ∧ RemovedOne m r.2 (key, value)) ∧
      ((key, value) ∉ m.entries → r.1 = false ∧ Unchanged m r.2)

/-- The topmost entry with the key, and the entries under it to the right. -/
def fromTop (key : K) : ColorTree (K × V) → List (K × V)
  | nil => []
  | node _ l e r => if key < e.1 then fromTop key l else if e.1 < key then fromTop key r else e :: r.toList

/-- There is memory for data of its own, and the entry is the topmost one with the key or under it to the right. -/
def Reaches (g : Grants) (m : Map K V) (key : K) (value : V) : Prop :=
  ∃ d, makeExclusive g m = some (some d) ∧ (key, value) ∈ fromTop key d.root

/-- Of the entries with the key, those from the one that is found on. -/
theorem fromTop_spec {key : K} {e : K × V} (he : e.1 = key) : ∀ (t : ColorTree (K × V)) (path : Path (K × V))
    (result : Option (Spot (K × V))), (∀ a ∈ Path.after path, key < a.1) → Ordered t.toList →
      match rbtreeFindLessEqual key t path result with
      | (true, some s) => e ∈ s.entry :: s.after ↔ e ∈ fromTop key t
      | (true, none) => True
      | (false, _) => e ∉ fromTop key t
  | nil, path, result, _, _ => List.not_mem_nil
  | node c l a r, path, result, hpath, ho => by
    obtain ⟨hl, hr, -, hge⟩ := ordered_append ho
    unfold rbtreeFindLessEqual fromTop
    by_cases hlt : key < a.1
    · rw [if_pos hlt, if_pos hlt]
      refine fromTop_spec he l _ result (fun b hb => ?_) hl
      obtain hb | hb := List.mem_append.1 hb
      · obtain rfl | hb := List.mem_cons.1 hb
        · exact hlt
        · exact lt_of_lt_of_le hlt (hge b hb)
      · exact hpath b hb
    rw [if_neg hlt, if_neg hlt]
    by_cases hgt : a.1 < key
    · rw [if_pos hgt, if_pos hgt]
      exact fromTop_spec he r _ _ hpath hr
    · rw [if_neg hgt, if_neg hgt]
      have hout : e ∉ Path.after path := fun hmem => absurd (hpath e hmem) (not_lt_of_ge (le_of_eq he))
      simp only [Spot.after, List.mem_cons, List.mem_append, hout, or_false]

theorem mem_fromTop_iff {key : K} {root : ColorTree (K × V)} (h : Ordered root.toList) {s : Spot (K × V)}
    (hs : rbtreeSearch root key = some s) (value : V) : (key, value) ∈ s.entry :: s.after ↔ (key, value) ∈ fromTop key root := by
  have hspec := @fromTop_spec _ _ _ key (key, value) rfl root [] none (fun a ha => by cases ha) h
  unfold rbtreeSearch at hs
  split at hs
  · rename_i hrun
    rw [hrun, hs] at hspec
    exact hspec
  · cases hs

theorem not_mem_fromTop {key : K} {root : ColorTree (K × V)} (h : Ordered root.toList) (hs : rbtreeSearch root key = none)
    (value : V) : (key, value) ∉ fromTop key root := by
  have hspec := @fromTop_spec _ _ _ key (key, value) rfl root [] none (fun a ha => by cases ha) h
  obtain ⟨s, hrun, -⟩ | ⟨hnone, ⟨-, hrun⟩ | ⟨s, hrun, -⟩⟩ := rbtreeFindLessEqual_spec key root [] none h
  · rw [rbtreeSearch, hrun] at hs
    cases hs
  · rw [hrun] at hspec
    exact hspec
  · rw [hrun] at hspec
    exact hspec

theorem count_eq (h : Valid m) : m.count = m.entries.length := by
  cases m with
  | none => rfl
  | some d => exact (h d rfl).count

theorem unchanged_of_entries (h : Valid m) {m' : Map K V} (h' : Valid m') (hentries : m'.entries = m.entries) : Unchanged m m' :=
  ⟨hentries, by rw [count_eq h, count_eq h', hentries]⟩

/-- A removal at a node of the data to change. -/
theorem removedOne_of_delete (h : Valid m) {d : SMapData K V} (hd : d.Valid) (hentries : d.root.toList = m.entries)
    {s : Spot (K × V)} (hs : s.root = d.root) :
    ∃ d', d.delete s = some d' ∧ Valid (some d') ∧ RemovedOne m (some d') s.entry := by
  obtain ⟨d', hd', hvalid, hlist, hcount⟩ := hd.delete hs
  refine ⟨d', hd', valid_some hvalid, ⟨s.before, s.after, ?_, hlist⟩, ?_⟩
  · rw [← hentries, ← hs, Spot.toList_root]
  · rw [count_eq h, ← hentries, ← hd.count]
    exact hcount

theorem removesKey (h : Valid m) (g : Grants) (key : K) : RemovesKey g m key := by
  obtain ⟨r, hr, rfl | ⟨d, rfl, hd, hentries⟩⟩ := makeExclusive_spec h g
  · exact ⟨_, by rw [removeKey, hr]; rfl, h, by simpa using unchanged_of_entries h h rfl⟩
  unfold RemovesKey removeKey
  rw [hr, Option.bind_some]
  dsimp only
  obtain ⟨s, hs, hroot, hkey⟩ | ⟨hs, -⟩ := rbtreeSearch_spec hd.ordered key
  · obtain ⟨d', hd', hvalid, hremoved⟩ := removedOne_of_delete h hd hentries hroot
    rw [hs]
    dsimp only
    rw [hd']
    exact ⟨_, rfl, hvalid, by simpa using ⟨s.entry.2, by rw [← hkey]; exact hremoved⟩⟩
  · rw [hs]
    exact ⟨_, rfl, valid_some hd, by simpa using unchanged_of_entries h (valid_some hd) hentries⟩

theorem takes (h : Valid m) (g : Grants) (key : K) : Takes g m key := by
  cases m with
  | none => exact ⟨_, rfl, h, ⟨rfl, rfl⟩⟩
  | some d₀ =>
  obtain ⟨r, hr, rfl | ⟨d, rfl, hd, hentries⟩⟩ := makeExclusive_spec h g
  · exact ⟨_, by rw [take, hr]; rfl, h, unchanged_of_entries h h rfl⟩
  unfold Takes
  rw [take, hr, Option.bind_some]
  dsimp only
  obtain ⟨s, hs, hroot, hkey⟩ | ⟨hs, -⟩ := rbtreeSearch_spec hd.ordered key
  · obtain ⟨d', hd', hvalid, hremoved⟩ := removedOne_of_delete h hd hentries hroot
    rw [hs]
    dsimp only
    rw [hd']
    refine ⟨_, rfl, hvalid, ?_⟩
    dsimp only
    rw [← hkey]
    exact hremoved
  · rw [hs]
    exact ⟨_, rfl, valid_some hd, unchanged_of_entries h (valid_some hd) hentries⟩

/-- The loop finds the entry from a node on, or there is none. -/
theorem seek_spec [DecidableEq V] {key : K} (value : V) {s : Spot (K × V)} (hordered : Ordered s.root.toList)
    (hkey : key ≤ s.entry.1) :
    (∃ s', seek key value s = some s' ∧ s'.root = s.root ∧ s'.entry = (key, value) ∧ (key, value) ∈ s.entry :: s.after) ∨
      seek key value s = none ∧ (key, value) ∉ s.entry :: s.after := by
  have hbehind : ∀ e ∈ s.after, s.entry.1 ≤ e.1 := by
    rw [Spot.toList_root] at hordered
    exact (ordered_append hordered).2.2.2
  rw [seek]
  by_cases hsame : s.entry.1 = key
  · rw [if_pos hsame]
    by_cases hvalue : s.entry.2 = value
    · rw [if_pos hvalue]
      have hentry : s.entry = (key, value) := Prod.ext hsame hvalue
      exact .inl ⟨s, rfl, rfl, hentry, hentry ▸ List.mem_cons_self⟩
    rw [if_neg hvalue]
    have hne : (key, value) ≠ s.entry := fun heq => hvalue (by rw [← heq])
    split
    · rename_i hnext
      refine .inr ⟨rfl, ?_⟩
      rw [(next_spec s).1 hnext, List.mem_singleton]
      exact hne
    · rename_i next hnext
      obtain ⟨hroot, -, hafter⟩ := (next_spec s).2 next hnext
      have hle : key ≤ next.entry.1 := by
        rw [← hsame]
        exact hbehind next.entry (hafter ▸ List.mem_cons_self)
      have hlt : next.after.length < s.after.length := by
        rw [← hafter]
        exact Nat.lt_succ_self _
      obtain ⟨s', hs', hroot', hentry, hmem⟩ | ⟨hs', hnot⟩ := seek_spec value (hroot ▸ hordered) hle
      · exact .inl ⟨s', hs', hroot'.trans hroot, hentry, List.mem_cons_of_mem _ (hafter ▸ hmem)⟩
      · refine .inr ⟨hs', ?_⟩
        rw [List.mem_cons, not_or, ← hafter]
        exact ⟨hne, hnot⟩
  · rw [if_neg hsame]
    refine .inr ⟨rfl, ?_⟩
    have hlt : key < s.entry.1 := lt_of_le_of_ne hkey (Ne.symm hsame)
    rw [List.mem_cons, not_or]
    constructor
    · exact fun heq => hsame (by rw [← heq])
    · exact fun hmem => absurd (hbehind _ hmem) (not_le_of_gt hlt)
  termination_by s.after.length

theorem removesValue_iff [DecidableEq V] (h : Valid m) (g : Grants) (key : K) (value : V) :
    RemovesValue g m key value ↔ ((key, value) ∈ m.entries → Reaches g m key value) := by
  have hkept : ∀ {m'}, m.removeValue g key value = some (false, m') → Valid m' → m'.entries = m.entries →
      ¬ Reaches g m key value → (RemovesValue g m key value ↔ ((key, value) ∈ m.entries → Reaches g m key value)) := by
    intro m' hrun hvalid hentries hreach
    constructor
    · rintro ⟨r, hr, -, hin, -⟩ hmem
      obtain rfl := Option.some.inj (hrun.symm.trans hr)
      cases (hin hmem).1
    · intro hmem
      exact ⟨_, hrun, hvalid, fun hin => absurd (hmem hin) hreach, fun _ => ⟨rfl, unchanged_of_entries h hvalid hentries⟩⟩
  obtain ⟨r, hr, rfl | ⟨d, rfl, hd, hentries⟩⟩ := makeExclusive_spec h g
  · refine hkept (by rw [removeValue, hr]; rfl) h rfl ?_
    rintro ⟨d, hd, -⟩
    rw [hr] at hd
    cases hd
  have hreaches : Reaches g m key value ↔ (key, value) ∈ fromTop key d.root := by
    constructor
    · rintro ⟨d', hd', hmem⟩
      obtain rfl := Option.some.inj (Option.some.inj (hr.symm.trans hd'))
      exact hmem
    · exact fun hmem => ⟨d, hr, hmem⟩
  have hrun : ∀ o, (rbtreeSearch d.root key).bind (seek key value) = o → m.removeValue g key value =
      match o with
      | some pNode => (d.delete pNode).map fun d => (true, some d)
      | none => some (false, some d) := by
    rintro _ rfl
    rw [removeValue, hr, Option.bind_some]
  obtain ⟨s, hs, hroot, hkey⟩ | ⟨hs, -⟩ := rbtreeSearch_spec hd.ordered key
  · have htop := mem_fromTop_iff hd.ordered hs value
    obtain ⟨s', hs', hroot', hentry, hmem⟩ | ⟨hs', hnot⟩ := seek_spec value (hroot ▸ hd.ordered) (le_of_eq hkey.symm)
    · obtain ⟨d', hd', hvalid, hremoved⟩ := removedOne_of_delete h hd hentries (hroot'.trans hroot)
      rw [hentry] at hremoved
      have hrun := hrun (some s') (by rw [hs, Option.bind_some, hs'])
      dsimp only at hrun
      rw [hd'] at hrun
      have hin : (key, value) ∈ m.entries := by
        rw [← hentries, ← hroot, Spot.toList_root]
        exact List.mem_append_right _ hmem
      exact iff_of_true ⟨_, hrun, hvalid, fun _ => ⟨rfl, hremoved⟩, fun hnot => absurd hin hnot⟩
        fun _ => hreaches.2 (htop.1 hmem)
    · refine hkept (hrun none (by rw [hs, Option.bind_some, hs'])) (valid_some hd) hentries fun hreach => ?_
      exact hnot (htop.2 (hreaches.1 hreach))
  · refine hkept (hrun none (by rw [hs]; rfl)) (valid_some hd) hentries fun hreach => ?_
    exact not_mem_fromTop hd.ordered hs value (hreaches.1 hreach)

theorem valid_removeValue [DecidableEq V] (h : Valid m) (g : Grants) (key : K) (value : V) :
    ∃ r, m.removeValue g key value = some r ∧ Valid r.2 := by
  obtain ⟨r, hr, rfl | ⟨d, rfl, hd, hentries⟩⟩ := makeExclusive_spec h g
  · exact ⟨_, by rw [removeValue, hr]; rfl, h⟩
  rw [removeValue, hr, Option.bind_some]
  dsimp only
  split
  · rename_i pNode hfound
    obtain ⟨s, hs, hseek⟩ := Option.bind_eq_some_iff.1 hfound
    obtain ⟨s, hs₁, hroot, hkey⟩ | ⟨hnone, -⟩ := rbtreeSearch_spec hd.ordered key
    · obtain rfl := Option.some.inj (hs.symm.trans hs₁)
      obtain ⟨s', hs', hroot', -⟩ | ⟨hs', -⟩ := seek_spec value (hroot ▸ hd.ordered) (le_of_eq hkey.symm)
      · obtain rfl := Option.some.inj (hseek.symm.trans hs')
        obtain ⟨d', hd', hvalid, -⟩ := removedOne_of_delete h hd hentries (hroot'.trans hroot)
        exact ⟨_, by rw [hd']; rfl, hvalid⟩
      · rw [hseek] at hs'
        cases hs'
    · rw [hnone] at hs
      cases hs
  · exact ⟨_, rfl, valid_some hd⟩

/-- Every call leaves a valid map. -/
theorem valid_run [DecidableEq V] (h : Valid m) (call : MapCall K V) : ∃ m', call.run m = some m' ∧ Valid m' := by
  have hresult : ∀ {α : Type} {x : Option (α × Map K V)}, (∃ r, x = some r ∧ Valid r.2) → ∃ m', x.map (·.2) = some m' ∧ Valid m' := by
    rintro α x ⟨r, rfl, hvalid⟩
    exact ⟨r.2, rfl, hvalid⟩
  cases call with
  | insert g key value mode => exact hresult (valid_insert h g key value mode)
  | removeKey g key =>
    obtain ⟨r, hr, hvalid, -⟩ := removesKey h g key
    exact hresult ⟨r, hr, hvalid⟩
  | removeValue g key value => exact hresult (valid_removeValue h g key value)
  | take g key =>
    obtain ⟨r, hr, hvalid, -⟩ := takes h g key
    exact hresult ⟨r, hr, hvalid⟩
  | clear => exact ⟨none, rfl, fun d hd => by cases hd⟩

theorem valid_mapAfter [DecidableEq V] (calls : List (MapCall K V)) : ∃ m, mapAfter calls = some m ∧ Valid m := by
  have hrun : ∀ (calls : List (MapCall K V)) (m : Map K V), Valid m → ∃ m', calls.foldlM MapCall.run m = some m' ∧ Valid m' := by
    intro calls
    induction calls with
    | nil => exact fun m h => ⟨m, rfl, h⟩
    | cons call calls ih =>
      intro m h
      obtain ⟨m', hm', hvalid⟩ := valid_run h call
      rw [List.foldlM_cons, hm']
      exact ih m' hvalid
  exact hrun calls none fun d hd => by cases hd

end Map

/-- Removals after any calls: `Take` and `Remove` with a key always keep to the key, and `Remove` with a value finds
the entries from the topmost one with the key on. -/
theorem mapRemovals_iff [DecidableEq V] (calls : List (MapCall K V)) : ∃ m, mapAfter calls = some m ∧ m.Valid ∧
    ∀ g key, m.RemovesKey g key ∧ m.Takes g key ∧
      ∀ value, m.RemovesValue g key value ↔ ((key, value) ∈ m.entries → m.Reaches g key value) := by
  obtain ⟨m, hm, hvalid⟩ := Map.valid_mapAfter calls
  exact ⟨m, hm, hvalid, fun g key => ⟨Map.removesKey hvalid g key, Map.takes hvalid g key,
    fun value => Map.removesValue_iff hvalid g key value⟩⟩

/-- An entry of a map has less than twice as many ancestors as the number of entries and one has binary digits. -/
theorem mapAfter_depth [DecidableEq V] (calls : List (MapCall K V)) : ∃ m, mapAfter calls = some m ∧
    ∀ d, m = some d → ∀ s : Spot (K × V), s.root = d.root → 2 ^ (s.path.length + 1) ≤ (d.count + 1) ^ 2 := by
  obtain ⟨m, hm, hvalid⟩ := Map.valid_mapAfter calls
  refine ⟨m, hm, fun d hd s hs => ?_⟩
  have hdepth := height_fill s.path s.tree
  rw [show fill s.path s.tree = d.root from hs] at hdepth
  have hone : 1 ≤ s.tree.height := Nat.le_add_left ..
  rw [(hvalid d hd).count]
  exact (Nat.pow_le_pow_right (by decide) (by omega)).trans (hvalid d hd).redBlack.two_pow_height

end Calls

/-- Three equal keys: the first value is in front of the root, and `Remove` does not find it. -/
theorem mapRemovals_iff_first : ∃ m, mapAfter [.insert ⟨false, true, true⟩ 1 10 .eMulti, .insert ⟨false, true, true⟩ 1 20 .eMulti,
    .insert ⟨false, true, true⟩ 1 30 .eMulti] = some m ∧ (1, 10) ∈ m.entries ∧ ¬ m.RemovesValue ⟨false, true, true⟩ 1 10 := by
  obtain ⟨m, hm, hvalid⟩ := @Map.valid_mapAfter Nat Nat _ _ [.insert ⟨false, true, true⟩ 1 10 .eMulti,
    .insert ⟨false, true, true⟩ 1 20 .eMulti, .insert ⟨false, true, true⟩ 1 30 .eMulti]
  refine ⟨m, hm, ?_⟩
  obtain rfl := Option.some.inj ((show _ = some (some ⟨node .black (node .red nil (1, 10) nil) (1, 20)
    (node .red nil (1, 30) nil), 3⟩) by rfl).symm.trans hm)
  refine ⟨by decide, ?_⟩
  rw [Map.removesValue_iff hvalid]
  intro h
  obtain ⟨d, hd, hmem⟩ := h (by decide)
  cases hd
  exact absurd hmem (by decide)

end MajorPrivacy.Core

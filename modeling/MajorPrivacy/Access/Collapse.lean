/-
What is recorded in a tree as a whole: the number of accesses, the access rights, whether one was
blocked, and the latest time. Folding branches merges the statistics of the branches themselves and
drops those of the nodes below them, and each catch-all node starts with an access of its own.
-/
import MajorPrivacy.Access.AccessTree
import Mathlib.Algebra.BigOperators.Group.List.Basic
import Mathlib.Data.UInt
import Mathlib.Tactic.Abel

namespace MajorPrivacy.Access

open MajorPrivacy.Path

/-! ## Totals -/

structure Totals where
  accessCount : UInt64
  accessMask : UInt32
  bBlocked : Bool
  lastAccessTime : Nat
  deriving DecidableEq

namespace Totals

@[ext] theorem ext {a b : Totals} (hcount : a.accessCount = b.accessCount) (hmask : a.accessMask = b.accessMask)
    (hblocked : a.bBlocked = b.bBlocked) (htime : a.lastAccessTime = b.lastAccessTime) : a = b := by
  cases a
  cases b
  simp_all

instance : Zero Totals := ⟨⟨0, 0, false, 0⟩⟩

instance : Add Totals := ⟨fun a b => ⟨a.accessCount + b.accessCount, a.accessMask ||| b.accessMask, a.bBlocked || b.bBlocked,
  max a.lastAccessTime b.lastAccessTime⟩⟩

section Fields
variable (a b : Totals)

@[simp] theorem add_accessCount : (a + b).accessCount = a.accessCount + b.accessCount := rfl
@[simp] theorem add_accessMask : (a + b).accessMask = a.accessMask ||| b.accessMask := rfl
@[simp] theorem add_bBlocked : (a + b).bBlocked = (a.bBlocked || b.bBlocked) := rfl
@[simp] theorem add_lastAccessTime : (a + b).lastAccessTime = max a.lastAccessTime b.lastAccessTime := rfl
@[simp] theorem zero_accessCount : (0 : Totals).accessCount = 0 := rfl
@[simp] theorem zero_accessMask : (0 : Totals).accessMask = 0 := rfl
@[simp] theorem zero_bBlocked : (0 : Totals).bBlocked = false := rfl
@[simp] theorem zero_lastAccessTime : (0 : Totals).lastAccessTime = 0 := rfl

end Fields

instance : AddCommMonoid Totals where
  add_assoc a b c := by
    ext <;> simp [add_assoc, UInt32.or_assoc, Bool.or_assoc, max_assoc]
  add_comm a b := by
    ext <;> simp [add_comm, UInt32.or_comm, Bool.or_comm, max_comm]
  zero_add a := by
    ext <;> simp
  add_zero a := by
    ext <;> simp
  nsmul := nsmulRec

/-- Nothing but a number of accesses. -/
def accesses (n : UInt64) : Totals := ⟨n, 0, false, 0⟩

@[simp] theorem accesses_accessCount (n : UInt64) : (accesses n).accessCount = n := rfl
@[simp] theorem accesses_accessMask (n : UInt64) : (accesses n).accessMask = 0 := rfl
@[simp] theorem accesses_bBlocked (n : UInt64) : (accesses n).bBlocked = false := rfl
@[simp] theorem accesses_lastAccessTime (n : UInt64) : (accesses n).lastAccessTime = 0 := rfl

theorem accesses_add (m n : UInt64) : accesses (m + n) = accesses m + accesses n := by
  ext <;> simp

@[simp] theorem accesses_zero : accesses 0 = 0 := rfl

/-- Accesses that were added on both sides can be taken away. -/
theorem add_accesses_inj {a b : Totals} {n : UInt64} (h : a + accesses n = b + accesses n) : a = b := by
  have hneg : accesses n + accesses (-n) = 0 := by
    rw [← accesses_add, add_neg_cancel, accesses_zero]
  have h := congrArg (· + accesses (-n)) h
  simpa only [add_assoc, hneg, add_zero] using h

/-- What is lost shows nowhere: it is as many accesses as are made up for it, and the rest of it is
recorded elsewhere. -/
structure Absorbed (kept lost : Totals) (n : UInt64) : Prop where
  count : lost.accessCount = n
  mask : kept.accessMask ||| lost.accessMask = kept.accessMask
  blocked : lost.bBlocked → kept.bBlocked
  time : lost.lastAccessTime ≤ kept.lastAccessTime

theorem add_accesses_eq_iff {kept lost : Totals} {n : UInt64} : kept + accesses n = kept + lost ↔ Absorbed kept lost n := by
  constructor
  · rintro h
    have hcount := congrArg accessCount h
    have hmask := congrArg accessMask h
    have hblocked := congrArg bBlocked h
    have htime := congrArg lastAccessTime h
    simp only [add_accessCount, add_accessMask, add_bBlocked, add_lastAccessTime, accesses_accessCount, accesses_accessMask,
      accesses_bBlocked, accesses_lastAccessTime, UInt32.or_zero, Bool.or_false] at hcount hmask hblocked htime
    refine ⟨(UInt64.add_right_inj _).1 hcount.symm, hmask.symm, ?_, by omega⟩
    rintro hlost
    rw [hblocked, hlost, Bool.or_true]
  · rintro ⟨hcount, hmask, hblocked, htime⟩
    ext
    · simp [hcount]
    · simp [hmask]
    · cases hl : lost.bBlocked
      · simp [hl]
      · simp [hblocked hl]
    · simp [htime]

end Totals

open Totals

/-- What the statistics of one node say. -/
def SAccessStats.totals (stats : SAccessStats) : Totals :=
  ⟨stats.accessCount, stats.accessMask, stats.bBlocked, stats.lastAccessTime.toNat⟩

theorem totals_new : SAccessStats.new.totals = accesses 1 := rfl

theorem totals_mergeStats (target source : SAccessStats) : (mergeStats target source).totals = target.totals + source.totals := by
  unfold mergeStats SAccessStats.totals
  dsimp only
  split
  · rename_i h
    ext
    · rfl
    · rfl
    · rfl
    · exact (max_eq_right (UInt64.le_iff_toNat_le.1 (UInt64.le_of_lt h))).symm
  · rename_i h
    ext
    · rfl
    · rfl
    · rfl
    · exact (max_eq_left (UInt64.le_iff_toNat_le.1 (UInt64.not_lt.1 h))).symm

mutual

/-- The totals of a node and everything below it. -/
def totals : SPathNode → Totals
  | ⟨_, branches, stats, _⟩ => stats.totals + totalsIn branches

def totalsIn : Branches → Totals
  | [] => 0
  | (_, node) :: branches => totals node + totalsIn branches

end

mutual

/-- The same for stored data. -/
def TreeData.totals : TreeData → Totals
  | ⟨accessName, lastActivity, wasBlocked, accessMask, ntStatus, isDirectory, accessCount, accessNodes⟩ =>
    (TreeData.stats ⟨accessName, lastActivity, wasBlocked, accessMask, ntStatus, isDirectory, accessCount, accessNodes⟩).totals +
      TreeData.totalsIn accessNodes

def TreeData.totalsIn : List TreeData → Totals
  | [] => 0
  | node :: nodes => node.totals + TreeData.totalsIn nodes

end

theorem totals_eq (node : SPathNode) : totals node = node.stats.totals + totalsIn node.branches := by
  cases node
  rfl

theorem TreeData.totals_eq (data : TreeData) : data.totals = data.stats.totals + TreeData.totalsIn data.accessNodes := by
  cases data
  rfl

theorem totalsIn_eq_sum : ∀ branches : Branches, totalsIn branches = (branches.map fun branch => totals branch.2).sum
  | [] => rfl
  | (_, node) :: branches => by
    rw [totalsIn, totalsIn_eq_sum branches]
    rfl

theorem totalsIn_perm {a b : Branches} (h : a.Perm b) : totalsIn a = totalsIn b := by
  rw [totalsIn_eq_sum, totalsIn_eq_sum]
  exact (h.map _).sum_eq

/-! ## Catch-alls -/

/-- How many accesses catch-all nodes start with, one for each node. -/
def made : Option CatchAll → UInt64
  | some _ => 1
  | none => 0

def CatchAlls.made (c : CatchAlls) : UInt64 := Access.made c.file + Access.made c.dir

def CatchAlls.totals (c : CatchAlls) : Totals := (c.file.elim 0 (·.stats.totals)) + c.dir.elim 0 (·.stats.totals)

/-- One node that is folded: its statistics are kept, and a catch-all that is made for it counts. -/
theorem fold_totals (c : CatchAlls) (stats : SAccessStats) (count : UInt32) (extra : UInt64) :
    (c.fold stats count extra).totals + accesses c.made =
      c.totals + (stats.totals + accesses extra) + accesses (c.fold stats count extra).made := by
  have hinto : ∀ target : SAccessStats, SAccessStats.totals
      { mergeStats target stats with accessCount := (mergeStats target stats).accessCount + extra } =
        target.totals + stats.totals + accesses extra := by
    rintro target
    rw [← totals_mergeStats]
    ext <;> simp [SAccessStats.totals]
  rcases c with ⟨file, dir⟩
  unfold CatchAlls.fold CatchAlls.totals CatchAlls.made
  dsimp only
  split
  · simp only [Option.elim_some, hinto]
    cases dir <;> simp only [Option.getD_none, Option.getD_some, Option.elim_none, Option.elim_some, made, CatchAll.new, totals_new,
      accesses_add, accesses_zero] <;> abel
  · simp only [Option.elim_some, hinto]
    cases file <;> simp only [Option.getD_none, Option.getD_some, Option.elim_none, Option.elim_some, made, CatchAll.new, totals_new,
      accesses_add, accesses_zero] <;> abel

theorem ensure_totals (c : CatchAlls) (isDirectory : Bool) :
    (c.ensure isDirectory).totals + accesses c.made = c.totals + accesses (c.ensure isDirectory).made := by
  rcases c with ⟨file, dir⟩
  unfold CatchAlls.ensure CatchAlls.totals CatchAlls.made
  split
  · cases dir <;> simp only [Option.getD_none, Option.getD_some, Option.elim_none, Option.elim_some, made, CatchAll.new, totals_new,
      accesses_add, accesses_zero] <;> abel
  · cases file <;> simp only [Option.getD_none, Option.getD_some, Option.elim_none, Option.elim_some, made, CatchAll.new, totals_new,
      accesses_add, accesses_zero] <;> abel

section Folding
variable {α : Type} (stats : α → SAccessStats) (count : α → UInt32) (extra : α → UInt64)

/-- The accesses that catch-all nodes start with, when there is a node to fold of each kind. -/
def catchAllsFor (hasFile hasDir : Bool) : UInt64 := (if hasFile then 1 else 0) + if hasDir then 1 else 0

theorem foldl_totals : ∀ (l : List α) (c : CatchAlls),
    (l.foldl (fun c a => c.fold (stats a) (count a) (extra a)) c).totals + accesses c.made =
      c.totals + (l.map fun a => (stats a).totals + accesses (extra a)).sum +
        accesses (l.foldl (fun c a => c.fold (stats a) (count a) (extra a)) c).made
  | [], c => by simp
  | a :: l, c => by
    have ih := foldl_totals l (c.fold (stats a) (count a) (extra a))
    have hone := fold_totals c (stats a) (count a) (extra a)
    rw [List.foldl_cons, List.map_cons, List.sum_cons]
    generalize l.foldl (fun c a => c.fold (stats a) (count a) (extra a)) (c.fold (stats a) (count a) (extra a)) = after at ih ⊢
    generalize c.fold (stats a) (count a) (extra a) = next at ih hone
    refine add_accesses_inj (n := next.made) ?_
    calc after.totals + accesses c.made + accesses next.made
      _ = after.totals + accesses next.made + accesses c.made := by abel
      _ = next.totals + accesses c.made + (l.map fun a => (stats a).totals + accesses (extra a)).sum + accesses after.made := by
        rw [ih]
        abel
      _ = _ := by
        rw [hone]
        abel

theorem foldl_isSome : ∀ (l : List α) (c : CatchAlls),
    (l.foldl (fun c a => c.fold (stats a) (count a) (extra a)) c).file.isSome = (c.file.isSome || l.any fun a => !(stats a).isDirectory) ∧
    (l.foldl (fun c a => c.fold (stats a) (count a) (extra a)) c).dir.isSome = (c.dir.isSome || l.any fun a => (stats a).isDirectory)
  | [], c => by simp
  | a :: l, c => by
    rcases foldl_isSome l (c.fold (stats a) (count a) (extra a)) with ⟨hfile, hdir⟩
    rw [List.foldl_cons, hfile, hdir]
    unfold CatchAlls.fold
    cases h : (stats a).isDirectory <;> simp [h]

theorem made_eq (c : CatchAlls) : c.made = catchAllsFor c.file.isSome c.dir.isSome := by
  rcases c with ⟨file, dir⟩
  cases file <;> cases dir <;> rfl

end Folding

/-! ## Collapse in Add -/

/-- What a collapse keeps: the statistics of the node and of its branches. -/
def keptInAdd (parent : SPathNode) : Totals := parent.stats.totals + (parent.branches.map fun branch => branch.2.stats.totals).sum

/-- What it drops: everything below the branches. -/
def lostInAdd (parent : SPathNode) : Totals := (parent.branches.map fun branch => totalsIn branch.2.branches).sum

/-- The accesses it makes up. -/
def madeInAdd (isDirectory : Bool) (parent : SPathNode) : UInt64 :=
  catchAllsFor (!isDirectory || parent.branches.any fun branch => !branch.2.stats.isDirectory)
    (isDirectory || parent.branches.any fun branch => branch.2.stats.isDirectory)

theorem totals_eq_add (parent : SPathNode) : totals parent = keptInAdd parent + lostInAdd parent := by
  have hsum : ∀ branches : Branches, totalsIn branches = (branches.map fun branch => branch.2.stats.totals).sum +
      (branches.map fun branch => totalsIn branch.2.branches).sum := by
    rintro branches
    rw [totalsIn_eq_sum, ← List.sum_map_add]
    exact congrArg List.sum (List.map_congr_left fun branch _ => totals_eq branch.2)
  rw [totals_eq, hsum, keptInAdd, lostInAdd, add_assoc]

theorem totals_collapse (isDirectory : Bool) (parent : SPathNode) :
    totals (collapse isDirectory parent) = keptInAdd parent + accesses (madeInAdd isDirectory parent) := by
  have hfold := foldl_totals (fun branch : Str × SPathNode => branch.2.stats) (fun branch => 1 + branch.2.totalCount) (fun _ => 0)
    parent.branches ⟨none, none⟩
  have hkinds := foldl_isSome (fun branch : Str × SPathNode => branch.2.stats) (fun branch => 1 + branch.2.totalCount) (fun _ => 0)
    parent.branches ⟨none, none⟩
  have hensure := ensure_totals (foldBranches parent.branches) isDirectory
  change (foldBranches parent.branches).totals + accesses 0 = 0 + _ + accesses (foldBranches parent.branches).made at hfold
  change (foldBranches parent.branches).file.isSome = _ ∧ (foldBranches parent.branches).dir.isSome = _ at hkinds
  have hmade : ((foldBranches parent.branches).ensure isDirectory).made = madeInAdd isDirectory parent := by
    rw [made_eq, madeInAdd]
    cases isDirectory <;> simp [CatchAlls.ensure, hkinds.1, hkinds.2]
  have hbranches : ∀ c : CatchAlls, totalsIn ((c.file.map (CatchAll.node catchAllKeyFile)).toList ++
      (c.dir.map (CatchAll.node catchAllKeyDir)).toList) = c.totals := by
    rintro ⟨_ | file, _ | dir⟩ <;> simp [CatchAlls.totals, CatchAll.node, totalsIn, totals]
  have hall : ((foldBranches parent.branches).ensure isDirectory).totals =
      (parent.branches.map fun branch => branch.2.stats.totals).sum + accesses (madeInAdd isDirectory parent) := by
    refine add_accesses_inj (n := (foldBranches parent.branches).made) ?_
    simp only [accesses_zero, add_zero, zero_add] at hfold
    rw [hensure, hfold, hmade]
    abel
  rw [totals_eq, collapse, hbranches, hall, keptInAdd, add_assoc]

/-! ## Collapse in LoadTree -/

/-- The branches that are not replaced by a catch-all. -/
def keptBranches (hasFile hasDir : Bool) (branches : Branches) : Branches :=
  let branches := if hasFile then Dict.erase catchAllKeyFile branches else branches
  if hasDir then Dict.erase catchAllKeyDir branches else branches

/-- The branches that are. -/
def replacedTotals (hasFile hasDir : Bool) (branches : Branches) : Totals :=
  (if hasFile then (Dict.find catchAllKeyFile branches).elim 0 totals else 0) +
    if hasDir then (Dict.find catchAllKeyDir branches).elim 0 totals else 0

def hasFile (nodes : List TreeData) : Bool := nodes.any fun node => !node.stats.isDirectory

def hasDir (nodes : List TreeData) : Bool := nodes.any fun node => node.stats.isDirectory

/-- What loading a list that is too long keeps: the statistics of the node and of the nodes in the list,
and the branches that were there and are not replaced. -/
def keptInLoad (data : TreeData) (parent : SPathNode) : Totals :=
  data.stats.totals + (data.accessNodes.map fun node => node.stats.totals).sum +
    totalsIn (keptBranches (hasFile data.accessNodes) (hasDir data.accessNodes) parent.branches)

/-- What it drops: everything below the nodes in the list, and the branches that are replaced. -/
def lostInLoad (data : TreeData) (parent : SPathNode) : Totals :=
  (data.accessNodes.map fun node => TreeData.totalsIn node.accessNodes).sum +
    replacedTotals (hasFile data.accessNodes) (hasDir data.accessNodes) parent.branches

/-- The accesses it makes up, those for old nodes without a count included. -/
def madeInLoad (data : TreeData) : UInt64 :=
  catchAllsFor (hasFile data.accessNodes) (hasDir data.accessNodes) +
    (data.accessNodes.map fun node => if node.accessNodes.length = 0 ∧ node.stats.accessCount = 0 then 1 else 0).sum

theorem totalsIn_erase (key : Str) (branches : Branches) :
    totalsIn branches = totalsIn (Dict.erase key branches) + (Dict.find key branches).elim 0 totals := by
  rcases hfind : Dict.find key branches with _ | node
  · rw [Dict.erase_of_find_eq_none hfind, Option.elim_none, add_zero]
  · rw [totalsIn_perm (Dict.perm_of_find hfind), totalsIn, Option.elim_some, add_comm]

theorem totalsIn_kept (hasFile hasDir : Bool) (branches : Branches) :
    totalsIn branches = totalsIn (keptBranches hasFile hasDir branches) + replacedTotals hasFile hasDir branches := by
  have hne : catchAllKeyFile ≠ catchAllKeyDir := by decide
  cases hasFile <;> cases hasDir <;> simp only [keptBranches, replacedTotals, if_true, Bool.false_eq_true, if_false, add_zero, zero_add]
  · exact totalsIn_erase _ _
  · exact totalsIn_erase _ _
  · rw [totalsIn_erase catchAllKeyFile, totalsIn_erase catchAllKeyDir, Dict.find_erase_of_ne hne]
    abel

/-- What is written into the branches, and what is left of them. -/
theorem totalsIn_setCatchAll (c : CatchAlls) (branches : Branches) :
    totalsIn (setCatchAll catchAllKeyDir c.dir (setCatchAll catchAllKeyFile c.file (0, branches))).2 =
      c.totals + totalsIn (keptBranches c.file.isSome c.dir.isSome branches) := by
  have hne : catchAllKeyFile ≠ catchAllKeyDir := by decide
  rcases c with ⟨_ | file, _ | dir⟩ <;>
    simp only [setCatchAll, CatchAlls.totals, keptBranches, Option.elim_none, Option.elim_some, Option.isSome_none, Option.isSome_some,
      if_true, Bool.false_eq_true, if_false, zero_add, add_zero]
  · rw [totalsIn_perm (Dict.put_perm _ _ _ _), totalsIn]
    simp [CatchAll.node, totals, totalsIn]
  · rw [totalsIn_perm (Dict.put_perm _ _ _ _), totalsIn]
    simp [CatchAll.node, totals, totalsIn]
  · rw [totalsIn_perm ((Dict.put_perm _ _ _ _).trans ((Dict.erase_put_perm hne _).cons _)), totalsIn, totalsIn]
    simp only [CatchAll.node, totals, totalsIn, add_zero]
    abel

theorem totals_eq_load (data : TreeData) (parent : SPathNode) :
    data.totals + totalsIn parent.branches = keptInLoad data parent + lostInLoad data parent := by
  have hsum : ∀ nodes : List TreeData, TreeData.totalsIn nodes = (nodes.map fun node => node.stats.totals).sum +
      (nodes.map fun node => TreeData.totalsIn node.accessNodes).sum := by
    rintro nodes
    induction nodes with
    | nil => rfl
    | cons node nodes ih =>
      rw [TreeData.totalsIn, ih, TreeData.totals_eq]
      simp only [List.map_cons, List.sum_cons]
      abel
  rw [TreeData.totals_eq, hsum, keptInLoad, lostInLoad,
    totalsIn_kept (hasFile data.accessNodes) (hasDir data.accessNodes) parent.branches]
  abel

theorem totals_loadTree {data : TreeData} (hlong : maxBranchesBeforeCollapse < data.accessNodes.length) (parent : SPathNode) :
    totals (loadTree data parent).2 = keptInLoad data parent + accesses (madeInLoad data) := by
  have hfold := foldl_totals TreeData.stats (fun node => 1 + .ofNat node.accessNodes.length)
    (fun node => if node.accessNodes.length = 0 ∧ node.stats.accessCount = 0 then 1 else 0) data.accessNodes ⟨none, none⟩
  have hkinds := foldl_isSome TreeData.stats (fun node => 1 + .ofNat node.accessNodes.length)
    (fun node => if node.accessNodes.length = 0 ∧ node.stats.accessCount = 0 then 1 else 0) data.accessNodes ⟨none, none⟩
  change (foldNodes data.accessNodes).totals + accesses 0 = 0 + _ + accesses (foldNodes data.accessNodes).made at hfold
  change (foldNodes data.accessNodes).file.isSome = _ ∧ (foldNodes data.accessNodes).dir.isSome = _ at hkinds
  have hfile : (foldNodes data.accessNodes).file.isSome = hasFile data.accessNodes := hkinds.1
  have hdir : (foldNodes data.accessNodes).dir.isSome = hasDir data.accessNodes := hkinds.2
  have hload : totals (loadTree data parent).2 = data.stats.totals +
      totalsIn (setCatchAll catchAllKeyDir (foldNodes data.accessNodes).dir
        (setCatchAll catchAllKeyFile (foldNodes data.accessNodes).file (0, parent.branches))).2 := by
    rcases data with ⟨accessName, lastActivity, wasBlocked, accessMask, ntStatus, isDirectory, accessCount, accessNodes⟩
    simp only [loadTree, if_pos hlong, totals]
  have hextra : ∀ nodes : List TreeData, (nodes.map fun node => node.stats.totals +
      accesses (if node.accessNodes.length = 0 ∧ node.stats.accessCount = 0 then 1 else 0)).sum =
        (nodes.map fun node => node.stats.totals).sum +
          accesses (nodes.map fun node => if node.accessNodes.length = 0 ∧ node.stats.accessCount = 0 then 1 else 0).sum := by
    rintro nodes
    induction nodes with
    | nil => rfl
    | cons node nodes ih =>
      simp only [List.map_cons, List.sum_cons, ih, accesses_add]
      abel
  rw [hextra, accesses_zero, add_zero, zero_add, made_eq, hfile, hdir] at hfold
  rw [hload, totalsIn_setCatchAll, hfile, hdir, hfold, keptInLoad, madeInLoad, accesses_add]
  abel

/-- A collapse records what was recorded before exactly when what it drops is as many accesses as it
makes up, and shows in what it keeps otherwise. -/
theorem totals_collapse_eq_iff {data : TreeData} (hlong : maxBranchesBeforeCollapse < data.accessNodes.length) (isDirectory : Bool)
    (parent : SPathNode) :
    (totals (collapse isDirectory parent) = totals parent ↔
      Absorbed (keptInAdd parent) (lostInAdd parent) (madeInAdd isDirectory parent)) ∧
    (totals (loadTree data parent).2 = data.totals + totalsIn parent.branches ↔
      Absorbed (keptInLoad data parent) (lostInLoad data parent) (madeInLoad data)) := by
  rw [totals_collapse, totals_eq_add, totals_loadTree hlong, totals_eq_load]
  exact ⟨add_accesses_eq_iff, add_accesses_eq_iff⟩

/-- Stored data of 1001 files, below the first of which there is another. -/
def longList : TreeData :=
  let file (name : WChar) (nodes : List TreeData) : TreeData := ⟨[name], some 5, none, some 1, none, none, some 1, nodes⟩
  ⟨[], none, none, none, none, none, none, file 1 [file 1 []] :: (List.range 1000).map fun i => file (.ofNat (i + 2)) []⟩

theorem totals_loadTree_longList :
    totals (loadTree longList (.new [])).2 = longList.totals + totalsIn (SPathNode.new []).branches :=
  (totals_collapse_eq_iff (show maxBranchesBeforeCollapse < longList.accessNodes.length by simp [longList, maxBranchesBeforeCollapse])
    false (.new [])).2.2 ⟨by decide +kernel, by decide +kernel, by decide +kernel, by decide +kernel⟩

/-- A node with 1000 branches, below the first of which an access was blocked. -/
def wide : SPathNode :=
  let leaf (name : Str) (branches : Branches) : Str × SPathNode :=
    (name, ⟨name, branches, ⟨5, false, 1, 0, false, 2⟩, .ofNat branches.length⟩)
  ⟨[], leaf [0x61] [([0x62], ⟨[0x62], [], ⟨9, true, 2, 0, false, 2⟩, 0⟩)] ::
    (List.range 999).map fun i => leaf [.ofNat (0x61 + i / 250), .ofNat (0x100 + i % 250)] [], .new, 1001⟩

/-- One more file, and the tree no longer knows of the access that was blocked. -/
theorem totals_collapse_wide_ne : wide.branches.length = maxBranchesBeforeCollapse ∧ (totals wide).bBlocked = true ∧
    (totals (collapse false wide)).bBlocked = false ∧ totals (collapse false wide) ≠ totals wide := by
  have hbefore : (totals wide).bBlocked = true := by decide +kernel
  have hafter : (totals (collapse false wide)).bBlocked = false := by
    rw [totals_collapse]
    decide +kernel
  refine ⟨by simp [wide, maxBranchesBeforeCollapse], hbefore, hafter, fun h => ?_⟩
  rw [h, hbefore] at hafter
  cases hafter

end MajorPrivacy.Access

/-
Storing an access tree and loading it into an empty one. The branches come back under the keys they
had, since a key is the name of its node in lower case and the keys are in order; that is kept by
every step. Of the statistics only those of a node that has a time are stored.
-/
import MajorPrivacy.Access.Counters

namespace MajorPrivacy.Access

open MajorPrivacy.Path

/-! ## The order of the keys -/

theorem before_iff {a b : Str} : before a b ↔ a.length < b.length ∨ a.length = b.length ∧ bytesOf a < bytesOf b := by
  simp [before]

theorem bytesOf_inj : ∀ {a b : Str}, bytesOf a = bytesOf b → a = b
  | [], [], _ => rfl
  | [], _ :: _, h => by cases h
  | _ :: _, [], h => by cases h
  | c :: a, d :: b, h => by
    change c.toUInt8 :: (c >>> 8).toUInt8 :: bytesOf a = d.toUInt8 :: (d >>> 8).toUInt8 :: bytesOf b at h
    simp only [List.cons.injEq] at h
    rcases h with ⟨hlow, hhigh, hrest⟩
    have hcd : c = d := by
      rw [← UInt8.toNat_inj] at hlow hhigh
      rw [← UInt16.toNat_inj]
      have hc := c.toNat_lt
      have hd := d.toNat_lt
      have h8 : (8 : UInt16).toNat % 16 = 8 := rfl
      simp only [UInt16.toNat_toUInt8, UInt16.toNat_shiftRight, Nat.shiftRight_eq_div_pow, h8] at hlow hhigh
      omega
    rw [hcd, bytesOf_inj hrest]

theorem before_trans (a b c : Str) (hab : before a b) (hbc : before b c) : before a c := by
  rw [before_iff] at *
  rcases hab with hab | ⟨hab, hab'⟩
  · left
    omega
  · rcases hbc with hbc | ⟨hbc, hbc'⟩
    · left
      omega
    · exact .inr ⟨hab.trans hbc, List.lt_trans hab' hbc'⟩

theorem before_total (a b : Str) (hne : a ≠ b) : before a b ∨ before b a := by
  rw [before_iff, before_iff]
  rcases Nat.lt_trichotomy a.length b.length with h | h | h
  · exact .inl (.inl h)
  · by_cases hlt : bytesOf a < bytesOf b
    · exact .inl (.inr ⟨h, hlt⟩)
    · by_cases hgt : bytesOf b < bytesOf a
      · exact .inr (.inr ⟨h.symm, hgt⟩)
      · exact absurd (bytesOf_inj (List.le_antisymm hgt hlt)) hne
  · exact .inr (.inl h)

theorem not_before_of_before {a b : Str} (h : before a b) : before b a = false := by
  rw [Bool.eq_false_iff]
  intro h'
  rw [before_iff] at h h'
  rcases h with h | ⟨h, hlt⟩
  · omega
  · rcases h' with h' | ⟨-, hgt⟩
    · omega
    · exact List.lt_asymm hlt hgt

theorem ne_of_before {a b : Str} (h : before a b) : a ≠ b := by
  rintro rfl
  rw [not_before_of_before h] at h
  cases h

/-! ## Well-formed trees -/

/-- The branches of a node: their keys are in order, each the name of its node in lower case. -/
structure Keyed (branches : Branches) : Prop where
  sorted : Dict.Sorted before branches
  key : ∀ branch ∈ branches, branch.1 = makeLower branch.2.name

mutual

def WellFormed : SPathNode → Prop
  | ⟨_, branches, _, _⟩ => Keyed branches ∧ AllWellFormed branches

def AllWellFormed : Branches → Prop
  | [] => True
  | (_, node) :: branches => WellFormed node ∧ AllWellFormed branches

end

/-- Branches that are keyed, and so are those below them. -/
def BranchesOk (branches : Branches) : Prop := Keyed branches ∧ AllWellFormed branches

theorem wellFormed_iff {node : SPathNode} : WellFormed node ↔ BranchesOk node.branches := by
  cases node
  rfl

theorem allWellFormed_iff : ∀ {branches : Branches}, AllWellFormed branches ↔ ∀ branch ∈ branches, WellFormed branch.2
  | [] => by simp [AllWellFormed]
  | (_, node) :: branches => by
    rw [AllWellFormed, allWellFormed_iff, List.forall_mem_cons]

theorem BranchesOk.find {branches : Branches} {key : Str} {node : SPathNode} (h : BranchesOk branches)
    (hfind : Dict.find key branches = some node) : WellFormed node ∧ key = makeLower node.name :=
  ⟨allWellFormed_iff.1 h.2 _ (Dict.mem_of_find hfind), h.1.key _ (Dict.mem_of_find hfind)⟩

/-- A key and the name of its node. -/
def label (branch : Str × SPathNode) : Str × Str := (branch.1, branch.2.name)

/-- Branches some of which are left out, and others changed below. -/
theorem Keyed.of_sublist {a b : Branches} (h : Keyed b) (hab : (a.map label).Sublist (b.map label)) : Keyed a := by
  constructor
  · have hsorted : (b.map label).Pairwise fun x y => before x.1 y.1 := List.pairwise_map.2 h.sorted
    exact List.pairwise_map.1 (hsorted.sublist hab)
  · rintro branch hmem
    rcases List.mem_map.1 (hab.subset (List.mem_map_of_mem hmem)) with ⟨old, hold, hlabel⟩
    have hkey := h.key old hold
    rw [label, label, Prod.mk.injEq] at hlabel
    rw [← hlabel.1, ← hlabel.2, hkey]

theorem BranchesOk.put {branches : Branches} {key : Str} {node : SPathNode} (h : BranchesOk branches) (hnode : WellFormed node)
    (hkey : key = makeLower node.name) : BranchesOk (Dict.put before key node branches) := by
  have hmem : ∀ branch ∈ Dict.put before key node branches, branch = (key, node) ∨ branch ∈ branches := by
    rintro branch hmem
    rcases List.mem_cons.1 ((Dict.put_perm before key node branches).subset hmem) with rfl | hmem
    · exact .inl rfl
    · exact .inr (Dict.erase_subset hmem)
  refine ⟨⟨h.1.sorted.put before_trans before_total, fun branch hin => ?_⟩, allWellFormed_iff.2 fun branch hin => ?_⟩
  · rcases hmem branch hin with rfl | hin
    · exact hkey
    · exact h.1.key branch hin
  · rcases hmem branch hin with rfl | hin
    · exact hnode
    · exact allWellFormed_iff.1 h.2 branch hin

theorem new_wellFormed (name : Str) : WellFormed (.new name) :=
  wellFormed_iff.2 ⟨⟨List.Pairwise.nil, fun _ h => by cases h⟩, trivial⟩

/-! ## Every step keeps a tree well formed -/

theorem through_wellFormed {parent branch : SPathNode} {key : Str} {added : Bool × SPathNode} (h : WellFormed parent)
    (hfind : Dict.find key parent.branches = some branch) (hadded : WellFormed added.2 ∧ added.2.name = branch.name) :
    WellFormed (parent.through key added).2 ∧ (parent.through key added).2.name = parent.name := by
  rw [wellFormed_iff] at h
  have hput : Dict.modify key (fun _ => added.2) parent.branches = Dict.put before key added.2 parent.branches := by
    rw [Dict.put, hfind]
  refine ⟨wellFormed_iff.2 ?_, rfl⟩
  change BranchesOk (Dict.modify key (fun _ => added.2) parent.branches)
  rw [hput]
  exact h.put hadded.1 (by rw [hadded.2]; exact (h.find hfind).2)

theorem collapse_wellFormed (isDirectory : Bool) (parent : SPathNode) : WellFormed (collapse isDirectory parent) := by
  have hleaf : ∀ (name : Str) (c : CatchAll), WellFormed (CatchAll.node name c).2 := fun name c => new_wellFormed name
  have hbefore : before catchAllKeyFile catchAllKeyDir := by decide
  rw [wellFormed_iff, collapse]
  rcases (foldBranches parent.branches).ensure isDirectory with ⟨_ | file, _ | dir⟩
  · exact ⟨⟨List.Pairwise.nil, fun _ h => by cases h⟩, trivial⟩
  · refine ⟨⟨List.pairwise_singleton _ _, ?_⟩, hleaf _ dir, trivial⟩
    rintro branch hmem
    rcases List.mem_singleton.1 hmem with rfl
    rfl
  · refine ⟨⟨List.pairwise_singleton _ _, ?_⟩, hleaf _ file, trivial⟩
    rintro branch hmem
    rcases List.mem_singleton.1 hmem with rfl
    rfl
  · refine ⟨⟨?_, ?_⟩, hleaf _ file, hleaf _ dir, trivial⟩
    · exact List.pairwise_pair.2 hbefore
    · rintro branch hmem
      rcases List.mem_pair.1 hmem with rfl | rfl
      · rfl
      · rfl

theorem addNode_wellFormed (stat : SAccessStats) : ∀ (path : List Str) {parent : SPathNode}, WellFormed parent →
    WellFormed (addNode stat path parent).2 ∧ (addNode stat path parent).2.name = parent.name
  | [], ⟨_, _, _, _⟩, h => ⟨h, rfl⟩
  | name :: path, parent, h => by
    have hgo : ∀ {key parent branch}, WellFormed parent → Dict.find key parent.branches = some branch →
        WellFormed (parent.through key (addNode stat path branch)).2 ∧
          (parent.through key (addNode stat path branch)).2.name = parent.name := fun hparent hfind =>
      through_wellFormed hparent hfind (addNode_wellFormed stat path ((wellFormed_iff.1 hparent).find hfind).1)
    unfold addNode
    rcases hcatch : Dict.find (catchAllKey stat.isDirectory) parent.branches with _ | pCatchAll
    · rcases hfind : Dict.find (makeLower name) parent.branches with _ | pBranch
      · dsimp only
        split
        · have hcollapsed := collapse_wellFormed stat.isDirectory parent
          split
          · rename_i hnew
            exact hgo hcollapsed hnew
          · exact ⟨hcollapsed, rfl⟩
        · rcases addNode_wellFormed stat path (new_wellFormed name) with ⟨hnode, hname⟩
          have hput : Dict.insert before (makeLower name) (addNode stat path (.new name)).2 parent.branches =
              Dict.put before (makeLower name) (addNode stat path (.new name)).2 parent.branches := by
            rw [Dict.put, hfind]
          refine ⟨wellFormed_iff.2 ?_, rfl⟩
          change BranchesOk (Dict.insert before (makeLower name) (addNode stat path (.new name)).2 parent.branches)
          rw [hput]
          exact (wellFormed_iff.1 h).put hnode (by rw [hname]; rfl)
      · exact hgo h hfind
    · exact hgo h hcatch

theorem setCatchAll_ok {key : Str} (hkey : key = makeLower key) (c : Option CatchAll) {counted : UInt32 × Branches}
    (h : BranchesOk counted.2) : BranchesOk (setCatchAll key c counted).2 := by
  cases c with
  | none => exact h
  | some c => exact h.put (new_wellFormed key) hkey

mutual

theorem loadTree_wellFormed : ∀ (data : TreeData) {parent : SPathNode}, WellFormed parent →
    WellFormed (loadTree data parent).2 ∧ (loadTree data parent).2.name = parent.name
  | ⟨_, _, _, _, _, _, _, accessNodes⟩, parent, h => by
    refine ⟨wellFormed_iff.2 ?_, rfl⟩
    simp only [loadTree]
    split
    · exact setCatchAll_ok rfl _ (setCatchAll_ok rfl _ (wellFormed_iff.1 h))
    · exact loadNodes_ok accessNodes (wellFormed_iff.1 h)

theorem loadNodes_ok : ∀ (nodes : List TreeData) {branches : Branches}, BranchesOk branches → BranchesOk (loadNodes nodes branches).2
  | [], _, h => h
  | node :: nodes, branches, h => by
    simp only [loadNodes]
    refine loadNodes_ok nodes ?_
    rcases hfind : Dict.find (makeLower node.accessName) branches with _ | old
    · rcases loadTree_wellFormed node (new_wellFormed node.accessName) with ⟨hnode, hname⟩
      exact h.put hnode (by rw [Option.getD_none, hname]; rfl)
    · rcases loadTree_wellFormed node (h.find hfind).1 with ⟨hnode, hname⟩
      exact h.put hnode (by rw [Option.getD_some, hname]; exact (h.find hfind).2)

end

mutual

theorem cleanUpNode_wellFormed (survives : Str → Bool) : ∀ (cancel : List Bool) (path : Str) {node : SPathNode}, WellFormed node →
    ∀ node' ∈ (cleanUpNode survives cancel path node).2, WellFormed node' ∧ node'.name = node.name
  | cancel, path, ⟨name, branches, stats, _⟩, h => by
    rcases cleanUpBranches_ok survives cancel path h.2 with ⟨hlabels, hall⟩
    unfold cleanUpNode
    split
    · exact fun _ hnode => by cases hnode
    · rintro node' ⟨⟩
      exact ⟨⟨h.1.of_sublist hlabels, hall⟩, rfl⟩

theorem cleanUpBranches_ok (survives : Str → Bool) : ∀ (cancel : List Bool) (path : Str) {branches : Branches}, AllWellFormed branches →
    ((cleanUpBranches survives cancel path branches).2.2.map label).Sublist (branches.map label) ∧
      AllWellFormed (cleanUpBranches survives cancel path branches).2.2
  | _, _, [], h => ⟨List.Sublist.refl _, h⟩
  | cancel, path, (key, node) :: branches, h => by
    unfold cleanUpBranches
    split
    · exact ⟨List.Sublist.refl _, h⟩
    · have hnode := cleanUpNode_wellFormed survives cancel.tail (childPath path key) h.1
      rcases hclean : cleanUpNode survives cancel.tail (childPath path key) node with ⟨cancel', _ | node'⟩
      · rcases cleanUpBranches_ok survives cancel' path h.2 with ⟨hlabels, hall⟩
        exact ⟨hlabels.cons _, hall⟩
      · rw [hclean] at hnode
        rcases hnode node' rfl with ⟨hok, hname⟩
        rcases cleanUpBranches_ok survives cancel' path h.2 with ⟨hlabels, hall⟩
        refine ⟨?_, hok, hall⟩
        simp only [List.map_cons, label, hname]
        exact hlabels.cons_cons _

end

mutual

theorem truncateNode_wellFormed (cleanupDate : UInt64) : ∀ {node : SPathNode}, WellFormed node →
    WellFormed (truncateNode cleanupDate node).2 ∧ (truncateNode cleanupDate node).2.name = node.name
  | ⟨_, _, stats, _⟩, h => by
    rcases truncateBranches_ok cleanupDate stats.lastAccessTime h.2 with ⟨hlabels, hall⟩
    exact ⟨⟨h.1.of_sublist hlabels, hall⟩, rfl⟩

theorem truncateBranches_ok (cleanupDate : UInt64) : ∀ (latestAccess : UInt64) {branches : Branches}, AllWellFormed branches →
    ((truncateBranches cleanupDate latestAccess branches).2.2.map label).Sublist (branches.map label) ∧
      AllWellFormed (truncateBranches cleanupDate latestAccess branches).2.2
  | _, [], h => ⟨List.Sublist.refl _, h⟩
  | latestAccess, (key, node) :: branches, h => by
    rcases truncateNode_wellFormed cleanupDate h.1 with ⟨hok, hname⟩
    rcases truncateBranches_ok cleanupDate
      (if (truncateNode cleanupDate node).1 > latestAccess then (truncateNode cleanupDate node).1 else latestAccess) h.2
      with ⟨hlabels, hall⟩
    simp only [truncateBranches]
    split
    · exact ⟨hlabels.cons _, hall⟩
    · refine ⟨?_, hok, hall⟩
      simp only [List.map_cons, label, hname]
      exact hlabels.cons_cons _

end

/-- Every node is well formed, and the root has no name. -/
def CAccessTree.WellFormed (tree : CAccessTree) : Prop := ∀ root ∈ tree, Access.WellFormed root ∧ root.name = []

theorem step_wellFormed {tree : CAccessTree} (h : tree.WellFormed) (s : Step) : (step tree s).WellFormed := by
  have hroot : Access.WellFormed (tree.getD (.new [])) ∧ (tree.getD (.new [])).name = [] := by
    cases tree with
    | none => exact ⟨new_wellFormed [], rfl⟩
    | some root => exact h root rfl
  rintro root hmem
  cases s with
  | add path accessMask accessTime ntStatus isDirectory bBlocked =>
    cases hmem
    rcases addNode_wellFormed ⟨accessTime, bBlocked, accessMask, ntStatus, isDirectory, 1⟩ (names (nativePath path)) hroot.1
      with ⟨hok, hname⟩
    exact ⟨hok, hname.trans hroot.2⟩
  | load data =>
    cases data with
    | none => exact h root hmem
    | some data =>
      cases hmem
      rcases loadTree_wellFormed data hroot.1 with ⟨hok, hname⟩
      exact ⟨hok, hname.trans hroot.2⟩
  | cleanUp survives cancel =>
    rcases Option.mem_bind_iff.1 hmem with ⟨old, hold, hnew⟩
    rcases cleanUpNode_wellFormed survives cancel [] (h old hold).1 root hnew with ⟨hok, hname⟩
    exact ⟨hok, hname.trans (h old hold).2⟩
  | truncate cleanupDate =>
    rcases Option.mem_map.1 hmem with ⟨old, hold, rfl⟩
    rcases truncateNode_wellFormed cleanupDate (h old hold).1 with ⟨hok, hname⟩
    exact ⟨hok, hname.trans (h old hold).2⟩
  | clear => cases hmem

theorem run_wellFormed : ∀ (steps : List Step) {tree : CAccessTree}, tree.WellFormed → (run tree steps).WellFormed
  | [], _, h => h
  | s :: steps, _, h => run_wellFormed steps (step_wellFormed h s)

/-! ## Storing and loading -/

/-- The statistics as they come back. -/
def SAccessStats.reload (stats : SAccessStats) : SAccessStats :=
  if stats.lastAccessTime ≠ 0 then stats else ⟨0, false, 0, 0, false, 0⟩

mutual

/-- The tree as it comes back. -/
def reload : SPathNode → SPathNode
  | ⟨name, branches, stats, _⟩ => ⟨name, reloadIn branches, stats.reload, .ofNat (nodesIn branches)⟩

def reloadIn : Branches → Branches
  | [] => []
  | (key, node) :: branches => (key, reload node) :: reloadIn branches

end

theorem loadTree_eq (data : TreeData) (parent : SPathNode) (h : data.accessNodes.length ≤ maxBranchesBeforeCollapse) :
    loadTree data parent = ((loadNodes data.accessNodes parent.branches).1,
      { parent with
        stats := data.stats
        branches := (loadNodes data.accessNodes parent.branches).2
        totalCount := parent.totalCount + (loadNodes data.accessNodes parent.branches).1 }) := by
  cases data
  simp only [loadTree, if_neg (Nat.not_lt.2 h)]

theorem storeNode_stats (name : Str) (stats : SAccessStats) (children : List TreeData) :
    (storeNode name stats children).stats = stats.reload ∧ (storeNode name stats children).accessName = name ∧
      (storeNode name stats children).accessNodes = children := by
  unfold storeNode SAccessStats.reload
  split
  · refine ⟨?_, rfl, rfl⟩
    simp only [TreeData.stats, Option.getD_some]
    split
    · rfl
    · rename_i hcount
      rw [Option.getD_none, ← not_ne_iff.1 hcount]
  · exact ⟨rfl, rfl, rfl⟩

theorem length_storeBranches : ∀ branches : Branches, (storeBranches branches).length = branches.length
  | [] => rfl
  | (_, _) :: branches => by
    rw [storeBranches, List.length_cons, length_storeBranches branches, List.length_cons]

mutual

/-- A node that is loaded into an empty one comes back. -/
theorem loadTree_storeTree : ∀ {node : SPathNode}, WellFormed node →
    (∀ n, Within n node → n.branches.length ≤ maxBranchesBeforeCollapse) →
    loadTree (storeTree node) (.new node.name) = (.ofNat (nodesBelow node), reload node)
  | ⟨name, branches, stats, totalCount⟩, h, hlimit => by
    rcases storeNode_stats name stats (storeBranches branches) with ⟨hstats, -, hnodes⟩
    have hload := loadNodes_storeBranches [] h.1 h.2
      (fun branch hmem n hin => hlimit n (.branch hmem hin)) (fun _ he => by cases he)
    have hlen : (storeTree ⟨name, branches, stats, totalCount⟩).accessNodes.length ≤ maxBranchesBeforeCollapse := by
      rw [storeTree, hnodes, length_storeBranches]
      exact hlimit _ (.root _)
    rw [loadTree_eq _ _ hlen, storeTree, hnodes, hstats]
    simp only [SPathNode.new, hload, List.nil_append, UInt32.zero_add]
    rfl

theorem loadNodes_storeBranches : ∀ {branches : Branches} (front : Branches), Keyed branches → AllWellFormed branches →
    (∀ branch ∈ branches, ∀ n, Within n branch.2 → n.branches.length ≤ maxBranchesBeforeCollapse) →
    (∀ e ∈ front, ∀ branch ∈ branches, before e.1 branch.1) →
    loadNodes (storeBranches branches) front = (.ofNat (nodesIn branches), front ++ reloadIn branches)
  | [], front, _, _, _, _ => by
    simp [storeBranches, loadNodes, nodesIn, reloadIn]
  | (key, node) :: branches, front, hkeyed, hall, hlimit, hbefore => by
    rcases List.pairwise_cons.1 hkeyed.sorted with ⟨hfirst, hsorted⟩
    have hkey : key = makeLower node.name := hkeyed.key _ List.mem_cons_self
    have hname : (storeTree node).accessName = node.name := by
      cases node
      exact (storeNode_stats _ _ _).2.1
    have hlt : ∀ e ∈ front, before e.1 key := fun e he => hbefore e he _ List.mem_cons_self
    have hfind : Dict.find key front = none := Dict.find_eq_none.2 fun e he => ne_of_before (hlt e he)
    have hput : Dict.put before key (reload node) front = front ++ [(key, reload node)] := by
      rw [Dict.put, hfind]
      exact Dict.insert_of_after fun e he => not_before_of_before (hlt e he)
    have hnode := loadTree_storeTree hall.1 (hlimit _ List.mem_cons_self)
    have hrest := loadNodes_storeBranches (front ++ [(key, reload node)])
      ⟨hsorted, fun branch hmem => hkeyed.key branch (List.mem_cons_of_mem _ hmem)⟩ hall.2
      (fun branch hmem => hlimit branch (List.mem_cons_of_mem _ hmem)) (by
        rintro e he branch hmem
        rcases List.mem_append.1 he with he | he
        · exact hbefore e he branch (List.mem_cons_of_mem _ hmem)
        · rcases List.mem_singleton.1 he with rfl
          exact hfirst branch hmem)
    simp only [storeBranches, loadNodes, hname, ← hkey, hfind, Option.getD_none, hnode, hput, hrest, Option.isNone_none, if_true,
      nodesIn, reloadIn, UInt32.ofNat_add, List.append_assoc, List.singleton_append]
    rfl

end

/-! ## The round trip -/

mutual

/-- A tree without its counters. -/
def withoutCounts : SPathNode → SPathNode
  | ⟨name, branches, stats, _⟩ => ⟨name, withoutCountsIn branches, stats, 0⟩

def withoutCountsIn : Branches → Branches
  | [] => []
  | (key, node) :: branches => (key, withoutCounts node) :: withoutCountsIn branches

end

/-- Two trees have the same paths, and the same statistics for each. -/
def CAccessTree.Same (a b : CAccessTree) : Prop := a.map withoutCounts = b.map withoutCounts

/-- A node that has no time has no other statistics. -/
def Recorded (stats : SAccessStats) : Prop := stats.lastAccessTime = 0 → stats = ⟨0, false, 0, 0, false, 0⟩

theorem reload_eq_iff {stats : SAccessStats} : stats.reload = stats ↔ Recorded stats := by
  unfold SAccessStats.reload Recorded
  by_cases h : stats.lastAccessTime = 0
  · rw [if_neg (not_not.2 h)]
    exact ⟨fun he _ => he.symm, fun he => (he h).symm⟩
  · rw [if_pos h]
    exact ⟨fun _ he => absurd he h, fun _ => rfl⟩

theorem within_iff {n node : SPathNode} : Within n node ↔ n = node ∨ ∃ branch ∈ node.branches, Within n branch.2 := by
  constructor
  · rintro (_ | ⟨hmem, hin⟩)
    · exact .inl rfl
    · exact .inr ⟨_, hmem, hin⟩
  · rintro (rfl | ⟨branch, hmem, hin⟩)
    · exact .root n
    · exact .branch hmem hin

mutual

theorem reload_same_iff : ∀ {node : SPathNode}, withoutCounts (reload node) = withoutCounts node ↔ ∀ n, Within n node → Recorded n.stats
  | ⟨name, branches, stats, totalCount⟩ => by
    simp only [reload, withoutCounts, SPathNode.mk.injEq, true_and, and_true, reload_eq_iff, reloadIn_same_iff]
    constructor
    · rintro ⟨hbranches, hstats⟩ n hin
      rcases within_iff.1 hin with rfl | ⟨branch, hmem, hin⟩
      · exact hstats
      · exact hbranches branch hmem n hin
    · rintro h
      exact ⟨fun branch hmem n hin => h n (.branch hmem hin), h _ (.root _)⟩

theorem reloadIn_same_iff : ∀ {branches : Branches}, withoutCountsIn (reloadIn branches) = withoutCountsIn branches ↔
    ∀ branch ∈ branches, ∀ n, Within n branch.2 → Recorded n.stats
  | [] => by simp [reloadIn, withoutCountsIn]
  | (key, node) :: branches => by
    simp only [reloadIn, withoutCountsIn, List.cons.injEq, Prod.mk.injEq, true_and, List.forall_mem_cons]
    rw [reload_same_iff, reloadIn_same_iff]

end

mutual

/-- A tree that was loaded is stored as the tree it was made from. -/
theorem storeTree_reload : ∀ node : SPathNode, storeTree (reload node) = storeTree node
  | ⟨name, branches, stats, totalCount⟩ => by
    rw [reload, storeTree, storeTree, storeBranches_reload]
    unfold storeNode SAccessStats.reload
    by_cases h : stats.lastAccessTime = 0
    · simp [h]
    · simp [h]

theorem storeBranches_reload : ∀ branches : Branches, storeBranches (reloadIn branches) = storeBranches branches
  | [] => rfl
  | (key, node) :: branches => by
    rw [reloadIn, storeBranches, storeBranches, storeTree_reload node, storeBranches_reload branches]

end

theorem load_store {tree : CAccessTree} (h : tree.WellFormed)
    (hlimit : ∀ root ∈ tree, ∀ node, Within node root → node.branches.length ≤ maxBranchesBeforeCollapse) :
    CAccessTree.load none tree.store = tree.map reload := by
  cases tree with
  | none => rfl
  | some root =>
    rcases h root rfl with ⟨hroot, hname⟩
    have hload := loadTree_storeTree hroot (hlimit root rfl)
    rw [hname] at hload
    simp only [CAccessTree.store, Option.map_some, CAccessTree.load, Option.getD_none, hload]

/-- A tree that any steps led to comes back from what was stored of it exactly when no node has
statistics without a time; what is stored of it then is the same in any case. -/
theorem load_store_same_iff {steps : List Step}
    (hlimit : ∀ root ∈ run none steps, ∀ node, Within node root → node.branches.length ≤ maxBranchesBeforeCollapse) :
    ((CAccessTree.load none (run none steps).store).Same (run none steps) ↔
      ∀ root ∈ run none steps, ∀ node, Within node root → Recorded node.stats) ∧
    (CAccessTree.load none (run none steps).store).store = (run none steps).store := by
  have hok : (run none steps).WellFormed := run_wellFormed steps fun _ h => by cases h
  rw [load_store hok hlimit]
  cases run none steps with
  | none => simp [CAccessTree.Same, CAccessTree.store]
  | some root =>
    constructor
    · simp only [CAccessTree.Same, Option.map_some, Option.some.injEq, reload_same_iff, Option.mem_def, forall_eq']
    · simp only [CAccessTree.store, Option.map_some, storeTree_reload]

/-- The file `\a` in a tree whose root was loaded. -/
def oneFile : List Step :=
  [.load (some ⟨[], none, none, none, none, none, none, []⟩), .add [0x5C, 0x61] 1 5 0 false false]

theorem within_oneFile {n : SPathNode} (h : ∃ root ∈ run none oneFile, Within n root) :
    n.branches.length ≤ maxBranchesBeforeCollapse ∧ Recorded n.stats := by
  rcases h with ⟨root, ⟨⟩, hin⟩
  rcases within_iff.1 hin with rfl | ⟨branch, hmem, hin⟩
  · exact ⟨by decide, fun _ => rfl⟩
  · rcases List.mem_singleton.1 hmem with rfl
    rcases within_iff.1 hin with rfl | ⟨branch, hmem, -⟩
    · exact ⟨by decide, fun h => absurd h (by decide)⟩
    · cases hmem

theorem load_store_same_oneFile : (CAccessTree.load none (run none oneFile).store).Same (run none oneFile) :=
  (load_store_same_iff fun root hroot _ hin => (within_oneFile ⟨root, hroot, hin⟩).1).1.2
    fun root hroot _ hin => (within_oneFile ⟨root, hroot, hin⟩).2

/-- `\a\b` in an empty tree: `\a` counts one access, and none when it comes back. -/
theorem not_load_store_same_child :
    ¬ (CAccessTree.load none (run none [.add [0x5C, 0x61, 0x5C, 0x62] 1 5 0 false false]).store).Same
      (run none [.add [0x5C, 0x61, 0x5C, 0x62] 1 5 0 false false]) := by
  intro h
  have hcount := congrArg (fun tree => tree.bind fun root => (Dict.find [0x61] root.branches).map (·.stats.accessCount)) h
  revert hcount
  decide

end MajorPrivacy.Access

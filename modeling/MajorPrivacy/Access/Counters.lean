/-
How many nodes there are below a node, and when `TotalCount` says so. Loading, a clean-up that is not
cancelled and truncation count every node; `Add` counts one however many nodes it makes, so it keeps
the counters only where it makes one at the most and folds no branches.
-/
import MajorPrivacy.Access.AccessTree
import Mathlib.Data.UInt

namespace MajorPrivacy.Access

open MajorPrivacy.Path

/-! ## Counting -/

mutual

/-- How many nodes there are below a node. -/
def nodesBelow : SPathNode → Nat
  | ⟨_, branches, _, _⟩ => nodesIn branches

def nodesIn : Branches → Nat
  | [] => 0
  | (_, node) :: branches => 1 + nodesBelow node + nodesIn branches

end

mutual

/-- Every counter is right, up to the width of the counters. -/
def Exact : SPathNode → Prop
  | ⟨_, branches, _, totalCount⟩ => totalCount = .ofNat (nodesIn branches) ∧ AllExact branches

def AllExact : Branches → Prop
  | [] => True
  | (_, node) :: branches => Exact node ∧ AllExact branches

end

/-- A node of a tree: the root, or one within a branch. -/
inductive Within : SPathNode → SPathNode → Prop
  | root (node : SPathNode) : Within node node
  | branch {node root : SPathNode} {branch : Str × SPathNode} : branch ∈ root.branches → Within node branch.2 → Within node root

theorem nodesBelow_eq (node : SPathNode) : nodesBelow node = nodesIn node.branches := by
  cases node
  rfl

theorem exact_iff {node : SPathNode} : Exact node ↔ node.totalCount = .ofNat (nodesIn node.branches) ∧ AllExact node.branches := by
  cases node
  rfl

theorem nodesIn_append : ∀ a b : Branches, nodesIn (a ++ b) = nodesIn a + nodesIn b
  | [], b => by simp [nodesIn]
  | (_, node) :: a, b => by
    rw [List.cons_append, nodesIn, nodesIn, nodesIn_append a b]
    omega

theorem allExact_iff : ∀ {branches : Branches}, AllExact branches ↔ ∀ branch ∈ branches, Exact branch.2
  | [] => by simp [AllExact]
  | (_, node) :: branches => by
    rw [AllExact, allExact_iff, List.forall_mem_cons]

theorem nodesIn_of_mem : ∀ {branches : Branches} {branch : Str × SPathNode}, branch ∈ branches →
    nodesBelow branch.2 < nodesIn branches
  | (_, node) :: branches, branch, h => by
    rw [nodesIn]
    rcases List.mem_cons.1 h with rfl | h
    · dsimp only
      omega
    · have := nodesIn_of_mem h
      omega

/-- In a tree that is not too large for its counters they tell the number of nodes. -/
theorem Exact.totalCount_eq {node root : SPathNode} (hin : Within node root) (h : Exact root) (hsize : nodesBelow root < 2 ^ 32) :
    node.totalCount.toNat = nodesBelow node := by
  induction hin with
  | root =>
    rw [(exact_iff.1 h).1, ← nodesBelow_eq]
    exact UInt32.toNat_ofNat_of_lt' hsize
  | branch hmem _ ih =>
    have hlt := nodesIn_of_mem hmem
    rw [nodesBelow_eq] at hsize
    exact ih (allExact_iff.1 (exact_iff.1 h).2 _ hmem) (by omega)

/-! ## Changes of the branches -/

section Branches
variable {branches : Branches} {key : Str} {old node : SPathNode}

theorem insert_exact (key : Str) (h : AllExact branches) (hnode : Exact node) : AllExact (Dict.insert before key node branches) ∧
    nodesIn (Dict.insert before key node branches) = nodesIn branches + (1 + nodesBelow node) := by
  rcases Dict.exists_of_insert before key node branches with ⟨a, b, rfl, hinsert, -, -⟩
  rw [hinsert, nodesIn_append, nodesIn_append, nodesIn, allExact_iff]
  rw [allExact_iff] at h
  refine ⟨?_, by omega⟩
  intro branch hmem
  rw [List.mem_append, List.mem_cons] at hmem
  rcases hmem with hmem | rfl | hmem
  · exact h _ (List.mem_append_left _ hmem)
  · exact hnode
  · exact h _ (List.mem_append_right _ hmem)

theorem modify_exact (hfind : Dict.find key branches = some old) (h : AllExact branches) (hnode : Exact node) :
    Exact old ∧ AllExact (Dict.modify key (fun _ => node) branches) ∧
      nodesIn (Dict.modify key (fun _ => node) branches) + nodesBelow old = nodesIn branches + nodesBelow node := by
  rcases Dict.exists_of_find hfind with ⟨a, b, rfl, -, hmodify⟩
  rw [hmodify, nodesIn_append, nodesIn_append, nodesIn, nodesIn, allExact_iff]
  rw [allExact_iff] at h
  refine ⟨h (key, old) (by simp), ?_, by omega⟩
  intro branch hmem
  rw [List.mem_append, List.mem_cons] at hmem
  rcases hmem with hmem | rfl | hmem
  · exact h _ (List.mem_append_left _ hmem)
  · exact hnode
  · exact h _ (List.mem_append_right _ (List.mem_cons_of_mem _ hmem))

end Branches

/-! ## Add -/

/-- Where the walk of `Add` meets no branch, there is room for one, and one is all it takes. -/
def AddsOne (isDirectory : Bool) : List Str → SPathNode → Prop
  | [], _ => True
  | name :: path, parent =>
    match Dict.find (catchAllKey isDirectory) parent.branches with
    | some pCatchAll => AddsOne isDirectory path pCatchAll
    | none =>
      match Dict.find (makeLower name) parent.branches with
      | some pBranch => AddsOne isDirectory path pBranch
      | none => parent.branches.length < maxBranchesBeforeCollapse ∧ path = []

/-- `Add` keeps the counters, and tells whether there is one node more. -/
def AddsExactly (parent : SPathNode) (added : Bool × SPathNode) : Prop :=
  Exact added.2 ∧ nodesBelow added.2 = nodesBelow parent + if added.1 then 1 else 0

theorem through_exact {parent branch : SPathNode} {key : Str} {added : Bool × SPathNode} (h : Exact parent)
    (hfind : Dict.find key parent.branches = some branch) (hadded : AddsExactly branch added) :
    AddsExactly parent (parent.through key added) := by
  rw [exact_iff] at h
  rcases modify_exact hfind h.2 hadded.1 with ⟨-, hexact, hcount⟩
  have hbelow : nodesIn (Dict.modify key (fun _ => added.2) parent.branches) = nodesIn parent.branches + if added.1 then 1 else 0 := by
    have := hadded.2
    omega
  unfold AddsExactly
  rw [exact_iff, nodesBelow_eq, nodesBelow_eq]
  refine ⟨⟨?_, hexact⟩, hbelow⟩
  simp only [SPathNode.through, hbelow, h.1]
  split <;> simp

theorem addNode_exact (stat : SAccessStats) : ∀ {path : List Str} {parent : SPathNode}, Exact parent →
    AddsOne stat.isDirectory path parent → AddsExactly parent (addNode stat path parent)
  | [], parent, h, _ => by
    cases parent
    exact ⟨h, rfl⟩
  | name :: path, parent, h, hone => by
    have hbranches : ∀ {key branch}, Dict.find key parent.branches = some branch → Exact branch := fun hfind =>
      allExact_iff.1 (exact_iff.1 h).2 _ (Dict.mem_of_find hfind)
    unfold AddsOne at hone
    unfold addNode
    rcases hcatch : Dict.find (catchAllKey stat.isDirectory) parent.branches with _ | pCatchAll
    · simp only [hcatch] at hone ⊢
      rcases hfind : Dict.find (makeLower name) parent.branches with _ | pBranch
      · simp only [hfind] at hone ⊢
        rcases hone with ⟨hroom, rfl⟩
        rw [if_neg (by omega)]
        have hnew : Exact (addNode stat [] (.new name)).2 := ⟨rfl, trivial⟩
        rcases insert_exact (makeLower name) (exact_iff.1 h).2 hnew with ⟨hexact, hcount⟩
        unfold AddsExactly
        rw [exact_iff, nodesBelow_eq, nodesBelow_eq]
        refine ⟨⟨?_, hexact⟩, hcount⟩
        simp only [hcount, (exact_iff.1 h).1]
        exact (UInt32.ofNat_add _ 1).symm
      · simp only [hfind] at hone ⊢
        exact through_exact h hfind (addNode_exact stat (hbranches hfind) hone)
    · simp only [hcatch] at hone ⊢
      exact through_exact h hcatch (addNode_exact stat (hbranches hcatch) hone)

/-! ## LoadTree -/

mutual

/-- No list of nodes is long enough to be folded. -/
def Fits : TreeData → Prop
  | ⟨_, _, _, _, _, _, _, accessNodes⟩ => accessNodes.length ≤ maxBranchesBeforeCollapse ∧ AllFit accessNodes

def AllFit : List TreeData → Prop
  | [] => True
  | node :: nodes => Fits node ∧ AllFit nodes

end

/-- A branch is replaced, or placed, by one that has `count` nodes more below it. -/
theorem put_exact {branches : Branches} {key name : Str} {node : SPathNode} {count : UInt32} (h : AllExact branches)
    (hnode : Exact node) (hcount : UInt32.ofNat (nodesBelow node) =
      .ofNat (nodesBelow ((Dict.find key branches).getD (.new name))) + count) :
    AllExact (Dict.put before key node branches) ∧ UInt32.ofNat (nodesIn (Dict.put before key node branches)) =
      .ofNat (nodesIn branches) + ((if (Dict.find key branches).isNone then 1 else 0) + count) := by
  unfold Dict.put
  rcases hfind : Dict.find key branches with _ | old
  · rw [hfind] at hcount
    rcases insert_exact key h hnode with ⟨hexact, hin⟩
    refine ⟨hexact, ?_⟩
    simp only [hin, UInt32.ofNat_add, hcount, Option.getD_none, Option.isNone_none, if_true, SPathNode.new, nodesBelow, nodesIn]
    simp
  · rw [hfind] at hcount
    rcases modify_exact hfind h hnode with ⟨-, hexact, hin⟩
    refine ⟨hexact, ?_⟩
    have hin := congrArg UInt32.ofNat hin
    simp only [UInt32.ofNat_add, hcount, Option.getD_some] at hin
    simp only [Option.isNone_some, Bool.false_eq_true, if_false]
    grind

mutual

theorem loadTree_exact : ∀ {data : TreeData} {parent : SPathNode}, Fits data → Exact parent →
    Exact (loadTree data parent).2 ∧
      UInt32.ofNat (nodesBelow (loadTree data parent).2) = .ofNat (nodesBelow parent) + (loadTree data parent).1
  | ⟨_, _, _, _, _, _, _, accessNodes⟩, parent, hfits, h => by
    rcases loadNodes_exact hfits.2 (exact_iff.1 h).2 with ⟨hexact, hcount⟩
    have hlen : ¬ accessNodes.length > maxBranchesBeforeCollapse := Nat.not_lt.2 hfits.1
    rw [exact_iff, nodesBelow_eq, nodesBelow_eq parent]
    simp only [loadTree, if_neg hlen, hcount, (exact_iff.1 h).1]
    exact ⟨⟨trivial, hexact⟩, trivial⟩

theorem loadNodes_exact : ∀ {nodes : List TreeData} {branches : Branches}, AllFit nodes → AllExact branches →
    AllExact (loadNodes nodes branches).2 ∧
      UInt32.ofNat (nodesIn (loadNodes nodes branches).2) = .ofNat (nodesIn branches) + (loadNodes nodes branches).1
  | [], branches, _, h => by
    simp [loadNodes, h]
  | node :: nodes, branches, hfits, h => by
    have hold : Exact ((Dict.find (makeLower node.accessName) branches).getD (.new node.accessName)) := by
      rcases hfind : Dict.find (makeLower node.accessName) branches with _ | old
      · exact ⟨rfl, trivial⟩
      · exact allExact_iff.1 h _ (Dict.mem_of_find hfind)
    rcases loadTree_exact hfits.1 hold with ⟨hexact, hcount⟩
    rcases put_exact h hexact hcount with ⟨hput, hin⟩
    rcases loadNodes_exact hfits.2 hput with ⟨hrest, hall⟩
    simp only [loadNodes]
    refine ⟨hrest, ?_⟩
    rw [hall, hin]
    ac_rfl

end

/-! ## CleanUp and Truncate -/

mutual

theorem cleanUpNode_exact (survives : Str → Bool) : ∀ {cancel : List Bool} (path : Str) (node : SPathNode),
    (∀ b ∈ cancel, b = false) → (∀ b ∈ (cleanUpNode survives cancel path node).1, b = false) ∧
      ∀ node' ∈ (cleanUpNode survives cancel path node).2, Exact node'
  | cancel, path, ⟨name, branches, stats, totalCount⟩, h => by
    rcases cleanUpBranches_exact survives path branches h with ⟨hcancel, hcount, hexact⟩
    unfold cleanUpNode
    split
    · exact ⟨h, fun _ hnode => by cases hnode⟩
    · refine ⟨hcancel, ?_⟩
      rintro node' ⟨⟩
      exact ⟨hcount, hexact⟩

theorem cleanUpBranches_exact (survives : Str → Bool) : ∀ {cancel : List Bool} (path : Str) (branches : Branches),
    (∀ b ∈ cancel, b = false) → (∀ b ∈ (cleanUpBranches survives cancel path branches).1, b = false) ∧
      (cleanUpBranches survives cancel path branches).2.1 = .ofNat (nodesIn (cleanUpBranches survives cancel path branches).2.2) ∧
      AllExact (cleanUpBranches survives cancel path branches).2.2
  | cancel, path, [], h => ⟨h, rfl, trivial⟩
  | cancel, path, (key, node) :: branches, h => by
    have hhead : cancel.headD false = false := by
      cases cancel with
      | nil => rfl
      | cons b cancel => exact h b List.mem_cons_self
    have htail : ∀ b ∈ cancel.tail, b = false := fun b hb => h b (List.mem_of_mem_tail hb)
    rcases cleanUpNode_exact survives (childPath path key) node htail with ⟨hcancel, hnode⟩
    unfold cleanUpBranches
    rw [hhead, if_neg Bool.false_ne_true]
    rcases hclean : cleanUpNode survives cancel.tail (childPath path key) node with ⟨cancel', _ | node'⟩
    · rw [hclean] at hcancel
      exact cleanUpBranches_exact survives path branches hcancel
    · rw [hclean] at hcancel hnode
      rcases cleanUpBranches_exact survives path branches hcancel with ⟨hcancel', hcount, hexact⟩
      have hnode := hnode node' rfl
      refine ⟨hcancel', ?_, hnode, hexact⟩
      simp only [hcount, nodesIn, UInt32.ofNat_add, (exact_iff.1 hnode).1, nodesBelow_eq node']
      rfl

end

mutual

/-- Truncation counts anew. -/
theorem truncateNode_exact (cleanupDate : UInt64) : ∀ node : SPathNode, Exact (truncateNode cleanupDate node).2
  | ⟨_, branches, stats, _⟩ => truncateBranches_exact cleanupDate stats.lastAccessTime branches

theorem truncateBranches_exact (cleanupDate : UInt64) : ∀ (latestAccess : UInt64) (branches : Branches),
    (truncateBranches cleanupDate latestAccess branches).2.1 =
        .ofNat (nodesIn (truncateBranches cleanupDate latestAccess branches).2.2) ∧
      AllExact (truncateBranches cleanupDate latestAccess branches).2.2
  | _, [] => ⟨rfl, trivial⟩
  | latestAccess, (key, node) :: branches => by
    have hnode := truncateNode_exact cleanupDate node
    rcases truncateBranches_exact cleanupDate
      (if (truncateNode cleanupDate node).1 > latestAccess then (truncateNode cleanupDate node).1 else latestAccess) branches
      with ⟨hcount, hexact⟩
    simp only [truncateBranches]
    split
    · exact ⟨hcount, hexact⟩
    · refine ⟨?_, hnode, hexact⟩
      simp only [hcount, nodesIn, UInt32.ofNat_add, (exact_iff.1 hnode).1, nodesBelow_eq (truncateNode cleanupDate node).2]
      rfl

end

/-! ## Runs -/

def CAccessTree.Exact (tree : CAccessTree) : Prop := ∀ root ∈ tree, Access.Exact root

/-- In a tree that is not too large for its counters, every counter tells the number of nodes below. -/
def CAccessTree.Counted (tree : CAccessTree) : Prop :=
  ∀ root ∈ tree, nodesBelow root < 2 ^ 32 →
    (∀ node, Within node root → node.totalCount.toNat = nodesBelow node) ∧ tree.getAccessCount.toNat = nodesBelow root

theorem CAccessTree.Exact.counted {tree : CAccessTree} (h : tree.Exact) : tree.Counted := by
  rintro root hroot hsize
  refine ⟨fun node hin => (h root hroot).totalCount_eq hin hsize, ?_⟩
  rw [Option.mem_def] at hroot
  subst hroot
  exact (h root rfl).totalCount_eq (.root root) hsize

/-- A step that counts what it does: an access takes one new node at the most, no list of nodes is
folded, and a clean-up is not cancelled. -/
def Step.Counts (tree : CAccessTree) : Step → Prop
  | .add path _ _ _ isDirectory _ => AddsOne isDirectory (names (nativePath path)) (tree.getD (.new []))
  | .load data => ∀ d ∈ data, Fits d
  | .cleanUp _ cancel => ∀ b ∈ cancel, b = false
  | .truncate _ => True
  | .clear => True

/-- A step that counts all nodes anew. -/
def Step.Resets : Step → Prop
  | .cleanUp _ cancel => ∀ b ∈ cancel, b = false
  | .truncate _ => True
  | .clear => True
  | _ => False

theorem step_exact_of_resets {s : Step} (h : s.Resets) (tree : CAccessTree) : (step tree s).Exact := by
  rintro root hroot
  cases s with
  | add | load => cases h
  | cleanUp survives cancel =>
    rcases Option.mem_bind_iff.1 hroot with ⟨old, -, hold⟩
    exact (cleanUpNode_exact survives [] old h).2 root hold
  | truncate cleanupDate =>
    rcases Option.mem_map.1 hroot with ⟨old, -, rfl⟩
    exact truncateNode_exact cleanupDate old
  | clear => cases hroot

theorem step_exact {tree : CAccessTree} (h : tree.Exact) {s : Step} (hs : s.Counts tree) : (step tree s).Exact := by
  have hroot : Access.Exact (tree.getD (.new [])) := by
    cases tree with
    | none => exact ⟨rfl, trivial⟩
    | some root => exact h root rfl
  cases s with
  | add path accessMask accessTime ntStatus isDirectory bBlocked =>
    rintro root ⟨⟩
    exact (addNode_exact ⟨accessTime, bBlocked, accessMask, ntStatus, isDirectory, 1⟩ hroot hs).1
  | load data =>
    cases data with
    | none => exact h
    | some data =>
      rintro root ⟨⟩
      exact (loadTree_exact (hs data rfl) hroot).1
  | cleanUp survives cancel => exact step_exact_of_resets (s := .cleanUp survives cancel) hs tree
  | truncate cleanupDate => exact step_exact_of_resets (s := .truncate cleanupDate) trivial tree
  | clear => exact step_exact_of_resets (s := .clear) trivial tree

def run (tree : CAccessTree) (steps : List Step) : CAccessTree := steps.foldl step tree

def StepsCount : CAccessTree → List Step → Prop
  | _, [] => True
  | tree, s :: steps => s.Counts tree ∧ StepsCount (step tree s) steps

theorem run_exact : ∀ {pre post : List Step} (tree : CAccessTree), tree.Exact → StepsCount tree (pre ++ post) → (run tree pre).Exact
  | [], _, _, h, _ => h
  | s :: _, _, tree, h, hsteps => run_exact (step tree s) (step_exact h hsteps.1) hsteps.2

/-- From an empty tree, or one whose nodes have just been counted, the counters are right in every
state as long as the steps count what they do. -/
theorem run_counted {start : CAccessTree} (hstart : start = none ∨ ∃ tree first, first.Resets ∧ start = step tree first)
    {steps : List Step} (hsteps : StepsCount start steps) (pre post : List Step) (hsplit : steps = pre ++ post) :
    (run start pre).Counted := by
  subst hsplit
  refine (run_exact start ?_ hsteps).counted
  rcases hstart with rfl | ⟨tree, first, hfirst, rfl⟩
  · exact fun _ hroot => by cases hroot
  · exact step_exact_of_resets hfirst tree

/-- `\a`, then `\a\b`. -/
theorem run_counted_parent_then_child : (run none [.add [0x5C, 0x61] 1 5 0 true false,
    .add [0x5C, 0x61, 0x5C, 0x62] 1 5 0 false false]).Counted :=
  run_counted (.inl rfl)
    (show StepsCount none ([.add [0x5C, 0x61] 1 5 0 true false, .add [0x5C, 0x61, 0x5C, 0x62] 1 5 0 false false] ++ []) from
      ⟨⟨by decide, rfl⟩, ⟨by decide, rfl⟩, trivial⟩) _ [] rfl

/-- `\a\b` in an empty tree makes two nodes, and one is counted. -/
theorem not_run_counted_child : ¬ (run none [.add [0x5C, 0x61, 0x5C, 0x62] 1 5 0 false false]).Counted := by
  intro h
  have hcount := (h _ rfl (by decide)).2
  revert hcount
  decide

end MajorPrivacy.Access

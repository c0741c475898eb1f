/-
`CAccessTree` (AccessTree.cpp): what a program accessed, one node for each part of a path, with the
branches of a node kept under their names in lower case. A node that would get too many branches has
them folded into a catch-all node for files and one for directories. The number a node is shown
under (`Uid`) is left out, and so is the progress that `CleanUp` reports.
-/
import MajorPrivacy.Lib.Dict
import MajorPrivacy.Path.SmartPattern

namespace MajorPrivacy.Access

open MajorPrivacy.Path

/-- `MAX_BRANCHES_BEFORE_COLLAPSE`. -/
def maxBranchesBeforeCollapse : Nat := 1000

/-! ## Nodes -/

structure SAccessStats where
  lastAccessTime : UInt64
  bBlocked : Bool
  accessMask : UInt32
  ntStatus : UInt32
  isDirectory : Bool
  accessCount : UInt64
  deriving DecidableEq

/-- The statistics of a new node: the constructor counts one access when it is told nothing. -/
def SAccessStats.new : SAccessStats := ⟨0, false, 0, 0, false, 1⟩

/-- `MergeStats`. -/
def mergeStats (target source : SAccessStats) : SAccessStats :=
  let target :=
    if source.lastAccessTime > target.lastAccessTime then
      { target with
        lastAccessTime := source.lastAccessTime
        ntStatus := source.ntStatus
        isDirectory := source.isDirectory }
    else target
  { target with
    accessMask := target.accessMask ||| source.accessMask
    bBlocked := target.bBlocked || source.bBlocked
    accessCount := target.accessCount + source.accessCount }

structure SPathNode where
  name : Str
  branches : List (Str × SPathNode)
  stats : SAccessStats
  totalCount : UInt32

abbrev Branches := List (Str × SPathNode)

def SPathNode.new (name : Str) : SPathNode := ⟨name, [], .new, 0⟩

/-- `m_Root`. -/
abbrev CAccessTree := Option SPathNode

/-- `GetAccessCount`. -/
def CAccessTree.getAccessCount (tree : CAccessTree) : UInt32 := tree.elim 0 (·.totalCount)

/-- The bytes of a string, as `MemCmp` sees them. -/
def bytesOf (s : Str) : List UInt8 := s.flatMap fun c : WChar => [c.toUInt8, (c >>> 8).toUInt8]

/-- The order of the keys, `FW::StringW::Compare`: by length, then byte by byte. -/
def before (a b : Str) : Bool := a.length < b.length || (a.length = b.length && bytesOf a < bytesOf b)

/-- The keys of the two catch-all nodes, which are their names as well. -/
def catchAllKeyFile : Str := [asterisk]

def catchAllKeyDir : Str := [asterisk, backslash]

def catchAllKey (isDirectory : Bool) : Str := if isDirectory then catchAllKeyDir else catchAllKeyFile

/-! ## Folding branches -/

/-- A catch-all node while nodes are folded into it: its statistics, and how many they are. -/
structure CatchAll where
  stats : SAccessStats
  count : UInt32

def CatchAll.new : CatchAll := ⟨.new, 0⟩

/-- The node that is made of a catch-all. -/
def CatchAll.node (name : Str) (c : CatchAll) : Str × SPathNode := (name, ⟨name, [], c.stats, c.count⟩)

/-- The two catch-all nodes; either is made when something is folded into it. -/
structure CatchAlls where
  file : Option CatchAll
  dir : Option CatchAll

/-- One node is folded: its statistics are merged, `count` nodes counted and `extra` accesses added. -/
def CatchAlls.fold (c : CatchAlls) (stats : SAccessStats) (count : UInt32) (extra : UInt64) : CatchAlls :=
  let into (target : Option CatchAll) : Option CatchAll :=
    let target := target.getD .new
    let merged := mergeStats target.stats stats
    some ⟨{ merged with accessCount := merged.accessCount + extra }, target.count + count⟩
  if stats.isDirectory then { c with dir := into c.dir } else { c with file := into c.file }

/-- The catch-all for a kind of access exists. -/
def CatchAlls.ensure (c : CatchAlls) (isDirectory : Bool) : CatchAlls :=
  if isDirectory then { c with dir := some (c.dir.getD .new) } else { c with file := some (c.file.getD .new) }

/-- All branches of a node are folded. -/
def foldBranches (branches : Branches) : CatchAlls :=
  branches.foldl (fun c branch => c.fold branch.2.stats (1 + branch.2.totalCount) 0) ⟨none, none⟩

/-- The collapse in `Add`: the branches of a node are replaced by catch-alls, the one for the kind of
access at hand among them. -/
def collapse (isDirectory : Bool) (parent : SPathNode) : SPathNode :=
  let c := (foldBranches parent.branches).ensure isDirectory
  { parent with
    branches := (c.file.map (CatchAll.node catchAllKeyFile)).toList ++ (c.dir.map (CatchAll.node catchAllKeyDir)).toList }

/-! ## Add -/

/-- The names in a path, which is cut at the separators; separators in a row count as one. -/
def names (path : Str) : List Str := go [] path
where
  go (name : Str) : Str → List Str
    | [] => if name = [] then [] else [name]
    | c :: path =>
      if c = backslash then (if name = [] then go [] path else name :: go [] path)
      else go (name ++ [c]) path

/-- A branch that exists is changed, and the node counts when something was added. -/
def SPathNode.through (parent : SPathNode) (key : Str) (added : Bool × SPathNode) : Bool × SPathNode :=
  (added.1,
    { parent with
      branches := Dict.modify key (fun _ => added.2) parent.branches
      totalCount := if added.1 then parent.totalCount + 1 else parent.totalCount })

/-- The recursive `Add`, on the names left of the path; tells whether something was added. -/
def addNode (stat : SAccessStats) : List Str → SPathNode → Bool × SPathNode
  | [], parent => (false, { parent with stats := mergeStats parent.stats stat })
  | name :: path, parent =>
    match Dict.find (catchAllKey stat.isDirectory) parent.branches with
    | some pCatchAll => parent.through (catchAllKey stat.isDirectory) (addNode stat path pCatchAll)
    | none =>
      match Dict.find (makeLower name) parent.branches with
      | some pBranch => parent.through (makeLower name) (addNode stat path pBranch)
      | none =>
        if parent.branches.length ≥ maxBranchesBeforeCollapse then
          let parent := collapse stat.isDirectory parent
          match Dict.find (catchAllKey stat.isDirectory) parent.branches with
          | some pCatchAll => parent.through (catchAllKey stat.isDirectory) (addNode stat path pCatchAll)
          | none => (false, parent) -- not reached, the catch-all has just been made
        else
          let pBranch := (addNode stat path (.new name)).2
          (true,
            { parent with
              branches := Dict.insert before (makeLower name) pBranch parent.branches
              totalCount := parent.totalCount + 1 })

/-- `\device\mup\`. -/
def deviceMup : Str :=
  [0x5C, 0x64, 0x65, 0x76, 0x69, 0x63, 0x65, 0x5C, 0x6D, 0x75, 0x70, 0x5C]

/-- What `Add` makes of a path on the network. -/
def nativePath : Str → Str
  | a :: b :: path => if a = backslash ∧ b = backslash then deviceMup ++ path else a :: b :: path
  | path => path

/-- `Add`; an access is counted once. -/
def CAccessTree.add (tree : CAccessTree) (path : Str) (accessMask : UInt32) (accessTime : UInt64) (ntStatus : UInt32)
    (isDirectory bBlocked : Bool) : CAccessTree :=
  some (addNode ⟨accessTime, bBlocked, accessMask, ntStatus, isDirectory, 1⟩ (names (nativePath path)) (tree.getD (.new []))).2

/-! ## Storing -/

/-- What `StoreNode` writes of a node, and `LoadTree` reads: each value may be missing. -/
structure TreeData where
  accessName : Str
  lastActivity : Option UInt64
  wasBlocked : Option Bool
  accessMask : Option UInt32
  ntStatus : Option UInt32
  isDirectory : Option Bool
  accessCount : Option UInt64
  accessNodes : List TreeData

/-- `StoreNode`: the statistics of a node that was not accessed itself are left out. -/
def storeNode (name : Str) (stats : SAccessStats) (children : List TreeData) : TreeData :=
  if stats.lastAccessTime ≠ 0 then
    { accessName := name
      lastActivity := some stats.lastAccessTime
      wasBlocked := some stats.bBlocked
      accessMask := some stats.accessMask
      ntStatus := some stats.ntStatus
      isDirectory := some stats.isDirectory
      accessCount := if stats.accessCount ≠ 0 then some stats.accessCount else none
      accessNodes := children }
  else ⟨name, none, none, none, none, none, none, children⟩

mutual

/-- The recursive `StoreTree`. -/
def storeTree : SPathNode → TreeData
  | ⟨name, branches, stats, _⟩ => storeNode name stats (storeBranches branches)

def storeBranches : Branches → List TreeData
  | [] => []
  | (_, node) :: branches => storeTree node :: storeBranches branches

end

/-- `StoreTree`; there is nothing to store without a root. -/
def CAccessTree.store (tree : CAccessTree) : Option TreeData := tree.map storeTree

/-! ## Loading -/

/-- The statistics as they are read, with what stands for a missing value. -/
def TreeData.stats (data : TreeData) : SAccessStats where
  lastAccessTime := data.lastActivity.getD 0
  bBlocked := data.wasBlocked.getD false
  accessMask := data.accessMask.getD 0
  ntStatus := data.ntStatus.getD 0
  isDirectory := data.isDirectory.getD false
  accessCount := data.accessCount.getD 0

/-- The nodes of a list that is too long are folded; one without nodes of its own and without a count
stands for an access. -/
def foldNodes (nodes : List TreeData) : CatchAlls :=
  nodes.foldl (fun c node => c.fold node.stats (1 + .ofNat node.accessNodes.length)
    (if node.accessNodes.length = 0 ∧ node.stats.accessCount = 0 then 1 else 0)) ⟨none, none⟩

/-- A catch-all that was made is set, and counted with what was folded into it. -/
def setCatchAll (key : Str) : Option CatchAll → UInt32 × Branches → UInt32 × Branches
  | some c, (count, branches) => (count + (1 + c.count), Dict.put before key (CatchAll.node key c).2 branches)
  | none, counted => counted

mutual

/-- The recursive `LoadTree`: the node, and how many nodes were added below it. -/
def loadTree : TreeData → SPathNode → UInt32 × SPathNode
  | ⟨accessName, lastActivity, wasBlocked, accessMask, ntStatus, isDirectory, accessCount, accessNodes⟩, parent =>
    let data : TreeData := ⟨accessName, lastActivity, wasBlocked, accessMask, ntStatus, isDirectory, accessCount, accessNodes⟩
    let loaded :=
      if accessNodes.length > maxBranchesBeforeCollapse then
        let c := foldNodes accessNodes
        setCatchAll catchAllKeyDir c.dir (setCatchAll catchAllKeyFile c.file (0, parent.branches))
      else loadNodes accessNodes parent.branches
    (loaded.1, { parent with stats := data.stats, branches := loaded.2, totalCount := parent.totalCount + loaded.1 })

/-- The loop of `LoadTree`. -/
def loadNodes : List TreeData → Branches → UInt32 × Branches
  | [], branches => (0, branches)
  | node :: nodes, branches =>
    let key := makeLower node.accessName
    let found := Dict.find key branches
    let loaded := loadTree node (found.getD (.new node.accessName))
    let rest := loadNodes nodes (Dict.put before key loaded.2 branches)
    ((if found.isNone then 1 else 0) + loaded.1 + rest.1, rest.2)

end

/-- `LoadTree`; data that is not valid changes nothing. -/
def CAccessTree.load (tree : CAccessTree) : Option TreeData → CAccessTree
  | none => tree
  | some data => some (loadTree data (tree.getD (.new []))).2

/-! ## CleanUp -/

/-- The path of a branch: a drive stands for itself below the root. -/
def childPath (path key : Str) : Str :=
  if path ≠ [] then path ++ backslash :: key
  else if key.length = 2 ∧ key[1]? = some 0x3A then key
  else backslash :: key

mutual

/-- The recursive `CleanUp`. `survives` is what its checks find for a path: named pipes and the hives
of apps are always removed, else it is removed when the system does not know it. `cancel` is what
`pbCancel` shows each time it is looked at. -/
def cleanUpNode (survives : Str → Bool) (cancel : List Bool) (path : Str) : SPathNode → List Bool × Option SPathNode
  | ⟨name, branches, stats, _⟩ =>
    if path ≠ [] ∧ ¬ survives path then (cancel, none)
    else
      let (cancel, cleaned) := cleanUpBranches survives cancel path branches
      (cancel, some { name, stats, branches := cleaned.2, totalCount := cleaned.1 })

/-- Its loop: how many nodes are left, and the branches. -/
def cleanUpBranches (survives : Str → Bool) (cancel : List Bool) (path : Str) : Branches → List Bool × UInt32 × Branches
  | [] => (cancel, 0, [])
  | (key, node) :: branches =>
    if cancel.headD false then (cancel.tail, 0, (key, node) :: branches)
    else
      match cleanUpNode survives cancel.tail (childPath path key) node with
      | (cancel, none) => cleanUpBranches survives cancel path branches
      | (cancel, some node) =>
        let (cancel, cleaned) := cleanUpBranches survives cancel path branches
        (cancel, 1 + node.totalCount + cleaned.1, (key, node) :: cleaned.2)

end

/-- `CleanUp`. -/
def CAccessTree.cleanUp (tree : CAccessTree) (survives : Str → Bool) (cancel : List Bool) : CAccessTree :=
  tree.bind fun root => (cleanUpNode survives cancel [] root).2

/-! ## Truncate -/

mutual

/-- The recursive `Truncate`: the latest access below a node. -/
def truncateNode (cleanupDate : UInt64) : SPathNode → UInt64 × SPathNode
  | ⟨name, branches, stats, _⟩ =>
    let (latest, count, branches) := truncateBranches cleanupDate stats.lastAccessTime branches
    (latest, ⟨name, branches, stats, count⟩)

def truncateBranches (cleanupDate : UInt64) (latestAccess : UInt64) : Branches → UInt64 × UInt32 × Branches
  | [] => (latestAccess, 0, [])
  | (key, node) :: branches =>
    let (lastAccess, node) := truncateNode cleanupDate node
    let latestAccess := if lastAccess > latestAccess then lastAccess else latestAccess
    let (latest, count, branches) := truncateBranches cleanupDate latestAccess branches
    if lastAccess < cleanupDate then (latest, count, branches)
    else (latest, 1 + node.totalCount + count, (key, node) :: branches)

end

/-- `Truncate`. -/
def CAccessTree.truncate (tree : CAccessTree) (cleanupDate : UInt64) : CAccessTree :=
  tree.map fun root => (truncateNode cleanupDate root).2

/-! ## Runs -/

inductive Step
  | add (path : Str) (accessMask : UInt32) (accessTime : UInt64) (ntStatus : UInt32) (isDirectory bBlocked : Bool)
  | load (data : Option TreeData)
  | cleanUp (survives : Str → Bool) (cancel : List Bool)
  | truncate (cleanupDate : UInt64)
  | clear

def step (tree : CAccessTree) : Step → CAccessTree
  | .add path accessMask accessTime ntStatus isDirectory bBlocked =>
    tree.add path accessMask accessTime ntStatus isDirectory bBlocked
  | .load data => tree.load data
  | .cleanUp survives cancel => tree.cleanUp survives cancel
  | .truncate cleanupDate => tree.truncate cleanupDate
  | .clear => none

end MajorPrivacy.Access

/-
`CPathTree` (PathTree.cpp): path patterns in a tree, one node per path element, with the elements
that hold wildcards apart from the others. A path and an offset into it are what is left of the path
from there; a pointer to an entry is a value of the type of entries.
-/
import MajorPrivacy.Core.Table
import MajorPrivacy.Path.SmartPattern

namespace MajorPrivacy.Path

open MajorPrivacy.Core

/-- An entry; `CPathEntry::GetPath`. -/
class PathEntry (E : Type) where
  getPath : E → Str

structure SPathEntry (E : Type) where
  pEntry : E
  info : SPatternInfo
  endsWithSeparator : Bool

structure SPathNode (E : Type) where
  name : Str
  branches : Table Str (SPathNode E)
  wildBranches : Table Str (SPathNode E × CSmartPattern)
  entries : List (SPathEntry E)

structure CPathTree (E : Type) where
  separator : WChar
  bSimplePattern : Bool
  root : SPathNode E
  entryCount : Nat

/-- `eMayHaveSeparator`, the only flag of `EMatchFlags`. -/
abbrev MayHaveSeparator := Bool

/-- An element with a wildcard. -/
def isWild (name : Str) : Bool := name.any (· = asterisk) || name.any (· = questionMark)

def dblAsteriskName : Str := [asterisk, asterisk]

def asteriskName : Str := [asterisk]

variable {E : Type}

def SPathNode.empty (name : Str) : SPathNode E := ⟨name, .empty, .empty, []⟩

def CPathTree.new (separator : WChar) (bSimplePattern : Bool) : CPathTree E :=
  ⟨separator, bSimplePattern, .empty [], 0⟩

/-! ## AddEntry -/

/-- The loop of `AddEntry` that validates a path, lowers it and notes its wildcards; `rest` is what
is left from `i`. -/
def validateLoop : (rest : Str) → (i : Nat) → SPatternInfo → Except Int SPatternInfo
  | [], i, info => .ok { info with patternLength := UInt32.ofNat i }
  | c :: rest, i, info =>
    if c < 32 ∨ c = 127 then .error (-4)
    else
      let info := if c = questionMark then info.addQuestionMark i else info
      if c = asterisk then
        match rest with
        | d :: rest' =>
          if d = asterisk then
            if rest'.head? = some asterisk then .error (-2)
            else validateLoop rest' (i + 2) (info.addDblAsterisk i)
          else validateLoop (d :: rest') (i + 1) (info.addAsterisk i)
        | [] => validateLoop [] (i + 1) (info.addAsterisk i)
      else if c = 0x22 ∨ c = 0x3C ∨ c = 0x3E ∨ c = 0x7C then .error (-4)
      else validateLoop rest (i + 1) info
termination_by structural rest => rest

/-- What is left behind separators. -/
def skipSeparators (separator : WChar) (rest : Str) : Str := rest.dropWhile (· = separator)

/-- The element at the beginning, up to a separator. -/
def element (separator : WChar) (rest : Str) : Str := rest.takeWhile (· ≠ separator)

/-- What is left behind the element. -/
def afterElement (separator : WChar) (rest : Str) : Str := rest.dropWhile (· ≠ separator)

/-- The smart pattern of a branch; a simple pattern has no separator set. -/
def branchPattern (separator : WChar) (bSimplePattern : Bool) (name : Str) : Int × CSmartPattern :=
  (CSmartPattern.new (if bSimplePattern then 0 else separator)).set name

/-- `CPathTree::Add`: the node with the entry below it, and whether the patterns on the way were
accepted. The length of what is left of the path bounds the depth. -/
def addLoop (separator : WChar) (bSimplePattern : Bool) (entry : SPathEntry E) :
    Nat → SPathNode E → Str → SPathNode E × Bool
  | 0, parent, _ => (parent, true)
  | depth + 1, parent, rest =>
    let rest := skipSeparators separator rest
    if rest = [] then ({ parent with entries := parent.entries ++ [entry] }, true)
    else
      let name := element separator rest
      let rest := afterElement separator rest
      if isWild name then
        let (code, pattern) := branchPattern separator bSimplePattern name
        let wildBranches := parent.wildBranches.getOrAddValue name (.empty name, pattern)
        match wildBranches.findValue name with
        | none => (parent, true)
        | some (branch, _) =>
          if code ≠ 0 then ({ parent with wildBranches := wildBranches.write name fun b => (b.1, pattern) }, false)
          else
            let (branch, ok) := addLoop separator bSimplePattern entry depth branch rest
            ({ parent with wildBranches := wildBranches.write name fun _ => (branch, pattern) }, ok)
      else
        let branches := parent.branches.getOrAddValue name (.empty name)
        match branches.findValue name with
        | none => (parent, true)
        | some branch =>
          let (branch, ok) := addLoop separator bSimplePattern entry depth branch rest
          ({ parent with branches := branches.write name fun _ => branch }, ok)

namespace CPathTree

/-- `CPathTree::Add` from the root. -/
def add (t : CPathTree E) (entry : SPathEntry E) (path : Str) : CPathTree E × Bool :=
  let (root, ok) := addLoop t.separator t.bSimplePattern entry (path.length + 1) t.root path
  ({ t with root := root, entryCount := if ok then t.entryCount + 1 else t.entryCount }, ok)

/-- `CPathTree::AddEntry`; the entry is stored with what is noted of its path. -/
def addEntry [PathEntry E] (t : CPathTree E) (pEntry : E) : CPathTree E × Int :=
  let path := PathEntry.getPath pEntry
  if path = [] then (t, -3)
  else match validateLoop path 0 .cleared with
    | .error code => (t, code)
    | .ok info =>
      let path := makeLower path
      let (t, ok) := t.add ⟨pEntry, info, path.getLast? = some t.separator⟩ path
      (t, if ok then 0 else -2)

end CPathTree

/-! ## RemoveEntry -/

section RemoveEntry

variable [DecidableEq E]

/-- Nothing is left in a node, as far as its tables count. -/
def SPathNode.isEmpty (node : SPathNode E) : Bool :=
  node.branches.isEmpty && node.wildBranches.isEmpty && node.entries.isEmpty

/-- `CPathTree::Remove`: the node without the entry, how many entries were taken off, and whether
the end of the path was reached. Below a branch it goes on behind the separator. -/
def removeLoop (separator : WChar) (pEntry : E) : Nat → SPathNode E → Str → SPathNode E × Nat × Bool
  | 0, parent, _ => (parent, 0, false)
  | depth + 1, parent, rest =>
    let rest := skipSeparators separator rest
    if rest = [] then
      ({ parent with entries := parent.entries.eraseP (·.pEntry = pEntry) },
        if parent.entries.any (·.pEntry = pEntry) then 1 else 0, true)
    else
      let name := element separator rest
      let rest := (afterElement separator rest).drop 1
      let (parent, removed, bOk) :=
        match parent.branches.findValue name with
        | none => (parent, 0, false)
        | some branch =>
          let (branch, removed, bOk) := removeLoop separator pEntry depth branch rest
          let branches := parent.branches.write name fun _ => branch
          ({ parent with branches := if branch.isEmpty then branches.remove name else branches }, removed, bOk)
      match parent.wildBranches.findValue name with
      | none => (parent, removed, bOk)
      | some (wildBranch, pattern) =>
        let (wildBranch, wildRemoved, wildOk) := removeLoop separator pEntry depth wildBranch rest
        let wildBranches := parent.wildBranches.write name fun _ => (wildBranch, pattern)
        ({ parent with wildBranches := if wildBranch.isEmpty then wildBranches.remove name else wildBranches },
          removed + wildRemoved, bOk || wildOk)

/-- `CPathTree::RemoveEntry`. -/
def CPathTree.removeEntry [PathEntry E] (t : CPathTree E) (pEntry : E) : CPathTree E × Bool :=
  let path := makeLower (PathEntry.getPath pEntry)
  let (root, removed, bOk) := removeLoop t.separator pEntry (path.length + 1) t.root path
  ({ t with root := root, entryCount := t.entryCount - removed }, bOk)

end RemoveEntry

/-! ## GetEntries -/

section GetEntries

variable [DecidableEq E]

/-- The entries of a node the path ends at, without those found before. -/
def appendEntries (flags : MayHaveSeparator) (bHasSeparator : Bool) (found entries : List (SPathEntry E)) :
    List (SPathEntry E) :=
  entries.foldl (fun found entry =>
    if entry.endsWithSeparator ≠ bHasSeparator ∧ flags = false then found
    else if found.any (·.pEntry = entry.pEntry) then found
    else found ++ [entry]) found

/-- What is left of the path at each separator, from the given place on. -/
def separatorSuffixes (separator : WChar) (rest : Str) : List Str :=
  rest.tails.filter (·.head? = some separator)

/-- What is left of the path where a branch with a wildcard may end: the places its nodes are tried
at. -/
def branchEnds (separator : WChar) (bSimplePattern : Bool) (pattern : CSmartPattern) (rest : Str) : List Str :=
  match pattern.rawMatch rest with
  | none => []
  | some (uMatch, last) =>
    if last = .eDblAsterisk ∨ bSimplePattern = true ∧ last = .eAsterisk then
      -- the wildcard crosses separators and may end at any of them, or at the end
      [] :: separatorSuffixes separator (rest.drop (uMatch + 1))
    else if last = .eAsterisk then [afterElement separator (rest.drop uMatch)]
    else if (rest.drop uMatch).headD 0 = 0 ∨ (rest.drop uMatch).headD 0 = separator then [rest.drop uMatch]
    else []

omit [DecidableEq E] in
theorem sizeOf_wildBranch {parent branch : SPathNode E} {name : Str} {pattern : CSmartPattern}
    (h : (name, branch, pattern) ∈ parent.wildBranches.toList) : sizeOf branch < sizeOf parent := by
  have := Table.sizeOf_lt_of_mem_toList h
  cases parent
  simp only [SPathNode.mk.sizeOf_spec, Prod.mk.sizeOf_spec] at *
  omega

omit [DecidableEq E] in
theorem sizeOf_branch {parent branch : SPathNode E} {name : Str} (h : parent.branches.findValue name = some branch) :
    sizeOf branch < sizeOf parent := by
  have := Table.sizeOf_lt_of_mem_toList (Table.mem_toList_of_findValue h)
  cases parent
  simp only [SPathNode.mk.sizeOf_spec, Prod.mk.sizeOf_spec] at *
  omega

/-- `CPathTree::GetEntries` below a node. -/
def getEntriesLoop (separator : WChar) (bSimplePattern : Bool) (flags : MayHaveSeparator)
    (parent : SPathNode E) (found : List (SPathEntry E)) (rest : Str) : List (SPathEntry E) :=
  let bHasSeparator := rest.head? = some separator
  let rest := skipSeparators separator rest
  if rest = [] then
    let found := appendEntries flags bHasSeparator found parent.entries
    -- special case when the pattern ends with a double asterisk
    parent.wildBranches.toList.attach.foldl (fun found ⟨(_, branch, _), _⟩ =>
      if branch.name = dblAsteriskName ∨ bSimplePattern = true ∧ branch.name = asteriskName then
        getEntriesLoop separator bSimplePattern flags branch found []
      else found) found
  else
    let found := match _ : parent.branches.findValue (element separator rest) with
      | some branch => getEntriesLoop separator bSimplePattern flags branch found (afterElement separator rest)
      | none => found
    parent.wildBranches.toList.attach.foldl (fun found ⟨(_, branch, pattern), _⟩ =>
      (branchEnds separator bSimplePattern pattern rest).foldl (fun found rest =>
        getEntriesLoop separator bSimplePattern flags branch found rest) found) found
termination_by sizeOf parent
decreasing_by
  · exact sizeOf_wildBranch ‹_›
  · exact sizeOf_branch ‹_›
  · exact sizeOf_wildBranch ‹_›

/-- `CPathTree::GetEntries`. -/
def CPathTree.getEntries (t : CPathTree E) (path : Str) (flags : MayHaveSeparator) : List (SPathEntry E) :=
  getEntriesLoop t.separator t.bSimplePattern flags t.root [] (makeLower path)

end GetEntries

end MajorPrivacy.Path

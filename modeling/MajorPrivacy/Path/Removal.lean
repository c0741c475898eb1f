/-
`RemoveEntry` takes its entry off the elements of its path and leaves every other entry where it
is, also where it prunes branches that nothing is left below.
-/
import MajorPrivacy.Path.TreeEntries

namespace MajorPrivacy.Path

open MajorPrivacy.Core

variable {E : Type} {separator : WChar} {bSimplePattern : Bool}

/-! ## Branches replaced or pruned -/

/-- A node with another branch for one element, or with none. -/
structure SPathNode.Pruned (node node' : SPathNode E) (name : Str) (b : Option (SPathNode E)) : Prop where
  name_eq : node'.name = node.name
  entries_eq : node'.entries = node.entries
  child_eq : ∀ k, node'.child k = if k = name then b else node.child k

theorem SPathNode.Pruned.wellFormed {node node' : SPathNode E} {name : Str} {b : Option (SPathNode E)}
    (h : Pruned node node' name b) (hw : node.WellFormed separator bSimplePattern)
    (hl : node'.Local separator bSimplePattern) (hb : ∀ c, b = some c → c.WellFormed separator bSimplePattern) :
    node'.WellFormed separator bSimplePattern := by
  refine wellFormed_iff.2 ⟨hl, fun k c hc => ?_⟩
  rw [h.child_eq] at hc
  split at hc
  · exact hb c hc
  · exact (wellFormed_iff.1 hw).2 k c hc

theorem SPathNode.Pruned.entriesAt {node node' : SPathNode E} {name : Str} {b : Option (SPathNode E)}
    (h : Pruned node node' name b) (names : List Str) : node'.entriesAt names =
      if names.head? = some name then (b.map (·.entriesAt names.tail)).getD [] else node.entriesAt names := by
  cases names with
  | nil => exact h.entries_eq
  | cons k names =>
    simp only [entriesAt_cons, h.child_eq, List.head?_cons, List.tail_cons, Option.some.injEq]
    split <;> rfl

/-- Nothing stands below a node that counts nothing. -/
theorem SPathNode.entriesAt_of_isEmpty {node : SPathNode E} (hl : node.Local separator bSimplePattern)
    (h : node.isEmpty = true) (names : List Str) : node.entriesAt names = [] := by
  unfold isEmpty at h
  simp only [Bool.and_eq_true, List.isEmpty_iff] at h
  obtain ⟨⟨hb, hwb⟩, he⟩ := h
  cases names with
  | nil => exact he
  | cons k names =>
    have hc : node.child k = none := by
      unfold child
      rw [hl.branches.findValue_of_isEmpty hb, hl.wildBranches.findValue_of_isEmpty hwb]
      split <;> rfl
    rw [entriesAt_cons, hc]
    rfl

/-- A branch `Remove` comes back to is kept, or pruned where nothing is left of it. -/
def SPathNode.orPruned (b : SPathNode E) : Option (SPathNode E) := if b.isEmpty then none else some b

theorem SPathNode.entriesAt_orPruned {b : SPathNode E} (hl : b.Local separator bSimplePattern) (names : List Str) :
    ((b.orPruned.map (·.entriesAt names)).getD []) = b.entriesAt names := by
  unfold orPruned
  split
  · rename_i h
    exact (entriesAt_of_isEmpty hl h names).symm
  · rfl

theorem SPathNode.eq_of_orPruned {b c : SPathNode E} (h : b.orPruned = some c) : b = c := by
  unfold orPruned at h
  split at h
  · cases h
  · exact Option.some.inj h

section Branch

variable {node b : SPathNode E} {name : Str}

/-- The table of branches after `Remove` has come back from one. -/
theorem findValue_orPruned {V : Type} {t : Table Str V} {name : Str} {old : V} (hf : t.findValue name = some old)
    (value : V) (prune : Bool) (k : Str) :
    (if prune then (t.write name fun _ => value).remove name else t.write name fun _ => value).findValue k =
      if k = name then (if prune then none else some value) else t.findValue k := by
  cases prune with
  | true =>
    simp only [if_true]
    rw [Table.findValue_remove, Table.findValue_write]
    split <;> rfl
  | false =>
    simp only [Bool.false_eq_true, if_false]
    rw [Table.findValue_write]
    split
    · rename_i hk
      rw [hk, hf]
      rfl
    · rfl

theorem wf_orPruned {V : Type} {t : Table Str V} (hw : t.WF) (name : Str) (value : V) (prune : Bool) :
    (if prune then (t.write name fun _ => value).remove name else t.write name fun _ => value).WF := by
  have hwrite := Table.write_wf hw name fun _ => value
  split
  · exact Table.remove_wf hwrite name
  · exact hwrite

theorem pruned_branch (hw : node.WellFormed separator bSimplePattern) {old : SPathNode E}
    (hf : node.branches.findValue name = some old) (hb : b.name = name) :
    let branches := node.branches.write name fun _ => b
    let node' := { node with branches := if b.isEmpty then branches.remove name else branches }
    SPathNode.Pruned node node' name b.orPruned ∧ node'.Local separator bSimplePattern := by
  have hl := (SPathNode.wellFormed_iff.1 hw).1
  have hn := (hl.branch hf).1
  have hfind := findValue_orPruned hf b b.isEmpty
  refine ⟨⟨rfl, rfl, fun k => ?_⟩, ⟨wf_orPruned hl.branches name b b.isEmpty, hl.wildBranches, fun {k c} hc => ?_,
    hl.wildBranch⟩⟩
  · unfold SPathNode.child
    by_cases hk : k = name
    · subst hk
      rw [hn, if_neg Bool.false_ne_true, if_pos rfl, hfind, if_pos rfl]
      rfl
    · rw [if_neg hk, hfind, if_neg hk]
  · rw [hfind] at hc
    split at hc
    · rename_i hk
      obtain rfl := SPathNode.eq_of_orPruned hc
      exact ⟨hk ▸ hn, hb.trans hk.symm⟩
    · exact hl.branch hc

theorem pruned_wildBranch (hw : node.WellFormed separator bSimplePattern) {old : SPathNode E} {p : CSmartPattern}
    (hf : node.wildBranches.findValue name = some (old, p)) (hb : b.name = name)
    (hcode : (branchPattern separator bSimplePattern name).1 = 0 ∨ b = .empty name) :
    let wildBranches := node.wildBranches.write name fun _ => (b, p)
    let node' := { node with wildBranches := if b.isEmpty then wildBranches.remove name else wildBranches }
    SPathNode.Pruned node node' name b.orPruned ∧ node'.Local separator bSimplePattern := by
  have hl := (SPathNode.wellFormed_iff.1 hw).1
  obtain ⟨hn, -, hlow, hp, -⟩ := hl.wildBranch hf
  have hfind := findValue_orPruned hf (b, p) b.isEmpty
  refine ⟨⟨rfl, rfl, fun k => ?_⟩, ⟨hl.branches, wf_orPruned hl.wildBranches name (b, p) b.isEmpty, hl.branch,
    fun {k c q} hc => ?_⟩⟩
  · unfold SPathNode.child
    by_cases hk : k = name
    · subst hk
      rw [hn, if_pos rfl, if_pos rfl, hfind, if_pos rfl, SPathNode.orPruned]
      split <;> rfl
    · rw [if_neg hk, hfind, if_neg hk]
  · rw [hfind] at hc
    split at hc
    · rename_i hk
      subst hk
      split at hc
      · cases hc
      · cases hc
        exact ⟨hn, hb, hlow, hp, hcode⟩
    · exact hl.wildBranch hc

end Branch

/-! ## Remove -/

variable [DecidableEq E]

/-- An entry taken off some elements; every other entry is where it was. -/
structure SPathNode.Removed (separator : WChar) (bSimplePattern : Bool) (pEntry : E) (names : List Str)
    (node : SPathNode E) (result : SPathNode E × Nat × Bool) : Prop where
  wellFormed : result.1.WellFormed separator bSimplePattern
  name_eq : result.1.name = node.name
  ok : ∀ entry ∈ node.entriesAt names, result.2.2 = true
  entriesAt_eq : ∀ names', result.1.entriesAt names' =
    if names' = names then (node.entriesAt names').eraseP (·.pEntry = pEntry) else node.entriesAt names'

theorem removeLoop_empty (pEntry : E) (name : Str) : ∀ (depth : Nat) (rest : Str),
    (removeLoop separator pEntry depth (.empty name) rest).1 = .empty name
  | 0, _ => rfl
  | depth + 1, rest => by
    rw [removeLoop]
    by_cases hend : skipSeparators separator rest = []
    · rw [if_pos hend]
      rfl
    · rw [if_neg hend]
      simp [SPathNode.empty]

/-- Skipping the separator behind an element does not change the elements that follow. -/
theorem elementsLoop_afterElement (separator : WChar) (rest : Str) : ∀ depth : Nat,
    elementsLoop separator depth ((afterElement separator rest).drop 1) =
      elementsLoop separator depth (afterElement separator rest)
  | 0 => rfl
  | depth + 1 => by
    have hskip : skipSeparators separator ((afterElement separator rest).drop 1) =
        skipSeparators separator (afterElement separator rest) := by
      cases hafter : afterElement separator rest with
      | nil => rfl
      | cons c tail =>
        have hc : c = separator := by
          have hhead := List.head?_dropWhile_not (fun c => decide (c ≠ separator)) rest
          unfold afterElement at hafter
          rw [hafter] at hhead
          simpa using hhead
        unfold skipSeparators
        rw [List.drop_one, List.tail_cons, List.dropWhile_cons_of_pos (by simpa using hc)]
    rw [elementsLoop, elementsLoop, hskip]

/-- What `Remove` does to a node, if it did the same below one branch. -/
theorem SPathNode.Removed.branch {node node' b : SPathNode E} {name : Str} {names : List Str} {pEntry : E}
    {removed : Nat × Bool} (hw : node.WellFormed separator bSimplePattern)
    (hb : Removed separator bSimplePattern pEntry names ((node.child name).getD (.empty name)) (b, removed))
    (hp : Pruned node node' name b.orPruned) (hl : node'.Local separator bSimplePattern) (n : Nat) :
    Removed separator bSimplePattern pEntry (name :: names) node (node', n, removed.2) := by
  refine ⟨hp.wellFormed hw hl ?_, hp.name_eq, fun entry he => ?_, fun names' => ?_⟩
  · intro c hc
    obtain rfl := eq_of_orPruned hc
    exact hb.wellFormed
  · rw [← entriesAt_branch rfl] at he
    exact hb.ok entry he
  · rw [hp.entriesAt]
    cases names' with
    | nil => rfl
    | cons k names' =>
      simp only [List.head?_cons, List.tail_cons, Option.some.injEq, List.cons.injEq]
      by_cases hk : k = name
      · subst hk
        rw [if_pos rfl, entriesAt_orPruned (wellFormed_iff.1 hb.wellFormed).1, hb.entriesAt_eq, entriesAt_branch rfl]
        simp
      · simp [hk]

/-- There is nothing to take off below a branch that is missing. -/
theorem SPathNode.Removed.missing {node : SPathNode E} {name : Str} {pEntry : E}
    (hw : node.WellFormed separator bSimplePattern) (hc : node.child name = none) (names : List Str)
    (removed : Nat × Bool) : Removed separator bSimplePattern pEntry (name :: names) node (node, removed) := by
  have hempty : node.entriesAt (name :: names) = [] := by
    rw [entriesAt_cons, hc]
    rfl
  refine ⟨hw, rfl, fun entry he => ?_, fun names' => ?_⟩
  · rw [hempty] at he
    cases he
  · split
    · rename_i h
      rw [h, hempty]
      rfl
    · rfl

/-- `Remove` takes the entry off the elements of its path. -/
theorem removeLoop_spec (pEntry : E) : ∀ (depth : Nat) (node : SPathNode E) (rest : Str), rest.length < depth →
    node.WellFormed separator bSimplePattern →
    SPathNode.Removed separator bSimplePattern pEntry (elementsLoop separator depth rest) node
      (removeLoop separator pEntry depth node rest)
  | 0, _, _, h, _ => absurd h (Nat.not_lt_zero _)
  | depth + 1, node, rest, hlen, hw => by
    obtain ⟨hl, hc⟩ := SPathNode.wellFormed_iff.1 hw
    rw [removeLoop, elementsLoop]
    by_cases hend : skipSeparators separator rest = []
    · -- the entry belongs to this node
      simp only [if_pos hend]
      have hchild : ∀ k, SPathNode.child { node with entries := node.entries.eraseP (·.pEntry = pEntry) } k =
        node.child k := fun _ => rfl
      refine ⟨SPathNode.wellFormed_iff.2 ⟨⟨hl.branches, hl.wildBranches, hl.branch, hl.wildBranch⟩, hc⟩, rfl,
        fun _ _ => rfl, fun names => ?_⟩
      cases names with
      | nil => rfl
      | cons k names => simp [SPathNode.entriesAt_cons, hchild]
    simp only [if_neg hend]
    generalize hname : element separator (skipSeparators separator rest) = name
    have hnext := elementsLoop_afterElement separator (skipSeparators separator rest) depth
    have hlt := length_afterElement_lt hend
    have hlen' : ((afterElement separator (skipSeparators separator rest)).drop 1).length < depth := by
      rw [List.length_drop]
      omega
    generalize (afterElement separator (skipSeparators separator rest)).drop 1 = next at hnext hlen'
    rw [← hnext]
    have ih := removeLoop_spec pEntry depth ((node.child name).getD (.empty name)) next hlen' (hw.getD name)
    by_cases hwild : isWild name = true
    · have hchild : node.child name = (node.wildBranches.findValue name).map (·.1) := if_pos hwild
      have hnone : node.branches.findValue name = none := by
        cases hf : node.branches.findValue name with
        | none => rfl
        | some b => exact absurd hwild (by simp [(hl.branch hf).1])
      simp only [hnone]
      cases hf : node.wildBranches.findValue name with
      | none =>
        rw [hf] at hchild
        exact SPathNode.Removed.missing hw hchild _ _
      | some x =>
        obtain ⟨old, p⟩ := x
        obtain ⟨-, hold, -, -, hcode⟩ := hl.wildBranch hf
        rw [hchild, hf] at ih
        have hcode' : (branchPattern separator bSimplePattern name).1 = 0 ∨
            (removeLoop separator pEntry depth old next).1 = .empty name := by
          refine hcode.imp_right ?_
          rintro rfl
          exact removeLoop_empty pEntry name depth next
        obtain ⟨hp, hl'⟩ := pruned_wildBranch hw hf (ih.name_eq.trans hold) hcode'
        simp only [Bool.false_or]
        refine SPathNode.Removed.branch hw ?_ hp hl' _
        rw [hchild, hf]
        exact ih
    · have hwild' := Bool.not_eq_true _ ▸ hwild
      have hchild : node.child name = node.branches.findValue name := if_neg hwild
      have hnone : node.wildBranches.findValue name = none := by
        cases hf : node.wildBranches.findValue name with
        | none => rfl
        | some b => exact absurd (hl.wildBranch hf).1 hwild
      cases hf : node.branches.findValue name with
      | none =>
        simp only [hnone]
        rw [hf] at hchild
        exact SPathNode.Removed.missing hw hchild _ _
      | some old =>
        simp only [hnone]
        rw [hchild, hf] at ih
        obtain ⟨hp, hl'⟩ := pruned_branch hw hf (ih.name_eq.trans (hl.branch hf).2)
        refine SPathNode.Removed.branch hw ?_ hp hl' _
        rw [hchild, hf]
        exact ih

end MajorPrivacy.Path

/-
What a path tree holds: the entries at the end of each list of elements. `AddEntry` puts its entry
at the elements of its path and changes nothing anywhere else, also where the pattern of an element
is refused on the way.
-/
import MajorPrivacy.Path.PathTree

namespace MajorPrivacy.Path

open MajorPrivacy.Core

variable {E : Type}

/-! ## Nodes and entries by elements -/

/-- The branch for an element. -/
def SPathNode.child (node : SPathNode E) (name : Str) : Option (SPathNode E) :=
  if isWild name then (node.wildBranches.findValue name).map (·.1) else node.branches.findValue name

/-- The node at the end of some elements. -/
def SPathNode.nodeAt : SPathNode E → List Str → Option (SPathNode E)
  | node, [] => some node
  | node, name :: names => (node.child name).bind (·.nodeAt names)

/-- The entries at the end of some elements. -/
def SPathNode.entriesAt (node : SPathNode E) (names : List Str) : List (SPathEntry E) :=
  ((node.nodeAt names).map (·.entries)).getD []

/-- The elements of a path; the length of the path bounds their number. -/
def elementsLoop (separator : WChar) : Nat → Str → List Str
  | 0, _ => []
  | depth + 1, rest =>
    let rest := skipSeparators separator rest
    if rest = [] then [] else element separator rest :: elementsLoop separator depth (afterElement separator rest)

def elements (separator : WChar) (path : Str) : List Str := elementsLoop separator (path.length + 1) path

@[simp] theorem SPathNode.entriesAt_nil (node : SPathNode E) : node.entriesAt [] = node.entries := rfl

theorem SPathNode.entriesAt_cons (node : SPathNode E) (name : Str) (names : List Str) :
    node.entriesAt (name :: names) = ((node.child name).map (·.entriesAt names)).getD [] := by
  unfold entriesAt
  rw [nodeAt]
  cases node.child name <;> rfl

@[simp] theorem SPathNode.child_empty (name k : Str) : (empty name : SPathNode E).child k = none := by
  unfold child empty
  split <;> simp

@[simp] theorem SPathNode.entriesAt_empty (name : Str) (names : List Str) :
    (empty name : SPathNode E).entriesAt names = [] := by
  cases names with
  | nil => rfl
  | cons k names => rw [entriesAt_cons, child_empty]; rfl

/-! ## Lowered paths -/

/-- A path without upper case letters. -/
def Lowered (s : Str) : Prop := ∀ c ∈ s, lower c = c

instance (s : Str) : Decidable (Lowered s) := List.decidableBAll (fun c => lower c = c) s

theorem lower_lower (c : WChar) : lower (lower c) = lower c := by
  unfold lower
  split
  · rename_i h
    rw [if_neg]
    rw [UInt16.le_iff_toNat_le, UInt16.le_iff_toNat_le] at h
    rw [UInt16.le_iff_toNat_le, UInt16.le_iff_toNat_le, UInt16.toNat_add]
    simp at h ⊢
    omega
  · rfl

theorem lowered_makeLower (s : Str) : Lowered (makeLower s) := by
  intro c hc
  obtain ⟨d, -, rfl⟩ := List.mem_map.1 hc
  exact lower_lower d

theorem Lowered.makeLower {s : Str} (h : Lowered s) : makeLower s = s :=
  (List.map_congr_left h).trans (List.map_id s)

theorem Lowered.sublist {s t : Str} (h : Lowered s) (hs : t.Sublist s) : Lowered t :=
  fun c hc => h c (hs.mem hc)

theorem skipSeparators_sublist (separator : WChar) (rest : Str) : (skipSeparators separator rest).Sublist rest :=
  List.dropWhile_sublist _

theorem element_sublist (separator : WChar) (rest : Str) : (element separator rest).Sublist rest :=
  List.takeWhile_sublist _

theorem afterElement_sublist (separator : WChar) (rest : Str) : (afterElement separator rest).Sublist rest :=
  List.dropWhile_sublist _

/-- An element takes at least one character. -/
theorem length_afterElement_lt {separator : WChar} {rest : Str} (h : skipSeparators separator rest ≠ []) :
    (afterElement separator (skipSeparators separator rest)).length < rest.length := by
  have hle := (skipSeparators_sublist separator rest).length_le
  have hhead := List.head_dropWhile_not (fun c => decide (c = separator)) h
  unfold afterElement
  cases hd : skipSeparators separator rest with
  | nil => exact absurd hd h
  | cons c tail =>
    rw [hd, List.length_cons] at hle
    have hc : c ≠ separator := by
      unfold skipSeparators at hd
      simpa [hd] using hhead
    have htail := (List.dropWhile_sublist (fun d => decide (d ≠ separator)) (l := tail)).length_le
    rw [List.dropWhile_cons_of_pos (by simpa using hc)]
    omega

/-! ## The invariant -/

/-- What holds of the branches of a node. A pattern that `Set` refused stays in the tree, but the
branch stays empty. -/
structure SPathNode.Local (separator : WChar) (bSimplePattern : Bool) (node : SPathNode E) : Prop where
  branches : node.branches.WF
  wildBranches : node.wildBranches.WF
  branch : ∀ {name b}, node.branches.findValue name = some b → isWild name = false ∧ b.name = name
  wildBranch : ∀ {name b p}, node.wildBranches.findValue name = some (b, p) →
    isWild name = true ∧ b.name = name ∧ Lowered name ∧ p = (branchPattern separator bSimplePattern name).2 ∧
      ((branchPattern separator bSimplePattern name).1 = 0 ∨ b = .empty name)

def SPathNode.WellFormed (separator : WChar) (bSimplePattern : Bool) (node : SPathNode E) : Prop :=
  ∀ names n, node.nodeAt names = some n → n.Local separator bSimplePattern

variable {separator : WChar} {bSimplePattern : Bool}

theorem SPathNode.wellFormed_iff {node : SPathNode E} :
    node.WellFormed separator bSimplePattern ↔
      node.Local separator bSimplePattern ∧
        ∀ name b, node.child name = some b → b.WellFormed separator bSimplePattern := by
  constructor
  · intro h
    refine ⟨h [] node rfl, fun name b hb names n hn => h (name :: names) n ?_⟩
    rw [nodeAt, hb]
    exact hn
  · rintro ⟨hl, hc⟩ names n hn
    cases names with
    | nil => cases hn; exact hl
    | cons name names =>
      rw [nodeAt] at hn
      obtain ⟨b, hb, hn⟩ := Option.bind_eq_some_iff.1 hn
      exact hc name b hb names n hn

theorem SPathNode.local_empty (separator : WChar) (bSimplePattern : Bool) (name : Str) :
    (empty name : SPathNode E).Local separator bSimplePattern :=
  ⟨Table.empty_wf, Table.empty_wf, fun h => by simp [empty] at h, fun h => by simp [empty] at h⟩

theorem SPathNode.wellFormed_empty (separator : WChar) (bSimplePattern : Bool) (name : Str) :
    (empty name : SPathNode E).WellFormed separator bSimplePattern :=
  wellFormed_iff.2 ⟨local_empty separator bSimplePattern name, fun k b hb => by simp at hb⟩

theorem SPathNode.WellFormed.wildBranch {node b : SPathNode E} {name : Str} {p : CSmartPattern}
    (h : node.WellFormed separator bSimplePattern) (hb : node.wildBranches.findValue name = some (b, p)) :
    node.child name = some b ∧ b.WellFormed separator bSimplePattern := by
  obtain ⟨hl, hc⟩ := wellFormed_iff.1 h
  have hchild : node.child name = some b := by
    unfold child
    rw [if_pos (hl.wildBranch hb).1, hb]
    rfl
  exact ⟨hchild, hc name b hchild⟩

theorem SPathNode.WellFormed.branch {node b : SPathNode E} {name : Str}
    (h : node.WellFormed separator bSimplePattern) (hb : node.branches.findValue name = some b) :
    node.child name = some b ∧ b.WellFormed separator bSimplePattern := by
  obtain ⟨hl, hc⟩ := wellFormed_iff.1 h
  have hchild : node.child name = some b := by
    unfold child
    rw [(hl.branch hb).1, if_neg Bool.false_ne_true, hb]
  exact ⟨hchild, hc name b hchild⟩

/-! ## One branch replaced -/

/-- A node with another branch for one element. -/
structure SPathNode.Replaced (node node' : SPathNode E) (name : Str) (b : SPathNode E) : Prop where
  name_eq : node'.name = node.name
  entries_eq : node'.entries = node.entries
  child_eq : ∀ k, node'.child k = if k = name then some b else node.child k

theorem SPathNode.Replaced.wellFormed {node node' b : SPathNode E} {name : Str}
    (h : Replaced node node' name b) (hw : node.WellFormed separator bSimplePattern)
    (hl : node'.Local separator bSimplePattern)
    (hb : b.WellFormed separator bSimplePattern) : node'.WellFormed separator bSimplePattern := by
  refine wellFormed_iff.2 ⟨hl, fun k c hc => ?_⟩
  rw [h.child_eq] at hc
  split at hc
  · cases hc; exact hb
  · exact (wellFormed_iff.1 hw).2 k c hc

theorem SPathNode.Replaced.entriesAt {node node' b : SPathNode E} {name : Str} (h : Replaced node node' name b)
    (names : List Str) : node'.entriesAt names =
      if names.head? = some name then b.entriesAt names.tail else node.entriesAt names := by
  cases names with
  | nil => exact h.entries_eq
  | cons k names =>
    simp only [entriesAt_cons, h.child_eq, List.head?_cons, List.tail_cons, Option.some.injEq]
    split <;> rfl

/-- The entries below a branch that may be missing so far. -/
theorem SPathNode.entriesAt_branch {node b : SPathNode E} {name : Str}
    (h : b = (node.child name).getD (.empty name)) (names : List Str) :
    b.entriesAt names = node.entriesAt (name :: names) := by
  subst h
  rw [entriesAt_cons]
  cases node.child name with
  | none => exact entriesAt_empty name names
  | some b => rfl

theorem SPathNode.WellFormed.getD {node : SPathNode E} (h : node.WellFormed separator bSimplePattern) (name : Str) :
    ((node.child name).getD (.empty name)).WellFormed separator bSimplePattern := by
  cases hc : node.child name with
  | none => exact wellFormed_empty separator bSimplePattern name
  | some b => exact (wellFormed_iff.1 h).2 name b hc

/-! ## AddEntry -/

section Branch

variable {node : SPathNode E} {name : Str}

/-- The branch `Add` goes on to for an element without wildcards, and the node it goes back to. -/
theorem replaced_branch (hw : node.WellFormed separator bSimplePattern) (hn : isWild name = false) :
    (node.branches.getOrAddValue name (.empty name)).findValue name = some ((node.child name).getD (.empty name)) ∧
    ∀ b, b.name = name →
      let node' := { node with branches := (node.branches.getOrAddValue name (.empty name)).write name fun _ => b }
      SPathNode.Replaced node node' name b ∧ node'.Local separator bSimplePattern := by
  have hl := (SPathNode.wellFormed_iff.1 hw).1
  have hchild : node.child name = node.branches.findValue name := by
    unfold SPathNode.child
    rw [hn, if_neg Bool.false_ne_true]
  constructor
  · rw [Table.findValue_getOrAddValue hl.branches, if_pos rfl, hchild]
  · intro b hb
    have hfind : ∀ k, ((node.branches.getOrAddValue name (.empty name)).write name fun _ => b).findValue k =
        if k = name then some b else node.branches.findValue k := by
      intro k
      rw [Table.findValue_write, Table.findValue_getOrAddValue hl.branches]
      split <;> rfl
    refine ⟨⟨rfl, rfl, fun k => ?_⟩, ⟨Table.write_wf (Table.getOrAddValue_wf hl.branches _ _) _ _, hl.wildBranches,
      fun {k c} hc => ?_, hl.wildBranch⟩⟩
    · unfold SPathNode.child
      rw [hfind]
      by_cases hk : k = name
      · rw [hk, hn]; simp
      · simp [hk]
    · rw [hfind] at hc
      split at hc
      · rename_i hk
        cases hc
        exact ⟨hk ▸ hn, hb.trans hk.symm⟩
      · exact hl.branch hc

/-- The same for an element with wildcards. -/
theorem replaced_wildBranch (hw : node.WellFormed separator bSimplePattern) (hn : isWild name = true)
    (hlow : Lowered name) :
    (∃ p, (node.wildBranches.getOrAddValue name
        (.empty name, (branchPattern separator bSimplePattern name).2)).findValue name =
      some ((node.child name).getD (.empty name), p)) ∧
    ∀ b f, b.name = name → ((branchPattern separator bSimplePattern name).1 = 0 ∨ b = .empty name) →
      (∀ p, f ((node.child name).getD (.empty name), p) = (b, (branchPattern separator bSimplePattern name).2)) →
      let node' := { node with wildBranches := (node.wildBranches.getOrAddValue name
        (.empty name, (branchPattern separator bSimplePattern name).2)).write name f }
      SPathNode.Replaced node node' name b ∧ node'.Local separator bSimplePattern := by
  have hl := (SPathNode.wellFormed_iff.1 hw).1
  have hchild : node.child name = (node.wildBranches.findValue name).map (·.1) := by
    unfold SPathNode.child
    rw [if_pos hn]
  have hget : ∃ p, (node.wildBranches.findValue name).getD
      (.empty name, (branchPattern separator bSimplePattern name).2) =
      ((node.child name).getD (.empty name), p) := by
    rw [hchild]
    cases node.wildBranches.findValue name with
    | none => exact ⟨_, rfl⟩
    | some x => exact ⟨x.2, rfl⟩
  constructor
  · obtain ⟨p, hp⟩ := hget
    exact ⟨p, by rw [Table.findValue_getOrAddValue hl.wildBranches, if_pos rfl, hp]⟩
  · intro b f hb hcode hf
    obtain ⟨p, hp⟩ := hget
    have hfind : ∀ k, ((node.wildBranches.getOrAddValue name
        (.empty name, (branchPattern separator bSimplePattern name).2)).write name f).findValue k =
        if k = name then some (b, (branchPattern separator bSimplePattern name).2)
        else node.wildBranches.findValue k := by
      intro k
      rw [Table.findValue_write, Table.findValue_getOrAddValue hl.wildBranches, hp]
      split
      · rw [Option.map_some, hf]
      · rfl
    refine ⟨⟨rfl, rfl, fun k => ?_⟩, ⟨hl.branches, Table.write_wf (Table.getOrAddValue_wf hl.wildBranches _ _) _ _,
      hl.branch, fun {k c q} hc => ?_⟩⟩
    · unfold SPathNode.child
      rw [hfind]
      by_cases hk : k = name
      · rw [hk, hn]; simp
      · simp [hk]
    · rw [hfind] at hc
      split at hc
      · rename_i hk
        cases hc
        subst hk
        exact ⟨hn, hb, hlow, rfl, hcode⟩
      · exact hl.wildBranch hc

end Branch

theorem SPathNode.name_getD_child {node : SPathNode E} (hw : node.WellFormed separator bSimplePattern) (name : Str) :
    ((node.child name).getD (.empty name)).name = name := by
  have hl := (wellFormed_iff.1 hw).1
  cases hc : node.child name with
  | none => rfl
  | some b =>
    unfold child at hc
    split at hc
    · obtain ⟨⟨c, p⟩, hf, rfl⟩ := Option.map_eq_some_iff.1 hc
      exact (hl.wildBranch hf).2.1
    · exact (hl.branch hc).2

/-- The patterns of all elements with wildcards are accepted. -/
def Accepted (separator : WChar) (bSimplePattern : Bool) (names : List Str) : Prop :=
  ∀ name ∈ names, isWild name = true → (branchPattern separator bSimplePattern name).1 = 0

/-- An entry added at some elements, if it was added at all; every other entry is where it was. -/
structure SPathNode.Added (separator : WChar) (bSimplePattern : Bool) (entry : SPathEntry E) (names : List Str)
    (node : SPathNode E) (result : SPathNode E × Bool) : Prop where
  wellFormed : result.1.WellFormed separator bSimplePattern
  name_eq : result.1.name = node.name
  ok_iff : result.2 = true ↔ Accepted separator bSimplePattern names
  entriesAt_eq : ∀ names', result.1.entriesAt names' =
    if result.2 = true ∧ names' = names then node.entriesAt names' ++ [entry] else node.entriesAt names'

/-- `Add` puts the entry at the elements of its path, if their patterns are all accepted. -/
theorem addLoop_spec (separator : WChar) (bSimplePattern : Bool) (entry : SPathEntry E) :
    ∀ (depth : Nat) (node : SPathNode E) (rest : Str), rest.length < depth →
      node.WellFormed separator bSimplePattern → Lowered rest →
    SPathNode.Added separator bSimplePattern entry (elementsLoop separator depth rest) node
      (addLoop separator bSimplePattern entry depth node rest)
  | 0, _, _, h, _, _ => absurd h (Nat.not_lt_zero _)
  | depth + 1, node, rest, hlen, hw, hlow => by
    rw [addLoop, elementsLoop]
    by_cases hend : skipSeparators separator rest = []
    · -- the entry belongs to this node
      simp only [if_pos hend]
      have hchild : ∀ k, SPathNode.child { node with entries := node.entries ++ [entry] } k = node.child k := fun _ => rfl
      obtain ⟨hl, hc⟩ := SPathNode.wellFormed_iff.1 hw
      refine ⟨SPathNode.wellFormed_iff.2 ⟨⟨hl.branches, hl.wildBranches, hl.branch, hl.wildBranch⟩, hc⟩, rfl,
        iff_of_true rfl (by simp [Accepted]), ?_⟩
      intro names
      cases names with
      | nil => simp
      | cons k names => simp [SPathNode.entriesAt_cons, hchild]
    simp only [if_neg hend]
    have hlow' := hlow.sublist (skipSeparators_sublist separator rest)
    generalize hname : element separator (skipSeparators separator rest) = name
    have hlowName : Lowered name := hname ▸ hlow'.sublist (element_sublist _ _)
    have ih := addLoop_spec separator bSimplePattern entry depth ((node.child name).getD (.empty name))
      (afterElement separator (skipSeparators separator rest)) (by have := length_afterElement_lt hend; omega)
      (hw.getD name) (hlow'.sublist (afterElement_sublist _ _))
    generalize hadd : addLoop separator bSimplePattern entry depth ((node.child name).getD (.empty name))
      (afterElement separator (skipSeparators separator rest)) = added at ih
    obtain ⟨hwb, hnb, hok, hentries⟩ := ih
    rw [SPathNode.name_getD_child hw] at hnb
    -- whatever happens below the branch, the rest of the node is as before
    have hspec : ∀ node' : SPathNode E, SPathNode.Replaced node node' name added.1 →
        node'.Local separator bSimplePattern →
        (isWild name = true → (branchPattern separator bSimplePattern name).1 = 0) →
        SPathNode.Added separator bSimplePattern entry
          (name :: elementsLoop separator depth (afterElement separator (skipSeparators separator rest))) node
          (node', added.2) := by
      intro node' hr hl hcode
      have hcons := hok.trans (and_iff_right hcode).symm
      refine ⟨hr.wellFormed hw hl hwb, hr.name_eq, hcons.trans (by simp [Accepted]), fun names => ?_⟩
      rw [hr.entriesAt]
      cases names with
      | nil => simp
      | cons k names =>
        simp only [List.head?_cons, List.tail_cons, Option.some.injEq, List.cons.injEq]
        by_cases hk : k = name
        · subst hk
          rw [if_pos rfl, hentries, SPathNode.entriesAt_branch rfl]
          simp
        · simp [hk]
    by_cases hwild : isWild name = true
    · rw [if_pos hwild]
      obtain ⟨⟨p, hfind⟩, hrep⟩ := replaced_wildBranch hw hwild hlowName
      simp only [hfind]
      by_cases hcode : (branchPattern separator bSimplePattern name).1 = 0
      · simp only [hcode, ne_eq, not_true_eq_false, if_false, hadd]
        obtain ⟨hr, hl⟩ := hrep added.1 (fun _ => (added.1, (branchPattern separator bSimplePattern name).2)) hnb
          (.inl hcode) fun _ => rfl
        exact hspec _ hr hl fun _ => hcode
      · -- the pattern is refused: the branch is there, and empty
        simp only [ne_eq, hcode, not_false_eq_true, if_true]
        have hempty : (node.child name).getD (.empty name) = .empty name := by
          cases hc : node.child name with
          | none => rfl
          | some b =>
            unfold SPathNode.child at hc
            rw [if_pos hwild] at hc
            obtain ⟨⟨c, q⟩, hf, rfl⟩ := Option.map_eq_some_iff.1 hc
            rcases ((SPathNode.wellFormed_iff.1 hw).1.wildBranch hf).2.2.2.2 with h | h
            · exact absurd h hcode
            · exact h
        obtain ⟨hr, hl⟩ := hrep (.empty name) (fun b => (b.1, (branchPattern separator bSimplePattern name).2)) rfl
          (.inr rfl) fun p => by rw [hempty]
        refine ⟨hr.wellFormed hw hl (SPathNode.wellFormed_empty separator bSimplePattern name), rfl,
          iff_of_false Bool.false_ne_true fun h => hcode (h name List.mem_cons_self hwild), fun names => ?_⟩
        rw [hr.entriesAt]
        cases names with
        | nil => simp
        | cons k names =>
          simp only [List.head?_cons, List.tail_cons, Option.some.injEq]
          by_cases hk : k = name
          · subst hk
            rw [if_pos rfl, ← hempty, SPathNode.entriesAt_branch rfl]
            simp
          · simp [hk]
    · rw [if_neg hwild]
      obtain ⟨hfind, hrep⟩ := replaced_branch hw (Bool.not_eq_true _ ▸ hwild)
      simp only [hfind, hadd]
      obtain ⟨hr, hl⟩ := hrep added.1 hnb
      exact hspec _ hr hl fun h => absurd h hwild

/-- An entry stands only where all patterns were accepted. -/
theorem SPathNode.WellFormed.accepted : ∀ {names : List Str} {node : SPathNode E} {entry : SPathEntry E},
    node.WellFormed separator bSimplePattern → entry ∈ node.entriesAt names →
      ∀ name ∈ names, isWild name = true → (branchPattern separator bSimplePattern name).1 = 0 ∧ Lowered name
  | [], _, _, _, _, _, h, _ => nomatch h
  | k :: names, node, entry, hw, he, name, hname, hwild => by
    rw [entriesAt_cons] at he
    cases hc : node.child k with
    | none => rw [hc] at he; cases he
    | some b =>
      rw [hc] at he
      obtain ⟨hl, hb⟩ := wellFormed_iff.1 hw
      rcases List.mem_cons.1 hname with rfl | hname
      · obtain ⟨⟨c, p⟩, hf, rfl⟩ := Option.map_eq_some_iff.1 ((if_pos hwild).symm.trans hc)
        obtain ⟨-, -, hlow, -, hcode | rfl⟩ := hl.wildBranch hf
        · exact ⟨hcode, hlow⟩
        · change entry ∈ (empty name).entriesAt names at he
          rw [entriesAt_empty] at he
          cases he
      · exact (hb k b hc).accepted he name hname hwild

/-! ## AddEntry on the tree -/

structure CPathTree.WellFormed (separator : WChar) (bSimplePattern : Bool) (t : CPathTree E) : Prop where
  separator_eq : t.separator = separator
  bSimplePattern_eq : t.bSimplePattern = bSimplePattern
  root : t.root.WellFormed separator bSimplePattern

theorem CPathTree.wellFormed_new (separator : WChar) (bSimplePattern : Bool) :
    (new separator bSimplePattern : CPathTree E).WellFormed separator bSimplePattern :=
  ⟨rfl, rfl, SPathNode.wellFormed_empty separator bSimplePattern []⟩

theorem validateLoop_error : ∀ (n : Nat) (rest : Str) (i : Nat) (info : SPatternInfo) (code : Int), rest.length ≤ n →
    validateLoop rest i info = .error code → code ≠ 0
  | _, [], _, _, _, _, h => by
    rw [validateLoop] at h
    cases h
  | 0, _ :: _, _, _, _, hlen, _ => by simp at hlen
  | n + 1, c :: rest, i, info, code, hlen, h => by
    rw [List.length_cons] at hlen
    have ih := fun rest' (hr : rest'.length ≤ rest.length) i info =>
      validateLoop_error n rest' i info code (by omega)
    rw [validateLoop.eq_def] at h
    simp only at h
    split at h
    · cases h
      decide
    · generalize (if c = questionMark then info.addQuestionMark i else info) = info at h
      split at h
      · split at h
        · rename_i d rest'
          split at h
          · split at h
            · cases h
              decide
            · exact ih rest' (by simp) _ _ h
          · exact ih _ (Nat.le_refl _) _ _ h
        · exact ih _ (Nat.le_refl _) _ _ h
      · split at h
        · cases h
          decide
        · exact ih _ (Nat.le_refl _) _ _ h

/-- The elements a path is stored at. -/
def storedAt (separator : WChar) (path : Str) : List Str := elements separator (makeLower path)

/-- The entry with what `AddEntry` notes of its path. -/
def storedEntry [PathEntry E] (separator : WChar) (e : E) : SPathEntry E :=
  { pEntry := e
    info := match validateLoop (PathEntry.getPath e) 0 .cleared with
      | .ok info => info
      | .error _ => .cleared
    endsWithSeparator := decide ((makeLower (PathEntry.getPath e)).getLast? = some separator) }

/-- The paths `AddEntry` accepts. -/
def Storable (separator : WChar) (bSimplePattern : Bool) (path : Str) : Prop :=
  path ≠ [] ∧ (∃ info, validateLoop path 0 .cleared = .ok info) ∧
    Accepted separator bSimplePattern (storedAt separator path)

/-- `AddEntry` stores an entry whose path it accepts, and changes nothing else. -/
theorem CPathTree.addEntry_stores [PathEntry E] {t : CPathTree E} (hw : t.WellFormed separator bSimplePattern) (x : E) :
    (t.addEntry x).1.WellFormed separator bSimplePattern ∧
    ((t.addEntry x).2 = 0 ↔ Storable separator bSimplePattern (PathEntry.getPath x)) ∧
    ∀ names, (t.addEntry x).1.root.entriesAt names =
      if (t.addEntry x).2 = 0 ∧ names = storedAt separator (PathEntry.getPath x)
      then t.root.entriesAt names ++ [storedEntry separator x] else t.root.entriesAt names := by
  unfold addEntry Storable
  by_cases hempty : PathEntry.getPath x = []
  · simp only [if_pos hempty]
    exact ⟨hw, by simp [hempty], by simp⟩
  simp only [if_neg hempty]
  cases hv : validateLoop (PathEntry.getPath x) 0 .cleared with
  | error code =>
    have hcode := validateLoop_error _ _ _ _ _ (Nat.le_refl _) hv
    exact ⟨hw, by simp [hcode], by simp [hcode]⟩
  | ok info =>
    have hentry : storedEntry separator x =
        ⟨x, info, decide ((makeLower (PathEntry.getPath x)).getLast? = some separator)⟩ := by
      rw [storedEntry, hv]
    simp only [add, hw.separator_eq, hw.bSimplePattern_eq, ← hentry]
    have hspec := addLoop_spec separator bSimplePattern (storedEntry separator x)
      ((makeLower (PathEntry.getPath x)).length + 1) t.root (makeLower (PathEntry.getPath x)) (Nat.lt_succ_self _)
      hw.root (lowered_makeLower _)
    generalize addLoop separator bSimplePattern (storedEntry separator x)
      ((makeLower (PathEntry.getPath x)).length + 1) t.root (makeLower (PathEntry.getPath x)) = result at hspec
    have hok : (if result.2 = true then (0 : Int) else -2) = 0 ↔ result.2 = true := by
      cases result.2 <;> decide
    refine ⟨⟨rfl, rfl, hspec.wellFormed⟩, hok.trans (hspec.ok_iff.trans ?_), fun names => ?_⟩
    · simp [hempty, storedAt, elements]
    · simp only [hspec.entriesAt_eq, hok]
      rfl

end MajorPrivacy.Path

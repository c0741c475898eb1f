/-
Along which elements `GetEntries` goes for a path. The route is a matter of the elements and the
path alone, so an entry is found in a tree just where it is found on its own; whatever the tree
and the order of its branches, nothing is found that does not stand in the tree, and nothing twice.
-/
import MajorPrivacy.Path.TreeEntries

namespace MajorPrivacy.Path

open MajorPrivacy.Core

variable {E : Type}

/-! ## Routes -/

/-- The elements that are followed also where the path is at its end. -/
def MayBeLeft (bSimplePattern : Bool) (name : Str) : Prop :=
  name = dblAsteriskName ∨ bSimplePattern = true ∧ name = asteriskName

/-- `GetEntries` goes along some elements to an entry; `ends` is whether the path of the entry ends
with a separator. -/
inductive Route (separator : WChar) (bSimplePattern : Bool) (flags : MayHaveSeparator) (ends : Bool) :
    List Str → Str → Prop
  | done {rest : Str} (h : skipSeparators separator rest = [])
      (he : flags = true ∨ decide (rest.head? = some separator) = ends) : Route separator bSimplePattern flags ends [] rest
  | behind {name : Str} {names : List Str} {rest : Str} (h : skipSeparators separator rest = [])
      (hn : MayBeLeft bSimplePattern name) (hr : Route separator bSimplePattern flags ends names []) :
      Route separator bSimplePattern flags ends (name :: names) rest
  | exact {name : Str} {names : List Str} {rest : Str} (h : skipSeparators separator rest ≠ [])
      (hn : isWild name = false) (he : element separator (skipSeparators separator rest) = name)
      (hr : Route separator bSimplePattern flags ends names (afterElement separator (skipSeparators separator rest))) :
      Route separator bSimplePattern flags ends (name :: names) rest
  | wild {name next : Str} {names : List Str} {rest : Str} (h : skipSeparators separator rest ≠ [])
      (hn : isWild name = true)
      (he : next ∈ branchEnds separator bSimplePattern (branchPattern separator bSimplePattern name).2
        (skipSeparators separator rest))
      (hr : Route separator bSimplePattern flags ends names next) :
      Route separator bSimplePattern flags ends (name :: names) rest

theorem MayBeLeft.isWild {bSimplePattern : Bool} {name : Str} (h : MayBeLeft bSimplePattern name) :
    isWild name = true := by
  rcases h with rfl | ⟨-, rfl⟩ <;> decide

/-- An entry stands at elements with a route. -/
def SPathNode.Leads (separator : WChar) (bSimplePattern : Bool) (flags : MayHaveSeparator) (node : SPathNode E)
    (rest : Str) (e : E) : Prop :=
  ∃ names, ∃ entry ∈ node.entriesAt names, entry.pEntry = e ∧
    Route separator bSimplePattern flags entry.endsWithSeparator names rest

section Leads

variable {separator : WChar} {bSimplePattern : Bool} {flags : MayHaveSeparator}

theorem SPathNode.leads_end {node : SPathNode E} {rest : Str} {e : E} (h : skipSeparators separator rest = []) :
    node.Leads separator bSimplePattern flags rest e ↔
      (∃ entry ∈ node.entries, entry.pEntry = e ∧
        (flags = true ∨ decide (rest.head? = some separator) = entry.endsWithSeparator)) ∨
      ∃ name b, MayBeLeft bSimplePattern name ∧ node.child name = some b ∧
        b.Leads separator bSimplePattern flags [] e := by
  constructor
  · rintro ⟨names, entry, hm, rfl, hr⟩
    cases hr with
    | done _ he => exact .inl ⟨entry, hm, rfl, he⟩
    | @behind name names _ _ hn hr =>
      rw [entriesAt_cons] at hm
      cases hc : node.child name with
      | none => rw [hc] at hm; cases hm
      | some b =>
        rw [hc] at hm
        exact .inr ⟨name, b, hn, hc, names, entry, hm, rfl, hr⟩
    | exact h' => exact absurd h h'
    | wild h' => exact absurd h h'
  · rintro (⟨entry, hm, rfl, he⟩ | ⟨name, b, hn, hc, names, entry, hm, rfl, hr⟩)
    · exact ⟨[], entry, hm, rfl, .done h he⟩
    · refine ⟨name :: names, entry, ?_, rfl, .behind h hn hr⟩
      rw [entriesAt_cons, hc]
      exact hm

theorem SPathNode.leads_element {node : SPathNode E} {rest : Str} {e : E} (h : skipSeparators separator rest ≠ []) :
    node.Leads separator bSimplePattern flags rest e ↔
      (∃ b, isWild (element separator (skipSeparators separator rest)) = false ∧
        node.child (element separator (skipSeparators separator rest)) = some b ∧
        b.Leads separator bSimplePattern flags (afterElement separator (skipSeparators separator rest)) e) ∨
      ∃ name b, isWild name = true ∧ node.child name = some b ∧
        ∃ next ∈ branchEnds separator bSimplePattern (branchPattern separator bSimplePattern name).2
          (skipSeparators separator rest), b.Leads separator bSimplePattern flags next e := by
  constructor
  · rintro ⟨names, entry, hm, rfl, hr⟩
    cases hr with
    | done h' => exact absurd h' h
    | behind h' => exact absurd h' h
    | @exact name names _ _ hn he hr =>
      subst he
      rw [entriesAt_cons] at hm
      cases hc : node.child (element separator (skipSeparators separator rest)) with
      | none => rw [hc] at hm; cases hm
      | some b =>
        rw [hc] at hm
        exact .inl ⟨b, hn, rfl, names, entry, hm, rfl, hr⟩
    | @wild name next names _ _ hn he hr =>
      rw [entriesAt_cons] at hm
      cases hc : node.child name with
      | none => rw [hc] at hm; cases hm
      | some b =>
        rw [hc] at hm
        exact .inr ⟨name, b, hn, hc, next, he, names, entry, hm, rfl, hr⟩
  · rintro (⟨b, hn, hc, names, entry, hm, rfl, hr⟩ | ⟨name, b, hn, hc, next, he, names, entry, hm, rfl, hr⟩)
    · refine ⟨_ :: names, entry, ?_, rfl, .exact h hn rfl hr⟩
      rw [entriesAt_cons, hc]
      exact hm
    · refine ⟨name :: names, entry, ?_, rfl, .wild h hn he hr⟩
      rw [entriesAt_cons, hc]
      exact hm

end Leads

/-! ## GetEntries -/

/-- What a loop over a list collects. -/
theorem foldl_collect {A X : Type} (has : A → Prop) (P : X → Prop) {f : A → X → A} :
    ∀ (l : List X) (a : A), (∀ a, ∀ x ∈ l, has (f a x) ↔ has a ∨ P x) →
      (has (l.foldl f a) ↔ has a ∨ ∃ x ∈ l, P x)
  | [], a, _ => by simp
  | x :: l, a, h => by
    rw [List.foldl_cons, foldl_collect has P l (f a x) fun a y hy => h a y (List.mem_cons_of_mem _ hy),
      h a x List.mem_cons_self, or_assoc]
    simp

/-- What a loop over a list preserves. -/
theorem foldl_preserves {A X : Type} {M : A → Prop} {f : A → X → A} :
    ∀ (l : List X) (a : A), (∀ a, ∀ x ∈ l, M a → M (f a x)) → M a → M (l.foldl f a)
  | [], _, _, ha => ha
  | x :: l, a, h, ha =>
    foldl_preserves l (f a x) (fun a y hy => h a y (List.mem_cons_of_mem _ hy)) (h a x List.mem_cons_self ha)

section GetEntries

variable [DecidableEq E]

/-- An entry is among the found ones. -/
def Found (found : List (SPathEntry E)) (e : E) : Prop := ∃ entry ∈ found, entry.pEntry = e

theorem found_appendEntries (flags : MayHaveSeparator) (bHasSeparator : Bool) (found entries : List (SPathEntry E))
    (e : E) : Found (appendEntries flags bHasSeparator found entries) e ↔
      Found found e ∨ ∃ entry ∈ entries, entry.pEntry = e ∧ (flags = true ∨ bHasSeparator = entry.endsWithSeparator) := by
  unfold appendEntries
  refine foldl_collect (Found · e)
    (fun entry : SPathEntry E => entry.pEntry = e ∧ (flags = true ∨ bHasSeparator = entry.endsWithSeparator)) _ _ ?_
  intro found entry _
  by_cases hskip : entry.endsWithSeparator ≠ bHasSeparator ∧ flags = false
  · rw [if_pos hskip]
    obtain ⟨hsep, hflags⟩ := hskip
    exact ⟨.inl, fun h => h.elim id fun ⟨_, h⟩ => h.elim (fun h => by simp [hflags] at h) fun h => absurd h.symm hsep⟩
  · have hpass : flags = true ∨ bHasSeparator = entry.endsWithSeparator := by
      rcases Bool.eq_false_or_eq_true flags with hf | hf
      · exact .inl hf
      · exact .inr (not_not.1 fun hsep => hskip ⟨Ne.symm hsep, hf⟩)
    rw [if_neg hskip, and_iff_left hpass]
    by_cases hany : found.any (·.pEntry = entry.pEntry) = true
    · rw [if_pos hany]
      refine ⟨.inl, fun h => h.elim id ?_⟩
      rintro rfl
      obtain ⟨x, hx, he⟩ := List.any_eq_true.1 hany
      exact ⟨x, hx, by simpa using he⟩
    · rw [if_neg hany]
      simp [Found, or_and_right, exists_or]

/-- What is appended stood in the node, and was not found before. -/
theorem appendEntries_preserves {M : List (SPathEntry E) → Prop} {entries : List (SPathEntry E)}
    (hM : ∀ found, ∀ entry ∈ entries, ¬ Found found entry.pEntry → M found → M (found ++ [entry]))
    (flags : MayHaveSeparator) (bHasSeparator : Bool) {found : List (SPathEntry E)} (h : M found) :
    M (appendEntries flags bHasSeparator found entries) := by
  unfold appendEntries
  refine foldl_preserves _ _ (fun found entry hentry h => ?_) h
  split
  · exact h
  · split
    · exact h
    · rename_i hany
      refine hM found entry hentry ?_ h
      rintro ⟨x, hx, he⟩
      exact hany (List.any_eq_true.2 ⟨x, hx, by simpa using he⟩)

/-- What holds of the found entries and is preserved by one more that stands in the tree, holds of
the result of `GetEntries`; by induction on the node. -/
theorem getEntriesLoop_preserves {separator : WChar} {bSimplePattern : Bool} {flags : MayHaveSeparator}
    {M : List (SPathEntry E) → Prop} (parent : SPathNode E) (hw : parent.WellFormed separator bSimplePattern)
    (hM : ∀ found names, ∀ entry ∈ parent.entriesAt names, ¬ Found found entry.pEntry → M found → M (found ++ [entry]))
    (found : List (SPathEntry E)) (rest : Str) (h : M found) :
    M (getEntriesLoop separator bSimplePattern flags parent found rest) := by
  have hwild : ∀ {name b p}, parent.wildBranches.findValue name = some (b, p) → ∀ found names, ∀ entry ∈ b.entriesAt names,
      ¬ Found found entry.pEntry → M found → M (found ++ [entry]) := by
    intro name b p hf found names entry he
    refine hM found (name :: names) entry ?_
    rw [SPathNode.entriesAt_cons, (hw.wildBranch hf).1]
    exact he
  have hbranch : ∀ {name b}, parent.branches.findValue name = some b → ∀ found names, ∀ entry ∈ b.entriesAt names,
      ¬ Found found entry.pEntry → M found → M (found ++ [entry]) := by
    intro name b hf found names entry he
    refine hM found (name :: names) entry ?_
    rw [SPathNode.entriesAt_cons, (hw.branch hf).1]
    exact he
  have hl := (SPathNode.wellFormed_iff.1 hw).1
  rw [getEntriesLoop]
  by_cases hend : skipSeparators separator rest = []
  · simp only [if_pos hend]
    refine foldl_preserves _ _ ?_ (appendEntries_preserves (hM · []) _ _ h)
    rintro found ⟨⟨name, b, p⟩, hm⟩ - h
    have hf := hl.wildBranches.mem_toList.1 hm
    have hsize := sizeOf_wildBranch hm
    split
    · exact getEntriesLoop_preserves b (hw.wildBranch hf).2 (hwild hf) found [] h
    · exact h
  · simp only [if_neg hend]
    refine foldl_preserves _ _ ?_ ?_
    · rintro found ⟨⟨name, b, p⟩, hm⟩ - h
      have hf := hl.wildBranches.mem_toList.1 hm
      have hsize := sizeOf_wildBranch hm
      exact foldl_preserves _ _
        (fun found rest _ h => getEntriesLoop_preserves b (hw.wildBranch hf).2 (hwild hf) found rest h) h
    · split
      · rename_i b hf
        have hsize := sizeOf_branch hf
        exact getEntriesLoop_preserves b (hw.branch hf).2 (hbranch hf) found _ h
      · exact h
termination_by sizeOf parent
decreasing_by
  all_goals assumption

/-- `GetEntries` below a node finds what the routes lead to; by induction on the node. -/
theorem found_getEntriesLoop {separator : WChar} {bSimplePattern : Bool} (flags : MayHaveSeparator) (e : E)
    (parent : SPathNode E) (hw : parent.WellFormed separator bSimplePattern) (found : List (SPathEntry E)) (rest : Str) :
    Found (getEntriesLoop separator bSimplePattern flags parent found rest) e ↔
      Found found e ∨ parent.Leads separator bSimplePattern flags rest e := by
  have hl := (SPathNode.wellFormed_iff.1 hw).1
  rw [getEntriesLoop]
  by_cases hend : skipSeparators separator rest = []
  · simp only [if_pos hend]
    rw [SPathNode.leads_end hend, ← or_assoc, ← found_appendEntries]
    generalize appendEntries flags (decide (rest.head? = some separator)) found parent.entries = found
    rw [foldl_collect (Found · e) fun x =>
      MayBeLeft bSimplePattern x.1.2.1.name ∧ x.1.2.1.Leads separator bSimplePattern flags [] e]
    · apply or_congr Iff.rfl
      constructor
      · rintro ⟨⟨⟨name, b, p⟩, hm⟩, -, hname, hr⟩
        have hf := hl.wildBranches.mem_toList.1 hm
        rw [(hl.wildBranch hf).2.1] at hname
        exact ⟨name, b, hname, (hw.wildBranch hf).1, hr⟩
      · rintro ⟨name, b, hn, hc, hr⟩
        obtain ⟨⟨c, p⟩, hf, rfl⟩ := Option.map_eq_some_iff.1 ((if_pos hn.isWild).symm.trans hc)
        refine ⟨⟨_, hl.wildBranches.mem_toList.2 hf⟩, List.mem_attach _ _, ?_, hr⟩
        rw [(hl.wildBranch hf).2.1]
        exact hn
    · rintro found ⟨⟨name, b, p⟩, hm⟩ -
      have hf := hl.wildBranches.mem_toList.1 hm
      have hsize := sizeOf_wildBranch hm
      have ih := found_getEntriesLoop flags e b (hw.wildBranch hf).2 found []
      by_cases hname : MayBeLeft bSimplePattern b.name
      · refine (iff_of_eq (congrArg (Found · e) (if_pos hname))).trans (ih.trans (or_congr Iff.rfl ?_))
        exact (and_iff_right hname).symm
      · refine (iff_of_eq (congrArg (Found · e) (if_neg hname))).trans ?_
        exact (or_iff_left fun h => hname h.1).symm
  · simp only [if_neg hend]
    rw [SPathNode.leads_element hend, ← or_assoc]
    rw [foldl_collect (Found · e) fun x => ∃ next ∈ branchEnds separator bSimplePattern
      (branchPattern separator bSimplePattern x.1.1).2 (skipSeparators separator rest),
        x.1.2.1.Leads separator bSimplePattern flags next e]
    · apply or_congr
      · -- the branch of the same name
        split
        · rename_i b hf
          have hsize := sizeOf_branch hf
          have ih := found_getEntriesLoop flags e b (hw.branch hf).2 found
            (afterElement separator (skipSeparators separator rest))
          rw [ih]
          apply or_congr Iff.rfl
          constructor
          · exact fun hr => ⟨b, (hl.branch hf).1, (hw.branch hf).1, hr⟩
          · rintro ⟨c, -, hc, hr⟩
            rw [(hw.branch hf).1] at hc
            cases hc
            exact hr
        · rename_i hf
          constructor
          · exact .inl
          · rintro (h | ⟨b, hn, hc, -⟩)
            · exact h
            · unfold SPathNode.child at hc
              rw [hn, if_neg Bool.false_ne_true, hf] at hc
              cases hc
      · constructor
        · rintro ⟨⟨⟨name, b, p⟩, hm⟩, -, next, he, hr⟩
          have hf := hl.wildBranches.mem_toList.1 hm
          exact ⟨name, b, (hl.wildBranch hf).1, (hw.wildBranch hf).1, next, he, hr⟩
        · rintro ⟨name, b, hn, hc, next, he, hr⟩
          obtain ⟨⟨c, p⟩, hf, rfl⟩ := Option.map_eq_some_iff.1 ((if_pos hn).symm.trans hc)
          exact ⟨⟨_, hl.wildBranches.mem_toList.2 hf⟩, List.mem_attach _ _, next, he, hr⟩
    · -- the branches with wildcards, each at all its ends
      rintro found ⟨⟨name, b, p⟩, hm⟩ -
      have hf := hl.wildBranches.mem_toList.1 hm
      obtain ⟨-, -, -, rfl, -⟩ := hl.wildBranch hf
      have hsize := sizeOf_wildBranch hm
      have ih := fun found next => found_getEntriesLoop flags e b (hw.wildBranch hf).2 found next
      exact foldl_collect (Found · e) (fun next => b.Leads separator bSimplePattern flags next e) _ _
        fun a next _ => ih a next
termination_by sizeOf parent
decreasing_by
  all_goals assumption

end GetEntries

end MajorPrivacy.Path

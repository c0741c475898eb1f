/-
Rules in a path tree: after any calls of `AddEntry` the tree holds the entries that were accepted,
each at the elements of its path. Whether `GetEntries` misses an entry whose pattern the path
matches depends on the pattern and the path alone.
-/
import MajorPrivacy.Path.Walk

namespace MajorPrivacy.Path

open MajorPrivacy.Core Glob

/-- `CPathEntry`, an entry that is only its path. -/
structure CPathEntry where
  path : Str
  deriving DecidableEq

instance : PathEntry CPathEntry := ⟨CPathEntry.path⟩

section Rules

variable {E : Type} [PathEntry E]

/-- `AddEntry` for one entry after the other. -/
def CPathTree.addEntries (t : CPathTree E) (es : List E) : CPathTree E := es.foldl (fun t e => (t.addEntry e).1) t

/-- The entry is one of those added, and was accepted. -/
def CPathTree.Stores : CPathTree E → List E → E → Prop
  | _, [], _ => False
  | t, x :: es, e => (x = e ∧ (t.addEntry e).2 = 0) ∨ Stores (t.addEntry x).1 es e

/-- The path as a whole matches the pattern, read as one wildcard expression. -/
def FullMatch (pattern path : Str) : Prop :=
  Lang (stopAt backslash) (fun c => c ≠ backslash) (tokens (makeLower pattern)) (makeLower path)

/-! ## What the tree holds -/

/-- The tree has an entry at some elements. -/
def CPathTree.Has (t : CPathTree E) (e : E) (endsWithSeparator : Bool) (names : List Str) : Prop :=
  ∃ entry ∈ t.root.entriesAt names, entry.pEntry = e ∧ entry.endsWithSeparator = endsWithSeparator

/-- `AddEntry` has its entry in the tree if it reports no error, and changes nothing else. -/
theorem CPathTree.addEntry_spec {separator : WChar} {t : CPathTree E} (hw : t.WellFormed separator false) (x : E) :
    (t.addEntry x).1.WellFormed separator false ∧ ∀ e ends names, (t.addEntry x).1.Has e ends names ↔
      t.Has e ends names ∨ (t.addEntry x).2 = 0 ∧ x = e ∧
        ends = decide ((makeLower (PathEntry.getPath x)).getLast? = some separator) ∧
        names = storedAt separator (PathEntry.getPath x) := by
  obtain ⟨hwf, -, hentries⟩ := addEntry_stores hw x
  have hmem : ∀ names entry, entry ∈ (t.addEntry x).1.root.entriesAt names ↔ entry ∈ t.root.entriesAt names ∨
      (t.addEntry x).2 = 0 ∧ entry = storedEntry separator x ∧ names = storedAt separator (PathEntry.getPath x) := by
    intro names entry
    rw [hentries]
    split
    · rename_i h
      simp [h.1, h.2]
    · rename_i h
      simp only [not_and] at h
      exact (or_iff_left fun ⟨hr, _, hn⟩ => h hr hn).symm
  refine ⟨hwf, fun e ends names => ?_⟩
  unfold Has
  simp only [hmem]
  constructor
  · rintro ⟨entry, hm | ⟨hr, rfl, rfl⟩, rfl, rfl⟩
    · exact .inl ⟨entry, hm, rfl, rfl⟩
    · exact .inr ⟨hr, rfl, rfl, rfl⟩
  · rintro (⟨entry, hm, rfl, rfl⟩ | ⟨hr, rfl, rfl, rfl⟩)
    · exact ⟨entry, .inl hm, rfl, rfl⟩
    · exact ⟨_, .inr ⟨hr, rfl, rfl⟩, rfl, rfl⟩

/-- After any calls of `AddEntry` the tree holds what it held before and the accepted entries. -/
theorem CPathTree.addEntries_spec {separator : WChar} : ∀ (es : List E) {t : CPathTree E}, t.WellFormed separator false →
    (t.addEntries es).WellFormed separator false ∧ ∀ e ends names, (t.addEntries es).Has e ends names ↔
      t.Has e ends names ∨ t.Stores es e ∧
        ends = decide ((makeLower (PathEntry.getPath e)).getLast? = some separator) ∧
        names = storedAt separator (PathEntry.getPath e)
  | [], t, hw => ⟨hw, fun e ends names => by simp [addEntries, Stores]⟩
  | x :: es, t, hw => by
    obtain ⟨hw₁, h₁⟩ := addEntry_spec hw x
    obtain ⟨hw₂, h₂⟩ := addEntries_spec es hw₁
    refine ⟨hw₂, fun e ends names => (h₂ e ends names).trans ?_⟩
    rw [h₁, Stores, or_assoc]
    apply or_congr Iff.rfl
    constructor
    · rintro (⟨hc, rfl, he⟩ | ⟨hs, he⟩)
      · exact ⟨.inl ⟨rfl, hc⟩, he⟩
      · exact ⟨.inr hs, he⟩
    · rintro ⟨⟨rfl, hc⟩ | hs, he⟩
      · exact .inl ⟨hc, rfl, he⟩
      · exact .inr ⟨hs, he⟩

/-! ## What a path finds -/

variable [DecidableEq E]

omit [PathEntry E] in
theorem CPathTree.found_getEntries {separator : WChar} {t : CPathTree E} (hw : t.WellFormed separator false) (path : Str)
    (e : E) : Found (t.getEntries path false) e ↔
      ∃ ends names, t.Has e ends names ∧ Walk separator ends names (makeLower path) := by
  unfold getEntries
  rw [hw.separator_eq, hw.bSimplePattern_eq, found_getEntriesLoop false e t.root hw.root]
  constructor
  · rintro (⟨_, hm, -⟩ | ⟨names, entry, hm, he, hr⟩)
    · cases hm
    · exact ⟨_, names, ⟨entry, hm, he, rfl⟩, (walk_iff_route (hw.root.accepted hm)).2 hr⟩
  · rintro ⟨_, names, ⟨entry, hm, he, rfl⟩, hr⟩
    exact .inr ⟨names, entry, hm, he, (walk_iff_route (hw.root.accepted hm)).1 hr⟩

/-- A path finds a stored entry just where it walks along the elements of the entry's pattern. -/
theorem CPathTree.found_addEntries {separator : WChar} {es : List E} {e : E}
    (h : (new separator false).Stores es e) (path : Str) :
    Found (((new separator false).addEntries es).getEntries path false) e ↔
      Walk separator (decide ((makeLower (PathEntry.getPath e)).getLast? = some separator))
        (storedAt separator (PathEntry.getPath e)) (makeLower path) := by
  obtain ⟨hw, hhas⟩ := addEntries_spec es (wellFormed_new (E := E) separator false)
  have hnew : ∀ ends names, ¬ (new separator false : CPathTree E).Has e ends names := by
    rintro ends names ⟨entry, hm, -⟩
    rw [new, SPathNode.entriesAt_empty] at hm
    cases hm
  rw [found_getEntries hw]
  simp only [hhas, hnew, false_or]
  constructor
  · rintro ⟨_, _, ⟨-, rfl, rfl⟩, hr⟩
    exact hr
  · exact fun hr => ⟨_, _, ⟨h, rfl, rfl⟩, hr⟩

/-- The tree of these entries does not miss an entry for a path. -/
def NotMissed (es : List E) (e : E) (path : Str) : Prop :=
  FullMatch (PathEntry.getPath e) path →
    Found (((CPathTree.new backslash false).addEntries es).getEntries path false) e

theorem lower_eq_backslash {c : WChar} : lower c = backslash ↔ c = backslash := by
  unfold lower backslash
  split
  · rename_i h
    rw [UInt16.le_iff_toNat_le, UInt16.le_iff_toNat_le] at h
    rw [← UInt16.toNat_inj, ← UInt16.toNat_inj, UInt16.toNat_add]
    simp at h ⊢
    omega
  · rfl

theorem getLast?_makeLower (s : Str) : (makeLower s).getLast? = some backslash ↔ s.getLast? = some backslash := by
  unfold makeLower
  rw [List.getLast?_map, Option.map_eq_some_iff]
  constructor
  · rintro ⟨c, hc, hl⟩
    rw [hc, lower_eq_backslash.1 hl]
  · intro h
    exact ⟨backslash, h, by decide⟩

/-- A stored entry is not missed just where the path does not match its pattern or walks along the
elements of the pattern. -/
theorem notMissed_iff {es : List E} {e : E} (h : (CPathTree.new backslash false).Stores es e)
    (hlast : (PathEntry.getPath e).getLast? ≠ some backslash) (path : Str) :
    NotMissed es e path ↔ ¬ FullMatch (PathEntry.getPath e) path ∨
      Walk backslash false (storedAt backslash (PathEntry.getPath e)) (makeLower path) := by
  have hends : decide ((makeLower (PathEntry.getPath e)).getLast? = some backslash) = false := by
    rw [decide_eq_false_iff_not, getLast?_makeLower]
    exact hlast
  unfold NotMissed
  rw [CPathTree.found_addEntries h, hends, imp_iff_not_or]

end Rules

/-- The rule for programs with an extension. -/
def exeRule : CPathEntry := ⟨[0x2A, 0x2E, 0x65, 0x78, 0x65]⟩

theorem stores_exeRule : (CPathTree.new backslash false).Stores [exeRule] exeRule := .inl ⟨rfl, by decide +kernel⟩

theorem walk_exeRule {path next : Str} (h : skipSeparators backslash path ≠ [])
    (he : next ∈ branchEnds backslash false (branchPattern backslash false exeRule.path).2 (skipSeparators backslash path))
    (hn : skipSeparators backslash next = []) (hs : decide (next.head? = some backslash) = false) :
    Walk backslash false (storedAt backslash exeRule.path) path :=
  .wild h (by decide +kernel) ((mem_branchEnds (by decide +kernel) (by decide +kernel) _ _).1 he) (.done hn hs)

/-- The rule is found for a program whose name has the extension once. -/
theorem notMissed_extension : NotMissed [exeRule] exeRule [0x41, 0x2E, 0x45, 0x58, 0x45] :=
  (notMissed_iff stores_exeRule (by decide +kernel) _).2 (.inr (walk_exeRule (by decide +kernel) (show [] ∈ _ by decide +kernel) (by decide +kernel) (by decide +kernel)))

/-- It is missed where the name has the extension twice. -/
theorem getEntries_misses_second_extension : ¬ ∀ (es : List CPathEntry) (e : CPathEntry) (path : Str),
    (CPathTree.new backslash false).Stores es e → e.path.getLast? ≠ some backslash →
    path.getLast? ≠ some backslash → NotMissed es e path := by
  intro h
  have hfound := h [exeRule] exeRule [0x61, 0x2E, 0x65, 0x78, 0x65, 0x2E, 0x65, 0x78, 0x65] stores_exeRule (by decide +kernel)
    (by decide +kernel) ⟨[0x61, 0x2E, 0x65, 0x78, 0x65], [0x2E, 0x65, 0x78, 0x65], rfl, .inr (by simp [stopAt, backslash]),
      _, rfl, _, rfl, _, rfl, _, rfl, rfl⟩
  have hlow : Lowered exeRule.path := by decide +kernel
  have hnone : branchEnds backslash false (branchPattern backslash false exeRule.path).2
      (skipSeparators backslash (makeLower [0x61, 0x2E, 0x65, 0x78, 0x65, 0x2E, 0x65, 0x78, 0x65])) = [] := by decide +kernel
  cases (CPathTree.found_addEntries stores_exeRule _).1 hfound with
  | exact _ hn =>
    revert hn
    decide +kernel
  | wild _ _ he _ =>
    have hmem := (mem_branchEnds (by decide +kernel) hlow _ _).2 he
    rw [hnone] at hmem
    cases hmem

end MajorPrivacy.Path

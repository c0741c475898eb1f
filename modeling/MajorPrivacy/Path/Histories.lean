/-
A path tree over any calls of `AddEntry` and `RemoveEntry`. The tree holds each stored entry once,
at the elements of its path, so what `GetEntries` returns is put together from what it returns on a
tree for each stored entry alone: entries that share nodes or branches with wildcards do not
interfere, and pruning takes nothing away.
-/
import MajorPrivacy.Path.Routes
import MajorPrivacy.Path.Removal

namespace MajorPrivacy.Path

open MajorPrivacy.Core

variable {E : Type} [DecidableEq E]

/-- A call on the tree, or a new path for an entry. -/
inductive TreeCall (E : Type)
  | addEntry (pEntry : E)
  | removeEntry (pEntry : E)
  | setPath (pEntry : E) (path : Str)

/-- The tree, the entries as they are, and those added with result 0 and not removed since. -/
structure TreeHistory (E : Type) where
  paths : E → Str
  tree : CPathTree E
  stored : List E

namespace TreeHistory

/-- The entries of a history at a time. -/
abbrev pathEntry (h : TreeHistory E) : PathEntry E := ⟨h.paths⟩

def new (separator : WChar) (bSimplePattern : Bool) (paths : E → Str) : TreeHistory E :=
  ⟨paths, .new separator bSimplePattern, []⟩

def step (h : TreeHistory E) : TreeCall E → TreeHistory E
  | .addEntry pEntry =>
    let (tree, code) := @CPathTree.addEntry E h.pathEntry h.tree pEntry
    { h with tree := tree, stored := if code = 0 then pEntry :: h.stored else h.stored }
  | .removeEntry pEntry =>
    let (tree, _) := @CPathTree.removeEntry E _ h.pathEntry h.tree pEntry
    { h with tree := tree, stored := h.stored.filter (· ≠ pEntry) }
  | .setPath pEntry path => { h with paths := fun e => if e = pEntry then path else h.paths e }

/-- An entry is added while it is not stored, and keeps its path while it is. -/
def AllowedCall (h : TreeHistory E) : TreeCall E → Prop
  | .addEntry pEntry => pEntry ∉ h.stored
  | .removeEntry _ => True
  | .setPath pEntry _ => pEntry ∉ h.stored

def run (h : TreeHistory E) (calls : List (TreeCall E)) : TreeHistory E := calls.foldl step h

def Allowed : TreeHistory E → List (TreeCall E) → Prop
  | _, [] => True
  | h, call :: calls => h.AllowedCall call ∧ Allowed (h.step call) calls

instance (h : TreeHistory E) : (call : TreeCall E) → Decidable (h.AllowedCall call)
  | .addEntry pEntry => inferInstanceAs (Decidable (pEntry ∉ h.stored))
  | .removeEntry _ => inferInstanceAs (Decidable True)
  | .setPath pEntry _ => inferInstanceAs (Decidable (pEntry ∉ h.stored))

/-! ## The invariant -/

/-- The entry as it is stored, and where. -/
abbrev entryOf (h : TreeHistory E) (separator : WChar) (e : E) : SPathEntry E := @storedEntry E h.pathEntry separator e

/-- The tree holds the stored entries, each at the elements of its path. -/
structure Inv (separator : WChar) (bSimplePattern : Bool) (h : TreeHistory E) : Prop where
  wellFormed : h.tree.WellFormed separator bSimplePattern
  storable : ∀ e ∈ h.stored, Storable separator bSimplePattern (h.paths e)
  mem_entriesAt : ∀ names entry, entry ∈ h.tree.root.entriesAt names ↔
    ∃ e ∈ h.stored, entry = h.entryOf separator e ∧ names = storedAt separator (h.paths e)
  nodup : ∀ names, ((h.tree.root.entriesAt names).map (·.pEntry)).Nodup

variable {separator : WChar} {bSimplePattern : Bool} {h : TreeHistory E}

omit [DecidableEq E] in
theorem inv_new (separator : WChar) (bSimplePattern : Bool) (paths : E → Str) : (new separator bSimplePattern paths).Inv separator bSimplePattern := by
  have hempty : ∀ names, (new separator bSimplePattern paths).tree.root.entriesAt names = [] :=
    SPathNode.entriesAt_empty []
  refine ⟨CPathTree.wellFormed_new separator bSimplePattern, fun _ he => absurd he List.not_mem_nil,
    fun names entry => ?_, fun names => ?_⟩
  · rw [hempty]
    simp [new]
  · rw [hempty]
    exact List.nodup_nil

/-- The entry with a given pointer is taken off a list in which it stands once. -/
theorem mem_eraseP_pEntry {e : E} {entry : SPathEntry E} : ∀ {l : List (SPathEntry E)}, (l.map (·.pEntry)).Nodup →
    (entry ∈ l.eraseP (·.pEntry = e) ↔ entry ∈ l ∧ entry.pEntry ≠ e)
  | [], _ => by simp
  | x :: l, hn => by
    rw [List.map_cons, List.nodup_cons] at hn
    by_cases hx : x.pEntry = e
    · have hne : entry ∈ l → entry.pEntry ≠ e := by
        intro hm he
        exact hn.1 (hx ▸ he ▸ List.mem_map_of_mem hm)
      rw [List.eraseP_cons_of_pos (by simpa using hx), List.mem_cons]
      constructor
      · exact fun hm => ⟨.inr hm, hne hm⟩
      · rintro ⟨rfl | hm, he⟩
        · exact absurd hx he
        · exact hm
    · rw [List.eraseP_cons_of_neg (by simpa using hx), List.mem_cons, List.mem_cons, mem_eraseP_pEntry hn.2]
      constructor
      · rintro (rfl | ⟨hm, he⟩)
        · exact ⟨.inl rfl, hx⟩
        · exact ⟨.inr hm, he⟩
      · rintro ⟨rfl | hm, he⟩
        · exact .inl rfl
        · exact .inr ⟨hm, he⟩

theorem mem_stored_addEntry {pEntry e : E} (he : e ∈ (h.step (.addEntry pEntry)).stored) : e = pEntry ∨ e ∈ h.stored := by
  have hstored : (h.step (.addEntry pEntry)).stored =
    if (@CPathTree.addEntry E h.pathEntry h.tree pEntry).2 = 0 then pEntry :: h.stored else h.stored := rfl
  rw [hstored] at he
  split at he
  · exact List.mem_cons.1 he
  · exact .inr he

theorem Inv.addEntry (hi : h.Inv separator bSimplePattern) {pEntry : E} (hnew : pEntry ∉ h.stored) :
    (h.step (.addEntry pEntry)).Inv separator bSimplePattern := by
  let _ := h.pathEntry
  obtain ⟨hw, hcode, hentries⟩ := CPathTree.addEntry_stores hi.wellFormed pEntry
  have hstep : h.step (.addEntry pEntry) = { h with
      tree := (h.tree.addEntry pEntry).1
      stored := if (h.tree.addEntry pEntry).2 = 0 then pEntry :: h.stored else h.stored } := rfl
  rw [hstep]
  by_cases hc : (h.tree.addEntry pEntry).2 = 0
  · simp only [hc, true_and, if_true] at hentries ⊢
    refine ⟨hw, ?_, fun names entry => ?_, fun names => ?_⟩
    · intro e he
      rcases List.mem_cons.1 he with rfl | he
      · exact hcode.1 hc
      · exact hi.storable e he
    · simp only [hentries, List.mem_cons, or_and_right, exists_or, exists_eq_left]
      rw [← hi.mem_entriesAt]
      split
      · rename_i hn
        rw [List.mem_append, List.mem_singleton, or_comm]
        exact or_congr (iff_self_and.2 fun _ => hn) Iff.rfl
      · rename_i hn
        exact (or_iff_right fun ⟨_, h⟩ => hn h).symm
    · simp only [hentries]
      split
      · rw [List.map_append, List.map_singleton]
        refine List.nodup_append.2 ⟨hi.nodup names, List.nodup_singleton _, ?_⟩
        intro a ha b hb
        rintro rfl
        obtain ⟨entry, hm, hp⟩ := List.mem_map.1 ha
        obtain ⟨e, he, rfl, -⟩ := (hi.mem_entriesAt names entry).1 hm
        obtain rfl : e = pEntry := hp.trans (List.mem_singleton.1 hb)
        exact hnew he
      · exact hi.nodup names
  · simp only [hc, false_and, if_false] at hentries ⊢
    refine ⟨hw, hi.storable, fun names entry => ?_, fun names => ?_⟩
    · rw [hentries]
      exact hi.mem_entriesAt names entry
    · rw [hentries]
      exact hi.nodup names

theorem removeEntry_removed (hi : h.Inv separator bSimplePattern) (pEntry : E) :
    SPathNode.Removed separator bSimplePattern pEntry (storedAt separator (h.paths pEntry)) h.tree.root
      (removeLoop separator pEntry ((makeLower (h.paths pEntry)).length + 1) h.tree.root (makeLower (h.paths pEntry))) :=
  removeLoop_spec pEntry _ _ _ (Nat.lt_succ_self _) hi.wellFormed.root

theorem Inv.removeEntry (hi : h.Inv separator bSimplePattern) (pEntry : E) :
    (h.step (.removeEntry pEntry)).Inv separator bSimplePattern := by
  have hr := removeEntry_removed hi pEntry
  generalize hresult : removeLoop separator pEntry ((makeLower (h.paths pEntry)).length + 1) h.tree.root
    (makeLower (h.paths pEntry)) = result at hr
  have hroot : (h.step (.removeEntry pEntry)).tree.root = result.1 := by
    rw [← hresult, ← hi.wellFormed.separator_eq]
    rfl
  have hstored : (h.step (.removeEntry pEntry)).stored = h.stored.filter (· ≠ pEntry) := rfl
  have hpaths : (h.step (.removeEntry pEntry)).paths = h.paths := rfl
  refine ⟨⟨hi.wellFormed.separator_eq, hi.wellFormed.bSimplePattern_eq, hroot ▸ hr.wellFormed⟩, ?_, fun names entry => ?_,
    fun names => ?_⟩
  · intro e he
    exact hi.storable e (List.mem_filter.1 he).1
  · have hmem : entry ∈ result.1.entriesAt names ↔ entry ∈ h.tree.root.entriesAt names ∧ entry.pEntry ≠ pEntry := by
      rw [hr.entriesAt_eq]
      split
      · exact mem_eraseP_pEntry (hi.nodup names)
      · rename_i hne
        refine (and_iff_left_of_imp ?_).symm
        rintro hm rfl
        obtain ⟨e, -, rfl, hn⟩ := (hi.mem_entriesAt names entry).1 hm
        exact hne hn
    rw [hroot, hmem, hi.mem_entriesAt, hstored]
    constructor
    · rintro ⟨⟨e, he, rfl, hn⟩, hne⟩
      exact ⟨e, List.mem_filter.2 ⟨he, decide_eq_true hne⟩, rfl, hn⟩
    · rintro ⟨e, he, rfl, hn⟩
      obtain ⟨he, hne⟩ := List.mem_filter.1 he
      exact ⟨⟨e, he, rfl, hn⟩, of_decide_eq_true hne⟩
  · rw [hroot, hr.entriesAt_eq]
    split
    · exact (hi.nodup names).sublist (List.eraseP_sublist.map _)
    · exact hi.nodup names

theorem Inv.setPath (hi : h.Inv separator bSimplePattern) {pEntry : E} (hfree : pEntry ∉ h.stored) (path : Str) :
    (h.step (.setPath pEntry path)).Inv separator bSimplePattern := by
  have hpath : ∀ e ∈ h.stored, (h.step (.setPath pEntry path)).paths e = h.paths e := by
    intro e he
    refine if_neg ?_
    rintro rfl
    exact hfree he
  refine ⟨hi.wellFormed, fun e he => ?_, fun names entry => ?_, hi.nodup⟩
  · rw [hpath e he]
    exact hi.storable e he
  · refine (hi.mem_entriesAt names entry).trans (exists_congr fun e => and_congr_right fun he => ?_)
    have hentry : (h.step (.setPath pEntry path)).entryOf separator e = h.entryOf separator e := by
      simp only [entryOf, storedEntry, PathEntry.getPath, hpath e he]
    rw [hentry, hpath e he]

theorem Inv.step (hi : h.Inv separator bSimplePattern) {call : TreeCall E} (ha : h.AllowedCall call) :
    (h.step call).Inv separator bSimplePattern := by
  cases call with
  | addEntry pEntry => exact hi.addEntry ha
  | removeEntry pEntry => exact hi.removeEntry pEntry
  | setPath pEntry path => exact hi.setPath ha path

theorem Inv.run : ∀ (calls : List (TreeCall E)) {h : TreeHistory E}, h.Inv separator bSimplePattern → h.Allowed calls →
    (h.run calls).Inv separator bSimplePattern
  | [], _, hi, _ => hi
  | _ :: calls, _, hi, ha => Inv.run calls (hi.step ha.1) ha.2

/-! ## GetEntries -/

/-- `GetEntries` returns the stored entries with a route, and no other. -/
theorem Inv.mem_getEntries (hi : h.Inv separator bSimplePattern) (path : Str) (flags : MayHaveSeparator)
    (entry : SPathEntry E) : entry ∈ h.tree.getEntries path flags ↔
      ∃ e ∈ h.stored, entry = h.entryOf separator e ∧
        Route separator bSimplePattern flags entry.endsWithSeparator (storedAt separator (h.paths e)) (makeLower path) := by
  have hfound := found_getEntriesLoop flags entry.pEntry h.tree.root hi.wellFormed.root [] (makeLower path)
  have hstands : ∀ x ∈ h.tree.getEntries path flags, ∃ e ∈ h.stored, x = h.entryOf separator e := by
    unfold CPathTree.getEntries
    rw [hi.wellFormed.separator_eq, hi.wellFormed.bSimplePattern_eq]
    refine getEntriesLoop_preserves (M := fun found => ∀ x ∈ found, ∃ e ∈ h.stored, x = h.entryOf separator e)
      h.tree.root hi.wellFormed.root ?_ [] _ fun x hx => nomatch hx
    intro found names x hx _ hM y hy
    rcases List.mem_append.1 hy with hy | hy
    · exact hM y hy
    · obtain ⟨e, he, hxe, -⟩ := (hi.mem_entriesAt names x).1 hx
      rw [List.mem_singleton] at hy
      exact ⟨e, he, hy.trans hxe⟩
  have hresult : getEntriesLoop separator bSimplePattern flags h.tree.root [] (makeLower path) =
      h.tree.getEntries path flags := by
    unfold CPathTree.getEntries
    rw [hi.wellFormed.separator_eq, hi.wellFormed.bSimplePattern_eq]
  rw [hresult, or_iff_right fun ⟨_, hm, _⟩ => nomatch hm] at hfound
  constructor
  · intro hm
    obtain ⟨e, he, hentry⟩ := hstands entry hm
    obtain ⟨names, x, hx, hp, hr⟩ := hfound.1 ⟨entry, hm, rfl⟩
    obtain ⟨e', -, rfl, rfl⟩ := (hi.mem_entriesAt names x).1 hx
    obtain rfl : e' = e := hp.trans (congrArg (·.pEntry) hentry)
    exact ⟨e', he, hentry, hentry ▸ hr⟩
  · rintro ⟨e, he, hentry, hr⟩
    obtain ⟨x, hx, hp⟩ := hfound.2
      ⟨_, entry, (hi.mem_entriesAt _ entry).2 ⟨e, he, hentry, rfl⟩, rfl, hr⟩
    obtain ⟨e', -, hxe⟩ := hstands x hx
    obtain rfl : e' = e := (congrArg (·.pEntry) hxe).symm.trans (hp.trans (congrArg (·.pEntry) hentry))
    rw [hentry, ← hxe]
    exact hx

theorem Inv.nodup_getEntries (hi : h.Inv separator bSimplePattern) (path : Str) (flags : MayHaveSeparator) :
    ((h.tree.getEntries path flags).map (·.pEntry)).Nodup := by
  unfold CPathTree.getEntries
  rw [hi.wellFormed.separator_eq, hi.wellFormed.bSimplePattern_eq]
  refine getEntriesLoop_preserves (M := fun found => (found.map (·.pEntry)).Nodup) h.tree.root hi.wellFormed.root ?_ [] _
    List.nodup_nil
  intro found names entry _ hnew hM
  rw [List.map_append, List.map_singleton]
  refine List.nodup_append.2 ⟨hM, List.nodup_singleton _, ?_⟩
  intro a ha b hb
  rintro rfl
  obtain ⟨x, hx, hp⟩ := List.mem_map.1 ha
  exact hnew ⟨x, hx, hp.trans (List.mem_singleton.1 hb)⟩

/-- A tree for one of the entries. -/
def single (h : TreeHistory E) (e : E) : CPathTree E :=
  (@CPathTree.addEntry E h.pathEntry (.new h.tree.separator h.tree.bSimplePattern) e).1

theorem Inv.mem_single (hi : h.Inv separator bSimplePattern) {e : E} (he : e ∈ h.stored) (path : Str)
    (flags : MayHaveSeparator) (entry : SPathEntry E) : entry ∈ (h.single e).getEntries path flags ↔
      entry = h.entryOf separator e ∧
        Route separator bSimplePattern flags entry.endsWithSeparator (storedAt separator (h.paths e)) (makeLower path) := by
  let _ := h.pathEntry
  have hnew := inv_new separator bSimplePattern h.paths
  have hcode := (CPathTree.addEntry_stores hnew.wellFormed e).2.1.2 (hi.storable e he)
  have hone := hnew.addEntry (show e ∉ [] from List.not_mem_nil)
  have hstored : ((new separator bSimplePattern h.paths).step (.addEntry e)).stored = [e] := if_pos hcode
  have htree : ((new separator bSimplePattern h.paths).step (.addEntry e)).tree = h.single e := by
    unfold single
    rw [hi.wellFormed.separator_eq, hi.wellFormed.bSimplePattern_eq]
    rfl
  have hmem := hone.mem_getEntries path flags entry
  rw [htree, hstored] at hmem
  refine hmem.trans ⟨?_, fun h => ⟨e, List.mem_singleton_self e, h⟩⟩
  rintro ⟨e', he', h⟩
  obtain rfl := List.mem_singleton.1 he'
  exact h

/-- Over any calls, `GetEntries` returns each entry once, and those that a tree for one of the stored
entries returns. `RemoveEntry` takes its entry out of every result and leaves the rest. -/
theorem entries_do_not_interfere (separator : WChar) (bSimplePattern : Bool) (paths : E → Str)
    (calls : List (TreeCall E)) (ha : (new separator bSimplePattern paths).Allowed calls) (path : Str)
    (flags : MayHaveSeparator) :
    let h := (new separator bSimplePattern paths).run calls
    ((h.tree.getEntries path flags).map (·.pEntry)).Nodup ∧
    (∀ entry, entry ∈ h.tree.getEntries path flags ↔ ∃ e ∈ h.stored, entry ∈ (h.single e).getEntries path flags) ∧
    ∀ e ∈ h.stored, (@CPathTree.removeEntry E _ h.pathEntry h.tree e).2 = true ∧
      ∀ entry, entry ∈ (h.step (.removeEntry e)).tree.getEntries path flags ↔
        entry ∈ h.tree.getEntries path flags ∧ entry.pEntry ≠ e := by
  intro h
  have hi : h.Inv separator bSimplePattern := Inv.run calls (inv_new _ _ paths) ha
  refine ⟨hi.nodup_getEntries path flags, fun entry => ?_, fun e he => ⟨?_, fun entry => ?_⟩⟩
  · rw [hi.mem_getEntries]
    exact exists_congr fun e => and_congr_right fun he => (hi.mem_single he path flags entry).symm
  · have hok := (removeEntry_removed hi e).ok _ ((hi.mem_entriesAt _ _).2 ⟨e, he, rfl, rfl⟩)
    rw [← hi.wellFormed.separator_eq] at hok
    exact hok
  · rw [(hi.removeEntry e).mem_getEntries, hi.mem_getEntries]
    have hstored : (h.step (.removeEntry e)).stored = h.stored.filter (· ≠ e) := rfl
    rw [hstored]
    constructor
    · rintro ⟨x, hx, rfl, hr⟩
      obtain ⟨hx, hne⟩ := List.mem_filter.1 hx
      exact ⟨⟨x, hx, rfl, hr⟩, of_decide_eq_true hne⟩
    · rintro ⟨⟨x, hx, rfl, hr⟩, hne⟩
      exact ⟨x, List.mem_filter.2 ⟨hx, decide_eq_true hne⟩, rfl, hr⟩

/-- Three entries that share a node, two of them a branch with wildcards. -/
def sharedPaths : Fin 3 → Str
  | 0 => [0x61, 0x5C, 0x2A, 0x2A]
  | 1 => [0x61, 0x5C, 0x2A, 0x2A, 0x5C, 0x62]
  | 2 => [0x61, 0x5C, 0x63]

theorem entries_do_not_interfere_shared :
    let h := (new backslash false sharedPaths).run [.addEntry 0, .addEntry 1, .addEntry 2, .removeEntry 1]
    h.stored = [2, 0] ∧
    ((h.tree.getEntries [0x61, 0x5C, 0x63] false).map (·.pEntry)).Nodup ∧
    ∀ entry, entry ∈ h.tree.getEntries [0x61, 0x5C, 0x63] false ↔
      ∃ e ∈ h.stored, entry ∈ (h.single e).getEntries [0x61, 0x5C, 0x63] false := by
  have ha : (new backslash false sharedPaths).Allowed [.addEntry 0, .addEntry 1, .addEntry 2, .removeEntry 1] :=
    ⟨by decide +kernel, by decide +kernel, by decide +kernel, by decide +kernel, trivial⟩
  obtain ⟨hnodup, hunion, -⟩ := entries_do_not_interfere backslash false sharedPaths _ ha [0x61, 0x5C, 0x63] false
  exact ⟨by decide +kernel, hnodup, hunion⟩

end TreeHistory

end MajorPrivacy.Path

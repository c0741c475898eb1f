/-
Whether `GetBestEntry` depends on the order in which the entries were added. Entries without
wildcards are met before all others, in the order in which they were added; so an entry without
wildcards is returned in every order just where no other of them is as specific and no entry with
wildcards is more specific.
-/
import MajorPrivacy.Path.BestEntry
import MajorPrivacy.Path.Histories

namespace MajorPrivacy.Path

open MajorPrivacy.Core

variable {E : Type} [DecidableEq E]

/-! ## What is met first -/

/-- `GetEntries` only appends to what was found before. -/
theorem prefix_getEntriesLoop {separator : WChar} {bSimplePattern : Bool} {flags : MayHaveSeparator}
    {parent : SPathNode E} (hw : parent.WellFormed separator bSimplePattern) (found : List (SPathEntry E)) (rest : Str) :
    found <+: getEntriesLoop separator bSimplePattern flags parent found rest := by
  refine getEntriesLoop_preserves (M := (found <+: ·)) parent hw ?_ found rest (List.prefix_refl found)
  intro more names entry _ _ h
  exact h.trans (List.prefix_append more [entry])

/-- Along elements without wildcards the entries at their end are met first; by induction on the
route. -/
theorem prefix_of_route {separator : WChar} {bSimplePattern : Bool} {flags : MayHaveSeparator} {ends : Bool}
    {names : List Str} {rest : Str} (hr : Route separator bSimplePattern flags ends names rest)
    (hplain : ∀ name ∈ names, isWild name = false) {parent : SPathNode E}
    (hw : parent.WellFormed separator bSimplePattern) (hne : parent.entriesAt names ≠ []) (found : List (SPathEntry E)) :
    ∃ bHasSeparator, (flags = true ∨ bHasSeparator = ends) ∧
      appendEntries flags bHasSeparator found (parent.entriesAt names) <+:
        getEntriesLoop separator bSimplePattern flags parent found rest := by
  induction hr generalizing parent with
  | @done rest hend he =>
    have hl := (SPathNode.wellFormed_iff.1 hw).1
    refine ⟨decide (rest.head? = some separator), he, ?_⟩
    rw [getEntriesLoop]
    simp only [if_pos hend]
    refine foldl_preserves (M := (appendEntries flags (decide (rest.head? = some separator)) found parent.entries <+: ·)) _ _
      ?_ (List.prefix_refl _)
    rintro more ⟨⟨name, b, p⟩, hm⟩ - h
    have hf := hl.wildBranches.mem_toList.1 hm
    split
    · exact h.trans (prefix_getEntriesLoop (hw.wildBranch hf).2 more [])
    · exact h
  | behind _ hn =>
    have hwild := hplain _ List.mem_cons_self
    rw [hn.isWild] at hwild
    cases hwild
  | @exact name names rest hend hn he _ ih =>
    have hl := (SPathNode.wellFormed_iff.1 hw).1
    rw [SPathNode.entriesAt_cons] at hne ⊢
    cases hc : parent.child name with
    | none =>
      rw [hc] at hne
      exact absurd rfl hne
    | some b =>
      rw [hc] at hne
      have hf : parent.branches.findValue name = some b := by
        unfold SPathNode.child at hc
        rwa [hn, if_neg Bool.false_ne_true] at hc
      obtain ⟨bHasSeparator, hb, h⟩ := ih (fun name hm => hplain name (List.mem_cons_of_mem _ hm)) (hw.branch hf).2 hne
      refine ⟨bHasSeparator, hb, ?_⟩
      rw [getEntriesLoop]
      simp only [if_neg hend]
      refine foldl_preserves (M := (appendEntries flags bHasSeparator found (b.entriesAt names) <+: ·)) _ _ ?_ ?_
      · rintro more ⟨⟨name, b, p⟩, hm⟩ - h
        have hf := hl.wildBranches.mem_toList.1 hm
        exact foldl_preserves _ _
          (fun more rest _ h => h.trans (prefix_getEntriesLoop (hw.wildBranch hf).2 more rest)) h
      · subst he
        split
        · rename_i c hfc
          rw [hf] at hfc
          cases hfc
          exact h
        · rename_i hnone
          rw [hf] at hnone
          cases hnone
  | wild _ hn =>
    rw [hplain _ List.mem_cons_self] at hn
    cases hn

/-- What is taken of the entries of a node keeps their order. -/
theorem appendEntries_sublist (flags : MayHaveSeparator) (bHasSeparator : Bool) (entries : List (SPathEntry E)) :
    ∀ found, ∃ more, appendEntries flags bHasSeparator found entries = found ++ more ∧ more.Sublist entries := by
  unfold appendEntries
  induction entries with
  | nil => exact fun found => ⟨[], by simp, .slnil⟩
  | cons entry entries ih =>
    intro found
    rw [List.foldl_cons]
    split
    · obtain ⟨more, heq, hsub⟩ := ih found
      exact ⟨more, heq, hsub.cons _⟩
    · split
      · obtain ⟨more, heq, hsub⟩ := ih found
        exact ⟨more, heq, hsub.cons _⟩
      · obtain ⟨more, heq, hsub⟩ := ih (found ++ [entry])
        exact ⟨entry :: more, by rw [heq, List.append_assoc, List.singleton_append], hsub.cons_cons _⟩

/-- Two routes of one path along elements without wildcards are one. -/
theorem Route.eq_of_plain {separator : WChar} {bSimplePattern : Bool} {flags : MayHaveSeparator} {ends ends' : Bool}
    {names names' : List Str} {rest : Str} (hr : Route separator bSimplePattern flags ends names rest)
    (hr' : Route separator bSimplePattern flags ends' names' rest) (hplain : ∀ name ∈ names, isWild name = false)
    (hplain' : ∀ name ∈ names', isWild name = false) : names = names' ∧ (flags = true ∨ ends = ends') := by
  induction hr generalizing names' with
  | done hend he =>
    cases hr' with
    | done _ he' =>
      refine ⟨rfl, ?_⟩
      rcases he with h | rfl
      · exact .inl h
      · exact he'
    | behind _ hn => exact absurd (hplain' _ List.mem_cons_self) (by rw [hn.isWild]; decide)
    | exact h => exact absurd hend h
    | wild h => exact absurd hend h
  | behind _ hn => exact absurd (hplain _ List.mem_cons_self) (by rw [hn.isWild]; decide)
  | exact hend _ he _ ih =>
    cases hr' with
    | done h => exact absurd h hend
    | behind h => exact absurd h hend
    | exact _ _ he' hr' =>
      obtain ⟨rfl, hends⟩ := ih hr' (fun name hm => hplain name (List.mem_cons_of_mem _ hm))
        fun name hm => hplain' name (List.mem_cons_of_mem _ hm)
      exact ⟨by rw [← he, ← he'], hends⟩
    | wild _ hn => exact absurd (hplain' _ List.mem_cons_self) (by rw [hn]; decide)
  | wild _ hn => exact absurd (hplain _ List.mem_cons_self) (by rw [hn]; decide)

/-! ## Queries -/

/-- A path asked for, and the paths of the entries that may be added. -/
structure TreeQuery (E : Type) where
  separator : WChar
  bSimplePattern : Bool
  paths : E → Str
  path : Str
  flags : MayHaveSeparator

namespace TreeQuery

variable (q : TreeQuery E)

/-- The tree to which the entries were added in this order. -/
def history (order : List E) : TreeHistory E :=
  (TreeHistory.new q.separator q.bSimplePattern q.paths).run (order.map .addEntry)

/-- What `GetBestEntry` returns for the path. -/
def best (order : List E) : Option E := (q.history order).tree.getBestEntry q.path q.flags

/-- The path matches an entry: it is found on its own. -/
def Matches (e : E) : Prop := Found ((q.history [e]).tree.getEntries q.path q.flags) e

/-- An entry without wildcards. -/
def Plain (e : E) : Prop := ∀ name ∈ storedAt q.separator (q.paths e), isWild name = false

/-- How specific an entry is. -/
def rank (e : E) : Nat := ((q.history []).entryOf q.separator e).rank

/-- `GetBestEntry` returns the same entry whatever the order, and where an entry without wildcards
matches, it returns none with wildcards. -/
def Settled (entries : List E) : Prop :=
  (∀ order, order.Perm entries → q.best order = q.best entries) ∧
  ∀ order, order.Perm entries → (∃ e ∈ entries, q.Plain e ∧ q.Matches e) → ∃ e, q.best order = some e ∧ q.Plain e

/-! ## The entries found -/

variable {q}

theorem run_paths (h : TreeHistory E) (order : List E) : (h.run (order.map .addEntry)).paths = h.paths := by
  induction order generalizing h with
  | nil => rfl
  | cons e order ih => exact ih (h.step (.addEntry e))

theorem history_paths (order : List E) : (q.history order).paths = q.paths := run_paths _ order

theorem allowed_addEntries : ∀ (order : List E) (h : TreeHistory E), order.Nodup → (∀ e ∈ order, e ∉ h.stored) →
    h.Allowed (order.map .addEntry)
  | [], _, _, _ => trivial
  | e :: order, h, hn, hnew => by
    rw [List.nodup_cons] at hn
    refine ⟨hnew e List.mem_cons_self, allowed_addEntries order _ hn.2 fun x hx hstored => ?_⟩
    rcases TreeHistory.mem_stored_addEntry hstored with rfl | hstored
    · exact hn.1 hx
    · exact hnew x (List.mem_cons_of_mem _ hx) hstored

theorem inv_history {order : List E} (hn : order.Nodup) : (q.history order).Inv q.separator q.bSimplePattern :=
  .run _ (TreeHistory.inv_new _ _ q.paths) (allowed_addEntries order _ hn fun _ _ h => nomatch h)

theorem step_stored (h : TreeHistory E) (e : E) :
    (h.step (.addEntry e)).stored = if (@CPathTree.addEntry E h.pathEntry h.tree e).2 = 0 then e :: h.stored else h.stored :=
  rfl

theorem mem_stored_run : ∀ (order : List E) {h : TreeHistory E}, h.Inv q.separator q.bSimplePattern →
    h.Allowed (order.map .addEntry) → ∀ e, e ∈ (h.run (order.map .addEntry)).stored ↔
      e ∈ h.stored ∨ e ∈ order ∧ Storable q.separator q.bSimplePattern (h.paths e)
  | [], h, _, _, e => by simp [TreeHistory.run]
  | x :: order, h, hi, ha, e => by
    have hcode : (@CPathTree.addEntry E h.pathEntry h.tree x).2 = 0 ↔ Storable q.separator q.bSimplePattern (h.paths x) :=
      (@CPathTree.addEntry_stores E _ _ h.pathEntry _ hi.wellFormed x).2.1
    have hstep : e ∈ (h.step (.addEntry x)).stored ↔
        e ∈ h.stored ∨ e = x ∧ Storable q.separator q.bSimplePattern (h.paths x) := by
      rw [step_stored]
      by_cases hc : (@CPathTree.addEntry E h.pathEntry h.tree x).2 = 0
      · rw [if_pos hc, List.mem_cons, or_comm, and_iff_left (hcode.1 hc)]
      · rw [if_neg hc]
        exact (or_iff_left fun h => hc (hcode.2 h.2)).symm
    have ih := mem_stored_run order (hi.step ha.1) ha.2 e
    refine ih.trans ?_
    have hpaths : (h.step (.addEntry x)).paths = h.paths := rfl
    rw [hstep, hpaths, List.mem_cons, or_assoc]
    apply or_congr Iff.rfl
    constructor
    · rintro (⟨rfl, h⟩ | ⟨h, h'⟩)
      · exact ⟨.inl rfl, h⟩
      · exact ⟨.inr h, h'⟩
    · rintro ⟨rfl | h, h'⟩
      · exact .inl ⟨rfl, h'⟩
      · exact .inr ⟨h, h'⟩

theorem mem_stored {order : List E} (hn : order.Nodup) (e : E) : e ∈ (q.history order).stored ↔
    e ∈ order ∧ Storable q.separator q.bSimplePattern (q.paths e) := by
  have h := mem_stored_run (q := q) order (TreeHistory.inv_new _ _ q.paths)
    (allowed_addEntries order _ hn fun _ _ h => nomatch h) e
  exact h.trans (or_iff_right fun h => nomatch h)

/-- The route of an entry that matches. -/
def RouteOf (q : TreeQuery E) (e : E) : Prop :=
  Route q.separator q.bSimplePattern q.flags ((q.history []).entryOf q.separator e).endsWithSeparator
    (storedAt q.separator (q.paths e)) (makeLower q.path)

theorem entryOf_eq (order : List E) (e : E) :
    (q.history order).entryOf q.separator e = (q.history []).entryOf q.separator e := by
  simp only [TreeHistory.entryOf, storedEntry, PathEntry.getPath, history_paths]

theorem mem_found {order : List E} (hn : order.Nodup) (entry : SPathEntry E) :
    entry ∈ (q.history order).tree.getEntries q.path q.flags ↔
      ∃ e ∈ order, entry = (q.history []).entryOf q.separator e ∧
        Storable q.separator q.bSimplePattern (q.paths e) ∧ q.RouteOf e := by
  rw [(inv_history hn).mem_getEntries]
  constructor
  · rintro ⟨e, he, rfl, hr⟩
    obtain ⟨hm, hs⟩ := (mem_stored hn e).1 he
    rw [history_paths, entryOf_eq] at hr
    exact ⟨e, hm, entryOf_eq order e, hs, hr⟩
  · rintro ⟨e, hm, rfl, hs, hr⟩
    refine ⟨e, (mem_stored hn e).2 ⟨hm, hs⟩, (entryOf_eq order e).symm, ?_⟩
    rw [history_paths]
    exact hr

theorem matches_iff (e : E) :
    q.Matches e ↔ Storable q.separator q.bSimplePattern (q.paths e) ∧ q.RouteOf e := by
  unfold Matches Found
  simp only [mem_found (List.nodup_singleton e), List.mem_singleton, exists_eq_left]
  constructor
  · rintro ⟨_, ⟨-, h⟩, -⟩
    exact h
  · exact fun h => ⟨_, ⟨rfl, h⟩, rfl⟩

/-- What is found are the entries that match. -/
theorem mem_found_iff {order : List E} (hn : order.Nodup) (entry : SPathEntry E) :
    entry ∈ (q.history order).tree.getEntries q.path q.flags ↔
      ∃ e ∈ order, q.Matches e ∧ entry = (q.history []).entryOf q.separator e := by
  rw [mem_found hn]
  refine exists_congr fun e => and_congr_right fun _ => ?_
  rw [matches_iff, and_comm]

/-! ## The order -/

/-- The entries at some elements stand in the order in which they were added. -/
theorem entriesAt_run (names : List Str) : ∀ (order : List E) {h : TreeHistory E},
    h.Inv q.separator q.bSimplePattern → h.Allowed (order.map .addEntry) →
    ∃ kept : List E, (h.run (order.map .addEntry)).tree.root.entriesAt names =
      h.tree.root.entriesAt names ++ kept.map (h.entryOf q.separator) ∧ kept.Sublist order
  | [], h, _, _ => ⟨[], by simp [TreeHistory.run], .slnil⟩
  | x :: order, h, hi, ha => by
    obtain ⟨-, -, hentries⟩ := @CPathTree.addEntry_stores E _ _ h.pathEntry _ hi.wellFormed x
    obtain ⟨kept, heq, hsub⟩ := entriesAt_run names order (hi.step ha.1) ha.2
    have hroot : (h.step (.addEntry x)).tree.root.entriesAt names =
        (@CPathTree.addEntry E h.pathEntry h.tree x).1.root.entriesAt names := rfl
    have hentry : (h.step (.addEntry x)).entryOf q.separator = h.entryOf q.separator := rfl
    rw [hroot, hentries names, hentry] at heq
    split at heq
    · rw [List.append_assoc] at heq
      exact ⟨x :: kept, heq, hsub.cons_cons _⟩
    · exact ⟨kept, heq, hsub.cons _⟩

theorem entryOf_injective : Function.Injective ((q.history []).entryOf q.separator) := fun _ _ h => congrArg (·.pEntry) h

/-- The entries found, by what was added. -/
theorem found_eq {order : List E} (hn : order.Nodup) : ∃ es : List E,
    (q.history order).tree.getEntries q.path q.flags = es.map ((q.history []).entryOf q.separator) ∧ es.Nodup ∧
      ∀ x, x ∈ es ↔ x ∈ order ∧ q.Matches x := by
  have hentries : (q.history order).tree.getEntries q.path q.flags =
      (((q.history order).tree.getEntries q.path q.flags).map (·.pEntry)).map ((q.history []).entryOf q.separator) := by
    rw [List.map_map]
    refine (List.map_id _).symm.trans (List.map_congr_left fun entry hentry => ?_)
    obtain ⟨x, -, -, rfl⟩ := (mem_found_iff hn entry).1 hentry
    rfl
  refine ⟨_, hentries, (inv_history hn).nodup_getEntries q.path q.flags, fun x => ?_⟩
  rw [List.mem_map]
  constructor
  · rintro ⟨entry, hm, rfl⟩
    obtain ⟨x, hx, hmx, rfl⟩ := (mem_found_iff hn entry).1 hm
    exact ⟨hx, hmx⟩
  · rintro ⟨hx, hmx⟩
    exact ⟨_, (mem_found_iff hn _).2 ⟨x, hx, hmx, rfl⟩, rfl⟩

/-- Where an entry without wildcards matches, those that do are met first, in the order in which
they were added. -/
theorem found_plain {order : List E} (hn : order.Nodup) {e : E} (he : e ∈ order) (hp : q.Plain e) (hm : q.Matches e) :
    ∃ first behind : List E, (q.history order).tree.getEntries q.path q.flags =
        (first ++ behind).map ((q.history []).entryOf q.separator) ∧
      first.Sublist order ∧ (∀ x, x ∈ first ↔ x ∈ order ∧ q.Plain x ∧ q.Matches x) ∧
      ∀ x ∈ behind, x ∈ order ∧ ¬ q.Plain x ∧ q.Matches x := by
  have hi := inv_history (q := q) hn
  obtain ⟨hs, hroute⟩ := (matches_iff e).1 hm
  have hat : ∀ x, (q.history []).entryOf q.separator x ∈
      (q.history order).tree.root.entriesAt (storedAt q.separator (q.paths e)) ↔
        (x ∈ order ∧ Storable q.separator q.bSimplePattern (q.paths x)) ∧
          storedAt q.separator (q.paths e) = storedAt q.separator (q.paths x) := by
    intro x
    rw [hi.mem_entriesAt, history_paths]
    constructor
    · rintro ⟨y, hy, hxy, hnames⟩
      rw [entryOf_eq order y] at hxy
      obtain rfl := entryOf_injective hxy
      exact ⟨(mem_stored hn x).1 hy, hnames⟩
    · exact fun ⟨hx, hnames⟩ => ⟨x, (mem_stored hn x).2 hx, (entryOf_eq order x).symm, hnames⟩
  obtain ⟨bHasSeparator, hb, rest, hrest⟩ :=
    prefix_of_route hroute hp hi.wellFormed.root (List.ne_nil_of_mem ((hat e).2 ⟨⟨he, hs⟩, rfl⟩)) []
  obtain ⟨more, hmore, hsub⟩ := appendEntries_sublist q.flags bHasSeparator
    ((q.history order).tree.root.entriesAt (storedAt q.separator (q.paths e))) ([] : List (SPathEntry E))
  have hfoundMore := fun x => found_appendEntries q.flags bHasSeparator []
    ((q.history order).tree.root.entriesAt (storedAt q.separator (q.paths e))) x
  rw [hmore, List.nil_append] at hrest hfoundMore
  have hresult : (q.history order).tree.getEntries q.path q.flags = more ++ rest := by
    unfold CPathTree.getEntries
    rw [hi.wellFormed.separator_eq, hi.wellFormed.bSimplePattern_eq]
    exact hrest.symm
  -- the entries met first stand at one node, so they are a part of those added, in their order
  obtain ⟨kept, hkept, hkeptSub⟩ := entriesAt_run (storedAt q.separator (q.paths e)) order
    (TreeHistory.inv_new q.separator q.bSimplePattern q.paths) (allowed_addEntries order _ hn fun _ _ h => nomatch h)
  have hnode : (q.history order).tree.root.entriesAt (storedAt q.separator (q.paths e)) =
      kept.map ((q.history []).entryOf q.separator) := by
    have hempty : (TreeHistory.new q.separator q.bSimplePattern q.paths).tree.root.entriesAt
        (storedAt q.separator (q.paths e)) = [] := SPathNode.entriesAt_empty _ _
    rw [hempty, List.nil_append] at hkept
    exact hkept
  obtain ⟨es, hes, hnodup, hmem⟩ := found_eq (q := q) hn
  rw [hresult] at hes
  obtain ⟨first, behind, rfl, rfl, rfl⟩ := List.append_eq_map_iff.1 hes
  rw [hnode] at hsub
  have hfirst : ∀ x, x ∈ first ↔ x ∈ order ∧ q.Plain x ∧ q.Matches x := by
    intro x
    constructor
    · intro hx
      obtain ⟨hxo, hxm⟩ := (hmem x).1 (List.mem_append_left _ hx)
      have hxk := hsub.subset (List.mem_map_of_mem hx)
      rw [← hnode] at hxk
      refine ⟨hxo, ?_, hxm⟩
      unfold Plain
      rw [← ((hat x).1 hxk).2]
      exact hp
    · rintro ⟨hxo, hxp, hxm⟩
      obtain ⟨hxs, hxr⟩ := (matches_iff x).1 hxm
      obtain ⟨hnames, hends⟩ := hroute.eq_of_plain hxr hp hxp
      have hends' : q.flags = true ∨ bHasSeparator = ((q.history []).entryOf q.separator x).endsWithSeparator := by
        rcases hb with h | rfl
        · exact .inl h
        · exact hends
      obtain ⟨entry, hentry, hpe⟩ := (hfoundMore x).2
        (.inr ⟨_, (hat x).2 ⟨⟨hxo, hxs⟩, hnames⟩, rfl, hends'⟩)
      obtain ⟨y, hy, rfl⟩ := List.mem_map.1 hentry
      obtain rfl : y = x := hpe
      exact hy
  refine ⟨first, behind, hresult.trans hes, ?_, hfirst, fun x hx => ?_⟩
  · obtain ⟨first', hfirst', heq⟩ := List.sublist_map_iff.1 hsub
    rw [List.map_injective_iff.2 entryOf_injective heq]
    exact hfirst'.trans hkeptSub
  · obtain ⟨hxo, hxm⟩ := (hmem x).1 (List.mem_append_right _ hx)
    refine ⟨hxo, fun hxp => ?_, hxm⟩
    exact List.disjoint_of_nodup_append hnodup ((hfirst x).2 ⟨hxo, hxp, hxm⟩) hx

/-! ## The best entry -/

/-- An entry no other found entry comes before: those met earlier are less specific, those met
later are not more specific. -/
theorem best_eq_some {order : List E} {es : List E}
    (hes : (q.history order).tree.getEntries q.path q.flags = es.map ((q.history []).entryOf q.separator)) {e : E} :
    q.best order = some e ↔ ∃ before after, es = before ++ e :: after ∧ (∀ x ∈ before, q.rank x < q.rank e) ∧
      ∀ x ∈ after, q.rank x ≤ q.rank e := by
  unfold best CPathTree.getBestEntry
  rw [bestOf_eq_some, hes]
  constructor
  · rintro ⟨_, ⟨before, after, heq, hbefore, hafter⟩, rfl⟩
    obtain ⟨before, rest, rfl, rfl, hrest⟩ := List.map_eq_append_iff.1 heq
    obtain ⟨x, after, rfl, rfl, rfl⟩ := List.map_eq_cons_iff.1 hrest
    exact ⟨before, after, rfl, fun y hy => hbefore _ (List.mem_map_of_mem hy), fun y hy => hafter _ (List.mem_map_of_mem hy)⟩
  · rintro ⟨before, after, rfl, hbefore, hafter⟩
    refine ⟨(q.history []).entryOf q.separator e, ⟨before.map _, after.map _, List.map_append, ?_, ?_⟩, rfl⟩
    · exact List.forall_mem_map.2 hbefore
    · exact List.forall_mem_map.2 hafter

/-- The most specific entry that matches, and the only one of its rank among those that satisfy a condition. -/
def Leads (q : TreeQuery E) (among : E → Prop) (entries : List E) (e : E) : Prop :=
  (e ∈ entries ∧ among e ∧ q.Matches e) ∧ (∀ x ∈ entries, q.Matches x → q.rank x ≤ q.rank e) ∧
    ∀ x ∈ entries, among x → q.Matches x → q.rank x = q.rank e → x = e

theorem leads_perm {among : E → Prop} {order entries : List E} (h : order.Perm entries) {e : E} :
    q.Leads among order e ↔ q.Leads among entries e := by
  unfold Leads
  simp only [h.mem_iff]

/-- An entry without wildcards that leads is returned in every order. -/
theorem best_of_plain {order : List E} (hn : order.Nodup) {e : E} (h : q.Leads q.Plain order e) : q.best order = some e := by
  obtain ⟨⟨he, hp, hm⟩, htop, honly⟩ := h
  obtain ⟨first, behind, heq, -, hfirst, hbehind⟩ := found_plain hn he hp hm
  obtain ⟨before, after, rfl⟩ := List.append_of_mem ((hfirst e).2 ⟨he, hp, hm⟩)
  have hnodup : ((before ++ e :: after) ++ behind).Nodup := by
    obtain ⟨es, hes, hnodup, -⟩ := found_eq (q := q) hn
    rw [heq] at hes
    exact List.map_injective_iff.2 entryOf_injective hes ▸ hnodup
  refine (best_eq_some heq).2 ⟨before, after ++ behind, by simp, fun x hx => ?_, fun x hx => ?_⟩
  · obtain ⟨hxo, hxp, hxm⟩ := (hfirst x).1 (List.mem_append_left _ hx)
    refine lt_of_le_of_ne (htop x hxo hxm) fun hrank => ?_
    obtain rfl := honly x hxo hxp hxm hrank
    rw [List.append_assoc, List.cons_append] at hnodup
    exact List.disjoint_of_nodup_append hnodup hx List.mem_cons_self
  · rcases List.mem_append.1 hx with hx | hx
    · obtain ⟨hxo, -, hxm⟩ := (hfirst x).1 (List.mem_append_right _ (List.mem_cons_of_mem _ hx))
      exact htop x hxo hxm
    · obtain ⟨hxo, -, hxm⟩ := hbehind x hx
      exact htop x hxo hxm

/-- An entry that leads among all that match is returned in every order. -/
theorem best_of_leads {order : List E} (hn : order.Nodup) {e : E} (h : q.Leads (fun _ => True) order e) :
    q.best order = some e := by
  obtain ⟨⟨he, -, hm⟩, htop, honly⟩ := h
  obtain ⟨es, hes, hnodup, hmem⟩ := found_eq (q := q) hn
  obtain ⟨before, after, rfl⟩ := List.append_of_mem ((hmem e).2 ⟨he, hm⟩)
  refine (best_eq_some hes).2 ⟨before, after, rfl, fun x hx => ?_, fun x hx => ?_⟩
  · obtain ⟨hxo, hxm⟩ := (hmem x).1 (List.mem_append_left _ hx)
    refine lt_of_le_of_ne (htop x hxo hxm) fun hrank => ?_
    obtain rfl := honly x hxo trivial hxm hrank
    exact List.disjoint_of_nodup_append hnodup hx List.mem_cons_self
  · obtain ⟨hxo, hxm⟩ := (hmem x).1 (List.mem_append_right _ (List.mem_cons_of_mem _ hx))
    exact htop x hxo hxm

/-- Nothing is returned where nothing matches. -/
theorem best_of_none {order : List E} (hn : order.Nodup) (h : ∀ e ∈ order, ¬ q.Matches e) : q.best order = none := by
  obtain ⟨es, hes, -, hmem⟩ := found_eq (q := q) hn
  unfold best CPathTree.getBestEntry
  rw [bestOf_eq_none, hes, List.map_eq_nil_iff, List.eq_nil_iff_forall_not_mem]
  exact fun x hx => h x ((hmem x).1 hx).1 ((hmem x).1 hx).2

/-- Where an entry without wildcards matches, the result is settled just if one of these is as
specific as any that matches, and no other of them is. Where only entries with wildcards match, it is
settled if there is a single most specific one. -/
theorem best_settled_iff (q : TreeQuery E) {entries : List E} (hn : entries.Nodup) :
    ((∃ e ∈ entries, q.Plain e ∧ q.Matches e) → (q.Settled entries ↔ ∃ e, q.Leads q.Plain entries e)) ∧
    ((¬ ∃ e ∈ entries, q.Plain e ∧ q.Matches e) →
      (∀ e ∈ entries, q.Matches e → ∃ e, q.Leads (fun _ => True) entries e) → q.Settled entries) := by
  constructor
  · rintro hplain
    constructor
    · rintro ⟨hsame, hfirst⟩
      obtain ⟨e, heq, hp⟩ := hfirst entries (.refl _) hplain
      obtain ⟨es, hes, -, hmem⟩ := found_eq (q := q) hn
      obtain ⟨before, after, rfl, hbefore, hafter⟩ := (best_eq_some hes).1 heq
      obtain ⟨he, hm⟩ := (hmem e).1 (by simp)
      have htop : ∀ x ∈ entries, q.Matches x → q.rank x ≤ q.rank e := by
        intro x hx hxm
        rcases List.mem_append.1 ((hmem x).2 ⟨hx, hxm⟩) with h | h
        · exact (hbefore x h).le
        · rcases List.mem_cons.1 h with rfl | h
          · exact Nat.le_refl _
          · exact hafter x h
      refine ⟨e, ⟨he, hp, hm⟩, htop, fun x hx hxp hxm hrank => ?_⟩
      by_contra hne
      -- with the other entry added first, it is met first
      have hperm : (x :: entries.erase x).Perm entries := (List.perm_cons_erase hx).symm
      have hn' := hperm.nodup_iff.2 hn
      have hbest := (hsame _ hperm).trans heq
      obtain ⟨first, behind, hfound, hsub, hmemFirst, -⟩ := found_plain hn' List.mem_cons_self hxp hxm
      obtain ⟨before, after, hsplit, hbefore, -⟩ := (best_eq_some hfound).1 hbest
      obtain ⟨first, rfl⟩ : ∃ first', first = x :: first' := by
        cases hsub with
        | cons _ hsub => exact absurd (hsub.subset ((hmemFirst x).2 ⟨List.mem_cons_self, hxp, hxm⟩)) (List.nodup_cons.1 hn').1
        | cons_cons _ _ => exact ⟨_, rfl⟩
      cases before with
      | nil =>
        rw [List.cons_append, List.nil_append] at hsplit
        exact hne (List.cons.inj hsplit).1
      | cons y before =>
        rw [List.cons_append, List.cons_append] at hsplit
        obtain ⟨rfl, -⟩ := List.cons.inj hsplit
        have := hbefore x List.mem_cons_self
        omega
    · rintro ⟨e, hlead⟩
      have hbest : ∀ order, order.Perm entries → q.best order = some e := fun order hperm =>
        best_of_plain (hperm.nodup_iff.2 hn) ((leads_perm hperm).2 hlead)
      refine ⟨fun order hperm => ?_, fun order hperm _ => ⟨e, hbest order hperm, hlead.1.2.1⟩⟩
      rw [hbest order hperm, hbest entries (.refl _)]
  · intro hplain hlead
    refine ⟨fun order hperm => ?_, fun _ _ h => absurd h hplain⟩
    have hn' := hperm.nodup_iff.2 hn
    by_cases hany : ∃ e ∈ entries, q.Matches e
    · obtain ⟨e, he, hm⟩ := hany
      obtain ⟨top, htop⟩ := hlead e he hm
      rw [best_of_leads hn' ((leads_perm hperm).2 htop), best_of_leads hn htop]
    · have hnone : ∀ e ∈ entries, ¬ q.Matches e := fun e he hm => hany ⟨e, he, hm⟩
      rw [best_of_none hn' fun e he => hnone e (hperm.mem_iff.1 he), best_of_none hn hnone]

/-- An entry that is `ab`, and one with a wildcard, asked for `ab`. -/
def queryAb (wild : Str) : TreeQuery Bool where
  separator := backslash
  bSimplePattern := false
  paths := fun e => if e then [0x61, 0x62] else wild
  path := [0x61, 0x62]
  flags := false

theorem plain_ab : ∀ name ∈ storedAt backslash [0x61, 0x62], isWild name = false := by decide +kernel

theorem plain_queryAb (wild : Str) (h : (storedAt backslash wild).any isWild = true) (e : Bool) :
    (queryAb wild).Plain e ↔ e = true := by
  cases e with
  | true => exact iff_of_true plain_ab rfl
  | false =>
    refine iff_of_false (fun hp => ?_) Bool.false_ne_true
    obtain ⟨name, hm, hw⟩ := List.any_eq_true.1 h
    rw [hp name hm] at hw
    cases hw

theorem route_ab : Route backslash false false false (storedAt backslash [0x61, 0x62]) (makeLower [0x61, 0x62]) := by
  have hends : storedAt backslash [0x61, 0x62] = [[0x61, 0x62]] := by decide +kernel
  rw [hends]
  exact .exact (by decide +kernel) (by decide +kernel) (by decide +kernel) (.done (by decide +kernel) (.inr (by decide +kernel)))

theorem matches_ab (wild : Str) : (queryAb wild).Matches true :=
  (matches_iff true).2
    ⟨⟨List.cons_ne_nil _ _, ⟨_, rfl⟩, fun name hm hw => absurd hw (by rw [plain_ab name hm]; decide)⟩, route_ab⟩

/-- `ab` is returned beside `a*`, whichever was added first. -/
theorem best_settled_iff_less : (queryAb [0x61, 0x2A]).Settled [true, false] := by
  have hplain := plain_queryAb [0x61, 0x2A] (by decide +kernel)
  refine ((best_settled_iff (queryAb [0x61, 0x2A]) (by decide)).1
    ⟨true, by simp, (hplain true).2 rfl, matches_ab _⟩).2 ⟨true, ⟨by simp, (hplain true).2 rfl, matches_ab _⟩, ?_, ?_⟩
  · rintro (_ | _) - -
    · decide +kernel
    · exact Nat.le_refl _
  · exact fun x _ hp _ _ => (hplain x).1 hp

/-- Beside `ab*` it is not, since the asterisk counts as one more matching character. -/
theorem best_settled_iff_more : ¬ ∀ (q : TreeQuery Bool) (entries : List Bool), entries.Nodup → q.Settled entries := by
  intro h
  have hplain := plain_queryAb [0x61, 0x62, 0x2A] (by decide +kernel)
  obtain ⟨e, heq, hp⟩ := (h (queryAb [0x61, 0x62, 0x2A]) [true, false] (by decide)).2 _ (.refl _)
    ⟨true, by simp, (hplain true).2 rfl, matches_ab _⟩
  have hwild : (queryAb [0x61, 0x62, 0x2A]).Matches false := by
    refine (matches_iff false).2 ⟨⟨List.cons_ne_nil _ _, ⟨_, rfl⟩, ?_⟩, ?_⟩
    · change ∀ name ∈ storedAt backslash [0x61, 0x62, 0x2A], isWild name = true → (branchPattern backslash false name).1 = 0
      decide +kernel
    · have hends : storedAt backslash [0x61, 0x62, 0x2A] = [[0x61, 0x62, 0x2A]] := by decide +kernel
      change Route backslash false false false (storedAt backslash [0x61, 0x62, 0x2A]) (makeLower [0x61, 0x62])
      rw [hends]
      exact .wild (by decide +kernel) (by decide +kernel) (show [] ∈ _ by decide +kernel)
        (.done (by decide +kernel) (.inr (by decide +kernel)))
  obtain rfl := (hplain e).1 hp
  obtain ⟨es, hes, hnodup, hmem⟩ := @found_eq _ _ (queryAb [0x61, 0x62, 0x2A]) [true, false] (by decide)
  obtain ⟨before, after, rfl, hbefore, hafter⟩ := (best_eq_some hes).1 heq
  have hrank : (queryAb [0x61, 0x62, 0x2A]).rank true < (queryAb [0x61, 0x62, 0x2A]).rank false := by decide +kernel
  rcases List.mem_append.1 ((hmem false).2 ⟨by simp, hwild⟩) with hm | hm
  · exact absurd (hbefore false hm) (by omega)
  · rcases List.mem_cons.1 hm with hm | hm
    · cases hm
    · exact absurd (hafter false hm) (by omega)

end TreeQuery

end MajorPrivacy.Path

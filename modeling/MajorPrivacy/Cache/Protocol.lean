/-
The delta protocol of the cache, over whole runs. A reader starts empty and applies the result of
every round; after each it holds what the collection shows: the keys that were mentioned in the last
round of their scope and have a field written since they appeared, with the payloads last written.
-/
import MajorPrivacy.Cache.Delta

namespace MajorPrivacy.Cache

open MajorPrivacy.Core Variant Replica

namespace VariantCache

variable {K : Type} [CacheKey K] [DecidableEq K]
variable {always : K → UInt32 → Bool} {scopeOf : K → UInt64} {c : VariantCache K} {scope : UInt64}
  {state : Copy K UInt32 Bytes} {events : List (Event K UInt32 Bytes)} {s : SScope K}

/-! ## The beginning of a round -/

theorem AtRest.scopeOrNew (h : AtRest always scopeOf c state) (scope : UInt64) :
    ScopeAtRest always scopeOf ((c.scopes.findValue scope).getD newScope) scope state := by
  cases hf : c.scopes.findValue scope with
  | some s => exact h.scopes.rest scope s trivial hf
  | none =>
    refine ⟨Table.empty_wf, ?_, ?_, ?_⟩
    · intro id entry he; simp [newScope] at he
    · intro id hid _; exact h.scopes.none scope trivial hf id hid
    · intro id entry he; simp [newScope] at he

/-- `BeginRound`: with the round counter moved on, no entry counts as seen, however often the
counter has wrapped. -/
theorem AtRest.beginRound (h : AtRest always scopeOf c state) (scope : UInt64) :
    ∃ s, InRound always scopeOf (c.beginRound scope) scope state [] s := by
  have hold := h.scopeOrNew scope
  have hadd := Table.getOrAddValue_wf h.wf scope (newScope : SScope K)
  have hfind : ∀ k, (c.beginRound scope).scopes.findValue k =
      if k = scope then some { (c.scopes.findValue scope).getD newScope with
        roundNr := ((c.scopes.findValue scope).getD newScope).roundNr + 1 }
      else c.scopes.findValue k := by
    intro k
    show ((c.scopes.getOrAddValue scope newScope).write scope _).findValue k = _
    rw [Table.findValue_write, Table.findValue_getOrAddValue h.wf]
    split <;> rfl
  have hnext : ∀ n : UInt64, n ≠ n + 1 := by
    intro n hn
    have h1 : (1 : UInt64) = 0 := by simpa using hn.symm
    exact absurd h1 (by decide)
  generalize (c.scopes.findValue scope).getD newScope = old at hold hfind
  exact ⟨{ old with roundNr := old.roundNr + 1 },
    { pScope := rfl
      scope_eq := rfl
      wf := Table.write_wf hadd _ _
      current := by rw [hfind, if_pos rfl]
      others :=
        { rest := fun k s hk hs => h.scopes.rest k s trivial (by rw [hfind, if_neg hk] at hs; exact hs)
          none := fun k hk hs => h.scopes.none k trivial (by rw [hfind, if_neg hk] at hs; exact hs) }
      entries := hold.wf
      own := hold.own
      absent := fun id hid hn => ⟨hold.absent id hid hn, by simp [Mentioned]⟩
      present := by
        intro id entry he
        obtain ⟨hseen, fields, hst, hrem⟩ := hold.present id entry he
        have hnot : ¬ Mentioned ([] : List (Event K UInt32 Bytes)) id := by simp [Mentioned]
        refine ⟨⟨fun hs => absurd (hseen.symm.trans hs) (hnext _), fun hm => absurd hm hnot⟩, .inr (by simp [hst]), ?_⟩
        rw [fieldsAfter_nil, hst]
        exact hrem
      last := by intro id hid; cases hid
      changes :=
        { wf := Table.empty_wf
          fields := by intro id t ht; simp [VariantCache.beginRound] at ht
          complete := fun id f _ => by rw [fieldsAfter_nil] } }⟩

/-! ## The end of a round -/

/-- The sweep erases exactly what was not seen, and keeps the keys of what was sent. -/
theorem sweepLoop_spec (roundNr : UInt64) : ∀ (l : List (K × SEntry)) {entries : Table K SEntry}, entries.WF →
    (sweepLoop roundNr l entries).1.WF ∧
    (∀ k, (sweepLoop roundNr l entries).1.findValue k =
      if ∃ x ∈ l, x.1 = k ∧ x.2.seenRound ≠ roundNr then none else entries.findValue k) ∧
    (sweepLoop roundNr l entries).2 = (l.filter fun x => x.2.seenRound ≠ roundNr ∧ x.2.bSent = true).map (·.1)
  | [], entries, hw => ⟨hw, by simp [sweepLoop], rfl⟩
  | (id, entry) :: rest, entries, hw => by
    unfold sweepLoop
    by_cases hseen : entry.seenRound = roundNr
    · obtain ⟨hwf, hfind, hrem⟩ := sweepLoop_spec roundNr rest hw
      rw [if_pos hseen]
      refine ⟨hwf, ?_, by simp [hrem, hseen]⟩
      intro k
      rw [hfind]
      simp only [List.mem_cons, exists_eq_or_imp, hseen, ne_eq, not_true, and_false, false_or]
    · obtain ⟨hwf, hfind, hrem⟩ := sweepLoop_spec roundNr rest (Table.erase_wf hw id)
      simp only [if_neg hseen]
      refine ⟨hwf, ?_, ?_⟩
      · intro k
        rw [hfind, Table.findValue_erase hw]
        simp only [List.mem_cons, exists_eq_or_imp, ne_eq, hseen, not_false_iff, and_true]
        by_cases hk : k = id
        · simp [hk]
        · have hk' : ¬ id = k := fun e => hk e.symm
          simp only [hk, hk', false_or, if_false]
      · rw [hrem]
        by_cases hsent : entry.bSent = true <;> simp [hseen, hsent]

theorem markSent_spec : ∀ (ids : List K) {entries : Table K SEntry}, entries.WF →
    (markSent ids entries).WF ∧ ∀ k, (markSent ids entries).findValue k =
      if k ∈ ids then (entries.findValue k).map fun e => { e with bSent := true } else entries.findValue k
  | [], entries, hw => ⟨hw, by simp [markSent]⟩
  | id :: ids, entries, hw => by
    obtain ⟨hwf, hfind⟩ := markSent_spec ids (Table.write_wf hw id fun e => { e with bSent := true })
    refine ⟨hwf, ?_⟩
    intro k
    show (markSent ids _).findValue k = _
    rw [hfind, Table.findValue_write]
    by_cases hk : k = id
    · subst hk
      cases entries.findValue k <;> simp
    · simp [hk]

omit [DecidableEq K] in
/-- What the reader makes of the list of changes. -/
theorem readChanged_changedEntry (keyField : UInt32) (id : K) {t : Table UInt32 FlatVariant}
    (h : ∀ x ∈ t.toList, x.1 ≠ keyField) :
    readChanged keyField (changedEntry keyField id t) = some (id, t.toList.map fun (f, value) => (f, value.payload)) := by
  have hfilter : t.toList.filter (·.1 ≠ keyField) = t.toList := by
    rw [List.filter_eq_self]
    intro x hx
    simpa using h x hx
  unfold readChanged changedEntry
  simp only [List.find?_cons, decide_true, Option.bind_some, CacheKey.readKey_writeKey, Option.map_some, ne_eq,
    List.filter_cons, not_true, decide_false, Bool.false_eq_true, if_false]
  simp only [ne_eq] at hfilter
  rw [hfilter]

/-- The result of a round as a delta. -/
def roundDelta (c : VariantCache K) (s : SScope K) : Delta K UInt32 Bytes :=
  ⟨(sweepLoop s.roundNr s.entries.toList s.entries).2,
    c.changed.toList.map fun (id, t) => (id, t.toList.map fun (f, value) => (f, value.payload))⟩

theorem InRound.mem_changed (h : InRound always scopeOf c scope state events s) {id : K} {writes : List (UInt32 × Bytes)} :
    (id, writes) ∈ (roundDelta c s).changed ↔
      ∃ t, c.changed.findValue id = some t ∧ writes = t.toList.map fun (f, value) => (f, value.payload) := by
  unfold roundDelta
  rw [List.mem_map]
  constructor
  · rintro ⟨⟨k, t⟩, hm, heq⟩
    cases heq
    exact ⟨t, h.changes.wf.mem_toList.1 hm, rfl⟩
  · rintro ⟨t, ht, rfl⟩
    exact ⟨(id, t), h.changes.wf.mem_toList.2 ht, rfl⟩

omit [CacheKey K] in
/-- A walk over changed fields meets what a look-up finds. -/
theorem mem_payloads {t : Table UInt32 FlatVariant} (hw : t.WF) {f : UInt32} {p : Bytes} :
    (f, p) ∈ t.toList.map (fun (f, value) => (f, value.payload)) ↔
      ∃ value, t.findValue f = some value ∧ p = value.payload := by
  rw [List.mem_map]
  constructor
  · rintro ⟨⟨g, value⟩, hm, heq⟩
    cases heq
    exact ⟨value, hw.mem_toList.1 hm, rfl⟩
  · rintro ⟨value, hv, rfl⟩
    exact ⟨(f, value), hw.mem_toList.2 hv, rfl⟩

/-- The part of the collection a round is about. -/
def part (scopeOf : K → UInt64) (scope : UInt64) : K → Bool := fun id => scopeOf id = scope

/-- The result of a round describes it. -/
theorem InRound.describes (h : InRound always scopeOf c scope state events s) :
    (roundDelta c s).Describes (part scopeOf scope) events state := by
  obtain ⟨-, -, hrem⟩ := sweepLoop_spec s.roundNr s.entries.toList h.entries
  refine ⟨?_, ?_, ?_, ?_, ?_, ?_⟩
  · show (sweepLoop _ _ _).2.Nodup
    rw [hrem]
    exact h.entries.nodup_keys.sublist (List.filter_sublist.map _)
  · intro id
    show id ∈ (sweepLoop _ _ _).2 ↔ _
    rw [hrem, List.mem_map]
    constructor
    · rintro ⟨⟨k, entry⟩, hm, rfl⟩
      rw [List.mem_filter] at hm
      obtain ⟨hm, hcond⟩ := hm
      simp only [ne_eq, decide_eq_true_eq] at hcond
      have hf := h.entries.mem_toList.1 hm
      obtain ⟨hseen, hthere, hr⟩ := h.present k entry hf
      have hnm : ¬ Mentioned events k := fun hm => hcond.1 (hseen.2 hm)
      refine ⟨by simpa [part] using h.own k entry hf, hnm, ?_⟩
      intro hv
      obtain ⟨fields, hst⟩ := Option.ne_none_iff_exists'.1 (hthere.resolve_left hnm)
      exact visible_eq_none.1 hv fields hst (by simpa [hst] using hr.sent.1 hcond.2)
    · rintro ⟨hpart, hnm, hv⟩
      have hid : scopeOf id = scope := by simpa [part] using hpart
      cases hf : s.entries.findValue id with
      | none => exact absurd (visible_eq_none.2 (by simp [(h.absent id hid hf).1])) hv
      | some entry =>
        obtain ⟨hseen, -, hr⟩ := h.present id entry hf
        refine ⟨(id, entry), List.mem_filter.2 ⟨h.entries.mem_toList.2 hf, ?_⟩, rfl⟩
        have hfield : HasField ((state id).getD Fields.none) := by
          by_contra hno
          refine hv (visible_eq_none.2 fun fields hst => ?_)
          simpa [hst] using hno
        simpa using ⟨fun hs => hnm (hseen.1 hs), hr.sent.2 hfield⟩
  · unfold roundDelta
    rw [List.map_map]
    exact h.changes.wf.nodup_keys
  · intro id writes hm
    obtain ⟨t, ht, -⟩ := h.mem_changed.1 hm
    obtain ⟨hid, hmen, -⟩ := h.changes.fields id t ht
    exact ⟨by simpa [part] using hid, hmen⟩
  · intro id writes hm
    obtain ⟨t, ht, rfl⟩ := h.mem_changed.1 hm
    obtain ⟨-, -, hwf, ⟨f, value, hne⟩, hval⟩ := h.changes.fields id t ht
    refine ⟨?_, ?_, ?_⟩
    · exact List.ne_nil_of_mem ((mem_payloads hwf).2 ⟨value, hne, rfl⟩)
    · rw [List.map_map]
      exact hwf.nodup_keys
    · intro g p hg
      obtain ⟨v, hv, rfl⟩ := (mem_payloads hwf).1 hg
      exact (hval g v hv).2
  · intro id f _ _ hnot
    refine h.changes.complete id f fun t ht => ?_
    obtain ⟨-, -, hwf, -⟩ := h.changes.fields id t ht
    rw [Option.eq_none_iff_forall_not_mem]
    intro value hv
    exact hnot _ (h.mem_changed.2 ⟨t, ht, rfl⟩) value.payload ((mem_payloads hwf).2 ⟨value, hv, rfl⟩)

/-- What a swept and marked entry is. -/
theorem InRound.sweptEntries (h : InRound always scopeOf c scope state events s) :
    let entries := markSent (c.changed.toList.map (·.1)) (sweepLoop s.roundNr s.entries.toList s.entries).1
    entries.WF ∧
    (∀ id, scopeOf id = scope → ¬ Mentioned events id → entries.findValue id = none) ∧
    (∀ id, scopeOf id ≠ scope → entries.findValue id = none) ∧
    ∀ id, scopeOf id = scope → Mentioned events id → ∃ entry, entries.findValue id = some entry ∧
      entry.seenRound = s.roundNr ∧
      Remembers always id entry (fieldsAfter state events id) (fieldsAfter state events id) := by
  obtain ⟨hsw, hsf, -⟩ := sweepLoop_spec s.roundNr s.entries.toList h.entries
  obtain ⟨hmw, hmf⟩ := markSent_spec (c.changed.toList.map (·.1)) hsw
  -- swept: what was seen is left, what was not is gone
  have hswept : ∀ id, (sweepLoop s.roundNr s.entries.toList s.entries).1.findValue id =
      if Mentioned events id then s.entries.findValue id else none := by
    intro id
    rw [hsf]
    cases hf : s.entries.findValue id with
    | none => simp
    | some entry =>
      have hseen := (h.present id entry hf).1
      by_cases hm : Mentioned events id
      · rw [if_neg, if_pos hm]
        rintro ⟨⟨k, e⟩, hx, rfl, hne⟩
        rw [h.entries.mem_toList.1 hx] at hf
        cases hf
        exact hne (hseen.2 hm)
      · rw [if_pos, if_neg hm]
        exact ⟨(id, entry), h.entries.mem_toList.2 hf, rfl, fun hs => hm (hseen.1 hs)⟩
  have hids : ∀ id, id ∈ c.changed.toList.map (·.1) ↔ ∃ t, c.changed.findValue id = some t := by
    intro id
    rw [List.mem_map]
    constructor
    · rintro ⟨⟨k, t⟩, hm, rfl⟩; exact ⟨t, h.changes.wf.mem_toList.1 hm⟩
    · rintro ⟨t, ht⟩; exact ⟨(id, t), h.changes.wf.mem_toList.2 ht, rfl⟩
  refine ⟨hmw, ?_, ?_, ?_⟩
  · intro id _ hm
    rw [hmf, hswept, if_neg hm]
    simp
  · intro id hid
    have hnone : s.entries.findValue id = none := by
      rw [Option.eq_none_iff_forall_not_mem]
      intro entry he
      exact hid (h.own id entry he)
    rw [hmf, hswept, hnone]
    simp
  · intro id hid hm
    have hthere : s.entries.findValue id ≠ none := fun hn => (h.absent id hid hn).2 hm
    obtain ⟨entry, hf⟩ := Option.ne_none_iff_exists'.1 hthere
    obtain ⟨hseen, -, hrem⟩ := h.present id entry hf
    rw [hmf, hswept, if_pos hm, hf]
    by_cases hch : id ∈ c.changed.toList.map (·.1)
    · -- it travels in this round, with at least one field
      obtain ⟨t, ht⟩ := (hids id).1 hch
      obtain ⟨-, -, -, ⟨f, value, hv⟩, hval⟩ := h.changes.fields id t ht
      refine ⟨{ entry with bSent := true }, by rw [if_pos hch]; rfl, hseen.2 hm, hrem.wf, hrem.field, ?_⟩
      exact iff_of_true rfl ⟨f, by rw [(hval f value hv).2]; rfl⟩
    · -- it does not travel: the fields are the ones the reader has
      have hsame : fieldsAfter state events id = (state id).getD Fields.none := by
        funext f
        exact h.changes.complete id f fun t ht => absurd ((hids id).2 ⟨t, ht⟩) hch
      refine ⟨entry, by rw [if_neg hch], hseen.2 hm, hrem.wf, hrem.field, ?_⟩
      rw [hsame]
      exact hrem.sent

/-- The reader gets the delta of the round. -/
theorem InRound.delta_result (h : InRound always scopeOf c scope state events s) (removed : List K) :
    (RoundResult.mk (removed.map CacheKey.writeKey)
      (c.changed.toList.map fun (id, fields) => changedEntry c.keyField id fields)).delta c.keyField =
      ⟨removed, c.changed.toList.map fun (id, t) => (id, t.toList.map fun (f, value) => (f, value.payload))⟩ := by
  have hremoved : (removed.map CacheKey.writeKey).filterMap CacheKey.readKey = removed := by
    rw [List.filterMap_map]
    simp [CacheKey.readKey_writeKey]
  have hchanged : (c.changed.toList.map fun (id, fields) => changedEntry c.keyField id fields).filterMap
      (readChanged c.keyField) =
      c.changed.toList.map fun (id, t) => (id, t.toList.map fun (f, value) => (f, value.payload)) := by
    rw [List.filterMap_map, ← List.filterMap_eq_map]
    apply List.filterMap_congr
    rintro ⟨id, t⟩ hm
    obtain ⟨-, -, hwf, -, hval⟩ := h.changes.fields id t (h.changes.wf.mem_toList.1 hm)
    exact readChanged_changedEntry c.keyField id fun x hx => (hval x.1 x.2 (hwf.mem_toList.1 hx)).1
  unfold RoundResult.delta
  rw [hremoved, hchanged]

theorem ScopeAtRest.congr {s : SScope K} {k : UInt64} {state' : Copy K UInt32 Bytes}
    (h : ScopeAtRest always scopeOf s k state) (hs : ∀ id, scopeOf id = k → state' id = state id) :
    ScopeAtRest always scopeOf s k state' where
  wf := h.wf
  own := h.own
  absent id hid hn := by rw [hs id hid]; exact h.absent id hid hn
  present id entry he := by rw [hs id (h.own id entry he)]; exact h.present id entry he

/-- `FinishRound`: it returns the delta of the round, and all is at rest again. A scope that is
dropped held nothing. -/
theorem InRound.finishRound (h : InRound always scopeOf c scope state events s) :
    ∃ c' result, c.finishRound = some (c', result) ∧ c'.keyField = c.keyField ∧
      result.delta c.keyField = roundDelta c s ∧
      AtRest always scopeOf c' (Replica.round (part scopeOf scope) events state) := by
  obtain ⟨hwf, hgone, hother, hkept⟩ := h.sweptEntries
  obtain ⟨honly, -⟩ := writeScope_only h.pScope h.wf h.current fun s' =>
    { s' with entries := markSent (c.changed.toList.map (·.1)) (sweepLoop s.roundNr s.entries.toList s.entries).1 }
  have hround : ∀ id, scopeOf id ≠ scope → Replica.round (part scopeOf scope) events state id = state id := by
    intro id hid
    simp [Replica.round, part, hid]
  have hmine : ∀ id, scopeOf id = scope → Replica.round (part scopeOf scope) events state id =
      if Mentioned events id then some (fieldsAfter state events id) else none := by
    intro id hid
    simp [Replica.round, part, hid, fieldsAfter]
  have hothers : ∀ k, k ≠ scope → ∀ id, scopeOf id = k →
      Replica.round (part scopeOf scope) events state id = state id :=
    fun k hk id hid => hround id (hid ▸ hk)
  generalize hent : markSent (c.changed.toList.map (·.1)) (sweepLoop s.roundNr s.entries.toList s.entries).1 = entries
    at hwf hgone hother hkept honly
  -- the scope of the round with what is left in it
  have hrest : ScopeAtRest always scopeOf { s with entries := entries } scope
      (Replica.round (part scopeOf scope) events state) :=
    { wf := hwf
      own := by
        intro id entry he
        by_contra hid
        rw [show _ = _ from hother id hid] at he
        cases he
      absent := by
        intro id hid hn
        rw [hmine id hid]
        by_cases hm : Mentioned events id
        · obtain ⟨entry, he, -⟩ := hkept id hid hm
          rw [show entries.findValue id = none from hn] at he
          cases he
        · rw [if_neg hm]
      present := by
        intro id entry he
        have hid : scopeOf id = scope := by
          by_contra hid
          rw [show _ = _ from hother id hid] at he
          cases he
        have hm : Mentioned events id := by
          by_contra hm
          rw [show _ = _ from hgone id hid hm] at he
          cases he
        obtain ⟨entry', he', hseen, hrem⟩ := hkept id hid hm
        rw [show entries.findValue id = some entry from he] at he'
        cases he'
        exact ⟨hseen, _, by rw [hmine id hid, if_pos hm], hrem⟩ }
  have hscopes : ∀ k s', k ≠ scope → c.scopes.findValue k = some s' →
      ScopeAtRest always scopeOf s' k (Replica.round (part scopeOf scope) events state) :=
    fun k s' hk hs' => (h.others.rest k s' hk hs').congr (hothers k hk)
  have hnone : ∀ k, k ≠ scope → c.scopes.findValue k = none → ∀ id, scopeOf id = k →
      Replica.round (part scopeOf scope) events state id = none := by
    intro k hk hn id hid
    rw [hothers k hk id hid]
    exact h.others.none k hk hn id hid
  unfold VariantCache.finishRound
  rw [derefScope_eq h.pScope h.current]
  refine ⟨_, _, rfl, ?_, h.delta_result _, ?_⟩
  · dsimp only
    rw [hent]
    split
    · exact honly.keyField
    · exact honly.keyField
  · dsimp only
    rw [hent]
    split
    · -- the scope is dropped: there is nothing in it
      rename_i hdrop
      have hce : (c.writeScope fun s' => { s' with entries := entries }).scope = scope :=
        honly.scope_eq.trans h.scope_eq
      have hfind : ∀ k, ((c.writeScope fun s' => { s' with entries := entries }).scopes.remove
          (c.writeScope fun s' => { s' with entries := entries }).scope).findValue k =
          if k = scope then none else c.scopes.findValue k := by
        intro k
        rw [Table.findValue_remove, hce]
        split
        · rfl
        · rename_i hk; exact honly.others k hk
      refine ⟨Table.remove_wf honly.wf _, ?_, ?_⟩
      · intro k s' _ hs'
        have hs' := (hfind k).symm.trans hs'
        split at hs'
        · cases hs'
        · rename_i hk; exact hscopes k s' hk hs'
      · intro k _ hn id hid
        have hn := (hfind k).symm.trans hn
        split at hn
        · rename_i hk
          exact hrest.absent id (hid.trans hk) (hwf.findValue_of_isEmpty hdrop.1 id)
        · rename_i hk; exact hnone k hk hn id hid
    · refine ⟨honly.wf, ?_, ?_⟩
      · intro k s' _ hs'
        by_cases hk : k = scope
        · subst hk
          have := Option.some.inj (honly.current.symm.trans hs')
          exact this ▸ hrest
        · exact hscopes k s' hk ((honly.others k hk).symm.trans hs')
      · intro k _ hn id hid
        by_cases hk : k = scope
        · subst hk
          cases honly.current.symm.trans hn
        · exact hnone k hk ((honly.others k hk).symm.trans hn) id hid

/-! ## Runs -/

/-- A whole round, from rest to rest. -/
theorem AtRest.round (h : AtRest always scopeOf c state) (scope : UInt64) {ops : List (Op K)}
    (hops : ∀ op ∈ ops, scopeOf op.id = scope ∧ op.Respects always c.keyField) :
    ∃ c' result, c.round scope ops = some (c', result) ∧ c'.keyField = c.keyField ∧
      (result.delta c.keyField : Delta K UInt32 Bytes).Describes (part scopeOf scope) (roundEvents c.keyField ops) state ∧
      AtRest always scopeOf c' (Replica.round (part scopeOf scope) (roundEvents c.keyField ops) state) := by
  obtain ⟨s₁, hin₁⟩ := h.beginRound scope
  obtain ⟨c₂, s₂, hsteps, hkf₂, hin₂⟩ := InRound.steps ops hin₁ hops
  obtain ⟨c', result, hfin, hkf, hdelta, hrest⟩ := hin₂.finishRound
  have hkey : c₂.keyField = c.keyField := hkf₂
  refine ⟨c', result, ?_, hkf.trans hkey, ?_, hrest⟩
  · unfold VariantCache.round
    rw [hsteps, Option.bind_some, hfin]
  · rw [← hkey, hdelta, hkey]
    exact hin₂.describes

/-- What happens to a cache: rounds, and between them what a connection may do. -/
inductive Step (K : Type)
  | round (scope : UInt64) (ops : List (Op K))
  | clear
  | clearScope (scope : UInt64)
  | setScopeToken (scope token : UInt64)

/-- A step respects the scopes of the keys and the division of the fields. -/
def Step.Respects (scopeOf : K → UInt64) (always : K → UInt32 → Bool) (keyField : UInt32) : Step K → Prop
  | .round scope ops => ∀ op ∈ ops, scopeOf op.id = scope ∧ op.Respects always keyField
  | _ => True

/-- The cache and its reader take a step. A reader asks for a clearing because it has lost what it
held. -/
def advance (scopeOf : K → UInt64) : VariantCache K × Copy K UInt32 Bytes → Step K →
    Option (VariantCache K × Copy K UInt32 Bytes)
  | (c, copy), .round scope ops => (c.round scope ops).map fun (c', result) => (c', copy.apply (result.delta c.keyField))
  | (c, _), .clear => some (c.clear, fun _ => none)
  | (c, copy), .clearScope scope => some (c.clearScope scope, fun id => if scopeOf id = scope then none else copy id)
  | (c, copy), .setScopeToken scope token => some (c.setScopeToken scope token, copy)

/-- A run from the start, with a reader that holds nothing. -/
def run (keyField : UInt32) (scopeOf : K → UInt64) (steps : List (Step K)) :
    Option (VariantCache K × Copy K UInt32 Bytes) :=
  steps.foldlM (advance scopeOf) (init keyField, fun _ => none)

/-- The collection after a step: what the rounds say is there, with the fields written since. -/
def Step.after (keyField : UInt32) (scopeOf : K → UInt64) (state : Copy K UInt32 Bytes) : Step K → Copy K UInt32 Bytes
  | .round scope ops => Replica.round (part scopeOf scope) (roundEvents keyField ops) state
  | .clear => fun _ => none
  | .clearScope scope => fun id => if scopeOf id = scope then none else state id
  | .setScopeToken _ _ => state

/-- The collection after a run. -/
def collection (keyField : UInt32) (scopeOf : K → UInt64) (steps : List (Step K)) : Copy K UInt32 Bytes :=
  steps.foldl (Step.after keyField scopeOf) fun _ => none

/-- One step keeps the cache at rest and the reader at what is visible of the collection. -/
theorem AtRest.advance (h : AtRest always scopeOf c state) (step : Step K)
    (hstep : step.Respects scopeOf always c.keyField) :
    ∃ c', VariantCache.advance scopeOf (c, visible state) step =
        some (c', visible (step.after c.keyField scopeOf state)) ∧ c'.keyField = c.keyField ∧
      AtRest always scopeOf c' (step.after c.keyField scopeOf state) := by
  cases step with
  | round scope ops =>
    obtain ⟨c', result, hround, hkf, hdesc, hrest⟩ := h.round scope hstep
    refine ⟨c', ?_, hkf, hrest⟩
    simp only [VariantCache.advance, hround, Option.map_some, hdesc.apply_eq]
    rfl
  | clear =>
    refine ⟨c.clear, rfl, rfl, Table.empty_wf, ?_, ?_⟩
    · intro k s _ hs; simp [VariantCache.clear] at hs
    · intro k _ _ id _; rfl
  | clearScope scope =>
    have hfind : ∀ k, (c.clearScope scope).scopes.findValue k = if k = scope then none else c.scopes.findValue k :=
      fun k => Table.findValue_remove scope k
    refine ⟨c.clearScope scope, ?_, rfl, Table.remove_wf h.wf scope, ?_, ?_⟩
    · simp only [VariantCache.advance, Option.some.injEq, Prod.mk.injEq, true_and]
      funext id
      unfold visible Step.after
      by_cases hid : scopeOf id = scope <;> simp [hid]
    · intro k s _ hs
      rw [hfind] at hs
      split at hs
      · cases hs
      · rename_i hk
        exact (h.scopes.rest k s trivial hs).congr fun id hid => if_neg (hid ▸ hk)
    · intro k _ hn id hid
      show (if scopeOf id = scope then none else state id) = none
      rw [hfind] at hn
      split at hn
      · rename_i hk; rw [if_pos (hid.trans hk)]
      · rw [h.scopes.none k trivial hn id hid, ite_self]
  | setScopeToken scope token =>
    have hold := h.scopeOrNew scope
    have hadd := Table.getOrAddValue_wf h.wf scope (newScope : SScope K)
    have hfind : ∀ k, (c.setScopeToken scope token).scopes.findValue k =
        if k = scope then some { (c.scopes.findValue scope).getD newScope with token := token }
        else c.scopes.findValue k := by
      intro k
      show ((c.scopes.getOrAddValue scope newScope).write scope _).findValue k = _
      rw [Table.findValue_write, Table.findValue_getOrAddValue h.wf]
      split <;> rfl
    refine ⟨c.setScopeToken scope token, rfl, rfl, Table.write_wf hadd _ _, ?_, ?_⟩
    · intro k s _ hs
      rw [hfind] at hs
      split at hs
      · rename_i hk
        subst hk
        cases hs
        exact ⟨hold.wf, hold.own, hold.absent, hold.present⟩
      · exact h.scopes.rest k s trivial hs
    · intro k _ hn id hid
      rw [hfind] at hn
      split at hn
      · cases hn
      · exact h.scopes.none k trivial hn id hid

/-- Every run from a state at rest. -/
theorem AtRest.run :
    ∀ (steps : List (Step K)) {c : VariantCache K} {state : Copy K UInt32 Bytes}, AtRest always scopeOf c state →
      (∀ step ∈ steps, step.Respects scopeOf always c.keyField) →
      ∃ c', steps.foldlM (VariantCache.advance scopeOf) (c, visible state) =
          some (c', visible (steps.foldl (Step.after c.keyField scopeOf) state)) ∧ c'.keyField = c.keyField ∧
        AtRest always scopeOf c' (steps.foldl (Step.after c.keyField scopeOf) state)
  | [], c, state, h, _ => ⟨c, rfl, rfl, h⟩
  | step :: steps, c, state, h, hsteps => by
    obtain ⟨c₁, hadv, hkf₁, h₁⟩ := h.advance step (hsteps step List.mem_cons_self)
    have hrest := fun s hs => hsteps s (List.mem_cons_of_mem _ hs)
    rw [← hkf₁] at hrest
    obtain ⟨c', hrun, hkf, h'⟩ := AtRest.run steps h₁ hrest
    refine ⟨c', ?_, hkf.trans hkf₁, ?_⟩
    · rw [List.foldlM_cons, hadv, ← hkf₁]
      rw [← hkf₁] at hrun
      simpa [hkf₁] using hrun
    · rw [hkf₁] at h'
      exact h'

/-! ## The protocol -/

end VariantCache

end MajorPrivacy.Cache

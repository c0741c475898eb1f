/-
The invariants of the cache. Between rounds every scope remembers what the reader has; inside a
round it remembers what the reader will have, and the changes hold the difference. Each operation
keeps this, `BeginRound` and `FinishRound` lead from one to the other, and the result of a round is a
delta that describes it.
-/
import MajorPrivacy.Cache.VariantCache
import MajorPrivacy.Lib.Replica

namespace MajorPrivacy.Cache

open MajorPrivacy.Core Variant Replica

/-! ## What the reader is told -/

section Reader

variable {K : Type} [CacheKey K]

/-- An element of the list of changes as a reader takes it: the key from the key field, and the
payloads of the other fields. -/
def readChanged (keyField : UInt32) (entry : List (UInt32 × FlatVariant)) : Option (K × List (UInt32 × Bytes)) :=
  ((entry.find? (·.1 = keyField)).bind fun (_, value) => CacheKey.readKey value).map fun id =>
    (id, (entry.filter (·.1 ≠ keyField)).map fun (field, value) => (field, value.payload))

/-- The result of a round as a reader takes it. -/
def RoundResult.delta (keyField : UInt32) (result : RoundResult) : Delta K UInt32 Bytes :=
  ⟨result.removed.filterMap CacheKey.readKey, result.changed.filterMap (readChanged keyField)⟩

/-- The events a call inside a round stands for. A write to the key field is none: the cache drops
it before it looks at the entry. -/
def VariantCache.Op.events (keyField : UInt32) : VariantCache.Op K → List (Event K UInt32 Bytes)
  | .keep id => [.mention id]
  | .write id field value => if field = keyField then [] else [.write id field value.payload]
  | .writeRaw id field _ data => if field = keyField then [] else [.write id field data]
  | .writeEntry id entry =>
    .mention id :: ((VariantCache.entryFields entry).filter (·.1 ≠ keyField)).map fun (field, data) =>
      .write id field data.payload
  | .writeAlways id field value => if field = keyField then [] else [.write id field value.payload]

def roundEvents (keyField : UInt32) (ops : List (VariantCache.Op K)) : List (Event K UInt32 Bytes) :=
  ops.flatMap (VariantCache.Op.events keyField)

end Reader

namespace VariantCache

variable {K : Type} [CacheKey K] [DecidableEq K]

/-! ## Writing through the scope pointer -/

/-- All but one scope is as it was, and that scope is the given one. -/
structure OnlyScope (c c' : VariantCache K) (scope : UInt64) (s' : SScope K) : Prop where
  keyField : c'.keyField = c.keyField
  pScope : c'.pScope = c.pScope
  scope_eq : c'.scope = c.scope
  changed : c'.changed = c.changed
  wf : c'.scopes.WF
  current : c'.scopes.findValue scope = some s'
  others : ∀ k, k ≠ scope → c'.scopes.findValue k = c.scopes.findValue k

omit [CacheKey K] [DecidableEq K] in
theorem OnlyScope.trans {c₁ c₂ c₃ : VariantCache K} {scope : UInt64} {s₂ s₃ : SScope K}
    (h₁ : OnlyScope c₁ c₂ scope s₂) (h₂ : OnlyScope c₂ c₃ scope s₃) : OnlyScope c₁ c₃ scope s₃ :=
  ⟨h₂.keyField.trans h₁.keyField, h₂.pScope.trans h₁.pScope, h₂.scope_eq.trans h₁.scope_eq,
    h₂.changed.trans h₁.changed, h₂.wf, h₂.current, fun k hk => (h₂.others k hk).trans (h₁.others k hk)⟩

omit [CacheKey K] [DecidableEq K] in
theorem writeScope_only {c : VariantCache K} {scope : UInt64} {s : SScope K} (hp : c.pScope = some scope)
    (hw : c.scopes.WF) (hs : c.scopes.findValue scope = some s) (f : SScope K → SScope K) :
    OnlyScope c (c.writeScope f) scope (f s) ∧ (c.writeScope f).lastEntry = c.lastEntry := by
  have heq : c.writeScope f = { c with scopes := c.scopes.write scope f } := by simp [writeScope, hp]
  rw [heq]
  refine ⟨⟨rfl, rfl, rfl, rfl, Table.write_wf hw scope f, ?_, ?_⟩, rfl⟩
  · show (c.scopes.write scope f).findValue scope = _
    rw [Table.findValue_write, if_pos rfl, hs, Option.map_some]
  · intro k hk
    show (c.scopes.write scope f).findValue k = _
    rw [Table.findValue_write, if_neg hk]

omit [CacheKey K] [DecidableEq K] in
theorem derefScope_eq {c : VariantCache K} {scope : UInt64} {s : SScope K} (hp : c.pScope = some scope)
    (hs : c.scopes.findValue scope = some s) : c.derefScope = some s := by
  simp [derefScope, hp, hs]

/-- `GetEntry` finds the entry, the remembered one included, or adds a new one; nothing else moves. -/
theorem getEntry_spec {c : VariantCache K} {scope : UInt64} {s : SScope K} (hp : c.pScope = some scope)
    (hw : c.scopes.WF) (hs : c.scopes.findValue scope = some s) (he : s.entries.WF)
    (hl : ∀ id, c.lastEntry = some id → s.entries.findValue id ≠ none) (id : K) :
    ∃ c' s', c.getEntry id = some (c', (s.entries.findValue id).getD newEntry) ∧ OnlyScope c c' scope s' ∧
      c'.lastEntry = some id ∧ s'.roundNr = s.roundNr ∧ s'.token = s.token ∧ s'.entries.WF ∧
      ∀ k, s'.entries.findValue k =
        if k = id then some ((s.entries.findValue id).getD newEntry) else s.entries.findValue k := by
  unfold getEntry
  have hd := derefScope_eq hp hs
  by_cases hlast : c.lastEntry = some id
  · -- the shortcut: the remembered entry is still in the table
    obtain ⟨e, hfe⟩ := Option.ne_none_iff_exists'.1 (hl id hlast)
    refine ⟨c, s, ?_, ⟨rfl, rfl, rfl, rfl, hw, hs, fun _ _ => rfl⟩, hlast, rfl, rfl, he, ?_⟩
    · simp [hlast, derefEntry, hd, hfe]
    · intro k
      by_cases hk : k = id
      · subst hk; simp [hfe]
      · simp [hk]
  · obtain ⟨honly, -⟩ := writeScope_only hp hw hs fun s => { s with entries := s.entries.getOrAddValue id newEntry }
    generalize hc₁ : c.writeScope (fun s => { s with entries := s.entries.getOrAddValue id newEntry }) = c₁ at honly
    refine ⟨{ c₁ with lastEntry := some id }, _, ?_, ⟨honly.keyField, honly.pScope, honly.scope_eq, honly.changed,
      honly.wf, honly.current, honly.others⟩, rfl, rfl, rfl, Table.getOrAddValue_wf he id newEntry, ?_⟩
    · have hd' : ({ c₁ with lastEntry := some id } : VariantCache K).derefScope = _ :=
        derefScope_eq (honly.pScope.trans hp) honly.current
      simp only [hlast, if_false, hd, Option.bind_some, derefEntry, hd', Table.findValue_getOrAddValue he, if_true,
        Option.map_some]
    · intro k
      exact Table.findValue_getOrAddValue he id k newEntry

/-- Every mention of an entry: it is there afterwards, marked as seen in this round. -/
theorem mention_spec {c : VariantCache K} {scope : UInt64} {s : SScope K} (hp : c.pScope = some scope)
    (hw : c.scopes.WF) (hs : c.scopes.findValue scope = some s) (he : s.entries.WF)
    (hl : ∀ id, c.lastEntry = some id → s.entries.findValue id ≠ none) (id : K) :
    ∃ c' s', c.mention id = some (c', (s.entries.findValue id).getD newEntry) ∧ OnlyScope c c' scope s' ∧
      c'.lastEntry = some id ∧ s'.roundNr = s.roundNr ∧ s'.token = s.token ∧ s'.entries.WF ∧
      ∀ k, s'.entries.findValue k =
        if k = id then some { (s.entries.findValue id).getD newEntry with seenRound := s.roundNr }
        else s.entries.findValue k := by
  obtain ⟨c₁, s₁, hget, honly₁, hlast, hnr, htok, hwf, hfind⟩ := getEntry_spec hp hw hs he hl id
  have hp₁ := honly₁.pScope.trans hp
  obtain ⟨honly₂, hlast₂⟩ := writeScope_only hp₁ honly₁.wf honly₁.current fun s' =>
    { s' with entries := s'.entries.write id fun e => { e with seenRound := s₁.roundNr } }
  refine ⟨_, _, ?_, honly₁.trans honly₂, hlast₂.trans hlast, hnr, htok, Table.write_wf hwf _ _, ?_⟩
  · unfold mention
    simp only [hget, Option.bind_some, derefScope_eq hp₁ honly₁.current, Option.map_some, writeEntryOf]
  · intro k
    show (s₁.entries.write id _).findValue k = _
    rw [Table.findValue_write, hfind, hnr]
    by_cases hk : k = id
    · simp [hk]
    · simp [hk]

/-! ## The invariants -/

section Invariants

variable (always : K → UInt32 → Bool) (scopeOf : K → UInt64)

/-- An entry remembers the fields of a key, those apart that always travel, and whether the reader
has been told of the key. -/
structure Remembers (id : K) (entry : SEntry) (fields known : Fields UInt32 Bytes) : Prop where
  wf : entry.fields.WF
  field : ∀ f, (entry.fields.findValue f).map (·.payload) = if always id f then none else fields f
  sent : entry.bSent = true ↔ HasField known

/-- A scope between rounds holds what the collection holds of it, and all of it is seen. -/
structure ScopeAtRest (s : SScope K) (scope : UInt64) (state : Copy K UInt32 Bytes) : Prop where
  wf : s.entries.WF
  own : ∀ id entry, s.entries.findValue id = some entry → scopeOf id = scope
  absent : ∀ id, scopeOf id = scope → s.entries.findValue id = none → state id = none
  present : ∀ id entry, s.entries.findValue id = some entry → entry.seenRound = s.roundNr ∧
    ∃ fields, state id = some fields ∧ Remembers always id entry fields fields

/-- The other scopes of the cache, all of them between rounds. -/
structure OthersAtRest (c : VariantCache K) (part : UInt64 → Prop) (state : Copy K UInt32 Bytes) : Prop where
  rest : ∀ k s, part k → c.scopes.findValue k = some s → ScopeAtRest always scopeOf s k state
  none : ∀ k, part k → c.scopes.findValue k = none → ∀ id, scopeOf id = k → state id = none

/-- The cache between rounds. -/
structure AtRest (c : VariantCache K) (state : Copy K UInt32 Bytes) : Prop where
  wf : c.scopes.WF
  scopes : OthersAtRest always scopeOf c (fun _ => True) state

/-- The changes of a round hold, for each mentioned key, every field in which the reader is behind. -/
structure Changes (keyField : UInt32) (changed : Table K (Table UInt32 FlatVariant)) (scope : UInt64)
    (state : Copy K UInt32 Bytes) (events : List (Event K UInt32 Bytes)) : Prop where
  wf : changed.WF
  fields : ∀ id t, changed.findValue id = some t → scopeOf id = scope ∧ Mentioned events id ∧ t.WF ∧
    (∃ f value, t.findValue f = some value) ∧
    ∀ f value, t.findValue f = some value → f ≠ keyField ∧ fieldsAfter state events id f = some value.payload
  complete : ∀ id f, (∀ t, changed.findValue id = some t → t.findValue f = none) →
    fieldsAfter state events id f = (state id).getD Fields.none f

/-- The cache inside a round over one scope, after the given events. -/
structure InRound (c : VariantCache K) (scope : UInt64) (state : Copy K UInt32 Bytes)
    (events : List (Event K UInt32 Bytes)) (s : SScope K) : Prop where
  pScope : c.pScope = some scope
  scope_eq : c.scope = scope
  wf : c.scopes.WF
  current : c.scopes.findValue scope = some s
  others : OthersAtRest always scopeOf c (· ≠ scope) state
  entries : s.entries.WF
  own : ∀ id entry, s.entries.findValue id = some entry → scopeOf id = scope
  absent : ∀ id, scopeOf id = scope → s.entries.findValue id = none → state id = none ∧ ¬ Mentioned events id
  present : ∀ id entry, s.entries.findValue id = some entry →
    (entry.seenRound = s.roundNr ↔ Mentioned events id) ∧ (Mentioned events id ∨ state id ≠ none) ∧
      Remembers always id entry (fieldsAfter state events id) ((state id).getD Fields.none)
  last : ∀ id, c.lastEntry = some id → s.entries.findValue id ≠ none
  changes : Changes scopeOf c.keyField c.changed scope state events

end Invariants

/-! ## The operations keep the invariant -/

section Steps

variable {always : K → UInt32 → Bool} {scopeOf : K → UInt64} {c : VariantCache K} {scope : UInt64}
  {state : Copy K UInt32 Bytes} {events : List (Event K UInt32 Bytes)} {s : SScope K}

theorem OthersAtRest.congr {c' : VariantCache K} {part : UInt64 → Prop} (h : OthersAtRest always scopeOf c part state)
    (hc : ∀ k, part k → c'.scopes.findValue k = c.scopes.findValue k) : OthersAtRest always scopeOf c' part state :=
  ⟨fun k s hk hs => h.rest k s hk (hc k hk ▸ hs), fun k hk hs => h.none k hk (hc k hk ▸ hs)⟩

theorem Changes.congr {keyField : UInt32} {changed : Table K (Table UInt32 FlatVariant)}
    {events' : List (Event K UInt32 Bytes)} (h : Changes scopeOf keyField changed scope state events)
    (hm : ∀ id, Mentioned events id → Mentioned events' id)
    (hf : ∀ id, fieldsAfter state events' id = fieldsAfter state events id) :
    Changes scopeOf keyField changed scope state events' where
  wf := h.wf
  fields id t ht := by
    obtain ⟨hs, hmen, hrest⟩ := h.fields id t ht
    rw [hf]
    exact ⟨hs, hm id hmen, hrest⟩
  complete id f hc := by rw [hf]; exact h.complete id f hc

/-- Events that mention the same keys and leave the same fields are the same to the cache. -/
theorem InRound.congr {events' : List (Event K UInt32 Bytes)} (h : InRound always scopeOf c scope state events s)
    (hm : ∀ id, Mentioned events' id ↔ Mentioned events id)
    (hf : ∀ id, fieldsAfter state events' id = fieldsAfter state events id) :
    InRound always scopeOf c scope state events' s where
  pScope := h.pScope
  scope_eq := h.scope_eq
  wf := h.wf
  current := h.current
  others := h.others
  entries := h.entries
  own := h.own
  absent id hid hn := by rw [hm]; exact h.absent id hid hn
  present id entry hid := by rw [hm, hf]; exact h.present id entry hid
  last := h.last
  changes := h.changes.congr (fun id => (hm id).2) hf

/-- A mention, and the entry it returns: one that remembers the fields of the key. -/
theorem InRound.mention (h : InRound always scopeOf c scope state events s) {id : K} (hid : scopeOf id = scope) :
    ∃ c' entry s' , c.mention id = some (c', entry) ∧ c'.keyField = c.keyField ∧
      InRound always scopeOf c' scope state (events ++ [.mention id]) s' ∧
      s'.entries.findValue id = some { entry with seenRound := s'.roundNr } ∧
      Remembers always id entry (fieldsAfter state events id) ((state id).getD Fields.none) := by
  obtain ⟨c', s', hmen, honly, hlast, hnr, -, hwf, hfind⟩ :=
    mention_spec h.pScope h.wf h.current h.entries h.last id
  -- a new entry remembers nothing, and there is nothing to remember
  have hrem : Remembers always id ((s.entries.findValue id).getD newEntry) (fieldsAfter state events id)
      ((state id).getD Fields.none) := by
    cases hf : s.entries.findValue id with
    | some entry => exact (h.present id entry hf).2.2
    | none =>
      obtain ⟨hst, hnm⟩ := h.absent id hid hf
      refine ⟨Table.empty_wf, ?_, ?_⟩
      · intro f
        simp [newEntry, fieldsAfter, hst, written_of_not_mentioned hnm, Fields.merge, Fields.none]
      · simp [newEntry, hst, HasField, Fields.none]
  have hmen' : ∀ k, Mentioned (events ++ [Event.mention id]) k ↔ Mentioned events k ∨ k = id := fun k =>
    mentioned_append_single events _ k
  refine ⟨c', _, s', hmen, honly.keyField, ?_, ?_, hrem⟩
  · exact
    { pScope := honly.pScope.trans h.pScope
      scope_eq := honly.scope_eq.trans h.scope_eq
      wf := honly.wf
      current := honly.current
      others := h.others.congr honly.others
      entries := hwf
      own := by
        intro k entry hk
        rw [hfind] at hk
        split at hk
        · rename_i hki; rw [hki]; exact hid
        · exact h.own k entry hk
      absent := by
        intro k hks hk
        rw [hfind] at hk
        split at hk
        · cases hk
        · rename_i hki
          obtain ⟨hst, hnm⟩ := h.absent k hks hk
          exact ⟨hst, by rw [hmen']; rintro (hm | rfl); exacts [hnm hm, hki rfl]⟩
      present := by
        intro k entry hk
        rw [hfind] at hk
        rw [hmen', fieldsAfter_mention]
        split at hk
        · rename_i hki
          subst hki
          cases hk
          exact ⟨by simp [hnr], .inl (.inr rfl), hrem.wf, hrem.field, hrem.sent⟩
        · rename_i hki
          obtain ⟨hseen, hthere, hr⟩ := h.present k entry hk
          simp only [hki, or_false]
          exact ⟨hnr ▸ hseen, hthere, hr⟩
      last := by
        intro k hk
        rw [hlast] at hk
        cases hk
        rw [hfind, if_pos rfl]
        simp
      changes := by
        rw [honly.changed, honly.keyField]
        exact h.changes.congr (fun k hk => (hmen' k).2 (.inl hk)) fun k => fieldsAfter_mention state events id k }
  · rw [hfind, if_pos rfl, hnr]

theorem InRound.keep (h : InRound always scopeOf c scope state events s) {id : K} (hid : scopeOf id = scope) :
    ∃ c' bSent s', c.keep id = some (c', bSent) ∧ c'.keyField = c.keyField ∧
      InRound always scopeOf c' scope state (events ++ [.mention id]) s' := by
  obtain ⟨c', entry, s', hmen, hkf, hin, -, -⟩ := h.mention hid
  exact ⟨c', entry.bSent, s', by simp [VariantCache.keep, hmen], hkf, hin⟩

omit [CacheKey K] [DecidableEq K] in
theorem mentioned_write_iff (events : List (Event K UInt32 Bytes)) (id k : K) (field : UInt32) (p : Bytes) :
    Mentioned (events ++ [.write id field p]) k ↔ Mentioned (events ++ [.mention id]) k := by
  rw [mentioned_append_single, mentioned_append_single]; rfl

/-- A recorded value reaches the reader. -/
theorem Changes.record {keyField : UInt32} {changed : Table K (Table UInt32 FlatVariant)} {id : K}
    (h : Changes scopeOf keyField changed scope state (events ++ [.mention id])) (hid : scopeOf id = scope)
    {field : UInt32} (hkey : field ≠ keyField) (value : FlatVariant) :
    Changes scopeOf keyField ((changed.getOrAddValue id .empty).write id fun t => t.setValue field value) scope state
      (events ++ [.write id field value.payload]) := by
  have hadd := Table.getOrAddValue_wf h.wf id (.empty : Table UInt32 FlatVariant)
  have hfind : ∀ k, ((changed.getOrAddValue id .empty).write id fun t => t.setValue field value).findValue k =
      if k = id then some (((changed.findValue id).getD .empty).setValue field value) else changed.findValue k := by
    intro k
    rw [Table.findValue_write, Table.findValue_getOrAddValue h.wf]
    split <;> simp
  -- what was recorded of the key before
  have hold : ((changed.findValue id).getD .empty).WF ∧
      ∀ f v, ((changed.findValue id).getD .empty).findValue f = some v →
        f ≠ keyField ∧ fieldsAfter state events id f = some v.payload := by
    cases hc : changed.findValue id with
    | none => exact ⟨Table.empty_wf, by simp⟩
    | some t =>
      obtain ⟨-, -, hwf, -, hval⟩ := h.fields id t hc
      rw [fieldsAfter_mention] at hval
      exact ⟨hwf, hval⟩
  refine ⟨Table.write_wf hadd _ _, ?_, ?_⟩
  · intro k t hk
    rw [hfind] at hk
    split at hk
    · rename_i hki
      subst hki
      cases hk
      refine ⟨hid, (mentioned_append_single events _ _).2 (.inr rfl), Table.setValue_wf hold.1 field value,
        ⟨field, value, by rw [Table.findValue_setValue hold.1, if_pos rfl]⟩, ?_⟩
      intro f v hv
      rw [Table.findValue_setValue hold.1] at hv
      rw [fieldsAfter_write]
      split at hv
      · rename_i hff
        subst hff
        cases hv
        exact ⟨hkey, by simp⟩
      · rename_i hff
        simpa [hff] using hold.2 f v hv
    · rename_i hki
      obtain ⟨hks, hm, hwf, hne, hval⟩ := h.fields k t hk
      refine ⟨hks, (mentioned_write_iff events id k field value.payload).2 hm, hwf, hne, ?_⟩
      intro f v hv
      rw [fieldsAfter_mention] at hval
      rw [fieldsAfter_write, if_neg fun e => hki e.1]
      exact hval f v hv
  · intro k f hk
    have hcomp := h.complete k f
    rw [fieldsAfter_mention] at hcomp
    rw [fieldsAfter_write]
    by_cases hki : k = id
    · subst hki
      have hnone := hk _ (by rw [hfind, if_pos rfl])
      rw [Table.findValue_setValue hold.1] at hnone
      split at hnone
      · cases hnone
      · rename_i hff
        rw [if_neg fun e => hff e.2]
        exact hcomp fun t ht => by simpa [ht] using hnone
    · rw [if_neg fun e => hki e.1]
      exact hcomp fun t ht => hk t (by rw [hfind, if_neg hki, ht])

/-- A value that differs from the remembered one is stored and recorded as a change. -/
theorem InRound.store {id : K} {entry : SEntry}
    (h : InRound always scopeOf c scope state (events ++ [.mention id]) s) (hid : scopeOf id = scope)
    (hf : s.entries.findValue id = some entry) {field : UInt32} (hkey : field ≠ c.keyField)
    (hnot : always id field = false) (value : FlatVariant) :
    ∃ s', InRound always scopeOf (c.store id field value) scope state (events ++ [.write id field value.payload]) s' := by
  obtain ⟨honly, hlast⟩ := writeScope_only h.pScope h.wf h.current fun s =>
    { s with entries := s.entries.write id fun e => { e with fields := e.fields.setValue field value } }
  have hfind : ∀ k, (s.entries.write id fun e => { e with fields := e.fields.setValue field value }).findValue k =
      if k = id then some { entry with fields := entry.fields.setValue field value } else s.entries.findValue k := by
    intro k
    rw [Table.findValue_write]
    split
    · rename_i hk; rw [hk, hf]; rfl
    · rfl
  have hmen := mentioned_write_iff events id
  exact ⟨_,
    { pScope := honly.pScope.trans h.pScope
      scope_eq := honly.scope_eq.trans h.scope_eq
      wf := honly.wf
      current := honly.current
      others := h.others.congr honly.others
      entries := Table.write_wf h.entries _ _
      own := by
        intro k e hk
        rw [hfind] at hk
        split at hk
        · rename_i hki; rw [hki]; exact hid
        · exact h.own k e hk
      absent := by
        intro k hks hk
        rw [hfind] at hk
        split at hk
        · cases hk
        · rw [hmen]; exact h.absent k hks hk
      present := by
        intro k e hk
        rw [hfind] at hk
        rw [hmen]
        split at hk
        · rename_i hki
          subst hki
          cases hk
          obtain ⟨hseen, hthere, hrem⟩ := h.present k entry hf
          refine ⟨hseen, hthere, Table.setValue_wf hrem.wf field value, ?_, hrem.sent⟩
          intro f
          have hfield := hrem.field f
          rw [fieldsAfter_mention] at hfield
          rw [Table.findValue_setValue hrem.wf, fieldsAfter_write]
          by_cases hff : f = field
          · subst hff; simp [hnot]
          · simpa [hff] using hfield
        · rename_i hki
          have hsame : fieldsAfter state (events ++ [.write id field value.payload]) k =
              fieldsAfter state (events ++ [.mention id]) k := by
            funext f
            rw [fieldsAfter_write, fieldsAfter_mention, if_neg fun e => hki e.1]
          rw [hsame]
          exact h.present k e hk
      last := by
        intro k hk
        have := h.last k (hlast.symm.trans hk)
        rw [hfind]
        split
        · simp
        · exact this
      changes := by
        have := h.changes.record hid hkey value
        rw [← honly.changed, ← honly.keyField] at this
        exact this }⟩

/-- A field that always travels is recorded and not remembered. -/
theorem InRound.recordChange {id : K}
    (h : InRound always scopeOf c scope state (events ++ [.mention id]) s) (hid : scopeOf id = scope)
    {field : UInt32} (hkey : field ≠ c.keyField) (halw : always id field = true) (value : FlatVariant) :
    InRound always scopeOf (c.recordChange id field value) scope state (events ++ [.write id field value.payload]) s where
  pScope := h.pScope
  scope_eq := h.scope_eq
  wf := h.wf
  current := h.current
  others := h.others.congr fun _ _ => rfl
  entries := h.entries
  own := h.own
  absent k hks hk := by rw [mentioned_write_iff]; exact h.absent k hks hk
  present k e hk := by
    obtain ⟨hseen, hthere, hrem⟩ := h.present k e hk
    rw [mentioned_write_iff]
    refine ⟨hseen, hthere, hrem.wf, ?_, hrem.sent⟩
    intro f
    have hfield := hrem.field f
    rw [fieldsAfter_mention] at hfield
    rw [fieldsAfter_write, hfield]
    by_cases hkf : k = id ∧ f = field
    · obtain ⟨rfl, rfl⟩ := hkf
      simp [halw]
    · rw [if_neg hkf]
  last := h.last
  changes := h.changes.record hid hkey value

/-- A write that passes the change filter or does not, as long as only an equal payload is held
back. -/
theorem InRound.filteredWrite (h : InRound always scopeOf c scope state events s) {id : K} (hid : scopeOf id = scope)
    {field : UInt32} (hkey : field ≠ c.keyField) (hnot : always id field = false) (value : FlatVariant)
    (same : FlatVariant → Bool) (hsame : ∀ old, same old = true → old.payload = value.payload) :
    ∃ c' s', (c.mention id).map (storeUnless same id field value) = some c' ∧ c'.keyField = c.keyField ∧
      InRound always scopeOf c' scope state (events ++ [.write id field value.payload]) s' := by
  obtain ⟨c₁, entry, s₁, hmen, hkf, hin, hfind, hrem⟩ := h.mention hid
  have hstored := hin.store hid hfind (hkf.symm ▸ hkey) hnot value
  have hkf' : (c₁.store id field value).keyField = c.keyField := by
    rw [← hkf]
    show (c₁.writeScope _).keyField = _
    unfold writeScope
    split <;> rfl
  rw [hmen, Option.map_some]
  obtain ⟨s₂, hstored⟩ := hstored
  cases hold : entry.fields.findValue field with
  | none => exact ⟨_, s₂, by simp [storeUnless, hold], hkf', hstored⟩
  | some old =>
    by_cases hs : same old = true
    · -- held back: the reader has this payload already, or the changes hold it
      have hhas : fieldsAfter state events id field = some value.payload := by
        have hfield := hrem.field field
        rw [hold, hnot] at hfield
        simpa [hsame old hs] using hfield.symm
      refine ⟨c₁, s₁, by simp [storeUnless, hold, hs], hkf, hin.congr (fun k => mentioned_write_iff events id k field value.payload) ?_⟩
      intro k
      funext f
      rw [fieldsAfter_write, fieldsAfter_mention]
      split
      · rename_i hkf; rw [hkf.1, hkf.2, hhas]
      · rfl
    · exact ⟨_, s₂, by simp [storeUnless, hold, hs], hkf', hstored⟩

/-! ## The operations of a caller -/

/-- The key an operation is about. -/
def Op.id : Op K → K
  | .keep id | .write id _ _ | .writeRaw id _ _ _ | .writeEntry id _ | .writeAlways id _ _ => id

/-- An operation that writes a field only the way the division of the fields says. -/
def Op.Respects (always : K → UInt32 → Bool) (keyField : UInt32) : Op K → Prop
  | .keep _ => True
  | .write id field _ | .writeRaw id field _ _ => field ≠ keyField → always id field = false
  | .writeEntry id entry => ∀ x ∈ entryFields entry, x.1 ≠ keyField → always id x.1 = false
  | .writeAlways id field _ => field ≠ keyField → always id field = true

theorem InRound.write (h : InRound always scopeOf c scope state events s) {id : K} (hid : scopeOf id = scope)
    {field : UInt32} (hnot : field ≠ c.keyField → always id field = false) (value : FlatVariant) :
    ∃ c' s', c.write id field value = some c' ∧ c'.keyField = c.keyField ∧
      InRound always scopeOf c' scope state (events ++ (Op.write id field value).events c.keyField) s' := by
  unfold VariantCache.write
  by_cases hkey : field = c.keyField
  · exact ⟨c, s, by simp [hkey], rfl, by simpa [Op.events, hkey] using h⟩
  · obtain ⟨c', s', heq, hkf, hin⟩ := h.filteredWrite hid hkey (hnot hkey) value
      (fun old => decide (old.payload = value.payload)) (by simp)
    exact ⟨c', s', by rw [if_neg hkey, heq], hkf, by simpa [Op.events, hkey] using hin⟩

theorem InRound.writeRaw (h : InRound always scopeOf c scope state events s) {id : K} (hid : scopeOf id = scope)
    {field : UInt32} (hnot : field ≠ c.keyField → always id field = false) (type : EType) (data : Bytes) :
    ∃ c' s', c.writeRaw id field type data = some c' ∧ c'.keyField = c.keyField ∧
      InRound always scopeOf c' scope state (events ++ (Op.writeRaw id field type data).events c.keyField) s' := by
  unfold VariantCache.writeRaw
  by_cases hkey : field = c.keyField
  · exact ⟨c, s, by simp [hkey], rfl, by simpa [Op.events, hkey] using h⟩
  · obtain ⟨c', s', heq, hkf, hin⟩ := h.filteredWrite hid hkey (hnot hkey) ⟨type, data⟩
      (fun old => decide (old.type = type ∧ old.payload.length = data.length ∧ old.payload = data))
      (fun old ho => (of_decide_eq_true ho).2.2)
    exact ⟨c', s', by rw [if_neg hkey, heq], hkf, by simpa [Op.events, hkey] using hin⟩

theorem InRound.writeAlways (h : InRound always scopeOf c scope state events s) {id : K} (hid : scopeOf id = scope)
    {field : UInt32} (halw : field ≠ c.keyField → always id field = true) (value : FlatVariant) :
    ∃ c' s', c.writeAlways id field value = some c' ∧ c'.keyField = c.keyField ∧
      InRound always scopeOf c' scope state (events ++ (Op.writeAlways id field value).events c.keyField) s' := by
  unfold VariantCache.writeAlways
  by_cases hkey : field = c.keyField
  · exact ⟨c, s, by simp [hkey], rfl, by simpa [Op.events, hkey] using h⟩
  · obtain ⟨c₁, entry, s₁, hmen, hkf, hin, -, -⟩ := h.mention hid
    refine ⟨c₁.recordChange id field value, s₁, by simp [hkey, hmen], hkf, ?_⟩
    simpa [Op.events, hkey] using hin.recordChange hid (hkf.symm ▸ hkey) (halw hkey) value

/-- The callback of `WriteEntry`, field by field; the key field is passed over. -/
theorem InRound.writeFields {id : K} (hid : scopeOf id = scope) :
    ∀ (fields : List (UInt32 × FlatVariant)) {c : VariantCache K} {events : List (Event K UInt32 Bytes)} {s : SScope K},
      InRound always scopeOf c scope state events s → (∀ x ∈ fields, x.1 ≠ c.keyField → always id x.1 = false) →
      ∃ c' s', c.writeFields id fields = some c' ∧ c'.keyField = c.keyField ∧
        InRound always scopeOf c' scope state (events ++ (fields.filter (·.1 ≠ c.keyField)).map fun (field, data) =>
          Event.write id field data.payload) s'
  | [], c, events, s, h, _ => ⟨c, s, rfl, rfl, by simpa using h⟩
  | (field, data) :: rest, c, events, s, h, hnot => by
    have hrest := fun x hx => hnot x (List.mem_cons_of_mem _ hx)
    unfold VariantCache.writeFields
    by_cases hkey : field = c.keyField
    · obtain ⟨c', s', heq, hkf, hin⟩ := InRound.writeFields hid rest h hrest
      exact ⟨c', s', by simpa [hkey] using heq, hkf, by simpa [hkey] using hin⟩
    · obtain ⟨c₁, s₁, heq₁, hkf₁, hin₁⟩ := h.write hid (hnot (field, data) List.mem_cons_self) data
      rw [← hkf₁] at hrest
      obtain ⟨c', s', heq, hkf, hin⟩ := InRound.writeFields hid rest hin₁ hrest
      refine ⟨c', s', by simp [hkey, heq₁, heq], hkf.trans hkf₁, ?_⟩
      rw [hkf₁] at hin
      simpa [Op.events, hkey] using hin

theorem InRound.writeEntry (h : InRound always scopeOf c scope state events s) {id : K} (hid : scopeOf id = scope)
    {entry : FlatVariant} (hnot : ∀ x ∈ entryFields entry, x.1 ≠ c.keyField → always id x.1 = false) :
    ∃ c' s', c.writeEntry id entry = some c' ∧ c'.keyField = c.keyField ∧
      InRound always scopeOf c' scope state (events ++ (Op.writeEntry id entry).events c.keyField) s' := by
  obtain ⟨c₁, bSent, s₁, heq₁, hkf₁, hin₁⟩ := h.keep hid
  rw [← hkf₁] at hnot
  obtain ⟨c', s', heq, hkf, hin⟩ := InRound.writeFields hid (entryFields entry) hin₁ hnot
  refine ⟨c', s', by simp [VariantCache.writeEntry, heq₁, heq], hkf.trans hkf₁, ?_⟩
  rw [hkf₁] at hin
  simpa [Op.events] using hin

/-- One call of a caller. -/
theorem InRound.step (h : InRound always scopeOf c scope state events s) (op : Op K) (hid : scopeOf op.id = scope)
    (hres : op.Respects always c.keyField) :
    ∃ c' s', c.step op = some c' ∧ c'.keyField = c.keyField ∧
      InRound always scopeOf c' scope state (events ++ op.events c.keyField) s' := by
  cases op with
  | keep id =>
    obtain ⟨c', bSent, s', heq, hkf, hin⟩ := h.keep (show scopeOf id = scope from hid)
    exact ⟨c', s', by simp [VariantCache.step, heq], hkf, hin⟩
  | write id field value => exact h.write hid hres value
  | writeRaw id field type data => exact h.writeRaw hid hres type data
  | writeEntry id entry => exact h.writeEntry hid hres
  | writeAlways id field value => exact h.writeAlways hid hres value

/-- All the calls of a round. -/
theorem InRound.steps :
    ∀ (ops : List (Op K)) {c : VariantCache K} {events : List (Event K UInt32 Bytes)} {s : SScope K},
      InRound always scopeOf c scope state events s → (∀ op ∈ ops, scopeOf op.id = scope ∧ op.Respects always c.keyField) →
      ∃ c' s', c.steps ops = some c' ∧ c'.keyField = c.keyField ∧
        InRound always scopeOf c' scope state (events ++ roundEvents c.keyField ops) s'
  | [], c, events, s, h, _ => ⟨c, s, rfl, rfl, by simpa [roundEvents] using h⟩
  | op :: ops, c, events, s, h, hops => by
    obtain ⟨hid, hres⟩ := hops op List.mem_cons_self
    have hrest := fun o ho => hops o (List.mem_cons_of_mem _ ho)
    obtain ⟨c₁, s₁, heq₁, hkf₁, hin₁⟩ := h.step op hid hres
    rw [← hkf₁] at hrest
    obtain ⟨c', s', heq, hkf, hin⟩ := InRound.steps ops hin₁ hrest
    refine ⟨c', s', by simp [VariantCache.steps, heq₁, heq], hkf.trans hkf₁, ?_⟩
    rw [hkf₁] at hin
    simpa [roundEvents] using hin

end Steps

end VariantCache

end MajorPrivacy.Cache

/-
`CDnsFilter` over any history: the rules in the tree against the map of entries. `SetEntry` takes a rule off the tree
and puts it into the map before it knows whether the variant and the path are good, and nobody looks at a path that the
tree refuses.
-/
import MajorPrivacy.Dns.Reloads

namespace MajorPrivacy.Dns

open LittleEndian MajorPrivacy.Path MajorPrivacy.Guid

namespace CDnsFilter

/-! ## Agreement -/

def mapped (f : CDnsFilter) (p : RulePtr) : Prop := ∃ e ∈ f.m_EntryMap, e.2 = p

/-- Each enabled rule of the map is in the tree once, at its labels, and nothing else; but for some that were taken off. -/
structure Agrees (f : CDnsFilter) (gone : List RulePtr) : Prop where
  reached : ∀ names p, (∃ entry ∈ f.treeEntries names, entry.pEntry = p) ↔
    names = storedAt 0x2E (f.m_MemPool p).m_Path ∧ f.mapped p ∧ (f.m_MemPool p).m_bEnabled = true ∧ p ∉ gone
  once : ∀ names, ((f.treeEntries names).map (·.pEntry)).Nodup

/-- The map, the tree and the rules of the map are the same. -/
structure Same (f f' : CDnsFilter) : Prop where
  entryMap : f'.m_EntryMap = f.m_EntryMap
  tree : ∀ names entry, entry ∈ f'.treeEntries names ↔ entry ∈ f.treeEntries names
  rules : ∀ p, f.mapped p → f'.m_MemPool p = f.m_MemPool p

/-- A call of `SetEntry` that fails changes nothing. -/
def FailsClean (env : DnsEnv) (f : CDnsFilter) (record : RuleRecord) : Prop :=
  ∀ error, (f.setEntry env record).2 = .error error → f.Same (f.setEntry env record).1

/-! ## Histories -/

/-- The id that `SetEntry` goes by, the rule that it finds, and the filter with the ids it made. -/
def target (env : DnsEnv) (f : CDnsFilter) (record : RuleRecord) : CFlexGuid × Option RulePtr × CDnsFilter :=
  let Guid := CFlexGuid.new.fromWString record.guidText
  if Guid.value = .null then (Guid.fromWString (env.mkGuid f.made), none, { f with made := f.made + 1 })
  else (Guid, mapFindValue f.m_EntryMap Guid, f)

/-- The temporary rules without an id, which a load of the block lists takes off the tree. -/
def clears (f : CDnsFilter) : List RulePtr :=
  (f.m_EntryMap.map (·.2)).filter fun p => (f.m_MemPool p).m_Guid.value = .null ∧ (f.m_MemPool p).m_bTemporary = true

/-- The temporary rules that are off the tree after a call. -/
def goneAfter (env : DnsEnv) (f : CDnsFilter) (gone : List RulePtr) : FilterCall → List RulePtr
  | .handlePacket _ => gone
  | .loadEntries _ => []
  | .setEntry record =>
    match (target env f record).2.1 with
    | none => gone
    | some p => if ((f.m_MemPool p).fromVariant record).isSome then gone.filter (· ≠ p) else gone
  | .delEntry _ => gone
  | .updateBlockLists _ _ => gone ++ f.clears
  | .loadBlockLists _ => gone ++ f.clears

/-- The tree takes the rule if it is enabled. -/
def Takes (rule : CDnsRule) : Prop := rule.m_bEnabled = true → Storable 0x2E true rule.m_Path

/-- The tree takes a new rule if `AddEntry_NoLock` puts it into the map. -/
def TakesNew (env : DnsEnv) (f : CDnsFilter) (rule : CDnsRule) : Prop :=
  (rule.m_Guid.value = .null → rule.m_bTemporary = true) →
    mapInsert f.m_EntryMap (if rule.m_Guid.value = .null then rule.m_Guid.fromWString (env.mkGuid f.made) else rule.m_Guid)
      f.allocated ≠ none → Takes rule

def TakesEntries (env : DnsEnv) : List RuleRecord → CDnsFilter → Prop
  | [], _ => True
  | record :: entries, f =>
    match CDnsRule.new.fromVariant record with
    | none => TakesEntries env entries f
    | some rule => TakesNew env f rule ∧ TakesEntries env entries ((f.newRule rule).addEntry_NoLock env f.allocated)

def TakesHosts (env : DnsEnv) : List ListHost → CDnsFilter → Prop
  | [], _ => True
  | host :: hosts, f =>
    (host.spillsOver = true → TakesNew env f (.ofList (reversePath (cName host.HostName)) .eBlock true)) ∧
      TakesHosts env hosts (f.addHost env host)

/-- The rules without an id that are in the tree are temporary, and the tree takes those of the lists. -/
def TakesLists (env : DnsEnv) (files : HostsFiles) (f : CDnsFilter) (gone : List RulePtr) : Prop :=
  (∀ p, f.mapped p → (f.m_MemPool p).m_Guid.value = .null → (f.m_MemPool p).m_bEnabled = true →
    (f.m_MemPool p).m_bTemporary = true ∨ p ∈ gone) ∧
  TakesHosts env (listHosts env files f.m_BlockLists) { f.clearSpilled with m_BlockList := [] }

/-- The variant is good for the rule, and the tree takes what it makes of it; a variant that is not good is for a rule
that is not in the tree. -/
def TakesVariant (env : DnsEnv) (f : CDnsFilter) (gone : List RulePtr) (record : RuleRecord) : Prop :=
  match target env f record with
  | (Guid, none, g) =>
    mapInsert g.m_EntryMap Guid g.allocated = none ∨
      ∃ rule, ({ CDnsRule.new with m_Guid := CFlexGuid.new.assign Guid } : CDnsRule).fromVariant record = some rule ∧ Takes rule
  | (_, some p, _) =>
    match (f.m_MemPool p).fromVariant record with
    | none => (f.m_MemPool p).m_bEnabled = true → p ∈ gone
    | some rule => Takes rule

def Meets (env : DnsEnv) (f : CDnsFilter) (gone : List RulePtr) : FilterCall → Prop
  | .handlePacket _ => True
  | .loadEntries entries => TakesEntries env entries { f.treeClear with m_EntryMap := [] }
  | .setEntry record => TakesVariant env f gone record
  | .delEntry _ => True
  | .updateBlockLists files urls =>
    TakesLists env files { f with m_BlockLists := configuredLists env f.m_BlockLists urls } gone
  | .loadBlockLists files => TakesLists env files f gone

/-- A history whose calls all meet the condition, from a filter and the rules that are off its tree to others. -/
inductive Reaches (env : DnsEnv) : CDnsFilter → List RulePtr → CDnsFilter → List RulePtr → Prop
  | refl (f : CDnsFilter) (gone : List RulePtr) : Reaches env f gone f gone
  | step {f f' : CDnsFilter} {gone gone' : List RulePtr} (call : FilterCall) (hmeets : Meets env f gone call)
      (hrest : Reaches env (f.step env call) (goneAfter env f gone call) f' gone') : Reaches env f gone f' gone'

/-! ## The invariant -/

/-- The tree holds the enabled rules of the map that were not taken off, and the map has each rule once. -/
structure Kept (f : CDnsFilter) (gone stored : List RulePtr) : Prop where
  holds : f.Holds stored
  agree : ∀ p, p ∈ stored ↔ f.mapped p ∧ (f.m_MemPool p).m_bEnabled = true ∧ p ∉ gone
  distinct : (f.m_EntryMap.map (·.2)).Nodup
  old : ∀ p ∈ gone, p < f.allocated

section Kept

variable {f : CDnsFilter} {gone stored : List RulePtr}

theorem mapped_iff (p : RulePtr) : f.mapped p ↔ p ∈ f.m_EntryMap.map (·.2) := List.mem_map.symm

theorem Kept.fresh (h : Kept f gone stored) : f.allocated ∉ gone ∧ f.allocated ∉ stored ∧ ¬ f.mapped f.allocated := by
  refine ⟨fun hmem => Nat.lt_irrefl _ (h.old _ hmem), fun hmem => Nat.lt_irrefl _ (h.holds.lt_allocated hmem), ?_⟩
  rintro ⟨e, he, heq⟩
  exact Nat.lt_irrefl _ (heq ▸ h.holds.inPool e he)

theorem Kept.agrees (h : Kept f gone stored) : f.Agrees gone := by
  refine ⟨fun names p => ?_, fun names => h.holds.tree.nodup names⟩
  rw [← h.agree]
  constructor
  · rintro ⟨entry, hentry, rfl⟩
    obtain ⟨q, hq, rfl, rfl⟩ := (h.holds.mem_treeEntries names entry).1 hentry
    exact ⟨rfl, hq⟩
  · rintro ⟨rfl, hp⟩
    exact ⟨_, (h.holds.mem_treeEntries _ _).2 ⟨p, hp, rfl, rfl⟩, rfl⟩

theorem kept_new : Kept new [] [] where
  holds := holds_new
  agree := fun p => by simp [mapped, new]
  distinct := List.nodup_nil
  old := fun p hp => by cases hp

theorem Kept.newRule (h : Kept f gone stored) (rule : CDnsRule) : Kept (f.newRule rule) gone stored where
  holds := h.holds.newRule rule
  agree := fun p => by
    have hp : f.mapped p → (f.newRule rule).m_MemPool p = f.m_MemPool p := by
      intro hmapped
      refine if_neg ?_
      rintro rfl
      exact h.fresh.2.2 hmapped
    rw [h.agree]
    constructor
    · rintro ⟨hm, hrest⟩
      exact ⟨hm, by rw [hp hm]; exact hrest⟩
    · rintro ⟨hm, hrest⟩
      exact ⟨hm, by rw [← hp hm]; exact hrest⟩
  distinct := h.distinct
  old := fun p hp => Nat.lt_succ_of_lt (h.old p hp)

/-- The tree takes a rule whose path is good. -/
theorem Holds.treeAdd_stored (h : f.Holds stored) {p : RulePtr} (hp : p ∉ stored) (hmap : f.mapped p)
    (hs : Storable 0x2E true (f.m_MemPool p).m_Path) : (f.treeAdd p).1.Holds (p :: stored) ∧ (f.treeAdd p).2 = 0 := by
  let _ := f.pathEntry
  have hcode : (f.treeAdd p).2 = 0 := (CPathTree.addEntry_stores h.tree.wellFormed p).2.1.2 hs
  have hinv := h.tree.addEntry hp
  refine ⟨⟨?_, ?_, h.inPool⟩, hcode⟩
  · have hstored : (TreeHistory.step ⟨f.pathEntry.getPath, f.m_FilterTree, stored⟩ (.addEntry p)).stored = p :: stored := if_pos hcode
    have hstep : TreeHistory.step ⟨f.pathEntry.getPath, f.m_FilterTree, stored⟩ (.addEntry p) =
        ⟨f.pathEntry.getPath, (f.treeAdd p).1.m_FilterTree, p :: stored⟩ := by
      rw [← hstored]
      rfl
    rw [hstep] at hinv
    exact hinv
  · intro q hq
    obtain rfl | hq := List.mem_cons.1 hq
    · exact hmap
    · exact h.mapped q hq

/-- A new rule that is added. -/
theorem Kept.addNew (env : DnsEnv) (h : Kept f gone stored) {rule : CDnsRule} (htakes : TakesNew env f rule) :
    ∃ stored', Kept ((f.newRule rule).addEntry_NoLock env f.allocated) gone stored' := by
  have hn := h.newRule rule
  obtain ⟨hgone, hstored, hmapped⟩ := h.fresh
  have hrule : (f.newRule rule).m_MemPool f.allocated = rule := if_pos rfl
  unfold addEntry_NoLock
  dsimp only
  rw [hrule]
  by_cases hrefused : rule.m_Guid.value = .null ∧ rule.m_bTemporary = false
  · rw [if_pos hrefused]
    exact ⟨stored, hn⟩
  rw [if_neg hrefused]
  have hid : rule.m_Guid.value = .null → rule.m_bTemporary = true := by
    intro hnull
    by_contra htemp
    exact hrefused ⟨hnull, Bool.eq_false_iff.2 htemp⟩
  have htakes := htakes hid
  generalize hpair : (if rule.m_Guid.value = .null then
      (rule.m_Guid.fromWString (env.mkGuid (f.newRule rule).made),
        ({ f.newRule rule with made := (f.newRule rule).made + 1 } : CDnsFilter))
    else (rule.m_Guid, f.newRule rule)) = pair
  obtain ⟨Guid, g⟩ := pair
  have hg : Kept g gone stored ∧ g.m_MemPool = (f.newRule rule).m_MemPool ∧ g.m_EntryMap = f.m_EntryMap ∧
      g.allocated = f.allocated + 1 ∧
      Guid = if rule.m_Guid.value = .null then rule.m_Guid.fromWString (env.mkGuid f.made) else rule.m_Guid := by
    split at hpair
    · rename_i hnull
      obtain ⟨rfl, rfl⟩ := Prod.mk.inj hpair
      rw [if_pos hnull]
      exact ⟨⟨⟨hn.holds.tree, hn.holds.mapped, hn.holds.inPool⟩, hn.agree, hn.distinct, hn.old⟩, rfl, rfl, rfl, rfl⟩
    · rename_i hnull
      obtain ⟨rfl, rfl⟩ := Prod.mk.inj hpair
      rw [if_neg hnull]
      exact ⟨hn, rfl, rfl, rfl, rfl⟩
  obtain ⟨hg, hpool, hmap, halloc, hguid⟩ := hg
  rw [← hguid, ← hmap] at htakes
  dsimp only
  cases hinsert : mapInsert g.m_EntryMap Guid f.allocated with
  | none => exact ⟨stored, hg⟩
  | some m =>
    dsimp only
    have htakes := htakes (by rw [hinsert]; exact Option.some_ne_none m)
    obtain ⟨hholds, hin⟩ := hg.holds.mapInsert (by rw [halloc]; exact Nat.lt_succ_self _) hinsert
    have hm : m = g.m_EntryMap ++ [(Guid, f.allocated)] := by
      unfold Dns.mapInsert at hinsert
      split at hinsert
      · cases hinsert
      · exact (Option.some.inj hinsert).symm
    have hadded : ∀ p, ({ g with m_EntryMap := m } : CDnsFilter).mapped p ↔ g.mapped p ∨ p = f.allocated := by
      intro p
      rw [mapped_iff, mapped_iff, hm, List.map_append, List.mem_append, List.map_singleton, List.mem_singleton]
    have hnot : f.allocated ∉ g.m_EntryMap.map (·.2) := by
      rw [hmap, ← mapped_iff]
      exact hmapped
    have hdistinct : (m.map (·.2)).Nodup := by
      rw [hm, List.map_append]
      refine List.nodup_append.2 ⟨hg.distinct, List.nodup_singleton _, ?_⟩
      rintro a ha b hb rfl
      have hnew : a = f.allocated := List.mem_singleton.1 hb
      exact hnot (hnew ▸ ha)
    have hsame : ∀ p, g.mapped p → p ≠ f.allocated := by
      rintro p hp rfl
      exact hnot ((mapped_iff _).1 hp)
    by_cases henabled : rule.m_bEnabled = true
    · rw [if_pos henabled]
      have hpath : (({ g with m_EntryMap := m } : CDnsFilter).m_MemPool f.allocated) = rule := by
        change g.m_MemPool f.allocated = rule
        rw [hpool, hrule]
      obtain ⟨hadd, -⟩ := hholds.treeAdd_stored hstored hin (by rw [hpath]; exact htakes henabled)
      refine ⟨_, hadd, fun p => ?_, hdistinct, hg.old⟩
      change p ∈ f.allocated :: stored ↔ ({ g with m_EntryMap := m } : CDnsFilter).mapped p ∧ (g.m_MemPool p).m_bEnabled = true ∧ p ∉ gone
      rw [List.mem_cons, hadded, hg.agree]
      constructor
      · rintro (rfl | ⟨hp, hrest⟩)
        · exact ⟨.inr rfl, by rw [hpool, hrule]; exact henabled, hgone⟩
        · exact ⟨.inl hp, hrest⟩
      · rintro ⟨hp | rfl, hrest⟩
        · exact .inr ⟨hp, hrest⟩
        · exact .inl rfl
    · rw [if_neg henabled]
      refine ⟨stored, hholds, fun p => ?_, hdistinct, hg.old⟩
      rw [hadded, hg.agree]
      constructor
      · rintro ⟨hp, hrest⟩
        exact ⟨.inl hp, hrest⟩
      · rintro ⟨hp | rfl, hrest⟩
        · exact ⟨hp, hrest⟩
        · have hdisabled : (g.m_MemPool f.allocated).m_bEnabled = true := hrest.1
          rw [hpool, hrule] at hdisabled
          exact absurd hdisabled henabled

/-- A change that leaves the map and what is asked of its rules. -/
theorem Kept.congr (h : Kept f gone stored) {g : CDnsFilter} (hholds : g.Holds stored) (hmap : g.m_EntryMap = f.m_EntryMap)
    (henabled : ∀ p, (g.m_MemPool p).m_bEnabled = (f.m_MemPool p).m_bEnabled) (halloc : g.allocated = f.allocated) :
    Kept g gone stored where
  holds := hholds
  agree := fun p => by
    have hmapped : g.mapped p ↔ f.mapped p := by
      unfold mapped
      rw [hmap]
    rw [hmapped, henabled]
    exact h.agree p
  distinct := hmap ▸ h.distinct
  old := fun p hp => halloc ▸ h.old p hp

theorem Kept.handlePacket (h : Kept f gone stored) (packet : Packet) : Kept (f.handlePacket packet).1 gone stored := by
  have hhit : ∀ p, Kept (f.incHitCount p) gone stored := by
    refine fun p => h.congr (h.holds.incHitCount p) rfl (fun q => ?_) rfl
    change (if q = p then { f.m_MemPool q with m_HitCount := (f.m_MemPool q).m_HitCount + 1 } else f.m_MemPool q).m_bEnabled = _
    split
    · rfl
    · rfl
  unfold CDnsFilter.handlePacket
  split
  · generalize f.filterLoop .eNone packet.query = found
    obtain ⟨Action, hit⟩ := found
    cases hit with
    | none =>
      dsimp only
      split
      all_goals exact h
    | some p =>
      dsimp only
      split
      all_goals exact hhit p
  · exact h

theorem Kept.treeClear (h : Kept f gone stored) : Kept ({ f.treeClear with m_EntryMap := [] } : CDnsFilter) [] [] where
  holds := h.holds.treeClear
  agree := fun p => by simp [mapped]
  distinct := List.nodup_nil
  old := fun p hp => by cases hp

theorem Kept.loadEntries (env : DnsEnv) (h : Kept f gone stored) {entries : List RuleRecord}
    (htakes : TakesEntries env entries { f.treeClear with m_EntryMap := [] }) :
    ∃ stored', Kept (f.loadEntries env entries) [] stored' := by
  unfold CDnsFilter.loadEntries
  have hclear : ∃ stored', Kept ({ f.treeClear with m_EntryMap := [] } : CDnsFilter) [] stored' := ⟨[], h.treeClear⟩
  dsimp only
  generalize ({ f.treeClear with m_EntryMap := [] } : CDnsFilter) = g at hclear htakes
  induction entries generalizing g with
  | nil => exact hclear
  | cons record entries ih =>
    obtain ⟨stored', hg⟩ := hclear
    unfold TakesEntries at htakes
    rw [List.foldl_cons]
    cases hrule : CDnsRule.new.fromVariant record with
    | none =>
      rw [hrule] at htakes
      exact ih g ⟨stored', hg⟩ htakes
    | some rule =>
      rw [hrule] at htakes
      exact ih _ (hg.addNew env htakes.1) htakes.2

/-! ### The user's rules -/

/-- All but one rule, which is in the map and not in the tree, are as they should be. -/
structure KeptBut (f : CDnsFilter) (gone stored : List RulePtr) (p : RulePtr) : Prop where
  holds : f.Holds stored
  off : p ∉ stored
  mapped : f.mapped p
  agree : ∀ q, q ≠ p → (q ∈ stored ↔ f.mapped q ∧ (f.m_MemPool q).m_bEnabled = true ∧ q ∉ gone)
  distinct : (f.m_EntryMap.map (·.2)).Nodup
  old : ∀ q ∈ gone, q < f.allocated

/-- With a good variant the rule is as it should be, too. -/
theorem KeptBut.updateEntry {p : RulePtr} (h : KeptBut f gone stored p) (Guid : CFlexGuid) {record : RuleRecord} {rule : CDnsRule}
    (hrule : (f.m_MemPool p).fromVariant record = some rule) (htakes : Takes rule) :
    (∃ stored', Kept (f.updateEntry Guid p record).1 (gone.filter (· ≠ p)) stored') ∧
      (f.updateEntry Guid p record).2 = .ok Guid := by
  have hset := h.holds.setRule h.off rule
  have hsame : ∀ q, q ≠ p → (f.setRule p rule).m_MemPool q = f.m_MemPool q := fun q hq => if_neg hq
  have hself : (f.setRule p rule).m_MemPool p = rule := if_pos rfl
  have hold : ∀ q ∈ gone.filter (· ≠ p), q < f.allocated := fun q hq => h.old q (List.mem_filter.1 hq).1
  have hgone : ∀ q, q ∈ gone.filter (· ≠ p) ↔ q ∈ gone ∧ q ≠ p := fun q => by
    rw [List.mem_filter]
    simp only [ne_eq, decide_not, Bool.not_eq_eq_eq_not, Bool.not_true, decide_eq_false_iff_not]
  unfold CDnsFilter.updateEntry
  rw [hrule]
  dsimp only
  by_cases henabled : rule.m_bEnabled = true
  · rw [if_pos henabled]
    obtain ⟨hadd, hcode⟩ := hset.treeAdd_stored h.off h.mapped (by rw [hself]; exact htakes henabled)
    rw [hcode]
    refine ⟨⟨p :: stored, hadd, fun q => ?_, h.distinct, hold⟩, rfl⟩
    change q ∈ p :: stored ↔ f.mapped q ∧ ((f.setRule p rule).m_MemPool q).m_bEnabled = true ∧ q ∉ gone.filter (· ≠ p)
    rw [List.mem_cons, hgone]
    by_cases hq : q = p
    · subst hq
      rw [hself]
      exact ⟨fun _ => ⟨h.mapped, henabled, fun hq => hq.2 rfl⟩, fun _ => .inl rfl⟩
    · rw [or_iff_right hq, hsame q hq, h.agree q hq, and_iff_left hq]
  · rw [if_neg henabled]
    refine ⟨⟨stored, hset, fun q => ?_, h.distinct, hold⟩, rfl⟩
    change q ∈ stored ↔ f.mapped q ∧ ((f.setRule p rule).m_MemPool q).m_bEnabled = true ∧ q ∉ gone.filter (· ≠ p)
    rw [hgone]
    by_cases hq : q = p
    · subst hq
      rw [hself]
      exact ⟨fun hin => absurd hin h.off, fun hin => absurd hin.2.1 henabled⟩
    · rw [hsame q hq, h.agree q hq, and_iff_left hq]

theorem Kept.treeRemove (h : Kept f gone stored) {p : RulePtr} (hmapped : f.mapped p) :
    KeptBut (f.treeRemove p) gone (stored.filter (· ≠ p)) p where
  holds := h.holds.treeRemove p
  off := by simp
  mapped := hmapped
  agree := fun q hq => by
    have hmem : q ∈ stored.filter (· ≠ p) ↔ q ∈ stored := by
      rw [List.mem_filter]
      exact and_iff_left (decide_eq_true hq)
    rw [hmem]
    exact h.agree q
  distinct := h.distinct
  old := h.old

/-- A new rule that came into the map. -/
theorem Kept.mapInsert (h : Kept f gone stored) {Guid : CFlexGuid} {m : List (CFlexGuid × RulePtr)} (rule : CDnsRule)
    (hinsert : mapInsert f.m_EntryMap Guid f.allocated = some m) :
    KeptBut { f.newRule rule with m_EntryMap := m } gone stored f.allocated := by
  obtain ⟨-, hstored, hmapped⟩ := h.fresh
  have hn := h.newRule rule
  obtain ⟨hholds, hin⟩ := hn.holds.mapInsert (Nat.lt_succ_self _) hinsert
  have hm : m = f.m_EntryMap ++ [(Guid, f.allocated)] := by
    unfold Dns.mapInsert at hinsert
    split at hinsert
    · cases hinsert
    · exact (Option.some.inj hinsert).symm
  refine ⟨hholds, hstored, hin, fun q hq => ?_, ?_, hn.old⟩
  · have hadded : ({ f.newRule rule with m_EntryMap := m } : CDnsFilter).mapped q ↔ f.mapped q := by
      rw [mapped_iff, mapped_iff, hm, List.map_append, List.mem_append, List.map_singleton, List.mem_singleton, or_iff_left hq]
    rw [hadded]
    exact hn.agree q
  · rw [hm, List.map_append]
    refine List.nodup_append.2 ⟨h.distinct, List.nodup_singleton _, ?_⟩
    rintro a ha b hb rfl
    have hnew : a = f.allocated := List.mem_singleton.1 hb
    exact hmapped (hnew ▸ (mapped_iff a).2 ha)

theorem setEntry_new (env : DnsEnv) {f g : CDnsFilter} {record : RuleRecord} {Guid : CFlexGuid}
    (h : target env f record = (Guid, none, g)) : f.setEntry env record =
      (Dns.mapInsert g.m_EntryMap Guid g.allocated).elim
        (g.newRule { CDnsRule.new with m_Guid := CFlexGuid.new.assign Guid }, .error .objectNameCollision) fun m =>
          CDnsFilter.updateEntry { g.newRule { CDnsRule.new with m_Guid := CFlexGuid.new.assign Guid } with m_EntryMap := m }
            Guid g.allocated record := by
  unfold target at h
  dsimp only at h
  unfold CDnsFilter.setEntry
  dsimp only
  rw [h]
  have hmap : ∀ rule, (g.newRule rule).m_EntryMap = g.m_EntryMap := fun _ => rfl
  cases hinsert : Dns.mapInsert g.m_EntryMap Guid g.allocated with
  | none => simp only [hmap, hinsert, Option.elim_none]
  | some m => simp only [hmap, hinsert, Option.elim_some]

theorem setEntry_found (env : DnsEnv) {f g : CDnsFilter} {record : RuleRecord} {Guid : CFlexGuid} {p : RulePtr}
    (h : target env f record = (Guid, some p, g)) : f.setEntry env record = (g.treeRemove p).updateEntry Guid p record := by
  unfold target at h
  dsimp only at h
  unfold CDnsFilter.setEntry
  dsimp only
  rw [h]

/-- The ids that are made change nothing else; a rule that is found is in the map. -/
theorem Kept.target (env : DnsEnv) (h : Kept f gone stored) (record : RuleRecord) :
    Kept (target env f record).2.2 gone stored ∧ f.Same (target env f record).2.2 ∧
      (target env f record).2.2.m_MemPool = f.m_MemPool ∧ ∀ p, (target env f record).2.1 = some p → (target env f record).2.2.mapped p := by
  unfold CDnsFilter.target
  dsimp only
  split
  · refine ⟨h.congr ⟨h.holds.tree, h.holds.mapped, h.holds.inPool⟩ rfl (fun _ => rfl) rfl,
      ⟨rfl, fun _ _ => Iff.rfl, fun _ _ => rfl⟩, rfl, fun p hp => by cases hp⟩
  · refine ⟨h, ⟨rfl, fun _ _ => Iff.rfl, fun _ _ => rfl⟩, rfl, fun p hp => ?_⟩
    obtain ⟨e, he, -, heq⟩ := mem_of_mapFindValue hp
    exact ⟨e, he, heq⟩

/-- A new rule comes under a new id, or the id is in use. -/
theorem Kept.setEntry_new (env : DnsEnv) (h : Kept f gone stored) {record : RuleRecord} {Guid : CFlexGuid} {g : CDnsFilter}
    (heq : CDnsFilter.target env f record = (Guid, none, g)) (htakes : TakesVariant env f gone record) :
    (∃ stored', Kept (f.setEntry env record).1 gone stored') ∧ FailsClean env f record := by
  obtain ⟨hg, hsame, hpool, -⟩ := h.target env record
  unfold TakesVariant at htakes
  rw [heq] at hg hsame hpool htakes
  dsimp only at hg hsame hpool htakes
  unfold FailsClean
  rw [CDnsFilter.setEntry_new env heq]
  have hfresh := hg.fresh
  cases hinsert : Dns.mapInsert g.m_EntryMap Guid g.allocated with
  | none =>
    refine ⟨⟨stored, hg.newRule _⟩, fun error herror => ⟨hsame.entryMap, hsame.tree, fun p hp => ?_⟩⟩
    have hne : p ≠ g.allocated := by
      rintro rfl
      refine hfresh.2.2 ?_
      unfold mapped
      rw [hsame.entryMap]
      exact hp
    exact (if_neg hne).trans (hsame.rules p hp)
  | some m =>
    obtain ⟨rule, hrule, hstorable⟩ := htakes.resolve_left (by rw [hinsert]; exact Option.some_ne_none m)
    have hbut := hg.mapInsert { CDnsRule.new with m_Guid := CFlexGuid.new.assign Guid } hinsert
    have hnew : ({ g.newRule { CDnsRule.new with m_Guid := CFlexGuid.new.assign Guid } with m_EntryMap := m } : CDnsFilter).m_MemPool
        g.allocated = { CDnsRule.new with m_Guid := CFlexGuid.new.assign Guid } := if_pos rfl
    obtain ⟨⟨stored', hkept⟩, hok⟩ := hbut.updateEntry Guid (by rw [hnew]; exact hrule) hstorable
    have hall : gone.filter (· ≠ g.allocated) = gone := by
      refine List.filter_eq_self.2 fun q hq => decide_eq_true ?_
      rintro rfl
      exact hfresh.1 hq
    rw [hall] at hkept
    refine ⟨⟨stored', hkept⟩, fun error herror => ?_⟩
    rw [Option.elim_some, hok] at herror
    cases herror

/-- A rule that is in the map becomes what the variant says, or the variant is bad and the rule is not in the tree. -/
theorem Kept.setEntry_found (env : DnsEnv) (h : Kept f gone stored) {record : RuleRecord} {Guid : CFlexGuid} {p : RulePtr}
    {g : CDnsFilter} (heq : CDnsFilter.target env f record = (Guid, some p, g)) (htakes : TakesVariant env f gone record) :
    (∃ stored', Kept (f.setEntry env record).1 (if ((f.m_MemPool p).fromVariant record).isSome then gone.filter (· ≠ p) else gone)
      stored') ∧ FailsClean env f record := by
  obtain ⟨hg, hsame, hpool, hmapped⟩ := h.target env record
  unfold TakesVariant at htakes
  rw [heq] at hg hsame hpool hmapped htakes
  dsimp only at hg hsame hpool hmapped htakes
  have hbut := hg.treeRemove (hmapped p rfl)
  have hrule : (g.treeRemove p).m_MemPool p = f.m_MemPool p := congrFun hpool p
  unfold FailsClean
  rw [CDnsFilter.setEntry_found env heq]
  cases hvariant : (f.m_MemPool p).fromVariant record with
  | none =>
    rw [hvariant] at htakes
    have hoff : p ∉ stored := by
      intro hp
      obtain ⟨-, henabled, hgone⟩ := (h.agree p).1 hp
      exact hgone (htakes henabled)
    have hall : stored.filter (· ≠ p) = stored := by
      refine List.filter_eq_self.2 fun q hq => decide_eq_true ?_
      rintro rfl
      exact hoff hq
    have hholds := hbut.holds
    rw [hall] at hholds
    have hfails : (g.treeRemove p).updateEntry Guid p record = (g.treeRemove p, .error .unknownRevision) := by
      unfold CDnsFilter.updateEntry
      rw [hrule, hvariant]
    rw [hfails]
    refine ⟨⟨stored, hg.congr hholds rfl (fun _ => rfl) rfl⟩, fun error _ => ⟨hsame.entryMap, fun names entry => ?_, hsame.rules⟩⟩
    refine (hholds.mem_treeEntries names entry).trans (Iff.trans ?_ (h.holds.mem_treeEntries names entry).symm)
    have hpaths : (g.treeRemove p).m_MemPool = f.m_MemPool := hpool
    rw [hpaths]
    have hentry : (g.treeRemove p).pathEntry = f.pathEntry := congrArg (fun pool => (⟨fun q => (pool q).m_Path⟩ : PathEntry RulePtr)) hpool
    rw [hentry]
  | some rule =>
    rw [hvariant] at htakes
    obtain ⟨hkept, hok⟩ := hbut.updateEntry Guid (by rw [hrule]; exact hvariant) htakes
    refine ⟨hkept, fun error herror => ?_⟩
    rw [hok] at herror
    cases herror

theorem Kept.setEntry (env : DnsEnv) (h : Kept f gone stored) {record : RuleRecord} (htakes : TakesVariant env f gone record) :
    (∃ stored', Kept (f.setEntry env record).1 (goneAfter env f gone (.setEntry record)) stored') ∧ FailsClean env f record := by
  unfold goneAfter
  cases htarget : CDnsFilter.target env f record with
  | mk Guid rest =>
    obtain ⟨found, g⟩ := rest
    cases found with
    | none =>
      dsimp only
      rw [htarget]
      exact h.setEntry_new env htarget htakes
    | some p =>
      dsimp only
      rw [htarget]
      exact h.setEntry_found env htarget htakes

theorem mapRemove_found {m : List (CFlexGuid × RulePtr)} {Guid : CFlexGuid} {p : RulePtr} (h : mapFindValue m Guid = some p) :
    ∃ before after key, m = before ++ (key, p) :: after ∧ mapRemove m Guid = before ++ after := by
  obtain ⟨⟨key, q⟩, hfind, rfl⟩ := Option.map_eq_some_iff.1 h
  obtain ⟨hkey, before, after, rfl, hbefore⟩ := List.find?_eq_some_iff_append.1 hfind
  refine ⟨before, after, key, rfl, ?_⟩
  unfold mapRemove
  rw [List.eraseP_append_right _ (by simpa using hbefore), List.eraseP_cons_of_pos (by exact hkey)]

theorem Kept.delEntry (h : Kept f gone stored) (EntryId : Str) : ∃ stored', Kept (f.delEntry EntryId).1 gone stored' := by
  obtain ⟨stored', hholds⟩ := h.holds.delEntry EntryId
  unfold CDnsFilter.delEntry
  dsimp only
  cases hfind : mapFindValue f.m_EntryMap (CFlexGuid.new.fromWString EntryId) with
  | none => exact ⟨stored, h⟩
  | some p =>
    obtain ⟨before, after, key, hsplit, hremove⟩ := mapRemove_found hfind
    have hdistinct := h.distinct
    rw [hsplit, List.map_append, List.map_cons] at hdistinct
    obtain ⟨hp, hrest⟩ := List.nodup_cons.1 ((List.nodup_middle).1 hdistinct)
    have hmapped : ∀ q, (∃ e ∈ mapRemove f.m_EntryMap (CFlexGuid.new.fromWString EntryId), e.2 = q) ↔ f.mapped q ∧ q ≠ p := by
      intro q
      rw [mapped_iff, ← List.mem_map (f := Prod.snd), hremove, hsplit, List.map_append, List.map_append, List.map_cons]
      constructor
      · intro hq
        refine ⟨List.mem_append.2 ((List.mem_append.1 hq).imp_right (List.mem_cons_of_mem _)), ?_⟩
        rintro rfl
        exact hp hq
      · rintro ⟨hq, hne⟩
        exact List.mem_append.2 ((List.mem_append.1 hq).imp_right fun hq => (List.mem_cons.1 hq).resolve_left hne)
    refine ⟨stored.filter (· ≠ p), ⟨h.holds.tree.removeEntry p, fun q hq => ?_, fun e he => ?_⟩, fun q => ?_, ?_, h.old⟩
    · obtain ⟨hq, hne⟩ := List.mem_filter.1 hq
      exact (hmapped q).2 ⟨h.holds.mapped q hq, of_decide_eq_true hne⟩
    · exact h.holds.inPool e (List.mem_of_mem_eraseP he)
    · change q ∈ stored.filter (· ≠ p) ↔ (∃ e ∈ mapRemove f.m_EntryMap (CFlexGuid.new.fromWString EntryId), e.2 = q) ∧
        (f.m_MemPool q).m_bEnabled = true ∧ q ∉ gone
      rw [hmapped, List.mem_filter, h.agree, decide_eq_true_iff]
      tauto
    · change ((mapRemove f.m_EntryMap (CFlexGuid.new.fromWString EntryId)).map (·.2)).Nodup
      rw [hremove, List.map_append]
      exact hrest

/-! ### The block lists -/

theorem Kept.addHosts (env : DnsEnv) : ∀ (hosts : List ListHost) {f : CDnsFilter} {stored : List RulePtr}, Kept f gone stored →
    TakesHosts env hosts f → ∃ stored', Kept (hosts.foldl (CDnsFilter.addHost env) f) gone stored'
  | [], _, stored, h, _ => ⟨stored, h⟩
  | host :: hosts, f, stored, h, htakes => by
    unfold TakesHosts at htakes
    have hone : ∃ stored', Kept (f.addHost env host) gone stored' := by
      unfold CDnsFilter.addHost loadHost
      split
      · exact ⟨stored, h.congr ⟨h.holds.tree, h.holds.mapped, h.holds.inPool⟩ rfl (fun _ => rfl) rfl⟩
      · rename_i hplain
        refine h.addNew env (htakes.1 ?_)
        by_contra hspills
        apply hplain
        unfold ListHost.spillsOver at hspills
        simpa using hspills
    obtain ⟨stored', h'⟩ := hone
    exact Kept.addHosts env hosts h' htakes.2

theorem mem_clears (p : RulePtr) :
    p ∈ f.clears ↔ f.mapped p ∧ (f.m_MemPool p).m_Guid.value = .null ∧ (f.m_MemPool p).m_bTemporary = true := by
  unfold clears
  rw [List.mem_filter, mapped_iff, decide_eq_true_iff]

theorem Kept.loadBlockLists (env : DnsEnv) (h : Kept f gone stored) {files : HostsFiles} (htakes : TakesLists env files f gone) :
    ∃ stored', Kept (f.loadBlockLists env files) (gone ++ f.clears) stored' := by
  obtain ⟨hnameless, hhosts⟩ := htakes
  obtain ⟨t, hclear, hc⟩ := h.holds.clearSpilled
  have hstart : Kept ({ f.clearSpilled with m_BlockList := [] } : CDnsFilter) (gone ++ f.clears)
      (stored.filter fun p => ¬ f.nameless p) := by
    rw [hclear]
    refine ⟨⟨hc.tree, hc.mapped, hc.inPool⟩, fun p => ?_, h.distinct, fun p hp => ?_⟩
    · change p ∈ _ ↔ f.mapped p ∧ (f.m_MemPool p).m_bEnabled = true ∧ p ∉ gone ++ f.clears
      rw [List.mem_filter, h.agree, decide_eq_true_iff, List.mem_append, mem_clears]
      constructor
      · rintro ⟨⟨hm, henabled, hgone⟩, hname⟩
        refine ⟨hm, henabled, ?_⟩
        rintro (hp | ⟨⟨e, he, heq⟩, hnull, -⟩)
        · exact hgone hp
        · exact hname ⟨e, he, heq, hnull⟩
      · rintro ⟨hm, henabled, hgone⟩
        refine ⟨⟨hm, henabled, fun hp => hgone (.inl hp)⟩, ?_⟩
        rintro ⟨e, he, heq, hnull⟩
        obtain htemp | hp := hnameless p hm hnull henabled
        · exact hgone (.inr ⟨hm, hnull, htemp⟩)
        · exact hgone (.inl hp)
    · obtain hp | hp := List.mem_append.1 hp
      · exact h.old p hp
      · obtain ⟨⟨e, he, rfl⟩, -⟩ := (mem_clears p).1 hp
        exact h.holds.inPool e he
  have hlists : f.clearSpilled.m_BlockLists = f.m_BlockLists := by rw [hclear]
  rw [← hlists] at hhosts
  obtain ⟨stored', hall⟩ := Kept.addHosts env (listHosts env files f.clearSpilled.m_BlockLists) hstart hhosts
  rw [← (loadLists_eq env files _ _).1] at hall
  exact ⟨stored', hall.congr ⟨hall.holds.tree, hall.holds.mapped, hall.holds.inPool⟩ rfl (fun _ => rfl) rfl⟩

/-! ### Runs -/

theorem Kept.step (env : DnsEnv) (h : Kept f gone stored) {call : FilterCall} (hmeets : Meets env f gone call) :
    ∃ stored', Kept (f.step env call) (goneAfter env f gone call) stored' := by
  cases call with
  | handlePacket packet => exact ⟨stored, h.handlePacket packet⟩
  | loadEntries entries => exact h.loadEntries env hmeets
  | setEntry record => exact (h.setEntry env hmeets).1
  | delEntry EntryId => exact h.delEntry EntryId
  | updateBlockLists files urls =>
    have hlists : Kept ({ f with m_BlockLists := configuredLists env f.m_BlockLists urls } : CDnsFilter) gone stored :=
      h.congr ⟨h.holds.tree, h.holds.mapped, h.holds.inPool⟩ rfl (fun _ => rfl) rfl
    exact hlists.loadBlockLists env hmeets
  | loadBlockLists files => exact h.loadBlockLists env hmeets

theorem Kept.reaches {env : DnsEnv} {f' : CDnsFilter} {gone' : List RulePtr} (hr : Reaches env f gone f' gone') :
    ∀ {stored}, Kept f gone stored → ∃ stored', Kept f' gone' stored' := by
  induction hr with
  | refl f gone => exact fun h => ⟨_, h⟩
  | step call hmeets _ ih =>
    intro stored h
    obtain ⟨stored', h'⟩ := h.step env hmeets
    exact ih h'

end Kept

/-- While every call meets the condition, the tree has each enabled rule of the map once, at its labels, but for the
temporary ones that were taken off, and a call of `SetEntry` that fails changes nothing. -/
theorem reaches_agrees {env : DnsEnv} {f : CDnsFilter} {gone : List RulePtr} (h : Reaches env new [] f gone) :
    f.Agrees gone ∧ ∀ record, TakesVariant env f gone record → FailsClean env f record := by
  obtain ⟨stored, hkept⟩ := kept_new.reaches h
  exact ⟨hkept.agrees, fun record htakes => (hkept.setEntry env htakes).2⟩

theorem target_new (env : DnsEnv) (record : RuleRecord) : ∃ Guid g, target env new record = (Guid, none, g) ∧ g.m_EntryMap = [] ∧
    g.m_FilterTree = new.m_FilterTree := by
  unfold target
  dsimp only
  split
  · exact ⟨_, _, rfl, rfl, rfl⟩
  · exact ⟨_, _, rfl, rfl, rfl⟩

/-- A rule for `ads`. -/
def adsRecord : RuleRecord := ⟨true, [], [.enabled true, .dnsHost [0x61, 0x64, 0x73]]⟩

theorem reaches_agrees_ads : (new.step sampleEnv (.setEntry adsRecord)).Agrees (goneAfter sampleEnv new [] (.setEntry adsRecord)) := by
  obtain ⟨Guid, g, htarget, -, -⟩ := target_new sampleEnv adsRecord
  have hstorable : Storable 0x2E true [0x61, 0x64, 0x73] := by
    have hplain : ∀ name ∈ storedAt 0x2E [0x61, 0x64, 0x73], isWild name = false := by decide +kernel
    refine ⟨List.cons_ne_nil _ _, ⟨_, by simp [validateLoop, asterisk, questionMark]; rfl⟩, fun name hname hwild => ?_⟩
    rw [hplain name hname] at hwild
    cases hwild
  refine (reaches_agrees (.step (.setEntry adsRecord) ?_ (.refl _ _))).1
  change TakesVariant sampleEnv new [] adsRecord
  unfold TakesVariant
  rw [htarget]
  exact .inr ⟨_, rfl, fun _ => hstorable⟩

/-- A variant that is not a map makes an enabled rule that is not in the tree. -/
theorem reaches_agrees_malformed : ¬ FailsClean sampleEnv new ⟨false, [], []⟩ ∧
    ∃ p, (new.setEntry sampleEnv ⟨false, [], []⟩).1.mapped p ∧
      ((new.setEntry sampleEnv ⟨false, [], []⟩).1.m_MemPool p).m_bEnabled = true ∧
      ((new.setEntry sampleEnv ⟨false, [], []⟩).1.m_MemPool p).m_bTemporary = false ∧
      ∀ names, (new.setEntry sampleEnv ⟨false, [], []⟩).1.treeEntries names = [] := by
  obtain ⟨Guid, g, htarget, hmap, htree⟩ := target_new sampleEnv ⟨false, [], []⟩
  have hset : new.setEntry sampleEnv ⟨false, [], []⟩ =
      ({ g.newRule { CDnsRule.new with m_Guid := CFlexGuid.new.assign Guid } with m_EntryMap := [(Guid, g.allocated)] },
        .error .unknownRevision) := by
    rw [setEntry_new sampleEnv htarget, hmap]
    rfl
  have hrule : (g.newRule { CDnsRule.new with m_Guid := CFlexGuid.new.assign Guid }).m_MemPool g.allocated =
      { CDnsRule.new with m_Guid := CFlexGuid.new.assign Guid } := if_pos rfl
  rw [FailsClean, hset]
  refine ⟨fun hclean => ?_, g.allocated, ⟨_, List.mem_singleton.2 rfl, rfl⟩, congrArg CDnsRule.m_bEnabled hrule,
    congrArg CDnsRule.m_bTemporary hrule, fun names => ?_⟩
  · have hsame := (hclean _ rfl).entryMap
    cases hsame
  · change g.m_FilterTree.root.entriesAt names = []
    rw [htree]
    exact SPathNode.entriesAt_empty [] names

end CDnsFilter

end MajorPrivacy.Dns

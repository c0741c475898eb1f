/-
`LoadBlockLists` over any history of the filter. The block list is made anew by every call, and the
rules that spilled over from the lists leave the tree, but no call takes them off the map of entries.
So reloading does what it should just if the lists have no line that becomes a rule, none is left
from an earlier load, and no rule of the user is without an id.
-/
import MajorPrivacy.Dns.BlockLists
import MajorPrivacy.Path.Histories

namespace MajorPrivacy.Dns

open LittleEndian MajorPrivacy.Path MajorPrivacy.Guid

/-! ## What the lists have -/

/-- A host name of a list with what its line begins with. -/
structure ListHost where
  EntryType : UInt16
  IpAddress : Bytes
  HostName : Bytes

/-- The name becomes a rule. -/
def ListHost.spillsOver (host : ListHost) : Bool :=
  host.EntryType = Type.None || host.HostName.any isWildByte

/-- The entry of the block list for a name. -/
def ListHost.listed (host : ListHost) : SKey × Bytes := (⟨host.HostName, host.EntryType⟩, host.IpAddress)

def lineHosts (env : DnsEnv) (sLine : Bytes) : List ListHost :=
  match words sLine with
  | [] => []
  | sAddress :: names =>
    if sAddress.head? = some hash then []
    else
      let (EntryType, IpAddress) := readAddress env sAddress
      ((if EntryType = Type.None then sAddress :: names else names).takeWhile (·.head? ≠ some hash)).map
        fun name => ⟨EntryType, IpAddress, name⟩

/-- The host names of a list, if its file is there. -/
def fileHosts (env : DnsEnv) (files : HostsFiles) (sBlockListFile : Str) : List ListHost :=
  match if sBlockListFile = [] then none else files sBlockListFile with
  | none => []
  | some lines => lines.flatMap (lineHosts env)

def listHosts (env : DnsEnv) (files : HostsFiles) (lists : List (Str × SBLockList)) : List ListHost :=
  lists.flatMap fun list => fileHosts env files list.1

namespace CDnsFilter

def addHost (env : DnsEnv) (f : CDnsFilter) (host : ListHost) : CDnsFilter :=
  f.loadHost env .eBlock host.EntryType host.IpAddress host.HostName

theorem loadHosts_eq (env : DnsEnv) (EntryType : UInt16) (IpAddress : Bytes) : ∀ (names : List Bytes) (s : CDnsFilter × Int),
    (loadHosts env .eBlock EntryType IpAddress names s).1 =
      ((names.takeWhile (·.head? ≠ some hash)).map fun name => (⟨EntryType, IpAddress, name⟩ : ListHost)).foldl (addHost env) s.1
  | [], _ => rfl
  | name :: names, s => by
    rw [loadHosts]
    by_cases hname : name.head? = some hash
    · rw [if_pos hname, List.takeWhile_cons_of_neg (by simpa using hname)]
      rfl
    · rw [if_neg hname, List.takeWhile_cons_of_pos (by simpa using hname), List.map_cons, List.foldl_cons,
        loadHosts_eq env EntryType IpAddress names]
      rfl

theorem loadLine_eq (env : DnsEnv) (s : CDnsFilter × Int) (sLine : Bytes) :
    (loadLine env .eBlock s sLine).1 = (lineHosts env sLine).foldl (addHost env) s.1 := by
  unfold loadLine lineHosts
  cases words sLine with
  | nil => rfl
  | cons sAddress names =>
    dsimp only
    by_cases hcomment : sAddress.head? = some hash
    · rw [if_pos hcomment, if_pos hcomment]
      rfl
    · rw [if_neg hcomment, if_neg hcomment]
      exact loadHosts_eq env _ _ _ s

theorem foldl_loadLine (env : DnsEnv) : ∀ (lines : List Bytes) (s : CDnsFilter × Int),
    (lines.foldl (loadLine env .eBlock) s).1 = (lines.flatMap (lineHosts env)).foldl (addHost env) s.1
  | [], _ => rfl
  | sLine :: lines, s => by
    rw [List.foldl_cons, foldl_loadLine env lines, loadLine_eq, List.flatMap_cons, List.foldl_append]

/-- All that loading does to the filter is done by the host names one after the other. -/
theorem loadLists_eq (env : DnsEnv) (files : HostsFiles) : ∀ (lists : List (Str × SBLockList)) (f : CDnsFilter),
    (loadLists env files lists f).1 = (listHosts env files lists).foldl (addHost env) f ∧
      (loadLists env files lists f).2.map (·.1) = lists.map (·.1)
  | [], _ => ⟨rfl, rfl⟩
  | (file, list) :: lists, f => by
    have hcons : listHosts env files ((file, list) :: lists) = fileHosts env files file ++ listHosts env files lists :=
      List.flatMap_cons
    rw [hcons, List.foldl_append, loadLists]
    cases hfile : (if file = [] then none else files file) with
    | none =>
      have hhosts : fileHosts env files file = [] := by
        unfold fileHosts
        rw [hfile]
      obtain ⟨ih, hnames⟩ := loadLists_eq env files lists f
      rw [hhosts]
      exact ⟨ih, congrArg (file :: ·) hnames⟩
    | some lines =>
      have hhosts : fileHosts env files file = lines.flatMap (lineHosts env) := by
        unfold fileHosts
        rw [hfile]
      obtain ⟨ih, hnames⟩ := loadLists_eq env files lists (f.loadFilters_NoLock env .eBlock lines).1
      rw [hhosts, ← foldl_loadLine env lines (f, 0)]
      exact ⟨ih, congrArg (file :: ·) hnames⟩

theorem listHosts_congr (env : DnsEnv) (files : HostsFiles) {lists lists' : List (Str × SBLockList)}
    (h : lists.map (·.1) = lists'.map (·.1)) : listHosts env files lists = listHosts env files lists' := by
  have hmap : ∀ l : List (Str × SBLockList), listHosts env files l = (l.map (·.1)).flatMap (fileHosts env files) :=
    fun l => (List.flatMap_map _ _ _).symm
  rw [hmap, hmap, h]

/-! ## What the filter holds -/

/-- The tree holds the given rules, which are entries of the map. -/
structure Holds (f : CDnsFilter) (stored : List RulePtr) : Prop where
  tree : TreeHistory.Inv 0x2E true ⟨f.pathEntry.getPath, f.m_FilterTree, stored⟩
  mapped : ∀ p ∈ stored, ∃ e ∈ f.m_EntryMap, e.2 = p
  inPool : ∀ e ∈ f.m_EntryMap, e.2 < f.allocated

section Holds

variable {f : CDnsFilter} {stored : List RulePtr}

theorem Holds.lt_allocated (h : f.Holds stored) {p : RulePtr} (hp : p ∈ stored) : p < f.allocated := by
  obtain ⟨e, he, rfl⟩ := h.mapped p hp
  exact h.inPool e he

theorem holds_new : new.Holds [] where
  tree := TreeHistory.inv_new 0x2E true _
  mapped := by simp
  inPool := by simp [new]

theorem Holds.treeRemove (h : f.Holds stored) (p : RulePtr) : (f.treeRemove p).Holds (stored.filter (· ≠ p)) where
  tree := h.tree.removeEntry p
  mapped := fun q hq => h.mapped q (List.mem_filter.1 hq).1
  inPool := h.inPool

theorem Holds.treeAdd (h : f.Holds stored) {p : RulePtr} (hp : p ∉ stored) (hmap : ∃ e ∈ f.m_EntryMap, e.2 = p) :
    ∃ stored', (f.treeAdd p).1.Holds stored' := by
  refine ⟨_, h.tree.addEntry hp, ?_, h.inPool⟩
  intro q hq
  obtain rfl | hq := TreeHistory.mem_stored_addEntry hq
  · exact hmap
  · exact h.mapped q hq

/-- A rule that is not in the tree may change. -/
theorem Holds.setRule (h : f.Holds stored) {p : RulePtr} (hp : p ∉ stored) (rule : CDnsRule) :
    (f.setRule p rule).Holds stored where
  tree := by
    have hset := h.tree.setPath hp rule.m_Path
    have hpaths : (f.setRule p rule).pathEntry.getPath = fun e => if e = p then rule.m_Path else f.pathEntry.getPath e :=
      funext fun e => apply_ite CDnsRule.m_Path (e = p) rule (f.m_MemPool e)
    rw [hpaths]
    exact hset
  mapped := h.mapped
  inPool := h.inPool

theorem Holds.newRule (h : f.Holds stored) (rule : CDnsRule) : (f.newRule rule).Holds stored where
  tree := (h.setRule (fun hp => Nat.lt_irrefl _ (h.lt_allocated hp)) rule).tree
  mapped := h.mapped
  inPool := fun e he => Nat.lt_succ_of_lt (h.inPool e he)

theorem Holds.treeClear (h : f.Holds stored) : ({ f.treeClear with m_EntryMap := [] } : CDnsFilter).Holds [] where
  tree := ⟨⟨h.tree.wellFormed.separator_eq, h.tree.wellFormed.bSimplePattern_eq, SPathNode.wellFormed_empty _ _ _⟩,
    by simp, fun names entry => by simp [CDnsFilter.treeClear], fun names => by simp [CDnsFilter.treeClear]⟩
  mapped := by simp
  inPool := by simp

theorem Holds.mapInsert (h : f.Holds stored) {guid : CFlexGuid} {p : RulePtr} (hp : p < f.allocated)
    {m : List (CFlexGuid × RulePtr)} (hm : mapInsert f.m_EntryMap guid p = some m) :
    ({ f with m_EntryMap := m } : CDnsFilter).Holds stored ∧ ∃ e ∈ m, e.2 = p := by
  unfold Dns.mapInsert at hm
  split at hm
  · cases hm
  · obtain rfl := Option.some.inj hm
    refine ⟨⟨h.tree, fun q hq => ?_, fun e he => ?_⟩, (guid, p), by simp, rfl⟩
    · obtain ⟨e, he, heq⟩ := h.mapped q hq
      exact ⟨e, List.mem_append_left _ he, heq⟩
    · obtain he | he := List.mem_append.1 he
      · exact h.inPool e he
      · rw [List.mem_singleton.1 he]
        exact hp

theorem Holds.addEntry (env : DnsEnv) (h : f.Holds stored) {p : RulePtr} (hp : p ∉ stored) (hlt : p < f.allocated) :
    ∃ stored', (f.addEntry_NoLock env p).Holds stored' := by
  unfold addEntry_NoLock
  dsimp only
  split
  · exact ⟨stored, h⟩
  · generalize hid : (if (f.m_MemPool p).m_Guid.value = .null then
        ((f.m_MemPool p).m_Guid.fromWString (env.mkGuid f.made), { f with made := f.made + 1 })
      else ((f.m_MemPool p).m_Guid, f)) = id
    obtain ⟨guid, g⟩ := id
    have hg : g.Holds stored ∧ p < g.allocated := by
      split at hid
      · obtain ⟨-, rfl⟩ := Prod.mk.inj hid
        exact ⟨⟨h.tree, h.mapped, h.inPool⟩, hlt⟩
      · obtain ⟨-, rfl⟩ := Prod.mk.inj hid
        exact ⟨h, hlt⟩
    dsimp only
    split
    · exact ⟨stored, hg.1⟩
    · rename_i m hm
      obtain ⟨hmap, hin⟩ := hg.1.mapInsert hg.2 hm
      split
      · exact hmap.treeAdd hp hin
      · exact ⟨stored, hmap⟩

/-- A new rule that is added. -/
theorem Holds.addNew (env : DnsEnv) (h : f.Holds stored) (rule : CDnsRule) :
    ∃ stored', ((f.newRule rule).addEntry_NoLock env f.allocated).Holds stored' :=
  (h.newRule rule).addEntry env (fun hp => Nat.lt_irrefl _ (h.lt_allocated hp)) (Nat.lt_succ_self _)

/-! ### Calls -/

theorem Holds.incHitCount (h : f.Holds stored) (p : RulePtr) : (f.incHitCount p).Holds stored where
  tree := by
    have hpaths : (f.incHitCount p).pathEntry.getPath = f.pathEntry.getPath := by
      funext e
      unfold CDnsFilter.incHitCount
      exact (apply_ite CDnsRule.m_Path _ _ _).trans (ite_self _)
    rw [hpaths]
    exact h.tree
  mapped := h.mapped
  inPool := h.inPool

theorem Holds.handlePacket (h : f.Holds stored) (packet : Packet) : (f.handlePacket packet).1.Holds stored := by
  unfold CDnsFilter.handlePacket
  split
  · generalize f.filterLoop .eNone packet.query = found
    obtain ⟨Action, hit⟩ := found
    cases hit with
    | none =>
      dsimp only
      split
      all_goals exact h
    | some p =>
      dsimp only
      split
      all_goals exact h.incHitCount p
  · exact h

theorem Holds.loadEntries (env : DnsEnv) (h : f.Holds stored) (entries : List RuleRecord) :
    ∃ stored', (f.loadEntries env entries).Holds stored' := by
  unfold CDnsFilter.loadEntries
  have hclear : ∃ stored', ({ f.treeClear with m_EntryMap := [] } : CDnsFilter).Holds stored' := ⟨[], h.treeClear⟩
  generalize ({ f.treeClear with m_EntryMap := [] } : CDnsFilter) = g at hclear
  induction entries generalizing g with
  | nil => exact hclear
  | cons record entries ih =>
    obtain ⟨stored', hg⟩ := hclear
    rw [List.foldl_cons]
    apply ih
    split
    · exact ⟨stored', hg⟩
    · exact hg.addNew env _

theorem Holds.updateEntry (h : f.Holds stored) (guid : CFlexGuid) {p : RulePtr} (hp : p ∉ stored)
    (hmap : ∃ e ∈ f.m_EntryMap, e.2 = p) (record : RuleRecord) :
    ∃ stored', (f.updateEntry guid p record).1.Holds stored' := by
  unfold CDnsFilter.updateEntry
  split
  · exact ⟨stored, h⟩
  · rename_i rule _
    have hset := h.setRule hp rule
    dsimp only
    split
    · exact hset.treeAdd hp hmap
    · exact ⟨stored, hset⟩

theorem mem_of_mapFindValue {m : List (CFlexGuid × RulePtr)} {guid : CFlexGuid} {p : RulePtr}
    (h : mapFindValue m guid = some p) : ∃ e ∈ m, e.1.compare guid = .eq ∧ e.2 = p := by
  obtain ⟨e, he, rfl⟩ := Option.map_eq_some_iff.1 h
  exact ⟨e, List.mem_of_find?_eq_some he, by simpa using List.find?_some he, rfl⟩

theorem Holds.setEntry (env : DnsEnv) (h : f.Holds stored) (record : RuleRecord) :
    ∃ stored', (f.setEntry env record).1.Holds stored' := by
  unfold CDnsFilter.setEntry
  dsimp only
  generalize hid : (if (CFlexGuid.new.fromWString record.guidText).value = .null then
      ((CFlexGuid.new.fromWString record.guidText).fromWString (env.mkGuid f.made), (none : Option RulePtr),
        { f with made := f.made + 1 })
    else (CFlexGuid.new.fromWString record.guidText,
      mapFindValue f.m_EntryMap (CFlexGuid.new.fromWString record.guidText), f)) = id
  obtain ⟨guid, found, g⟩ := id
  have hg : g.Holds stored ∧ ∀ p, found = some p → ∃ e ∈ g.m_EntryMap, e.2 = p := by
    split at hid
    · obtain ⟨-, hid⟩ := Prod.mk.inj hid
      obtain ⟨rfl, rfl⟩ := Prod.mk.inj hid
      exact ⟨⟨h.tree, h.mapped, h.inPool⟩, by simp⟩
    · obtain ⟨-, hid⟩ := Prod.mk.inj hid
      obtain ⟨rfl, rfl⟩ := Prod.mk.inj hid
      refine ⟨h, fun p hp => ?_⟩
      obtain ⟨e, he, -, heq⟩ := mem_of_mapFindValue hp
      exact ⟨e, he, heq⟩
  obtain ⟨hg, hfound⟩ := hg
  cases found with
  | none =>
    dsimp only
    have hnew := hg.newRule { CDnsRule.new with m_Guid := CFlexGuid.new.assign guid }
    split
    · exact ⟨stored, hnew⟩
    · rename_i m hm
      obtain ⟨hmap, hin⟩ := hnew.mapInsert (Nat.lt_succ_self _) hm
      exact hmap.updateEntry guid (fun hp => Nat.lt_irrefl _ (hg.lt_allocated hp)) hin record
  | some p =>
    exact (hg.treeRemove p).updateEntry guid (by simp) (hfound p rfl) record

theorem mem_mapRemove {m : List (CFlexGuid × RulePtr)} {guid : CFlexGuid} {e : CFlexGuid × RulePtr} {p : RulePtr}
    (h : mapFindValue m guid = some p) (he : e ∈ m) (hne : e.2 ≠ p) : e ∈ mapRemove m guid := by
  obtain ⟨found, hfind, rfl⟩ := Option.map_eq_some_iff.1 h
  obtain ⟨hkey, before, after, rfl, hbefore⟩ := List.find?_eq_some_iff_append.1 hfind
  have hrest : mapRemove (before ++ found :: after) guid = before ++ after := by
    unfold mapRemove
    rw [List.eraseP_append_right _ (by simpa using hbefore), List.eraseP_cons_of_pos (by exact hkey)]
  rw [hrest]
  obtain he | he := List.mem_append.1 he
  · exact List.mem_append_left _ he
  · obtain rfl | he := List.mem_cons.1 he
    · exact absurd rfl hne
    · exact List.mem_append_right _ he

theorem Holds.delEntry (h : f.Holds stored) (EntryId : Str) : ∃ stored', (f.delEntry EntryId).1.Holds stored' := by
  unfold CDnsFilter.delEntry
  dsimp only
  split
  · exact ⟨stored, h⟩
  · rename_i p hp
    refine ⟨_, h.tree.removeEntry p, ?_, ?_⟩
    · intro q hq
      obtain ⟨hq, hne⟩ := List.mem_filter.1 hq
      obtain ⟨e, he, rfl⟩ := h.mapped q hq
      exact ⟨e, mem_mapRemove hp he (of_decide_eq_true hne), rfl⟩
    · exact fun e he => h.inPool e (List.mem_of_mem_eraseP he)

theorem Holds.addHost (env : DnsEnv) (h : f.Holds stored) (host : ListHost) : ∃ stored', (f.addHost env host).Holds stored' := by
  unfold CDnsFilter.addHost loadHost
  split
  · exact ⟨stored, h.tree, h.mapped, h.inPool⟩
  · exact h.addNew env _

theorem Holds.addHosts (env : DnsEnv) : ∀ (hosts : List ListHost) {f : CDnsFilter} {stored : List RulePtr}, f.Holds stored →
    ∃ stored', (hosts.foldl (CDnsFilter.addHost env) f).Holds stored'
  | [], _, stored, h => ⟨stored, h⟩
  | host :: hosts, _, _, h => by
    obtain ⟨stored', h'⟩ := h.addHost env host
    exact Holds.addHosts env hosts h'

/-- The rules of some entries are taken off the tree. -/
theorem Holds.removeAll (pool : RulePtr → CDnsRule) :
    ∀ (entries : List (CFlexGuid × RulePtr)) {f : CDnsFilter} {stored : List RulePtr}, f.Holds stored →
    ∃ t, entries.foldl (fun f' entry => if (pool entry.2).m_Guid.value = .null then f'.treeRemove entry.2 else f') f =
      { f with m_FilterTree := t } ∧
      ({ f with m_FilterTree := t } : CDnsFilter).Holds
        (stored.filter fun p => ¬ ∃ e ∈ entries, e.2 = p ∧ (pool p).m_Guid.value = .null)
  | [], f, stored, h => ⟨f.m_FilterTree, rfl, by simpa using h⟩
  | entry :: entries, f, stored, h => by
    rw [List.foldl_cons]
    by_cases hnull : (pool entry.2).m_Guid.value = .null
    · rw [if_pos hnull]
      obtain ⟨t, heq, ht⟩ := Holds.removeAll pool entries (h.treeRemove entry.2)
      have hsplit : (stored.filter fun p => ¬ ∃ e ∈ entry :: entries, e.2 = p ∧ (pool p).m_Guid.value = .null) =
          (stored.filter (· ≠ entry.2)).filter fun p => ¬ ∃ e ∈ entries, e.2 = p ∧ (pool p).m_Guid.value = .null := by
        rw [List.filter_filter]
        apply List.filter_congr
        intro p _
        grind
      rw [hsplit]
      exact ⟨t, heq, ht⟩
    · rw [if_neg hnull]
      obtain ⟨t, heq, ht⟩ := Holds.removeAll pool entries h
      have hsame : (stored.filter fun p => ¬ ∃ e ∈ entry :: entries, e.2 = p ∧ (pool p).m_Guid.value = .null) =
          stored.filter fun p => ¬ ∃ e ∈ entries, e.2 = p ∧ (pool p).m_Guid.value = .null := by
        apply List.filter_congr
        intro p _
        grind
      rw [hsame]
      exact ⟨t, heq, ht⟩

/-- The rules without an id that are entries of the map. -/
def nameless (f : CDnsFilter) (p : RulePtr) : Prop :=
  ∃ e ∈ f.m_EntryMap, e.2 = p ∧ (f.m_MemPool p).m_Guid.value = .null

instance (f : CDnsFilter) (p : RulePtr) : Decidable (f.nameless p) := inferInstanceAs (Decidable (∃ e ∈ _, _))

theorem Holds.clearSpilled (h : f.Holds stored) : ∃ t, f.clearSpilled = { f with m_FilterTree := t } ∧
    ({ f with m_FilterTree := t } : CDnsFilter).Holds (stored.filter fun p => ¬ f.nameless p) :=
  Holds.removeAll f.m_MemPool f.m_EntryMap h

theorem Holds.loadBlockLists (env : DnsEnv) (h : f.Holds stored) (files : HostsFiles) :
    ∃ stored', (f.loadBlockLists env files).Holds stored' := by
  obtain ⟨t, hclear, hc⟩ := h.clearSpilled
  have hstart : ({ f.clearSpilled with m_BlockList := [] } : CDnsFilter).Holds (stored.filter fun p => ¬ f.nameless p) := by
    rw [hclear]
    exact ⟨hc.tree, hc.mapped, hc.inPool⟩
  obtain ⟨stored', hall⟩ := Holds.addHosts env (listHosts env files f.clearSpilled.m_BlockLists) hstart
  rw [← (loadLists_eq env files _ _).1] at hall
  exact ⟨stored', hall.tree, hall.mapped, hall.inPool⟩

theorem Holds.step (env : DnsEnv) (h : f.Holds stored) (call : FilterCall) : ∃ stored', (f.step env call).Holds stored' := by
  cases call with
  | handlePacket packet => exact ⟨stored, h.handlePacket packet⟩
  | loadEntries entries => exact h.loadEntries env entries
  | setEntry record => exact h.setEntry env record
  | delEntry EntryId => exact h.delEntry EntryId
  | updateBlockLists files urls =>
    have hlists : ({ f with m_BlockLists := configuredLists env f.m_BlockLists urls } : CDnsFilter).Holds stored :=
      ⟨h.tree, h.mapped, h.inPool⟩
    exact hlists.loadBlockLists env files
  | loadBlockLists files => exact h.loadBlockLists env files

end Holds

theorem holds_run (env : DnsEnv) : ∀ (calls : List FilterCall) {f : CDnsFilter}, (∃ stored, f.Holds stored) →
    ∃ stored, (f.run env calls).Holds stored
  | [], _, h => h
  | call :: calls, _, ⟨_, h⟩ => holds_run env calls (h.step env call)

/-! ## The map grows -/

/-- The id that `MkGuid` makes, as a rule of a list gets it. -/
def newId (env : DnsEnv) (n : Nat) : CFlexGuid := CFlexGuid.new.fromWString (env.mkGuid n)

/-- The ids that are made next, up to a number of them, are all different, and none is in use. -/
structure NewIds (env : DnsEnv) (limit : Nat) (f : CDnsFilter) : Prop where
  distinct : ∀ m n, m < limit → n < limit → (newId env m).compare (newId env n) = .eq → m = n
  unused : ∀ n, f.made ≤ n → n < limit → ∀ e ∈ f.m_EntryMap, e.1.compare (newId env n) ≠ .eq

/-- A temporary rule without an id is added under a new one. -/
theorem NewIds.addNew {env : DnsEnv} {limit : Nat} {f : CDnsFilter} (h : NewIds env limit f) (hlt : f.made < limit)
    {rule : CDnsRule} (hguid : rule.m_Guid = .new) (htemp : rule.m_bTemporary = true) :
    ((f.newRule rule).addEntry_NoLock env f.allocated).m_EntryMap = f.m_EntryMap ++ [(newId env f.made, f.allocated)] ∧
      ((f.newRule rule).addEntry_NoLock env f.allocated).made = f.made + 1 := by
  have hrule : (f.newRule rule).m_MemPool f.allocated = rule := if_pos rfl
  have hins : mapInsert f.m_EntryMap (newId env f.made) f.allocated =
      some (f.m_EntryMap ++ [(newId env f.made, f.allocated)]) := by
    refine if_neg ?_
    simpa using fun g p he => h.unused _ (Nat.le_refl _) hlt (g, p) he
  unfold addEntry_NoLock
  simp only [hrule, htemp, reduceCtorEq, and_false, if_false, hguid]
  erw [hins]
  dsimp only
  split
  · exact ⟨rfl, rfl⟩
  · exact ⟨rfl, rfl⟩

theorem NewIds.addHost {env : DnsEnv} {limit : Nat} {f : CDnsFilter} (h : NewIds env limit f) (host : ListHost)
    (hlimit : f.made + (if host.spillsOver then 1 else 0) ≤ limit) :
    NewIds env limit (f.addHost env host) ∧
      (f.addHost env host).made = f.made + (if host.spillsOver then 1 else 0) ∧
      (f.addHost env host).m_EntryMap.length = f.m_EntryMap.length + if host.spillsOver then 1 else 0 := by
  unfold CDnsFilter.addHost loadHost
  have hplain : (host.EntryType ≠ Type.None ∧ host.HostName.all (fun c => !isWildByte c) = true) ↔
      ¬ host.spillsOver = true := by
    simp [ListHost.spillsOver]
  by_cases hs : host.spillsOver = true
  · rw [if_neg (fun hp => hplain.1 hp hs), if_pos hs]
    rw [if_pos hs] at hlimit
    have hguid : (CDnsRule.ofList (reversePath (cName host.HostName)) .eBlock true).m_Guid = .new := rfl
    obtain ⟨hmap, hmade⟩ := h.addNew hlimit hguid rfl
    refine ⟨⟨h.distinct, fun n hn hlt e he => ?_⟩, hmade, by simp [hmap]⟩
    rw [hmade] at hn
    rw [hmap] at he
    obtain he | he := List.mem_append.1 he
    · exact h.unused n (by omega) hlt e he
    · rw [List.mem_singleton.1 he]
      exact fun heq => absurd (h.distinct _ _ hlimit hlt heq) (by omega)
  · rw [if_pos (hplain.2 hs), if_neg hs]
    exact ⟨⟨h.distinct, h.unused⟩, rfl, rfl⟩

theorem NewIds.addHosts {env : DnsEnv} {limit : Nat} : ∀ (hosts : List ListHost) {f : CDnsFilter}, NewIds env limit f →
    f.made + hosts.countP (·.spillsOver) ≤ limit →
    NewIds env limit (hosts.foldl (CDnsFilter.addHost env) f) ∧
      (hosts.foldl (CDnsFilter.addHost env) f).made = f.made + hosts.countP (·.spillsOver) ∧
      (hosts.foldl (CDnsFilter.addHost env) f).m_EntryMap.length = f.m_EntryMap.length + hosts.countP (·.spillsOver)
  | [], _, h, _ => ⟨h, rfl, rfl⟩
  | host :: hosts, f, h, hlimit => by
    rw [List.countP_cons] at hlimit ⊢
    obtain ⟨hone, hmade, hlen⟩ := h.addHost host (by omega)
    obtain ⟨hall, hmades, hlens⟩ := NewIds.addHosts hosts hone (by omega)
    rw [List.foldl_cons]
    exact ⟨hall, by omega, by omega⟩

/-- How many rules the lists have. -/
def ruleCount (env : DnsEnv) (files : HostsFiles) (f : CDnsFilter) : Nat :=
  (listHosts env files f.m_BlockLists).countP (·.spillsOver)

/-- Every load adds the rules of the lists to the map. -/
theorem NewIds.loadBlockLists {env : DnsEnv} {limit : Nat} {f : CDnsFilter} {stored : List RulePtr}
    (h : NewIds env limit f) (hf : f.Holds stored) (files : HostsFiles) (hlimit : f.made + f.ruleCount env files ≤ limit) :
    NewIds env limit (f.loadBlockLists env files) ∧
      (f.loadBlockLists env files).made = f.made + f.ruleCount env files ∧
      (f.loadBlockLists env files).m_EntryMap.length = f.m_EntryMap.length + f.ruleCount env files := by
  obtain ⟨t, hclear, -⟩ := hf.clearSpilled
  have hstart : NewIds env limit ({ f with m_FilterTree := t, m_BlockList := [] } : CDnsFilter) :=
    ⟨h.distinct, h.unused⟩
  obtain ⟨hids, hmade, hlen⟩ := hstart.addHosts (listHosts env files f.m_BlockLists) hlimit
  rw [← (loadLists_eq env files _ _).1] at hids hmade hlen
  unfold CDnsFilter.loadBlockLists
  rw [hclear]
  exact ⟨⟨hids.distinct, hids.unused⟩, hmade, hlen⟩

theorem listNames_loadBlockLists (env : DnsEnv) {f : CDnsFilter} {stored : List RulePtr} (hf : f.Holds stored)
    (files : HostsFiles) : (f.loadBlockLists env files).m_BlockLists.map (·.1) = f.m_BlockLists.map (·.1) := by
  obtain ⟨t, hclear, -⟩ := hf.clearSpilled
  refine (loadLists_eq env files _ _).2.trans ?_
  rw [hclear]

/-! ## Lists without rules -/

theorem addHosts_plain (env : DnsEnv) : ∀ (hosts : List ListHost) (f : CDnsFilter),
    (∀ host ∈ hosts, host.spillsOver = false) →
    hosts.foldl (CDnsFilter.addHost env) f = { f with m_BlockList := f.m_BlockList ++ hosts.map ListHost.listed }
  | [], f, _ => by simp
  | host :: hosts, f, h => by
    have hplain : host.EntryType ≠ Type.None ∧ host.HostName.all (fun c => !isWildByte c) = true := by
      simpa [ListHost.spillsOver] using h host List.mem_cons_self
    have hone : f.addHost env host = { f with m_BlockList := f.m_BlockList ++ [host.listed] } := if_pos hplain
    rw [List.foldl_cons, hone, addHosts_plain env hosts _ fun x hx => h x (List.mem_cons_of_mem _ hx)]
    simp

/-- Without rules on the lists a load clears the tree and makes the block list anew. -/
theorem Holds.loadBlockLists_plain (env : DnsEnv) {f : CDnsFilter} {stored : List RulePtr} (hf : f.Holds stored)
    {files : HostsFiles} (h : ∀ host ∈ listHosts env files f.m_BlockLists, host.spillsOver = false) :
    ∃ t lists, f.loadBlockLists env files = { f with
        m_FilterTree := t
        m_BlockList := (listHosts env files f.m_BlockLists).map ListHost.listed
        m_BlockLists := lists } ∧ lists.map (·.1) = f.m_BlockLists.map (·.1) ∧
      ({ f with m_FilterTree := t } : CDnsFilter).Holds (stored.filter fun p => ¬ f.nameless p) := by
  obtain ⟨t, hclear, ht⟩ := hf.clearSpilled
  obtain ⟨hload, hnames⟩ := loadLists_eq env files f.m_BlockLists { f with m_FilterTree := t, m_BlockList := [] }
  rw [addHosts_plain env _ _ h] at hload
  refine ⟨t, _, ?_, hnames, ht⟩
  unfold CDnsFilter.loadBlockLists
  rw [hclear]
  dsimp only
  rw [hload]
  rfl

/-! ## Reloads -/

/-- A rule as `LoadFilters_NoLock` makes it: temporary, without an id and without a host name. -/
def Spilled (rule : CDnsRule) : Prop := rule.m_Guid.value = .null ∧ rule.m_bTemporary = true ∧ rule.m_HostName = []

def mapRules (f : CDnsFilter) : List CDnsRule := f.m_EntryMap.map fun e => f.m_MemPool e.2

/-- The entries of the tree at some labels. -/
def treeEntries (f : CDnsFilter) (names : List Str) : List (SPathEntry RulePtr) := f.m_FilterTree.root.entriesAt names

def treeRules (f : CDnsFilter) (names : List Str) : List CDnsRule :=
  (f.treeEntries names).map fun entry => f.m_MemPool entry.pEntry

/-- A rule for a line of one of the lists there are. -/
def OnLists (env : DnsEnv) (files : HostsFiles) (f : CDnsFilter) (rule : CDnsRule) : Prop :=
  ∃ host ∈ listHosts env files f.m_BlockLists, host.spillsOver = true ∧
    rule.m_Path = reversePath (cName host.HostName)

/-- What a load of the block lists should do: a second one changes nothing, up to the objects that the
rules are in and the ids under which those of the lists are kept; nothing is left of lists that are
no more; and the user's rules are untouched. -/
structure ReloadsRight (env : DnsEnv) (files : HostsFiles) (f : CDnsFilter) : Prop where
  entryMap : (((f.loadBlockLists env files).loadBlockLists env files).mapRules).Perm (f.loadBlockLists env files).mapRules
  filterTree : ∀ names, (((f.loadBlockLists env files).loadBlockLists env files).treeRules names).Perm
    ((f.loadBlockLists env files).treeRules names)
  blockList : ((f.loadBlockLists env files).loadBlockLists env files).m_BlockList =
    (f.loadBlockLists env files).m_BlockList
  gone_entryMap : ∀ rule ∈ (f.loadBlockLists env files).mapRules, Spilled rule → OnLists env files f rule
  gone_filterTree : ∀ names, ∀ rule ∈ (f.loadBlockLists env files).treeRules names, Spilled rule → OnLists env files f rule
  gone_blockList : ∀ entry ∈ (f.loadBlockLists env files).m_BlockList,
    ∃ host ∈ listHosts env files f.m_BlockLists, host.spillsOver = false ∧ entry = host.listed
  kept_entryMap : ∀ e ∈ f.m_EntryMap, ¬ Spilled (f.m_MemPool e.2) →
    e ∈ (f.loadBlockLists env files).m_EntryMap ∧ (f.loadBlockLists env files).m_MemPool e.2 = f.m_MemPool e.2
  kept_filterTree : ∀ names, ∀ entry ∈ f.treeEntries names, ¬ Spilled (f.m_MemPool entry.pEntry) →
    entry ∈ (f.loadBlockLists env files).treeEntries names

/-- No list has a line that becomes a rule, none is left of an earlier load, and the tree has no rule
of the user's that is without an id. -/
structure NothingSpills (env : DnsEnv) (files : HostsFiles) (f : CDnsFilter) : Prop where
  lists : ∀ host ∈ listHosts env files f.m_BlockLists, host.spillsOver = false
  entryMap : ∀ rule ∈ f.mapRules, ¬ Spilled rule
  filterTree : ∀ names, ∀ rule ∈ f.treeRules names, rule.m_Guid.value ≠ .null

section Reloads

variable {env : DnsEnv} {files : HostsFiles} {f : CDnsFilter} {stored : List RulePtr}

theorem Holds.mem_treeEntries (h : f.Holds stored) (names : List Str) (entry : SPathEntry RulePtr) :
    entry ∈ f.treeEntries names ↔ ∃ p ∈ stored, entry = @storedEntry RulePtr f.pathEntry 0x2E p ∧
      names = storedAt 0x2E (f.m_MemPool p).m_Path := h.tree.mem_entriesAt names entry

theorem Holds.pEntry_mem (h : f.Holds stored) {names : List Str} {entry : SPathEntry RulePtr}
    (he : entry ∈ f.treeEntries names) : entry.pEntry ∈ stored := by
  obtain ⟨p, hp, rfl, -⟩ := (h.mem_treeEntries names entry).1 he
  exact hp

theorem Holds.rule_mem (h : f.Holds stored) {p : RulePtr} (hp : p ∈ stored) :
    ∃ names, ∃ entry ∈ f.treeEntries names, entry.pEntry = p :=
  ⟨_, _, (h.mem_treeEntries _ _).2 ⟨p, hp, rfl, rfl⟩, rfl⟩

/-- With nothing to clear, the tree is left as it is. -/
theorem treeEntries_of_filter {t : CPathTree RulePtr} {q : RulePtr → Bool} (h : f.Holds stored)
    (ht : ({ f with m_FilterTree := t } : CDnsFilter).Holds (stored.filter q)) (hall : ∀ p ∈ stored, q p = true)
    (names : List Str) (entry : SPathEntry RulePtr) :
    entry ∈ t.root.entriesAt names ↔ entry ∈ f.treeEntries names := by
  rw [List.filter_eq_self.2 hall] at ht
  exact (ht.mem_treeEntries names entry).trans (h.mem_treeEntries names entry).symm

theorem Holds.nodup_treeEntries (h : f.Holds stored) (names : List Str) : (f.treeEntries names).Nodup :=
  List.Nodup.of_map _ (h.tree.nodup names)

/-- One load, where nothing spills. -/
theorem NothingSpills.load (hn : NothingSpills env files f) (h : f.Holds stored) :
    (∃ t lists, f.loadBlockLists env files = { f with
        m_FilterTree := t
        m_BlockList := (listHosts env files f.m_BlockLists).map ListHost.listed
        m_BlockLists := lists } ∧ lists.map (·.1) = f.m_BlockLists.map (·.1)) ∧
      (f.loadBlockLists env files).Holds stored ∧
      (∀ names entry, entry ∈ (f.loadBlockLists env files).treeEntries names ↔ entry ∈ f.treeEntries names) := by
  obtain ⟨t, lists, heq, hnames, ht⟩ := h.loadBlockLists_plain env hn.lists
  have hall : ∀ p ∈ stored, (decide ¬ f.nameless p) = true := by
    intro p hp
    rw [decide_eq_true_eq]
    rintro ⟨-, -, -, hnull⟩
    obtain ⟨names, entry, he, rfl⟩ := h.rule_mem hp
    exact hn.filterTree names _ (List.mem_map_of_mem he) hnull
  have hentries := treeEntries_of_filter h ht hall
  rw [List.filter_eq_self.2 hall] at ht
  rw [heq]
  exact ⟨⟨t, lists, rfl, hnames⟩, ⟨ht.tree, ht.mapped, ht.inPool⟩, hentries⟩

/-- After a load where nothing spills, nothing spills at the next. -/
theorem NothingSpills.again (hn : NothingSpills env files f) (h : f.Holds stored) :
    NothingSpills env files (f.loadBlockLists env files) := by
  obtain ⟨⟨t, lists, heq, hnames⟩, -, hentries⟩ := hn.load h
  refine ⟨?_, ?_, ?_⟩
  · rw [heq]
    exact listHosts_congr env files hnames ▸ hn.lists
  · rw [heq]
    exact hn.entryMap
  · intro names rule hrule
    obtain ⟨entry, he, rfl⟩ := List.mem_map.1 hrule
    have hpool : (f.loadBlockLists env files).m_MemPool = f.m_MemPool := by rw [heq]
    rw [hpool]
    exact hn.filterTree names _ (List.mem_map_of_mem ((hentries names entry).1 he))

theorem NothingSpills.reloadsRight (hn : NothingSpills env files f) (h : f.Holds stored) : ReloadsRight env files f := by
  obtain ⟨⟨t, lists, heq, hnames⟩, hload, hentries⟩ := hn.load h
  obtain ⟨⟨t', lists', heq', -⟩, hload', hentries'⟩ := (hn.again h).load hload
  have hpool : (f.loadBlockLists env files).m_MemPool = f.m_MemPool := by rw [heq]
  have hmap : (f.loadBlockLists env files).m_EntryMap = f.m_EntryMap := by rw [heq]
  have hlist : (f.loadBlockLists env files).m_BlockList = (listHosts env files f.m_BlockLists).map ListHost.listed := by
    rw [heq]
  have hhosts : listHosts env files (f.loadBlockLists env files).m_BlockLists = listHosts env files f.m_BlockLists := by
    rw [heq]
    exact listHosts_congr env files hnames
  have hrules : (f.loadBlockLists env files).mapRules = f.mapRules := by
    unfold mapRules
    rw [hpool, hmap]
  constructor
  case entryMap =>
    rw [heq']
    exact .refl _
  case filterTree =>
    intro names
    have hpool' : ((f.loadBlockLists env files).loadBlockLists env files).m_MemPool =
      (f.loadBlockLists env files).m_MemPool := by rw [heq']
    unfold treeRules
    rw [hpool']
    refine List.Perm.map _ ((List.perm_ext_iff_of_nodup (hload'.nodup_treeEntries names) (hload.nodup_treeEntries names)).2 ?_)
    exact hentries' names
  case blockList =>
    rw [heq', hhosts, hlist]
  case gone_entryMap =>
    intro rule hrule hspilled
    rw [hrules] at hrule
    exact absurd hspilled (hn.entryMap rule hrule)
  case gone_filterTree =>
    intro names rule hrule hspilled
    exact absurd hspilled.1 ((hn.again h).filterTree names rule hrule)
  case gone_blockList =>
    intro entry he
    rw [hlist] at he
    obtain ⟨host, hhost, rfl⟩ := List.mem_map.1 he
    exact ⟨host, hhost, hn.lists host hhost, rfl⟩
  case kept_entryMap =>
    intro e he _
    rw [hmap, hpool]
    exact ⟨he, rfl⟩
  case kept_filterTree =>
    exact fun names entry he _ => (hentries names entry).2 he

/-- A load that adds rules does so at every call. -/
theorem ReloadsRight.lists (hr : ReloadsRight env files f) (h : f.Holds stored)
    (hids : NewIds env (f.made + 2 * f.ruleCount env files) f) :
    ∀ host ∈ listHosts env files f.m_BlockLists, host.spillsOver = false := by
  obtain ⟨stored', hload⟩ := h.loadBlockLists env files
  have hcount : (f.loadBlockLists env files).ruleCount env files = f.ruleCount env files := by
    unfold ruleCount
    rw [listHosts_congr env files (listNames_loadBlockLists env h files)]
  obtain ⟨hids', hmade, -⟩ := hids.loadBlockLists h files (by omega)
  have hlen := (hids'.loadBlockLists hload files (by omega)).2.2
  have hsame := hr.entryMap.length_eq
  simp only [mapRules, List.length_map] at hsame
  have hzero : f.ruleCount env files = 0 := by omega
  intro host hhost
  simpa using List.countP_eq_zero.1 hzero host hhost

theorem ReloadsRight.nothingSpills (hr : ReloadsRight env files f) (h : f.Holds stored)
    (hids : NewIds env (f.made + 2 * f.ruleCount env files) f) : NothingSpills env files f := by
  have hlists := hr.lists h hids
  obtain ⟨t, lists, heq, -, ht⟩ := h.loadBlockLists_plain env hlists
  have hrules : (f.loadBlockLists env files).mapRules = f.mapRules := by
    rw [heq]
    rfl
  have hmap : ∀ rule ∈ f.mapRules, ¬ Spilled rule := by
    intro rule hrule hspilled
    obtain ⟨host, hhost, hspills, -⟩ := hr.gone_entryMap rule (hrules ▸ hrule) hspilled
    exact absurd hspills (by simp [hlists host hhost])
  refine ⟨hlists, hmap, ?_⟩
  intro names rule hrule hnull
  obtain ⟨entry, he, rfl⟩ := List.mem_map.1 hrule
  obtain ⟨e, hin, hp⟩ := h.mapped _ (h.pEntry_mem he)
  have hkept := hr.kept_filterTree names entry he (hp ▸ hmap _ (List.mem_map_of_mem hin))
  rw [heq] at hkept
  have hstored := @Holds.pEntry_mem _ _ ht names _ hkept
  have hnot := of_decide_eq_true (List.mem_filter.1 hstored).2
  exact hnot ⟨e, hin, hp, hnull⟩

end Reloads

/-- After any calls a load of the block lists does what it should if and only if nothing spills: the
map of entries keeps what spilled over from the lists, and gets it again with every load. The ids that
two loads make are taken to be new. -/
theorem reloadsRight_iff (env : DnsEnv) (calls : List FilterCall) (files : HostsFiles)
    (hids : NewIds env ((new.run env calls).made + 2 * (new.run env calls).ruleCount env files) (new.run env calls)) :
    ReloadsRight env files (new.run env calls) ↔ NothingSpills env files (new.run env calls) := by
  obtain ⟨stored, h⟩ := holds_run env calls ⟨[], holds_new⟩
  exact ⟨fun hr => hr.nothingSpills h hids, fun hn => hn.reloadsRight h⟩

/-! ### A list with a wildcard -/

/-- Ids that differ in their last digit; an address, and the files of a list. -/
def sampleEnv : DnsEnv where
  mkGuid n := [0x30, 0x30, 0x30, 0x30, 0x30, 0x30, 0x30, 0x30, 0x2D, 0x30, 0x30, 0x30, 0x30, 0x2D, 0x34, 0x30, 0x30, 0x30, 0x2D,
    0x38, 0x30, 0x30, 0x30, 0x2D, 0x30, 0x30, 0x30, 0x30, 0x30, 0x30, 0x30, 0x30, 0x30, 0x30, 0x30, .ofNat (0x31 + n)]
  inet_pton4 s := if s = [0x30, 0x2E, 0x30, 0x2E, 0x30, 0x2E, 0x30] then some [0, 0, 0, 0] else none
  inet_pton6 _ := none
  GetFileNameFromUrl url := url

def sampleFiles (line : Bytes) : HostsFiles := fun file => if file = [0x68] then some [line] else none

/-- The list was configured when its file was not there yet. -/
def sampleCalls : List FilterCall := [.updateBlockLists (fun _ => none) [[0x68]]]

theorem listHosts_sample (line : Bytes) : listHosts sampleEnv (sampleFiles line) (new.run sampleEnv sampleCalls).m_BlockLists =
    lineHosts sampleEnv line := by
  have hlists : (new.run sampleEnv sampleCalls).m_BlockLists = [([0x68], ⟨[0x68], 0⟩)] := rfl
  rw [hlists]
  exact (List.append_nil _).trans (List.append_nil _)

/-- The line `0.0.0.0 ads` spills nothing. -/
theorem reloadsRight_iff_plain : ReloadsRight sampleEnv
    (sampleFiles [0x30, 0x2E, 0x30, 0x2E, 0x30, 0x2E, 0x30, 0x20, 0x61, 0x64, 0x73]) (new.run sampleEnv sampleCalls) := by
  have hhosts : ∀ host ∈ lineHosts sampleEnv [0x30, 0x2E, 0x30, 0x2E, 0x30, 0x2E, 0x30, 0x20, 0x61, 0x64, 0x73],
    host.spillsOver = false := by decide +kernel
  rw [← listHosts_sample] at hhosts
  have hmap : (new.run sampleEnv sampleCalls).m_EntryMap = [] := rfl
  refine (reloadsRight_iff sampleEnv sampleCalls _ ⟨?_, fun n _ _ e he => ?_⟩).2 ⟨hhosts, fun rule hrule => ?_, ?_⟩
  · intro m n hm
    unfold ruleCount at hm
    rw [List.countP_eq_zero.2 fun host hhost => by simp [hhosts host hhost]] at hm
    exact absurd hm (Nat.not_lt_zero m)
  · rw [hmap] at he
    exact nomatch he
  · rw [mapRules, hmap] at hrule
    exact nomatch hrule
  · intro names rule hrule
    obtain ⟨entry, he, rfl⟩ := List.mem_map.1 hrule
    obtain ⟨stored, h⟩ := holds_run sampleEnv sampleCalls ⟨[], holds_new⟩
    obtain ⟨e, hin, -⟩ := h.mapped _ (h.pEntry_mem he)
    rw [hmap] at hin
    exact nomatch hin

/-- The line `*.ads` becomes a rule with each load. -/
theorem reloadsRight_iff_wild : ¬ ∀ (env : DnsEnv) (calls : List FilterCall) (files : HostsFiles),
    NewIds env ((new.run env calls).made + 2 * (new.run env calls).ruleCount env files) (new.run env calls) →
    ReloadsRight env files (new.run env calls) := by
  intro hall
  obtain ⟨stored, h⟩ := holds_run sampleEnv sampleCalls ⟨[], holds_new⟩
  have hmap : (new.run sampleEnv sampleCalls).m_EntryMap = [] := rfl
  have hcount : (new.run sampleEnv sampleCalls).ruleCount sampleEnv (sampleFiles [0x2A, 0x2E, 0x61, 0x64, 0x73]) = 1 := by
    rw [ruleCount, listHosts_sample]
    decide +kernel
  have hids : NewIds sampleEnv ((new.run sampleEnv sampleCalls).made +
      2 * (new.run sampleEnv sampleCalls).ruleCount sampleEnv (sampleFiles [0x2A, 0x2E, 0x61, 0x64, 0x73]))
      (new.run sampleEnv sampleCalls) := by
    rw [hcount]
    refine ⟨?_, fun n _ _ e he => ?_⟩
    · have hdistinct : ∀ m < 2, ∀ n < 2, (newId sampleEnv m).compare (newId sampleEnv n) = .eq → m = n := by decide +kernel
      exact fun m n hm hn => hdistinct m hm n hn
    · rw [hmap] at he
      exact nomatch he
  have hlists := (hall sampleEnv sampleCalls _ hids).lists h hids
  rw [ruleCount, List.countP_eq_zero.2 fun host hhost => by simp [hlists host hhost]] at hcount
  exact absurd hcount (by decide)

end CDnsFilter

end MajorPrivacy.Dns

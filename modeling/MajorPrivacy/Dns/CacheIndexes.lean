/-
The maps of `CDnsInspector` over any calls: each entry of the cache is in the one of the two other maps
that it belongs to, once, these hold nothing else, and the cache has no two entries for one thing. An
entry keeps its name, type, address and text for life, so no call has to move it.
-/
import MajorPrivacy.Dns.DnsInspector
import MajorPrivacy.Lib.Index

namespace MajorPrivacy.Dns

open MajorPrivacy.Path Index
open MajorPrivacy.Firewall (CAddress EAF)

/-- Two entries agree in host name, type and what they resolve to: an address for the types that have
one, and a name for all others. -/
structure CDnsCacheEntry.Agree (e e' : CDnsCacheEntry) : Prop where
  host : e.m_HostName = e'.m_HostName
  type : e.m_Type = e'.m_Type
  address : isAddressType e.m_Type = true → addressKey e.m_Address = addressKey e'.m_Address
  name : isAddressType e.m_Type = false → e.m_ResolvedString = e'.m_ResolvedString

theorem CDnsCacheEntry.Agree.symm {e e' : CDnsCacheEntry} (h : e.Agree e') : e'.Agree e :=
  ⟨h.host.symm, h.type.symm, fun ht => (h.address (h.type ▸ ht)).symm, fun ht => (h.name (h.type ▸ ht)).symm⟩

/-- A change that leaves what an entry is found by. -/
structure KeepsKeys (change : CDnsCacheEntry → CDnsCacheEntry) : Prop where
  host : ∀ e, (change e).m_HostName = e.m_HostName
  type : ∀ e, (change e).m_Type = e.m_Type
  address : ∀ e, (change e).m_Address = e.m_Address
  name : ∀ e, (change e).m_ResolvedString = e.m_ResolvedString

theorem keepsKeys_setTTL (TTL : UInt64) : KeepsKeys (·.setTTL TTL) := by
  constructor
  all_goals
    intro e
    unfold CDnsCacheEntry.setTTL
    dsimp only
    split <;> rfl

theorem keepsKeys_subtractTTL (Delta : UInt64) (bKill : Bool) : KeepsKeys (·.subtractTTL Delta bKill) :=
  ⟨fun _ => rfl, fun _ => rfl, fun _ => rfl, fun _ => rfl⟩

theorem keepsKeys_mark (tick : UInt64) : KeepsKeys fun e => { e with m_RemoveTimeStamp := tick } :=
  ⟨fun _ => rfl, fun _ => rfl, fun _ => rfl, fun _ => rfl⟩

namespace CDnsInspector

/-- What `m_AddressCache` has for an entry. -/
def addressOf (s : CDnsInspector) (I : Str × EntryPtr) : Option (AddressKey × EntryPtr) :=
  if (s.entries I.2).m_Address.isNull then none else some (addressKey (s.entries I.2).m_Address, I.2)

/-- What `m_RedirectionCache` has for an entry. -/
def redirectionOf (s : CDnsInspector) (I : Str × EntryPtr) : Option (Str × EntryPtr) :=
  if (s.entries I.2).m_Address.isNull then some ((s.entries I.2).m_ResolvedString, I.2) else none

structure Indexed (s : CDnsInspector) : Prop where
  inPool : ∀ I ∈ s.m_DnsCache, I.2 < s.allocated
  nodup : (s.m_DnsCache.map (·.2)).Nodup
  host : ∀ I ∈ s.m_DnsCache, I.1 = (s.entries I.2).m_HostName
  address : IsIndex s.addressOf s.m_DnsCache s.m_AddressCache
  redirection : IsIndex s.redirectionOf s.m_DnsCache s.m_RedirectionCache
  distinct : ∀ I ∈ s.m_DnsCache, ∀ J ∈ s.m_DnsCache, (s.entries I.2).Agree (s.entries J.2) → I.2 = J.2

theorem indexed_new : new.Indexed := by
  constructor <;> simp [new, isIndex_nil]

variable {s : CDnsInspector}

/-! ## Changes -/

/-- What no entry is found for agrees with none. -/
theorem Indexed.not_agree (h : s.Indexed) {entry : CDnsCacheEntry}
    (hnone : s.findDnsEntry s.m_DnsCache entry.m_HostName entry.m_Type entry.m_Address entry.m_ResolvedString = none)
    {I : Str × EntryPtr} (hI : I ∈ s.m_DnsCache) : ¬ (s.entries I.2).Agree entry := by
  intro ha
  have hnot := List.find?_eq_none.1 hnone I hI
  have hhost : I.1 = entry.m_HostName := (h.host I hI).trans ha.host
  by_cases htype : isAddressType entry.m_Type = true
  · simp only [htype, if_true, hhost, true_and, decide_eq_true_eq] at hnot
    exact hnot (ha.address (ha.type ▸ htype))
  · simp only [htype, if_false, hhost, true_and, decide_eq_true_eq, ha.type, Bool.false_eq_true] at hnot
    exact hnot (ha.name (by simpa [ha.type] using htype))

theorem Indexed.insertEntry (h : s.Indexed) {entry : CDnsCacheEntry}
    (hnone : s.findDnsEntry s.m_DnsCache entry.m_HostName entry.m_Type entry.m_Address entry.m_ResolvedString = none) :
    (s.insertEntry entry).Indexed := by
  have hold : ∀ I ∈ s.m_DnsCache, (s.insertEntry entry).entries I.2 = s.entries I.2 :=
    fun I hI => if_neg (Nat.ne_of_lt (h.inPool I hI))
  have hnew : (s.insertEntry entry).entries s.allocated = entry := if_pos rfl
  have haddress := h.address.congr (g := (s.insertEntry entry).addressOf) fun I hI => by
    simp only [addressOf, hold I hI]
  have hredirection := h.redirection.congr (g := (s.insertEntry entry).redirectionOf) fun I hI => by
    simp only [redirectionOf, hold I hI]
  refine ⟨?_, ?_, ?_, ?_, ?_, ?_⟩
  · intro I hI
    obtain hI | hI := List.mem_append.1 hI
    · exact Nat.lt_succ_of_lt (h.inPool I hI)
    · rw [List.mem_singleton.1 hI]
      exact Nat.lt_succ_self _
  · have hmap : (s.insertEntry entry).m_DnsCache.map (·.2) = s.m_DnsCache.map (·.2) ++ [s.allocated] := List.map_append
    rw [hmap]
    refine List.nodup_append.2 ⟨h.nodup, List.nodup_singleton _, ?_⟩
    intro p hp q hq
    obtain ⟨I, hI, rfl⟩ := List.mem_map.1 hp
    rw [List.mem_singleton.1 hq]
    exact Nat.ne_of_lt (h.inPool I hI)
  · intro I hI
    obtain hI | hI := List.mem_append.1 hI
    · rw [hold I hI]
      exact h.host I hI
    · rw [List.mem_singleton.1 hI, hnew]
  · by_cases hnull : entry.m_Address.isNull = true
    · have hcache : (s.insertEntry entry).m_AddressCache = s.m_AddressCache := if_pos hnull
      rw [hcache]
      exact haddress.append_none (by simp [addressOf, hnew, hnull])
    · have hcache : (s.insertEntry entry).m_AddressCache = s.m_AddressCache ++ [(addressKey entry.m_Address, s.allocated)] :=
        if_neg hnull
      rw [hcache]
      exact haddress.append_some (by simp [addressOf, hnew, hnull])
  · by_cases hnull : entry.m_Address.isNull = true
    · have hcache : (s.insertEntry entry).m_RedirectionCache = s.m_RedirectionCache ++ [(entry.m_ResolvedString, s.allocated)] :=
        if_pos hnull
      rw [hcache]
      exact hredirection.append_some (by simp [redirectionOf, hnew, hnull])
    · have hcache : (s.insertEntry entry).m_RedirectionCache = s.m_RedirectionCache := if_neg hnull
      rw [hcache]
      exact hredirection.append_none (by simp [redirectionOf, hnew, hnull])
  · intro I hI J hJ ha
    obtain hI | hI := List.mem_append.1 hI <;> obtain hJ | hJ := List.mem_append.1 hJ
    · rw [hold I hI, hold J hJ] at ha
      exact h.distinct I hI J hJ ha
    · rw [hold I hI, List.mem_singleton.1 hJ, hnew] at ha
      exact absurd ha (h.not_agree hnone hI)
    · rw [hold J hJ, List.mem_singleton.1 hI, hnew] at ha
      exact absurd ha.symm (h.not_agree hnone hJ)
    · rw [List.mem_singleton.1 hI, List.mem_singleton.1 hJ]

theorem KeepsKeys.entries {change : CDnsCacheEntry → CDnsCacheEntry} (hk : KeepsKeys change) (s : CDnsInspector)
    (pEntry p : EntryPtr) : ((s.modifyEntry pEntry change).entries p).m_HostName = (s.entries p).m_HostName ∧
      ((s.modifyEntry pEntry change).entries p).m_Type = (s.entries p).m_Type ∧
      ((s.modifyEntry pEntry change).entries p).m_Address = (s.entries p).m_Address ∧
      ((s.modifyEntry pEntry change).entries p).m_ResolvedString = (s.entries p).m_ResolvedString := by
  unfold CDnsInspector.modifyEntry
  dsimp only
  split
  · exact ⟨hk.host _, hk.type _, hk.address _, hk.name _⟩
  · exact ⟨rfl, rfl, rfl, rfl⟩

theorem Indexed.modifyEntry (h : s.Indexed) {change : CDnsCacheEntry → CDnsCacheEntry} (hk : KeepsKeys change)
    (pEntry : EntryPtr) : (s.modifyEntry pEntry change).Indexed := by
  have hkeys := KeepsKeys.entries hk s pEntry
  refine ⟨h.inPool, h.nodup, fun I hI => ?_, h.address.congr fun I _ => ?_, h.redirection.congr fun I _ => ?_,
    fun I hI J hJ ha => h.distinct I hI J hJ ?_⟩
  · rw [(hkeys I.2).1]
    exact h.host I hI
  · simp only [addressOf, (hkeys I.2).2.2.1]
  · simp only [redirectionOf, (hkeys I.2).2.2.1, (hkeys I.2).2.2.2]
  · obtain ⟨hhost, htype, haddress, hname⟩ := ha
    rw [(hkeys I.2).1, (hkeys J.2).1] at hhost
    rw [(hkeys I.2).2.1] at htype haddress hname
    rw [(hkeys J.2).2.1] at htype
    rw [(hkeys I.2).2.2.1, (hkeys J.2).2.2.1] at haddress
    rw [(hkeys I.2).2.2.2, (hkeys J.2).2.2.2] at hname
    exact ⟨hhost, htype, haddress, hname⟩

/-- An entry that is taken off the cache is taken off the map it is in. -/
theorem Indexed.removeEntry (h : s.Indexed) {I : Str × EntryPtr} (hI : I ∈ s.m_DnsCache) : (s.removeEntry I).Indexed := by
  refine ⟨fun J hJ => h.inPool J (List.mem_of_mem_erase hJ), ?_, fun J hJ => h.host J (List.mem_of_mem_erase hJ), ?_, ?_,
    fun J hJ K hK => h.distinct J (List.mem_of_mem_erase hJ) K (List.mem_of_mem_erase hK)⟩
  · exact h.nodup.sublist ((List.erase_sublist).map _)
  · by_cases hnull : (s.entries I.2).m_Address.isNull = true
    · have hcache : (s.removeEntry I).m_AddressCache = s.m_AddressCache := if_pos hnull
      rw [hcache]
      exact h.address.erase_none (if_pos hnull)
    · have hcache : (s.removeEntry I).m_AddressCache = s.m_AddressCache.erase (addressKey (s.entries I.2).m_Address, I.2) :=
        if_neg hnull
      rw [hcache]
      exact h.address.erase_some hI (if_neg hnull)
  · by_cases hnull : (s.entries I.2).m_Address.isNull = true
    · have hcache : (s.removeEntry I).m_RedirectionCache = s.m_RedirectionCache.erase ((s.entries I.2).m_ResolvedString, I.2) :=
        if_pos hnull
      rw [hcache]
      exact h.redirection.erase_some hI (if_pos hnull)
    · have hcache : (s.removeEntry I).m_RedirectionCache = s.m_RedirectionCache := if_neg hnull
      rw [hcache]
      exact h.redirection.erase_none (if_neg hnull)

/-! ## Events -/

theorem Indexed.onEtwAddress (h : s.Indexed) (HostName : Str) (Address : CAddress) : (s.onEtwAddress HostName Address).Indexed := by
  unfold CDnsInspector.onEtwAddress
  split
  · exact h
  · dsimp only
    split
    · exact h
    · rename_i hnone
      exact h.insertEntry hnone

theorem Indexed.onEtwDnsEvent (h : s.Indexed) (MonitorDnsCache : Bool) (HostName : Str) (Results : List CAddress) :
    (s.onEtwDnsEvent MonitorDnsCache HostName Results).Indexed := by
  unfold CDnsInspector.onEtwDnsEvent
  split
  · exact h
  · induction Results generalizing s with
    | nil => exact h
    | cons Address Results ih => exact ih (h.onEtwAddress HostName Address)

theorem Indexed.onDnsFilterEvent (h : s.Indexed) (event : SDnsFilterEvent) : (s.onDnsFilterEvent event).Indexed := by
  unfold CDnsInspector.onDnsFilterEvent
  split
  · exact h
  · dsimp only
    split
    · rename_i hnone
      exact (h.insertEntry hnone).modifyEntry (keepsKeys_setTTL _) _
    · exact h.modifyEntry (keepsKeys_setTTL _) _

/-! ## Update -/

/-- What is left of the copy of the cache is still in it, each entry once. -/
structure Copied (s : CDnsInspector) (OldEntries : List (Str × EntryPtr)) : Prop where
  indexed : s.Indexed
  inCache : ∀ I ∈ OldEntries, I ∈ s.m_DnsCache
  nodup : OldEntries.Nodup

variable {OldEntries : List (Str × EntryPtr)}

theorem Copied.erase (h : Copied s OldEntries) {s' : CDnsInspector} (h' : s'.Indexed) (hcache : s'.m_DnsCache = s.m_DnsCache)
    (I : Str × EntryPtr) : Copied s' (OldEntries.erase I) where
  indexed := h'
  inCache := fun J hJ => hcache ▸ h.inCache J (List.mem_of_mem_erase hJ)
  nodup := h.nodup.erase I

theorem Copied.updateRecord (h : Copied s OldEntries) (record : DnsRecord) :
    Copied (CDnsInspector.updateRecord (s, OldEntries) record).1 (CDnsInspector.updateRecord (s, OldEntries) record).2 := by
  unfold CDnsInspector.updateRecord
  dsimp only
  split
  · exact h
  · split
    · exact h.erase (h.indexed.modifyEntry (keepsKeys_setTTL _) _) rfl _
    · split
      · exact h
      · rename_i hnone
        exact ⟨(h.indexed.insertEntry hnone).modifyEntry (keepsKeys_setTTL _) _,
          fun I hI => List.mem_append_left _ (h.inCache I hI), h.nodup⟩

theorem Copied.updateRecords (records : List DnsRecord) : ∀ {sOld : CDnsInspector × List (Str × EntryPtr)},
    Copied sOld.1 sOld.2 → Copied (records.foldl CDnsInspector.updateRecord sOld).1
      (records.foldl CDnsInspector.updateRecord sOld).2 := by
  induction records with
  | nil => exact fun h => h
  | cons record records ih => exact fun h => ih (h.updateRecord record)

theorem Copied.updateTable (table : List (Option (List DnsRecord))) : ∀ {sOld : CDnsInspector × List (Str × EntryPtr)},
    Copied sOld.1 sOld.2 → Copied (CDnsInspector.updateTable sOld table).1 (CDnsInspector.updateTable sOld table).2 := by
  induction table with
  | nil => exact fun h => h
  | cons results table ih => exact fun h => ih (Copied.updateRecords _ h)

theorem Copied.ageEntry (h : Copied s OldEntries) (input : UpdateInput) (TimeToSubtract : UInt64) (I : Str × EntryPtr) :
    Copied (CDnsInspector.ageEntry input TimeToSubtract (s, OldEntries) I).1
      (CDnsInspector.ageEntry input TimeToSubtract (s, OldEntries) I).2 := by
  unfold CDnsInspector.ageEntry
  dsimp only
  split
  · exact h.erase (h.indexed.modifyEntry (keepsKeys_subtractTTL _ _) _) rfl _
  · exact h

theorem Copied.ageEntries (input : UpdateInput) (TimeToSubtract : UInt64) (list : List (Str × EntryPtr)) :
    ∀ {sOld : CDnsInspector × List (Str × EntryPtr)}, Copied sOld.1 sOld.2 →
      Copied (list.foldl (CDnsInspector.ageEntry input TimeToSubtract) sOld).1
        (list.foldl (CDnsInspector.ageEntry input TimeToSubtract) sOld).2 := by
  induction list with
  | nil => exact fun h => h
  | cons I list ih => exact fun h => ih (h.ageEntry input TimeToSubtract I)

/-- The entries that are left are retired one after the other; the others stay in the cache. -/
theorem Copied.retireEntries (input : UpdateInput) : ∀ {OldEntries : List (Str × EntryPtr)} {s : CDnsInspector},
    Copied s OldEntries → (OldEntries.foldl (retireEntry input) s).Indexed
  | [], _, h => h.indexed
  | I :: OldEntries, s, h => by
    obtain ⟨hnot, hnodup⟩ := List.nodup_cons.1 h.nodup
    have hI := h.inCache I List.mem_cons_self
    have hrest : ∀ J ∈ OldEntries, J ∈ s.m_DnsCache := fun J hJ => h.inCache J (List.mem_cons_of_mem _ hJ)
    refine @Copied.retireEntries input OldEntries (retireEntry input s I) ?_
    unfold retireEntry
    dsimp only
    split
    · refine ⟨h.indexed.removeEntry hI, fun J hJ => ?_, hnodup⟩
      refine (List.mem_erase_of_ne ?_).2 (hrest J hJ)
      rintro rfl
      exact hnot hJ
    · split
      · exact ⟨h.indexed, hrest, hnodup⟩
      · exact ⟨h.indexed.modifyEntry (keepsKeys_mark _) _, hrest, hnodup⟩

theorem Indexed.update (h : s.Indexed) (input : UpdateInput) : (s.update input).Indexed := by
  have hcopy : Copied s s.m_DnsCache := ⟨h, fun _ hI => hI, h.nodup.of_map _⟩
  have htable := @Copied.updateTable (input.cacheDataTable.getD []) (s, s.m_DnsCache) hcopy
  have htime : Copied { (CDnsInspector.updateTable (s, s.m_DnsCache) (input.cacheDataTable.getD [])).1 with
      m_LastCacheTraverse := input.CurTick } (CDnsInspector.updateTable (s, s.m_DnsCache) (input.cacheDataTable.getD [])).2 :=
    ⟨⟨htable.indexed.inPool, htable.indexed.nodup, htable.indexed.host, htable.indexed.address, htable.indexed.redirection,
      htable.indexed.distinct⟩, htable.inCache, htable.nodup⟩
  exact Copied.retireEntries input (@Copied.ageEntries input _ _ (_, _) htime)

/-! ## Histories -/

theorem Indexed.step (h : s.Indexed) (call : InspectorCall) : (s.step call).Indexed := by
  cases call with
  | onEtwDnsEvent MonitorDnsCache HostName Results => exact h.onEtwDnsEvent MonitorDnsCache HostName Results
  | onDnsFilterEvent event => exact h.onDnsFilterEvent event
  | update input => exact h.update input

theorem Indexed.run : ∀ (calls : List InspectorCall) {s : CDnsInspector}, s.Indexed → (s.run calls).Indexed
  | [], _, h => h
  | call :: calls, _, h => Indexed.run calls (h.step call)

/-- The maps agree: an entry of the cache is once in the map by addresses, under its address, if it has
one, and otherwise once in the map by resolved names, under its name; there is nothing else in these;
and no two entries agree. -/
structure Consistent (s : CDnsInspector) : Prop where
  cacheOnce : (s.m_DnsCache.map (·.2)).Nodup
  addressOnce : (s.m_AddressCache.map (·.2)).Nodup
  redirectionOnce : (s.m_RedirectionCache.map (·.2)).Nodup
  host : ∀ HostName p, (HostName, p) ∈ s.m_DnsCache → HostName = (s.entries p).m_HostName
  address : ∀ key p, (key, p) ∈ s.m_AddressCache ↔ (∃ HostName, (HostName, p) ∈ s.m_DnsCache) ∧
    (s.entries p).m_Address.isNull = false ∧ key = addressKey (s.entries p).m_Address
  redirection : ∀ name p, (name, p) ∈ s.m_RedirectionCache ↔ (∃ HostName, (HostName, p) ∈ s.m_DnsCache) ∧
    (s.entries p).m_Address.isNull = true ∧ name = (s.entries p).m_ResolvedString
  distinct : ∀ HostName p HostName' p', (HostName, p) ∈ s.m_DnsCache → (HostName', p') ∈ s.m_DnsCache →
    (s.entries p).Agree (s.entries p') → p = p'

theorem Indexed.consistent (h : s.Indexed) : s.Consistent where
  cacheOnce := h.nodup
  addressOnce := h.address.nodup_map h.nodup fun I b hb => by
    unfold addressOf at hb
    split at hb
    · cases hb
    · rw [← Option.some.inj hb]
  redirectionOnce := h.redirection.nodup_map h.nodup fun I b hb => by
    unfold redirectionOf at hb
    split at hb
    · rw [← Option.some.inj hb]
    · cases hb
  host := fun HostName p hI => h.host (HostName, p) hI
  address := fun key p => by
    rw [h.address.mem_iff]
    constructor
    · rintro ⟨⟨HostName, q⟩, hI, hb⟩
      unfold addressOf at hb
      split at hb
      · cases hb
      · rename_i hnull
        obtain ⟨rfl, rfl⟩ := Prod.mk.inj (Option.some.inj hb)
        exact ⟨⟨HostName, hI⟩, Bool.not_eq_true _ ▸ hnull, rfl⟩
    · rintro ⟨⟨HostName, hI⟩, hnull, rfl⟩
      exact ⟨_, hI, if_neg (by simp [hnull])⟩
  redirection := fun name p => by
    rw [h.redirection.mem_iff]
    constructor
    · rintro ⟨⟨HostName, q⟩, hI, hb⟩
      unfold redirectionOf at hb
      split at hb
      · rename_i hnull
        obtain ⟨rfl, rfl⟩ := Prod.mk.inj (Option.some.inj hb)
        exact ⟨⟨HostName, hI⟩, hnull, rfl⟩
      · cases hb
    · rintro ⟨⟨HostName, hI⟩, hnull, rfl⟩
      exact ⟨_, hI, if_pos hnull⟩
  distinct := fun HostName p HostName' p' hI hJ ha => h.distinct _ hI _ hJ ha

/-- In every state that calls lead to the maps agree. -/
theorem consistent_run (calls : List InspectorCall) : (new.run calls).Consistent := (indexed_new.run calls).consistent

end CDnsInspector

end MajorPrivacy.Dns

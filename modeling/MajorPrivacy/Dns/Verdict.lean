/-
What `HandlePacket` blocks, against what is to be blocked: a query with a question of class INet whose
best rule says so, or that no rule speaks for and the block list has, in whatever letters. The loop
goes by the first question that it finds a rule for, or on the list letter for letter, and asks no
further.
-/
import Mathlib.Data.List.TakeWhile
import MajorPrivacy.Dns.DnsFilter
import MajorPrivacy.Path.Histories

namespace MajorPrivacy.Dns

open LittleEndian MajorPrivacy.Path

/-! ## What is to be blocked -/

/-- A letter of a host name as all its spellings have it. -/
def lowerByte (c : UInt8) : UInt8 := if 0x41 ≤ c ∧ c ≤ 0x5A then c + 32 else c

/-- Host names that differ in the case of letters at most. -/
def SameHost (name name' : Bytes) : Prop := name.map lowerByte = name'.map lowerByte

namespace CDnsFilter

variable (f : CDnsFilter)

/-- The rules that match the name of a question. -/
def matchingRules (query : Query) : List (SPathEntry RulePtr) :=
  f.m_FilterTree.getEntries (reversePath (buildName query.q_name)) true

/-- The best of the matching rules has an action. -/
def BestAction (query : Query) (action : EAction) : Prop :=
  ∃ best, IsBest (f.matchingRules query) best ∧ (f.m_MemPool best.pEntry).m_Action = action

/-- The block list has the name and the type of a question. -/
def Listed (query : Query) : Prop :=
  ∃ entry ∈ f.m_BlockList, SameHost entry.1.name (buildName query.q_name) ∧ entry.1.type = query.q_type

def QuestionBlocked (query : Query) : Prop :=
  f.BestAction query .eBlock ∨ (f.matchingRules query = [] ∨ f.BestAction query .eNone) ∧ f.Listed query

/-- A query that is to be blocked. -/
def ToBlock (packet : Packet) : Prop := ∃ query ∈ packet.query, query.q_class = Class.INet ∧ f.QuestionBlocked query

/-! ## What the loop goes by -/

/-- The loop ends with the action to block just at a question that its rule blocks, or that has no
rule and is on the list as it is spelled; no question of the class in front of it has a rule. -/
def FoundBlocked (queries : List Query) : Prop :=
  ∃ before query after, queries = before ++ query :: after ∧ query.q_class = Class.INet ∧
    ((∃ pEntry, f.ruleFor query = some pEntry ∧ (f.m_MemPool pEntry).m_Action = .eBlock) ∨
      f.ruleFor query = none ∧ f.isListed query = true) ∧
    ∀ query' ∈ before, query'.q_class = Class.INet → f.ruleFor query' = none

theorem foundBlocked_cons {query : Query} {queries : List Query} : f.FoundBlocked (query :: queries) ↔
    (query.q_class = Class.INet ∧ ((∃ pEntry, f.ruleFor query = some pEntry ∧ (f.m_MemPool pEntry).m_Action = .eBlock) ∨
      f.ruleFor query = none ∧ f.isListed query = true)) ∨
    (query.q_class = Class.INet → f.ruleFor query = none) ∧ f.FoundBlocked queries := by
  constructor
  · rintro ⟨before, query', after, heq, hclass, hfound, hbefore⟩
    cases before with
    | nil =>
      obtain ⟨rfl, rfl⟩ := List.cons.inj heq
      exact .inl ⟨hclass, hfound⟩
    | cons q before =>
      obtain ⟨rfl, rfl⟩ := List.cons.inj heq
      exact .inr ⟨hbefore query List.mem_cons_self,
        before, query', after, rfl, hclass, hfound, fun q hq => hbefore q (List.mem_cons_of_mem _ hq)⟩
  · rintro (⟨hclass, hfound⟩ | ⟨hnone, before, query', after, rfl, hclass, hfound, hbefore⟩)
    · exact ⟨[], query, queries, rfl, hclass, hfound, by simp⟩
    · refine ⟨query :: before, query', after, rfl, hclass, hfound, ?_⟩
      intro q hq
      obtain rfl | hq := List.mem_cons.1 hq
      · exact hnone
      · exact hbefore q hq

theorem filterLoop_eq_eBlock : ∀ queries : List Query,
    (f.filterLoop .eNone queries).1 = .eBlock ↔ f.FoundBlocked queries
  | [] => by simp [filterLoop, FoundBlocked]
  | query :: queries => by
    have ih := filterLoop_eq_eBlock queries
    rw [filterLoop, foundBlocked_cons]
    by_cases hclass : query.q_class = Class.INet
    · rw [if_neg (not_not.2 hclass)]
      cases hrule : f.ruleFor query with
      | some pEntry => simp [hclass]
      | none =>
        by_cases hlisted : f.isListed query = true
        · simp [hclass, hlisted]
        · simp [hclass, hlisted, ih]
    · simp [hclass, ih]

theorem isBlocked_handlePacket {packet : Packet} (hquery : packet.QR = 0) :
    (f.handlePacket packet).2.isBlocked = true ↔ f.FoundBlocked packet.query := by
  rw [← filterLoop_eq_eBlock, handlePacket, if_pos hquery]
  obtain ⟨Action, hit⟩ := f.filterLoop .eNone packet.query
  by_cases hblock : Action = .eBlock
  · simp [hblock, Handled.isBlocked]
  · simp [hblock, Handled.isBlocked]

/-! ## Names that are read whole -/

/-- A name that the rules are asked for as it is: it has labels, and no zero in them. -/
def ReadWhole (query : Query) : Prop := reversePath (buildName query.q_name) ≠ [] ∧ 0 ∉ buildName query.q_name

theorem ruleFor_of_readWhole {query : Query} (h : ReadWhole query) :
    f.ruleFor query = bestOf (f.matchingRules query) := by
  have hname : cName (buildName query.q_name) = buildName query.q_name :=
    List.takeWhile_eq_self_iff.2 fun c hc => by
      simp only [decide_eq_true_eq]
      rintro rfl
      exact h.2 hc
  unfold ruleFor matchingRules
  rw [hname]
  exact if_neg h.1

theorem listed_of_isListed {query : Query} (h : f.isListed query = true) : f.Listed query := by
  unfold isListed at h
  obtain ⟨entry, hmem, hkey⟩ := List.any_eq_true.1 h
  have hkey := of_decide_eq_true hkey
  exact ⟨entry, hmem, by rw [hkey, SameHost], by rw [hkey]⟩

/-- What blocks a question for the loop blocks it rightly. -/
theorem questionBlocked_of_found {query : Query} (hwhole : ReadWhole query)
    (h : (∃ pEntry, f.ruleFor query = some pEntry ∧ (f.m_MemPool pEntry).m_Action = .eBlock) ∨
      f.ruleFor query = none ∧ f.isListed query = true) : f.QuestionBlocked query := by
  rw [ruleFor_of_readWhole f hwhole] at h
  obtain ⟨pEntry, hrule, haction⟩ | ⟨hnone, hlisted⟩ := h
  · obtain ⟨best, hbest, rfl⟩ := bestOf_eq_some.1 hrule
    exact .inl ⟨best, hbest, haction⟩
  · exact .inr ⟨.inl (bestOf_eq_none.1 hnone), f.listed_of_isListed hlisted⟩

/-! ## The verdict -/

/-- The questions of the class are such that the loop tells the packet that is to be blocked: one of
those that make it so is found before another question has a rule, and a question whose name is not
read whole does not make it otherwise. -/
structure Discerned (packet : Packet) : Prop where
  found : f.ToBlock packet → f.FoundBlocked packet.query
  weird : (∃ query ∈ packet.query, query.q_class = Class.INet ∧ ¬ ReadWhole query) →
    f.FoundBlocked packet.query → f.ToBlock packet

/-- The verdict on a query is the right one just if its questions are discerned. -/
theorem isBlocked_iff_toBlock (packet : Packet) (hquery : packet.QR = 0) :
    ((f.handlePacket packet).2.isBlocked = true ↔ f.ToBlock packet) ↔ f.Discerned packet := by
  rw [isBlocked_handlePacket f hquery]
  constructor
  · exact fun h => ⟨h.2, fun _ => h.1⟩
  · intro h
    refine ⟨fun hfound => ?_, h.found⟩
    obtain ⟨before, query, after, heq, hclass, hblock, -⟩ := id hfound
    have hmem : query ∈ packet.query := by simp [heq]
    by_cases hwhole : ReadWhole query
    · exact ⟨query, hmem, hclass, f.questionBlocked_of_found hwhole hblock⟩
    · exact h.weird ⟨query, hmem, hclass, hwhole⟩ hfound

end CDnsFilter

/-! ### A name in two spellings -/

/-- The question for an address, and a query with this question. -/
def addressQuestion (name : Name) : Query := ⟨name, 1, Class.INet⟩

def addressQuery (name : Name) : Packet := ⟨0, 0, 0, 0, 0, 1, 0, 0, 0, [addressQuestion name], [], [], []⟩

/-- No rules, and the one name `ads` on the block list. -/
def adsFilter : CDnsFilter where
  m_MemPool := fun _ => ⟨[], .new, true, false, [], .eNone, 0⟩
  allocated := 0
  made := 0
  m_FilterTree := .new 0x2E true
  m_EntryMap := []
  m_BlockList := [(⟨[0x61, 0x64, 0x73], 1⟩, [0, 0, 0, 0])]
  m_BlockLists := []

theorem getEntries_adsFilter (path : Str) : adsFilter.m_FilterTree.getEntries path true = [] := by
  apply List.eq_nil_iff_forall_not_mem.2
  intro entry hmem
  obtain ⟨e, he, -⟩ := ((TreeHistory.inv_new 0x2E true fun _ : RulePtr => []).mem_getEntries path true entry).1 hmem
  exact nomatch he

theorem ruleFor_adsFilter (query : Query) : adsFilter.ruleFor query = none := by
  unfold CDnsFilter.ruleFor CPathTree.getBestEntry
  simp [getEntries_adsFilter, bestOf_eq_none.2]

theorem matchingRules_adsFilter (query : Query) : adsFilter.matchingRules query = [] := getEntries_adsFilter _

theorem isBlocked_iff_toBlock_ads :
    (adsFilter.handlePacket (addressQuery [[0x61, 0x64, 0x73]])).2.isBlocked = true ↔
      adsFilter.ToBlock (addressQuery [[0x61, 0x64, 0x73]]) := by
  have hfound : adsFilter.FoundBlocked [addressQuestion [[0x61, 0x64, 0x73]]] :=
    ⟨[], _, [], rfl, rfl, .inr ⟨ruleFor_adsFilter _, by decide⟩, by simp⟩
  refine (CDnsFilter.isBlocked_iff_toBlock adsFilter (addressQuery [[0x61, 0x64, 0x73]]) rfl).2 ⟨fun _ => hfound, fun _ _ => ?_⟩
  exact ⟨_, List.mem_singleton_self _, rfl, .inr ⟨.inl (matchingRules_adsFilter _),
    _, List.mem_singleton_self _, rfl, rfl⟩⟩

/-- Asked as `ADS`, the name passes. -/
theorem isBlocked_iff_toBlock_spelling : ¬ ∀ (f : CDnsFilter) (packet : Packet), packet.QR = 0 →
    ((f.handlePacket packet).2.isBlocked = true ↔ f.ToBlock packet) := by
  intro h
  have hblock : adsFilter.ToBlock (addressQuery [[0x41, 0x44, 0x53]]) :=
    ⟨_, List.mem_singleton_self _, rfl, .inr ⟨.inl (matchingRules_adsFilter _),
      _, List.mem_singleton_self _, by rfl, rfl⟩⟩
  have hfound := (adsFilter.isBlocked_handlePacket rfl).1 ((h adsFilter (addressQuery [[0x41, 0x44, 0x53]]) rfl).2 hblock)
  rw [← CDnsFilter.filterLoop_eq_eBlock, addressQuery, CDnsFilter.filterLoop, ruleFor_adsFilter] at hfound
  exact absurd hfound (by decide)

end MajorPrivacy.Dns

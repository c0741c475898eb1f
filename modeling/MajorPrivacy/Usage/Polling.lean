/-
The user interface polls the usage of a program with the watermark it has of a tier. The service sends
nothing when the newest bucket is the one asked for and is over, as the client should have its final
value then. It has, unless a sample went into that bucket after the answer in which the client got it.
-/
import MajorPrivacy.Usage.UsageHistory

namespace MajorPrivacy.Usage

/-! ## A service and its client -/

/-- The log of a program, the copy in the user interface, the time of the last commit, and whether a
sample went into the newest bucket that the client has of a tier since it got it. -/
structure Polled where
  log : CUsageLog
  history : EUsageTier → HistoryTier
  last : UInt64
  grown : EUsageTier → Prop

def Polled.new : Polled := ⟨.new, fun _ => .new, 0, fun _ => False⟩

inductive Event
  | network (type : EEventType) (transferSize : UInt32) (bLan : Bool)
  | connections (bInbound : Bool) (seconds : UInt32)
  | commit (nowMs : UInt64) (pSample : Option SUsageSample)
  | truncate (nowMs secondsWindow retentionMinutes : UInt64)
  | poll (tier : EUsageTier) (nowMs : UInt64)

namespace Polled

/-- A commit has a sample for the newest bucket that the client has. -/
def Grows (s : Polled) (nowMs : UInt64) (pSample : Option SUsageSample) (tier : EUsageTier) : Prop :=
  s.log.sampleOf pSample ≠ 0 ∧ bucketTime (usageTierInterval tier) (nowSec nowMs) = (s.history tier).watermark

/-- `Dump` of what is asked for. -/
def answer (s : Polled) (tier : EUsageTier) (nowMs : UInt64) : Option UsageData :=
  s.log.dump tier (s.history tier).watermark nowMs

def step (s : Polled) : Event → Polled
  | .network type transferSize bLan => { s with log := s.log.addNetworkIO type transferSize bLan }
  | .connections bInbound seconds => { s with log := s.log.addConnections bInbound seconds }
  | .commit nowMs pSample =>
    { s with log := s.log.commit nowMs pSample, last := nowMs, grown := fun tier => s.grown tier ∨ s.Grows nowMs pSample tier }
  | .truncate nowMs secondsWindow retentionMinutes => { s with log := s.log.truncate nowMs secondsWindow retentionMinutes }
  | .poll tier nowMs =>
    { s with
      history := Function.update s.history tier ((s.history tier).merge (s.answer tier nowMs))
      grown := Function.update s.grown tier (s.grown tier ∧ s.answer tier nowMs = none) }

def run (s : Polled) (events : List Event) : Polled := events.foldl step s

/-- The client has every bucket of the service's tier, each with the value it has there. -/
structure Agrees (s : Polled) (tier : EUsageTier) : Prop where
  ordered : Ordered (s.history tier).buckets
  held : ∀ b ∈ s.log.tier tier, b ∈ (s.history tier).buckets

/-- The commits are in the order of their times, from the first minute of 1970 to 2106. -/
def InTime (s : Polled) : Event → Prop
  | .commit nowMs _ => s.last ≤ nowMs ∧ 60 ≤ (nowMs / 1000).toNat ∧ (nowMs / 1000).toNat < UInt32.size
  | _ => True

/-- A poll does not find the client's newest bucket over and still the newest when it has grown since. -/
def Settled (s : Polled) : Event → Prop
  | .poll tier nowMs => s.grown tier → ¬ CUsageLog.closed tier (s.history tier).watermark nowMs ∨
      (∃ b ∈ s.log.tier tier, (s.history tier).watermark < b.time) ∨ ∀ b ∈ s.log.tier tier, b.time ≠ (s.history tier).watermark
  | _ => True

/-- Both hold of every event of a run. -/
def Smooth : Polled → List Event → Prop
  | _, [] => True
  | s, e :: events => s.InTime e ∧ s.Settled e ∧ (s.step e).Smooth events

end Polled

/-! ## Times -/

theorem bucketTime_toNat (interval nowSec : UInt32) :
    (bucketTime interval nowSec).toNat = interval.toNat * (nowSec.toNat / interval.toNat) := by
  have hle : nowSec % interval ≤ nowSec := by
    rw [UInt32.le_iff_toNat_le, UInt32.toNat_mod]
    exact Nat.mod_le _ _
  rw [bucketTime, UInt32.toNat_sub_of_le _ _ hle, UInt32.toNat_mod]
  have := Nat.div_add_mod nowSec.toNat interval.toNat
  omega

theorem nowSec_toNat {nowMs : UInt64} (h : (nowMs / 1000).toNat < UInt32.size) : (nowSec nowMs).toNat = (nowMs / 1000).toNat := by
  rw [nowSec, UInt64.toNat_toUInt32]
  exact Nat.mod_eq_of_lt h

/-- Later times are in later buckets. -/
theorem bucketTime_mono (interval : UInt32) {a b : UInt64} (hab : a ≤ b) (hb : (b / 1000).toNat < UInt32.size) :
    bucketTime interval (nowSec a) ≤ bucketTime interval (nowSec b) := by
  have hle : (a / 1000).toNat ≤ (b / 1000).toNat := by
    rw [UInt64.toNat_div, UInt64.toNat_div]
    exact Nat.div_le_div_right (UInt64.le_iff_toNat_le.1 hab)
  rw [UInt32.le_iff_toNat_le, bucketTime_toNat, bucketTime_toNat, nowSec_toNat hb, nowSec_toNat (Nat.lt_of_le_of_lt hle hb)]
  exact Nat.mul_le_mul_left _ (Nat.div_le_div_right hle)

theorem bucketTime_ne_zero (tier : EUsageTier) {nowMs : UInt64} (hmin : 60 ≤ (nowMs / 1000).toNat)
    (hmax : (nowMs / 1000).toNat < UInt32.size) : bucketTime (usageTierInterval tier) (nowSec nowMs) ≠ 0 := by
  rintro h
  have htime := congrArg UInt32.toNat h
  have hzero : (0 : UInt32).toNat = 0 := rfl
  rw [bucketTime_toNat, nowSec_toNat hmax, hzero] at htime
  cases tier with
  | seconds =>
    have hone : (usageTierInterval .seconds).toNat = 1 := rfl
    rw [hone] at htime
    omega
  | minutes =>
    have hsixty : (usageTierInterval .minutes).toNat = 60 := rfl
    rw [hsixty] at htime
    omega

/-- Only the bucket that a sample goes into is new. -/
theorem mem_of_mem_addBucket {bucket : UInt32} {sample : SUsageSample} {buckets : Buckets} (hle : ∀ b ∈ buckets, b.time ≤ bucket)
    {b : SUsageBucket} (hb : b ∈ addBucket bucket sample buckets) : b ∈ buckets ∨ b.time = bucket := by
  rcases List.eq_nil_or_concat buckets with rfl | ⟨front, last, rfl⟩
  · rcases List.mem_singleton.1 hb with rfl
    exact .inr rfl
  · rw [List.concat_eq_append] at hle hb ⊢
    rw [addBucket_concat] at hb
    rcases List.mem_append.1 hb with hb | hb
    · exact .inl (List.mem_append_left _ hb)
    · split at hb
      · rename_i hge
        rcases List.mem_singleton.1 hb with rfl
        exact .inr (UInt32.le_antisymm (hle last (by simp)) hge)
      · rcases List.mem_pair.1 hb with rfl | rfl
        · exact .inl (by simp)
        · exact .inr rfl

/-! ## Answers -/

/-- What is sent are the buckets from the watermark on; nothing is sent when there are none, or only
the one asked for and it is over. -/
theorem dump_cases (log : CUsageLog) {tier : EUsageTier} (h : Ordered (log.tier tier)) (since : UInt32) (nowMs : UInt64) :
    (log.dump tier since nowMs = none ∧ ((∀ b ∈ log.tier tier, b.time < since) ∨
      (∀ b ∈ log.tier tier, b.time ≤ since) ∧ (∃ b ∈ log.tier tier, b.time = since) ∧ CUsageLog.closed tier since nowMs)) ∨
    ∃ first rest, (log.tier tier).filter (since ≤ ·.time) = first :: rest ∧
      log.dump tier since nowMs = some (CUsageLog.dumpTier tier (first :: rest)) := by
  have hdrop := h.drop_lowerBound since
  unfold CUsageLog.dump
  dsimp only
  rw [hdrop]
  have hmem : ∀ b ∈ log.tier tier, b ∈ (log.tier tier).filter (since ≤ ·.time) ∨ b.time < since := fun b hb => by
    by_cases hle : since ≤ b.time
    · exact .inl (List.mem_filter.2 ⟨hb, by simpa using hle⟩)
    · exact .inr (UInt32.not_le.1 hle)
  split
  · rename_i hlength
    rw [List.length_eq_zero_iff.1 hlength]
    exact .inl ⟨rfl, .inl fun b hb => by cases hb⟩
  · split
    · rename_i hnil
      refine .inl ⟨rfl, .inl fun b hb => ?_⟩
      rcases hmem b hb with hb | hb
      · rw [hnil] at hb
        cases hb
      · exact hb
    · rename_i last hlast
      have hin : last ∈ log.tier tier := (List.mem_filter.1 (hlast ▸ List.mem_singleton_self last)).1
      split
      · rename_i hclosed
        refine .inl ⟨rfl, .inr ⟨fun b hb => ?_, ⟨last, hin, hclosed.1⟩, hclosed.1 ▸ hclosed.2⟩⟩
        rcases hmem b hb with hb | hb
        · rw [hlast] at hb
          rcases List.mem_singleton.1 hb with rfl
          exact UInt32.le_of_eq hclosed.1
        · exact UInt32.le_of_lt hb
      · exact .inr ⟨last, [], hlast, rfl⟩
    · rename_i hnil hone
      rcases hnewer : (log.tier tier).filter (since ≤ ·.time) with _ | ⟨first, rest⟩
      · exact absurd hnewer hnil
      · exact .inr ⟨first, rest, hnewer, hnewer ▸ rfl⟩

theorem interval_foldl_mergeBucket : ∀ (buckets : Buckets) (tier : HistoryTier),
    (buckets.foldl HistoryTier.mergeBucket tier).interval = tier.interval
  | [], _ => rfl
  | b :: buckets, tier => interval_foldl_mergeBucket buckets (tier.mergeBucket b)

/-! ## What a run keeps -/

/-- The copy has the buckets that are not newer than its watermark, but for the one with that time when
it has grown. -/
structure Polled.Inv (s : Polled) (tier : EUsageTier) : Prop where
  ordered : ∀ tier, Ordered (s.log.tier tier)
  last : (s.last / 1000).toNat < UInt32.size
  past : ∀ b ∈ s.log.tier tier, b.time ≤ bucketTime (usageTierInterval tier) (nowSec s.last) ∧ b.time ≠ 0
  copy : (s.history tier).WellFormed
  seen : (s.history tier).watermark ≤ bucketTime (usageTierInterval tier) (nowSec s.last)
  interval : (s.history tier).interval = usageTierInterval tier ∨ (s.history tier).buckets = [] ∧ (s.history tier).watermark = 0
  older : ∀ b ∈ s.log.tier tier, b.time < (s.history tier).watermark → b ∈ (s.history tier).buckets
  newest : ¬ s.grown tier → ∀ b ∈ s.log.tier tier, b.time = (s.history tier).watermark → b ∈ (s.history tier).buckets

theorem Polled.Inv.new (tier : EUsageTier) : Polled.new.Inv tier := by
  have hnil : Polled.new.log.tier tier = [] := by
    cases tier <;> rfl
  refine ⟨fun tier => ?_, by decide, by simp [hnil], ⟨List.Pairwise.nil, by simp [Polled.new, HistoryTier.new], .inl ⟨rfl, rfl⟩⟩,
    UInt32.zero_le, .inr ⟨rfl, rfl⟩, by simp [hnil], by simp [hnil]⟩
  cases tier <;> exact List.Pairwise.nil

/-- Buckets that go from the tier take nothing from the copy. -/
theorem Polled.Inv.of_sub {s t : Polled} {tier : EUsageTier} (h : s.Inv tier) (hordered : ∀ tier, Ordered (t.log.tier tier))
    (hsub : ∀ b ∈ t.log.tier tier, b ∈ s.log.tier tier) (hlast : t.last = s.last) (hhistory : t.history = s.history)
    (hgrown : t.grown = s.grown) : t.Inv tier := by
  refine ⟨hordered, hlast ▸ h.last, fun b hb => hlast ▸ h.past b (hsub b hb), ?_, ?_, ?_, ?_, ?_⟩
  · exact hhistory ▸ h.copy
  · exact hhistory ▸ hlast ▸ h.seen
  · exact hhistory ▸ h.interval
  · exact hhistory ▸ fun b hb => h.older b (hsub b hb)
  · exact hhistory ▸ hgrown ▸ fun hg b hb => h.newest hg b (hsub b hb)

theorem Polled.Inv.commit {s : Polled} {tier : EUsageTier} (h : s.Inv tier) {nowMs : UInt64} {pSample : Option SUsageSample}
    (hin : s.InTime (.commit nowMs pSample)) : (s.step (.commit nowMs pSample)).Inv tier := by
  rcases hin with ⟨hle, hmin, hmax⟩
  have hmono := bucketTime_mono (usageTierInterval tier) hle hmax
  have hold : ∀ b ∈ s.log.tier tier, b.time ≤ bucketTime (usageTierInterval tier) (nowSec nowMs) ∧ b.time ≠ 0 := fun b hb =>
    ⟨UInt32.le_trans (h.past b hb).1 hmono, (h.past b hb).2⟩
  have hseen := UInt32.le_trans h.seen hmono
  have hordered : ∀ tier, Ordered ((s.log.commit nowMs pSample).tier tier) := fun tier => by
    rcases tier_commit s.log nowMs pSample h.ordered tier with htier | ⟨-, p, htier⟩
    · exact htier.symm ▸ h.ordered tier
    · exact htier.symm ▸ (h.ordered tier).addBucket.filter p
  -- A bucket of the tier was there before, or it is the one of the sample.
  have hmem : ∀ b ∈ (s.log.commit nowMs pSample).tier tier, b ∈ s.log.tier tier ∨
      s.log.sampleOf pSample ≠ 0 ∧ b.time = bucketTime (usageTierInterval tier) (nowSec nowMs) := fun b hb => by
    rcases tier_commit s.log nowMs pSample h.ordered tier with htier | ⟨hne, p, htier⟩
    · exact .inl (htier ▸ hb)
    · rw [htier] at hb
      rcases mem_of_mem_addBucket (fun c hc => (hold c hc).1) (List.mem_filter.1 hb).1 with hb | hb
      · exact .inl hb
      · exact .inr ⟨hne, hb⟩
  refine ⟨hordered, hmax, fun b hb => ?_, h.copy, hseen, h.interval, fun b hb hlt => ?_, fun hg b hb heq => ?_⟩
  · rcases hmem b hb with hb | ⟨-, hb⟩
    · exact hold b hb
    · exact ⟨UInt32.le_of_eq hb, hb.symm ▸ bucketTime_ne_zero tier hmin hmax⟩
  · rcases hmem b hb with hb | ⟨-, hb⟩
    · exact h.older b hb hlt
    · exact absurd (hb ▸ hlt) (UInt32.not_lt.2 hseen)
  · have hg : ¬ s.grown tier ∧ ¬ s.Grows nowMs pSample tier := not_or.1 hg
    rcases hmem b hb with hb | ⟨hne, hb⟩
    · exact h.newest hg.1 b hb heq
    · exact absurd ⟨hne, hb ▸ heq⟩ hg.2

/-- An answer brings the copy up to date. -/
theorem Polled.Inv.merge {s : Polled} {tier : EUsageTier} (h : s.Inv tier) {first : SUsageBucket} {rest : Buckets}
    (hnewer : (s.log.tier tier).filter ((s.history tier).watermark ≤ ·.time) = first :: rest) :
    ((s.history tier).merge (some (CUsageLog.dumpTier tier (first :: rest)))).WellFormed ∧
    ((s.history tier).merge (some (CUsageLog.dumpTier tier (first :: rest)))).interval = usageTierInterval tier ∧
    ((s.history tier).merge (some (CUsageLog.dumpTier tier (first :: rest)))).buckets =
      (s.history tier).buckets.filter (·.time < first.time) ++ first :: rest := by
  have hmem : ∀ b ∈ first :: rest, b ∈ s.log.tier tier ∧ (s.history tier).watermark ≤ b.time := fun b hb => by
    rw [← hnewer] at hb
    exact ⟨(List.mem_filter.1 hb).1, by simpa using (List.mem_filter.1 hb).2⟩
  have hbuckets : (CUsageLog.dumpTier tier (first :: rest)).buckets = first :: rest := by
    rw [buckets_dumpTier]
    exact List.filter_eq_self.2 fun b hb => by simpa using (h.past b (hmem b hb).1).2
  have hordered : Ordered (first :: rest) := hnewer ▸ (h.ordered tier).filter _
  have htakes : ¬ ((CUsageLog.dumpTier tier (first :: rest)).interval = 0 ∨ (CUsageLog.dumpTier tier (first :: rest)).recSize < 4) := by
    have hsize : ¬ (84 : UInt32) < 4 := by decide
    rintro (hzero | hlt)
    · cases tier <;> cases hzero
    · exact hsize hlt
  generalize hstart : (if (s.history tier).interval ≠ usageTierInterval tier then
    { s.history tier with buckets := [], watermark := 0, interval := usageTierInterval tier } else s.history tier) = start
  have hsame : start.buckets = (s.history tier).buckets ∧ start.watermark = (s.history tier).watermark ∧
      start.interval = usageTierInterval tier := by
    rw [← hstart]
    split
    · rename_i hne
      rcases h.interval with heq | ⟨hnil, hzero⟩
      · exact absurd heq hne
      · exact ⟨hnil.symm, hzero.symm, rfl⟩
    · rename_i heq
      exact ⟨rfl, rfl, not_not.1 heq⟩
  have hwf : start.WellFormed := by
    refine ⟨hsame.1 ▸ h.copy.ordered, ?_, ?_⟩
    · rw [hsame.1, hsame.2.1]
      exact h.copy.watermark
    · rw [hsame.1, hsame.2.1]
      exact h.copy.newest
  rcases foldl_mergeBucket_spec hwf hordered (hsame.2.1 ▸ (hmem first List.mem_cons_self).2)
    (fun b hb => (h.past b (hmem b hb).1).2) with ⟨hwf', hbuckets'⟩
  have hmerge : (s.history tier).merge (some (CUsageLog.dumpTier tier (first :: rest))) =
      let merged := (first :: rest).foldl HistoryTier.mergeBucket start
      { merged with revision := merged.revision + 1 } := by
    rw [HistoryTier.merge, if_neg htakes]
    dsimp only
    rw [hbuckets, if_neg (List.cons_ne_nil _ _), ← hstart]
    rfl
  rw [hmerge]
  refine ⟨⟨hwf'.ordered, hwf'.watermark, hwf'.newest⟩, ?_, hsame.1 ▸ hbuckets'⟩
  exact (interval_foldl_mergeBucket (first :: rest) start).trans hsame.2.2

/-- After a poll that does not miss anything the copy has what the service has. -/
theorem Polled.Inv.poll {s : Polled} {tier : EUsageTier} (h : s.Inv tier) {nowMs : UInt64} (hsettled : s.Settled (.poll tier nowMs)) :
    (s.step (.poll tier nowMs)).Inv tier ∧ (s.step (.poll tier nowMs)).Agrees tier := by
  have hhistory : (s.step (.poll tier nowMs)).history tier = (s.history tier).merge (s.answer tier nowMs) := Function.update_self ..
  have hgrown : (s.step (.poll tier nowMs)).grown tier = (s.grown tier ∧ s.answer tier nowMs = none) := Function.update_self ..
  rcases dump_cases s.log (h.ordered tier) (s.history tier).watermark nowMs with ⟨hnone, hwhy⟩ | ⟨first, rest, hnewer, hsome⟩
  · -- Nothing is sent: the copy has every bucket up to its watermark, and there are no others.
    have hsame : (s.step (.poll tier nowMs)).history tier = s.history tier := by
      rw [hhistory, answer, hnone, HistoryTier.merge]
    have hgrown : (s.step (.poll tier nowMs)).grown tier ↔ s.grown tier := by
      rw [hgrown]
      exact and_iff_left hnone
    refine ⟨⟨h.ordered, h.last, h.past, hsame ▸ h.copy, hsame ▸ h.seen, hsame ▸ h.interval, hsame ▸ h.older, ?_⟩,
      ⟨hsame ▸ h.copy.ordered, fun b hb => hsame.symm ▸ ?_⟩⟩
    · rw [hgrown, hsame]
      exact h.newest
    · rcases hwhy with hlt | ⟨hle, ⟨c, hc, hceq⟩, hclosed⟩
      · exact h.older b hb (hlt b hb)
      · have hg : ¬ s.grown tier := fun hg => by
          rcases hsettled hg with hopen | ⟨d, hd, hlt⟩ | hgone
          · exact hopen hclosed
          · exact absurd hlt (UInt32.not_lt.2 (hle d hd))
          · exact hgone c hc hceq
        rcases UInt32.lt_or_eq_of_le (hle b hb) with hlt | heq
        · exact h.older b hb hlt
        · exact h.newest hg b hb heq
  · -- What is sent replaces the newest bucket and goes behind it.
    rcases h.merge hnewer with ⟨hwf, hinterval, hbuckets⟩
    have hanswer : (s.step (.poll tier nowMs)).history tier = (s.history tier).merge (some (CUsageLog.dumpTier tier (first :: rest))) := by
      rw [hhistory, answer, hsome]
    rw [← hanswer] at hwf hinterval hbuckets
    have hsent : ∀ b ∈ first :: rest, b ∈ s.log.tier tier ∧ (s.history tier).watermark ≤ b.time := fun b hb => by
      rw [← hnewer] at hb
      exact ⟨(List.mem_filter.1 hb).1, by simpa using (List.mem_filter.1 hb).2⟩
    have hheld : ∀ b ∈ s.log.tier tier, b ∈ ((s.step (.poll tier nowMs)).history tier).buckets := fun b hb => by
      rw [hbuckets]
      by_cases hle : (s.history tier).watermark ≤ b.time
      · exact List.mem_append_right _ (hnewer ▸ List.mem_filter.2 ⟨hb, by simpa using hle⟩)
      · have hlt := UInt32.not_le.1 hle
        have hfirst := UInt32.lt_of_lt_of_le hlt (hsent first List.mem_cons_self).2
        exact List.mem_append_left _ (List.mem_filter.2 ⟨h.older b hb hlt, by simpa using hfirst⟩)
    refine ⟨⟨h.ordered, h.last, h.past, hwf, ?_, .inl hinterval, fun b hb _ => hheld b hb, fun _ b hb _ => hheld b hb⟩,
      hwf.ordered, hheld⟩
    rcases hwf.newest with ⟨-, hzero⟩ | ⟨front, last, hlast, heq⟩
    · rw [hzero]
      exact UInt32.zero_le
    · have hmem : last ∈ ((s.step (.poll tier nowMs)).history tier).buckets := hlast ▸ List.mem_append_right _ (List.mem_singleton_self _)
      rw [hbuckets] at hmem
      rw [← heq]
      rcases List.mem_append.1 hmem with hmem | hmem
      · exact UInt32.le_trans (h.copy.watermark last (List.mem_filter.1 hmem).1) h.seen
      · exact (h.past last (hsent last hmem).1).1

theorem Polled.Inv.step {s : Polled} {tier : EUsageTier} (h : s.Inv tier) {e : Event} (hin : s.InTime e) (hsettled : s.Settled e) :
    (s.step e).Inv tier := by
  cases e with
  | network type transferSize bLan =>
    have htier := tier_network s.log type transferSize bLan
    exact h.of_sub (fun t => (htier t).symm ▸ h.ordered t) (fun b hb => htier tier ▸ hb) rfl rfl rfl
  | connections bInbound seconds =>
    have htier := tier_connections s.log bInbound seconds
    exact h.of_sub (fun t => (htier t).symm ▸ h.ordered t) (fun b hb => htier tier ▸ hb) rfl rfl rfl
  | commit nowMs pSample => exact h.commit hin
  | truncate nowMs secondsWindow retentionMinutes =>
    have htier := fun t => tier_truncate s.log nowMs secondsWindow retentionMinutes (h.ordered t)
    refine h.of_sub (fun t => ?_) (fun b hb => ?_) rfl rfl rfl
    · exact (htier t).symm ▸ (h.ordered t).filter _
    · exact (List.mem_filter.1 (htier tier ▸ hb)).1
  | poll asked nowMs =>
    by_cases hasked : asked = tier
    · subst hasked
      exact (h.poll hsettled).1
    · have hother : (s.step (.poll asked nowMs)).history tier = s.history tier := Function.update_of_ne (Ne.symm hasked) ..
      have hgrown : (s.step (.poll asked nowMs)).grown tier = s.grown tier := Function.update_of_ne (Ne.symm hasked) ..
      exact ⟨h.ordered, h.last, h.past, hother ▸ h.copy, hother ▸ h.seen, hother ▸ h.interval, hother ▸ h.older,
        hother ▸ hgrown ▸ h.newest⟩

theorem Polled.Inv.run : ∀ {events : List Event} {s : Polled}, (∀ tier, s.Inv tier) → s.Smooth events → ∀ tier, (s.run events).Inv tier
  | [], _, h, _ => h
  | e :: _, s, h, hrun => Polled.Inv.run (s := s.step e) (fun tier => (h tier).step hrun.1 hrun.2.1) hrun.2.2

theorem Polled.Smooth.append : ∀ {first : List Event} {s : Polled} {rest : List Event}, s.Smooth (first ++ rest) →
    s.Smooth first ∧ (s.run first).Smooth rest
  | [], _, _, h => ⟨trivial, h⟩
  | _ :: _, _, _, ⟨hin, hsettled, h⟩ =>
    have hrest := Polled.Smooth.append h
    ⟨⟨hin, hsettled, hrest.1⟩, hrest.2⟩

/-- In a run in which no bucket grows unseen the copy agrees with the service after every poll. -/
theorem run_agrees {events : List Event} (hrun : Polled.new.Smooth events) {before after : List Event} {tier : EUsageTier}
    {nowMs : UInt64} (hpoll : events = before ++ .poll tier nowMs :: after) :
    (Polled.new.run (before ++ [.poll tier nowMs])).Agrees tier := by
  subst hpoll
  rcases hrun.append with ⟨hbefore, -, hsettled, -⟩
  have hinv := Polled.Inv.run (fun tier => Polled.Inv.new tier) hbefore tier
  rw [Polled.run, List.foldl_append]
  exact (hinv.poll hsettled).2

/-- A minute that is polled again while it lasts, and after it. -/
def seenGrowing : List Event :=
  [.commit 120000 (some oneMs), .poll .minutes 125000, .commit 130000 (some oneMs), .poll .minutes 150000, .poll .minutes 200000]

theorem run_agrees_seenGrowing : (Polled.new.run seenGrowing).Agrees .minutes := by
  refine @run_agrees seenGrowing ?_ seenGrowing.dropLast [] .minutes _ rfl
  have hin : ∀ {s : Polled} {nowMs : UInt64} {pSample}, s.last ≤ nowMs → nowMs = 120000 ∨ nowMs = 130000 → s.InTime (.commit nowMs pSample) := by
    rintro s nowMs pSample hle (rfl | rfl)
    · exact ⟨hle, by decide, by decide⟩
    · exact ⟨hle, by decide, by decide⟩
  refine ⟨hin (by decide) (.inl rfl), trivial, trivial, ?_, hin (by decide) (.inr rfl), trivial, trivial, ?_, trivial, ?_, trivial⟩
  · exact fun _ => .inr (.inr (by decide))
  · exact fun _ => .inl (by decide)
  · -- The answer before has brought the last value.
    rintro hgrown
    have hgrown := (show _ ∧ _ from hgrown).2
    exact absurd hgrown (by decide)

/-- A minute that grows after it was polled, and is over at the next poll. -/
def unseenGrowing : List Event :=
  [.commit 120000 (some oneMs), .poll .minutes 125000, .commit 130000 (some oneMs), .poll .minutes 200000]

/-- The client keeps the value that it got in the middle of the minute. -/
theorem not_agrees_unseenGrowing : ¬ (Polled.new.run unseenGrowing).Agrees .minutes := by
  rintro ⟨-, hheld⟩
  exact absurd hheld (by decide)

end MajorPrivacy.Usage

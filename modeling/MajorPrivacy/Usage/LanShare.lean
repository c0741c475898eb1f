/-
The bytes that went over the LAN are part of the bytes that went over the network, in every bucket, and a
log that was cleared goes on like a new one. Both hold while no counter overflows and no log is cleared with
LAN bytes or connection seconds waiting, which `Clear` leaves.
-/
import MajorPrivacy.Usage.Conservation

namespace MajorPrivacy.Usage

/-! ## Samples -/

/-- The LAN share is a part of the total. -/
structure SUsageSample.PartOf (s : SUsageSample) : Prop where
  upload : s.lanUpload ≤ s.netUpload
  download : s.lanDownload ≤ s.netDownload

/-- The totals of two samples can be added. -/
structure SUsageSample.SumFits (a b : SUsageSample) : Prop where
  upload : a.netUpload.toNat + b.netUpload.toNat < 2 ^ 64
  download : a.netDownload.toNat + b.netDownload.toNat < 2 ^ 64

instance (s : SUsageSample) : Decidable s.PartOf := decidable_of_iff (s.lanUpload ≤ s.netUpload ∧ s.lanDownload ≤ s.netDownload)
  ⟨fun h => ⟨h.1, h.2⟩, fun h => ⟨h.upload, h.download⟩⟩

instance (a b : SUsageSample) : Decidable (a.SumFits b) :=
  decidable_of_iff (a.netUpload.toNat + b.netUpload.toNat < 2 ^ 64 ∧ a.netDownload.toNat + b.netDownload.toNat < 2 ^ 64)
    ⟨fun h => ⟨h.1, h.2⟩, fun h => ⟨h.upload, h.download⟩⟩

theorem SUsageSample.PartOf.zero : (0 : SUsageSample).PartOf := by decide

theorem SUsageSample.PartOf.add {a b : SUsageSample} (ha : a.PartOf) (hb : b.PartOf) (h : a.SumFits b) : (a + b).PartOf := by
  have hpart : ∀ {l n l' n' : UInt64}, l ≤ n → l' ≤ n' → n.toNat + n'.toNat < 2 ^ 64 → l + l' ≤ n + n' := by
    rintro l n l' n' hl hl' hfits
    rw [UInt64.le_iff_toNat_le] at hl hl' ⊢
    rw [UInt64.toNat_add, UInt64.toNat_add, Nat.mod_eq_of_lt (by omega), Nat.mod_eq_of_lt hfits]
    omega
  exact ⟨hpart ha.upload hb.upload h.upload, hpart ha.download hb.download h.download⟩

/-! ## Tiers -/

/-- Every bucket of a tier has its LAN share in the total. -/
def AllPartOf (buckets : Buckets) : Prop := ∀ b ∈ buckets, b.data.PartOf

/-- The sample fits the bucket it is folded into, if it is. -/
def AddFits (bucket : UInt32) (sample : SUsageSample) (buckets : Buckets) : Prop :=
  ∀ last ∈ buckets.getLast?, last.time ≥ bucket → last.data.SumFits sample

/-- Likewise for buckets that are added one after the other. -/
def AddAllFits : Buckets → Buckets → Prop
  | _, [] => True
  | front, b :: buckets => AddFits b.time b.data front ∧ AddAllFits (addBucket b.time b.data front) buckets

theorem AllPartOf.addBucket {bucket : UInt32} {sample : SUsageSample} {buckets : Buckets} (h : AllPartOf buckets)
    (hsample : sample.PartOf) (hfits : AddFits bucket sample buckets) : AllPartOf (addBucket bucket sample buckets) := by
  rcases List.eq_nil_or_concat buckets with rfl | ⟨front, last, rfl⟩
  · exact fun b hb => List.mem_singleton.1 hb ▸ hsample
  · rw [List.concat_eq_append] at h hfits ⊢
    have hlast : last.data.PartOf := h last (by simp)
    rw [addBucket_concat]
    rintro b hb
    rcases List.mem_append.1 hb with hb | hb
    · exact h b (List.mem_append_left _ hb)
    · split at hb
      · rename_i hge
        rcases List.mem_singleton.1 hb with rfl
        exact hlast.add hsample (hfits last (by simp) hge)
      · rcases List.mem_pair.1 hb with rfl | rfl
        · exact hlast
        · exact hsample

theorem AllPartOf.addAll : ∀ {front buckets : Buckets}, AllPartOf front → AllPartOf buckets → AddAllFits front buckets →
    AllPartOf (addAll front buckets)
  | _, [], h, _, _ => h
  | front, b :: buckets, h, hb, hfits => by
    have hfirst := h.addBucket (hb b List.mem_cons_self) hfits.1
    exact @AllPartOf.addAll _ buckets hfirst (fun c hc => hb c (List.mem_cons_of_mem _ hc)) hfits.2

theorem AllPartOf.eraseFront {buckets : Buckets} (h : AllPartOf buckets) (count : Nat) : AllPartOf (eraseFront count buckets) := by
  rw [eraseFront_eq]
  exact fun b hb => h b (List.mem_of_mem_drop hb)

/-! ## Calls -/

/-- What the service does with a log. -/
inductive Call
  | step (s : Step)
  | clear

def CUsageLog.call (log : CUsageLog) : Call → CUsageLog
  | .step s => log.step s
  | .clear => log.clear

def CUsageLog.calls (log : CUsageLog) (calls : List Call) : CUsageLog := calls.foldl CUsageLog.call log

/-- Nothing that `Clear` leaves is waiting. -/
structure Pending.Clearable (p : Pending) : Prop where
  lanUpload : p.lanUpload = 0
  lanDownload : p.lanDownload = 0
  connInbound : p.connInbound = 0
  connOutbound : p.connOutbound = 0

/-- A call with consistent samples and records that overflows no counter and leaves nothing when it clears. -/
def CUsageLog.Meets (log : CUsageLog) : Call → Prop
  | .step (.network type transferSize bLan) => log.pending.sample.SumFits (Step.network type transferSize bLan).entered
  | .step (.connections ..) => True
  | .step (.commit nowMs pSample) =>
    (pSample.getD 0).PartOf ∧ (pSample.getD 0).SumFits log.pending.sample ∧
      ∀ tier, AddFits (bucketTime (usageTierInterval tier) (nowSec nowMs)) (log.sampleOf pSample) (log.tier tier)
  | .step (.truncate ..) => True
  | .step (.load none) => True
  | .step (.load (some d)) =>
    CUsageLog.Takes d → AllPartOf d.buckets ∧ AddAllFits [] d.buckets ∧ AddAllFits (addAll [] d.buckets) log.minutes
  | .clear => log.pending.Clearable

/-- All calls of a run meet this. -/
def CUsageLog.AllMeet (log : CUsageLog) : List Call → Prop
  | [] => True
  | c :: calls => log.Meets c ∧ (log.call c).AllMeet calls

theorem Pending.Clearable.clear {log : CUsageLog} (h : log.pending.Clearable) :
    log.clear = ⟨.none, log.secondsWindow, [], []⟩ := by
  rcases log with ⟨⟨upload, download, lanUpload, lanDownload, connInbound, connOutbound⟩, secondsWindow, seconds, minutes⟩
  rcases h with ⟨rfl, rfl, rfl, rfl⟩
  rfl

/-- The LAN share is a part of the total in all buckets and in what waits. -/
structure CUsageLog.LanShare (log : CUsageLog) : Prop where
  pending : log.pending.sample.PartOf
  seconds : AllPartOf log.seconds
  minutes : AllPartOf log.minutes

namespace CUsageLog.LanShare
variable {log : CUsageLog}

theorem new : CUsageLog.new.LanShare := ⟨by decide, fun b hb => (by cases hb), fun b hb => (by cases hb)⟩

theorem of_tier {log' : CUsageLog} (hpending : log'.pending.sample.PartOf) (htier : ∀ tier, AllPartOf (log'.tier tier)) : log'.LanShare :=
  ⟨hpending, htier .seconds, htier .minutes⟩

theorem tier (h : log.LanShare) (tier : EUsageTier) : AllPartOf (log.tier tier) := by
  cases tier with
  | seconds => exact h.seconds
  | minutes => exact h.minutes

theorem network (h : log.LanShare) {type : EEventType} {transferSize : UInt32} {bLan : Bool}
    (hmeets : log.Meets (.step (.network type transferSize bLan))) : (log.addNetworkIO type transferSize bLan).LanShare := by
  have hentered : (Step.network type transferSize bLan).entered.PartOf := by
    cases type <;> cases bLan <;> constructor <;>
      simp [Step.entered, CUsageLog.addNetworkIO, CUsageLog.new, Pending.none, Pending.sample]
  refine of_tier ?_ fun tier => ?_
  · rw [pending_network]
    exact h.pending.add hentered hmeets
  · rw [tier_network]
    exact h.tier tier

/-- Connection seconds are no bytes. -/
theorem connections (h : log.LanShare) (bInbound : Bool) (seconds : UInt32) : (log.addConnections bInbound seconds).LanShare := by
  refine of_tier ?_ fun tier => ?_
  · cases bInbound <;> exact ⟨h.pending.upload, h.pending.download⟩
  · rw [tier_connections]
    exact h.tier tier

theorem commit (h : log.LanShare) {nowMs : UInt64} {pSample : Option SUsageSample}
    (hmeets : log.Meets (.step (.commit nowMs pSample))) : (log.commit nowMs pSample).LanShare := by
  rcases hmeets with ⟨hsample, hsum, hfits⟩
  have hbooked : (log.sampleOf pSample).PartOf := hsample.add h.pending hsum
  have hadd : ∀ tier, AllPartOf (addBucket (bucketTime (usageTierInterval tier) (nowSec nowMs)) (log.sampleOf pSample) (log.tier tier)) :=
    fun tier => (h.tier tier).addBucket hbooked (hfits tier)
  unfold CUsageLog.commit
  dsimp only
  split
  · exact ⟨.zero, h.seconds, h.minutes⟩
  · refine ⟨.zero, ?_, hadd .minutes⟩
    dsimp only
    split
    · exact (hadd .seconds).eraseFront _
    · exact hadd .seconds

theorem load (h : log.LanShare) {data : Option UsageData} (hmeets : log.Meets (.step (.load data))) : (log.load data).LanShare := by
  cases data with
  | none => exact h
  | some d =>
    by_cases htakes : CUsageLog.Takes d
    · rcases hmeets htakes with ⟨hrecords, hfirst, hback⟩
      have hloaded : AllPartOf (addAll [] d.buckets) := AllPartOf.addAll (fun b hb => (by cases hb)) hrecords hfirst
      rw [CUsageLog.load_of_takes log htakes]
      exact ⟨h.pending, h.seconds, hloaded.addAll h.minutes hback⟩
    · rw [CUsageLog.load_of_not_takes log htakes]
      exact h

theorem call (h : log.LanShare) {c : Call} (hmeets : log.Meets c) : (log.call c).LanShare := by
  cases c with
  | step s =>
    cases s with
    | network type transferSize bLan => exact h.network hmeets
    | connections bInbound seconds => exact h.connections bInbound seconds
    | commit nowMs pSample => exact h.commit hmeets
    | truncate nowMs secondsWindow retentionMinutes => exact ⟨h.pending, h.seconds.eraseFront _, h.minutes.eraseFront _⟩
    | load data => exact h.load hmeets
  | clear =>
    change log.clear.LanShare
    rw [Pending.Clearable.clear hmeets]
    exact ⟨.zero, fun b hb => (by cases hb), fun b hb => (by cases hb)⟩

theorem calls : ∀ {log : CUsageLog} (calls : List Call), log.LanShare → log.AllMeet calls → (log.calls calls).LanShare
  | _, [], h, _ => h
  | log, c :: rest, h, hmeet => @calls (log.call c) rest (h.call hmeet.1) hmeet.2

end CUsageLog.LanShare

/-! ## Clear -/

theorem CUsageLog.calls_append (log : CUsageLog) (before after : List Call) :
    log.calls (before ++ after) = (log.calls before).calls after := List.foldl_append

theorem CUsageLog.AllMeet.append : ∀ {log : CUsageLog} {before after : List Call}, log.AllMeet (before ++ after) →
    (log.calls before).AllMeet after
  | _, [], _, h => h
  | log, c :: before, after, h => @CUsageLog.AllMeet.append (log.call c) before after h.2

/-- The LAN share is a part of the total in every bucket, and after a `Clear` the log is a new one with the
window that was set. -/
theorem lanShare_clear {calls : List Call} (hmeet : CUsageLog.new.AllMeet calls) :
    (∀ tier, ∀ b ∈ (CUsageLog.new.calls calls).tier tier, b.data.lanUpload ≤ b.data.netUpload ∧ b.data.lanDownload ≤ b.data.netDownload) ∧
    ∀ before after, calls = before ++ .clear :: after →
      CUsageLog.new.calls calls = (⟨.none, (CUsageLog.new.calls before).secondsWindow, [], []⟩ : CUsageLog).calls after := by
  refine ⟨fun tier b hb => ?_, ?_⟩
  · have hpart := (CUsageLog.LanShare.calls calls .new hmeet).tier tier b hb
    exact ⟨hpart.upload, hpart.download⟩
  · rintro before after rfl
    have hclear : (CUsageLog.new.calls before).pending.Clearable := hmeet.append.1
    rw [CUsageLog.calls_append]
    exact congrArg (fun log : CUsageLog => log.calls after) hclear.clear

/-- Traffic that is booked, a `Clear`, and traffic again. -/
def clearedAfterCommit : List Call :=
  [.step (.network .send 100 true), .step (.commit 120000 (some 0)), .clear, .step (.network .receive 7 true), .step (.commit 180000 none)]

theorem lanShare_clear_afterCommit : (CUsageLog.new.calls clearedAfterCommit).minutes.all (fun b => b.data.lanDownload ≤ b.data.netDownload) = true := by
  have hmeet : CUsageLog.new.AllMeet clearedAfterCommit := by
    refine ⟨⟨by decide, by decide⟩, ⟨by decide, ⟨by decide, by decide⟩, ?_⟩, ⟨by decide, by decide, by decide, by decide⟩,
      ⟨by decide, by decide⟩, ⟨by decide, ⟨by decide, by decide⟩, ?_⟩, trivial⟩
    · rintro (_ | _) last hlast <;> cases hlast
    · rintro (_ | _) last hlast <;> cases hlast
  exact List.all_eq_true.2 fun b hb => decide_eq_true ((lanShare_clear hmeet).1 .minutes b hb).2

/-- A hundred bytes sent over the LAN, a `Clear` and a commit. -/
def clearedWhilePending : List Call := [.step (.network .send 100 true), .clear, .step (.commit 120000 none)]

/-- The bucket that the commit makes has LAN bytes, which were counted before the `Clear`, and no total. -/
theorem not_lanShare_clear : ∃ b ∈ (CUsageLog.new.calls clearedWhilePending).minutes,
    b.data.lanUpload = 100 ∧ ¬ b.data.lanUpload ≤ b.data.netUpload := by
  refine ⟨⟨120, ⟨0, 0, 0, 0, 0, 0, 0, 0, 0, 100, 0, 0, 0⟩⟩, ?_, rfl, by decide⟩
  exact List.mem_singleton.2 rfl

end MajorPrivacy.Usage

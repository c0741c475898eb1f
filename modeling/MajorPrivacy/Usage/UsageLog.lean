/-
`CUsageLog` (UsageLog.cpp): the usage history of a program in the service, a list of buckets for each
tier. A tier that was not made yet is one without buckets. Samples arrive with `Commit`; network bytes
and connection seconds wait in counters until then.
-/
import MajorPrivacy.Usage.UsageStats
import MajorPrivacy.Lib.LowerBound

namespace MajorPrivacy.Usage

open LittleEndian

abbrev Buckets := List SUsageBucket

/-! ## STier -/

/-- `LowerBound`. -/
def lowerBound (time : UInt32) (buckets : Buckets) : Nat := LowerBound.lowerBound (fun b : SUsageBucket => b.time < time) buckets

/-- `STier::Add`, which looks at the last bucket. -/
def addBucket (bucket : UInt32) (sample : SUsageSample) : Buckets → Buckets
  | [] => [⟨bucket, sample⟩]
  | [last] => if last.time ≥ bucket then [⟨last.time, last.data + sample⟩] else [last, ⟨bucket, sample⟩]
  | b :: c :: rest => b :: addBucket bucket sample (c :: rest)

/-- `EraseFront`. -/
def eraseFront (count : Nat) (buckets : Buckets) : Buckets :=
  if count = 0 then buckets
  else if count ≥ buckets.length then []
  else buckets.drop count

/-! ## CUsageLog -/

/-- The counters that wait for the next commit. -/
structure Pending where
  upload : UInt64
  download : UInt64
  lanUpload : UInt64
  lanDownload : UInt64
  connInbound : UInt32
  connOutbound : UInt32

def Pending.none : Pending := ⟨0, 0, 0, 0, 0, 0⟩

/-- The counters as part of a sample. -/
def Pending.sample (p : Pending) : SUsageSample :=
  ⟨0, 0, 0, 0, 0, p.upload, p.download, 0, 0, p.lanUpload, p.lanDownload, p.connInbound, p.connOutbound⟩

structure CUsageLog where
  pending : Pending
  secondsWindow : UInt64
  seconds : Buckets
  minutes : Buckets

def CUsageLog.new : CUsageLog := ⟨.none, 300, [], []⟩

/-- The types of `CSocketList::EEventType` that `AddNetworkIO` looks for. -/
inductive EEventType
  | receive
  | send
  | other

/-- The time of the bucket that a second belongs to. -/
def bucketTime (interval nowSec : UInt32) : UInt32 := nowSec - nowSec % interval

/-- `NowSec` of a time in milliseconds. -/
def nowSec (nowMs : UInt64) : UInt32 := (nowMs / 1000).toUInt32

/-- The oldest time that is kept. -/
def oldest (nowSec : UInt32) (keep : UInt64) : UInt32 :=
  if nowSec.toUInt64 > keep then (nowSec.toUInt64 - keep).toUInt32 else 0

namespace CUsageLog

def tier (log : CUsageLog) : EUsageTier → Buckets
  | .seconds => log.seconds
  | .minutes => log.minutes

/-- `AddNetworkIO`. -/
def addNetworkIO (log : CUsageLog) (type : EEventType) (transferSize : UInt32) (bLan : Bool) : CUsageLog :=
  let lan := if bLan then transferSize.toUInt64 else 0
  match type with
  | .receive =>
    { log with pending := { log.pending with
        download := log.pending.download + transferSize.toUInt64
        lanDownload := log.pending.lanDownload + lan } }
  | .send =>
    { log with pending := { log.pending with
        upload := log.pending.upload + transferSize.toUInt64
        lanUpload := log.pending.lanUpload + lan } }
  | .other => log

/-- `AddConnections`. -/
def addConnections (log : CUsageLog) (bInbound : Bool) (seconds : UInt32) : CUsageLog :=
  if bInbound then { log with pending := { log.pending with connInbound := log.pending.connInbound + seconds } }
  else { log with pending := { log.pending with connOutbound := log.pending.connOutbound + seconds } }

/-- The sample that `Commit` books. -/
def sampleOf (log : CUsageLog) (pSample : Option SUsageSample) : SUsageSample := pSample.getD 0 + log.pending.sample

/-- `Commit`; the live tier is trimmed on the way. -/
def commit (log : CUsageLog) (nowMs : UInt64) (pSample : Option SUsageSample) : CUsageLog :=
  let sample := log.sampleOf pSample
  let log := { log with pending := .none }
  if sample.isZero then log
  else
    let nowSec := nowSec nowMs
    let seconds := addBucket (bucketTime (usageTierInterval .seconds) nowSec) sample log.seconds
    { log with
      seconds :=
        if (log.secondsWindow + 60).toNat < seconds.length then eraseFront (lowerBound (oldest nowSec log.secondsWindow) seconds) seconds
        else seconds
      minutes := addBucket (bucketTime (usageTierInterval .minutes) nowSec) sample log.minutes }

/-- `Truncate`. -/
def truncate (log : CUsageLog) (nowMs secondsWindow retentionMinutes : UInt64) : CUsageLog :=
  let nowSec := nowSec nowMs
  { log with
    secondsWindow := secondsWindow
    seconds := eraseFront (lowerBound (oldest nowSec secondsWindow) log.seconds) log.seconds
    minutes := eraseFront (lowerBound (oldest nowSec (retentionMinutes * 60)) log.minutes) log.minutes }

/-- `DumpTier`, of the buckets from a place on. -/
def dumpTier (tier : EUsageTier) (buckets : Buckets) : UsageData :=
  ⟨usageTierInterval tier, .ofNat bucketSize, (buckets.map SUsageBucket.toBytes).flatten⟩

/-- The last bucket is over. -/
def closed (tier : EUsageTier) (time : UInt32) (nowMs : UInt64) : Bool :=
  time.toUInt64 + (usageTierInterval tier).toUInt64 ≤ nowMs / 1000

/-- `Dump`. -/
def dump (log : CUsageLog) (tier : EUsageTier) (since : UInt32) (nowMs : UInt64) : Option UsageData :=
  let buckets := log.tier tier
  if buckets.length = 0 then none
  else
    let start := lowerBound since buckets
    match buckets.drop start with
    | [] => none
    | [last] => if last.time = since ∧ closed tier last.time nowMs then none else some (dumpTier tier [last])
    | newer => some (dumpTier tier newer)

/-- `Store`. -/
def store (log : CUsageLog) : Option UsageData :=
  if log.minutes.length = 0 then none else some (dumpTier .minutes log.minutes)

/-- `Load`: the records go in first, and what was there is added back. -/
def load (log : CUsageLog) : Option UsageData → CUsageLog
  | none => log
  | some d =>
    if d.interval ≠ usageTierInterval .minutes ∨ d.recSize < 4 then log
    else
      let loaded := d.buckets.foldl (fun buckets b => addBucket b.time b.data buckets) []
      { log with minutes := log.minutes.foldl (fun buckets b => addBucket b.time b.data buckets) loaded }

/-- `Clear`. -/
def clear (log : CUsageLog) : CUsageLog :=
  { log with seconds := [], minutes := [], pending := { log.pending with upload := 0, download := 0 } }

end CUsageLog

/-! ## What a tier keeps -/

/-- The buckets are in the order of their times. -/
def Ordered (buckets : Buckets) : Prop := buckets.Pairwise fun a b => a.time < b.time

def total (buckets : Buckets) : SUsageSample := (buckets.map (·.data)).sum

section Tier
variable {bucket : UInt32} {sample : SUsageSample} {buckets : Buckets}

@[simp] theorem total_nil : total [] = 0 := rfl

@[simp] theorem total_cons (b : SUsageBucket) (buckets : Buckets) : total (b :: buckets) = b.data + total buckets := rfl

theorem total_append (a b : Buckets) : total (a ++ b) = total a + total b := by
  simp [total]

/-- A sample goes into the last bucket or behind it. -/
theorem addBucket_concat (front : Buckets) (last : SUsageBucket) : addBucket bucket sample (front ++ [last]) =
    front ++ if last.time ≥ bucket then [⟨last.time, last.data + sample⟩] else [last, ⟨bucket, sample⟩] := by
  induction front with
  | nil => rfl
  | cons b front ih =>
    cases front with
    | nil => rfl
    | cons c front =>
      rw [List.cons_append, List.cons_append, addBucket]
      exact congrArg (b :: ·) ih

/-- A later bucket goes behind the others. -/
theorem addBucket_of_lt (h : ∀ b ∈ buckets, b.time < bucket) : addBucket bucket sample buckets = buckets ++ [⟨bucket, sample⟩] := by
  rcases List.eq_nil_or_concat buckets with rfl | ⟨front, last, rfl⟩
  · rfl
  · rw [List.concat_eq_append] at h ⊢
    have hlast : ¬ last.time ≥ bucket := UInt32.not_le.2 (h last (by simp))
    rw [addBucket_concat, if_neg hlast, List.append_assoc]
    rfl

theorem total_addBucket : ∀ buckets : Buckets, total (addBucket bucket sample buckets) = total buckets + sample := by
  rintro buckets
  rcases List.eq_nil_or_concat buckets with rfl | ⟨front, last, rfl⟩
  · exact add_comm sample 0
  · rw [List.concat_eq_append, addBucket_concat, total_append, total_append]
    split <;> simp [add_assoc]

theorem Ordered.addBucket (h : Ordered buckets) : Ordered (addBucket bucket sample buckets) := by
  rcases List.eq_nil_or_concat buckets with rfl | ⟨front, last, rfl⟩
  · exact List.pairwise_singleton _ _
  · rw [List.concat_eq_append] at h ⊢
    rw [addBucket_concat]
    rcases List.pairwise_append.1 h with ⟨hfront, -, hlast⟩
    split
    · refine List.pairwise_append.2 ⟨hfront, List.pairwise_singleton _ _, fun a ha b hb => ?_⟩
      rcases List.mem_singleton.1 hb with rfl
      exact hlast a ha last (List.mem_singleton_self _)
    · rename_i hge
      have hlt : last.time < bucket := UInt32.not_le.1 hge
      refine List.pairwise_append.2 ⟨hfront, List.pairwise_pair.2 hlt, fun a ha b hb => ?_⟩
      have halast := hlast a ha last (List.mem_singleton_self _)
      rcases List.mem_pair.1 hb with rfl | rfl
      · exact halast
      · exact UInt32.lt_trans halast hlt

/-- Every time is an old one or the new one. -/
theorem time_addBucket {P : UInt32 → Prop} (h : ∀ b ∈ buckets, P b.time) (hbucket : P bucket) :
    ∀ b ∈ addBucket bucket sample buckets, P b.time := by
  rcases List.eq_nil_or_concat buckets with rfl | ⟨front, last, rfl⟩
  · rintro b hb
    rcases List.mem_singleton.1 hb with rfl
    exact hbucket
  · rw [List.concat_eq_append] at h ⊢
    rw [addBucket_concat]
    rintro b hb
    rcases List.mem_append.1 hb with hb | hb
    · exact h b (List.mem_append_left _ hb)
    · split at hb
      · rcases List.mem_singleton.1 hb with rfl
        exact h last (by simp)
      · rcases List.mem_pair.1 hb with rfl | rfl
        · exact h b (by simp)
        · exact hbucket

theorem eraseFront_eq (count : Nat) (buckets : Buckets) : eraseFront count buckets = buckets.drop count := by
  unfold eraseFront
  split
  · rename_i h
    rw [h, List.drop_zero]
  · split
    · rename_i h
      rw [List.drop_of_length_le h]
    · rfl

theorem Ordered.split (h : Ordered buckets) (time : UInt32) : LowerBound.Split (fun b : SUsageBucket => b.time < time) buckets :=
  List.Pairwise.imp (fun hab hb => by simpa using UInt32.lt_trans hab (by simpa using hb)) h

/-- Erasing up to a time keeps the buckets from that time on. -/
theorem Ordered.eraseFront (h : Ordered buckets) (time : UInt32) :
    eraseFront (lowerBound time buckets) buckets = buckets.filter (time ≤ ·.time) := by
  rw [eraseFront_eq, lowerBound, (h.split time).drop_lowerBound]
  exact List.filter_congr fun b _ => by simp [← UInt32.not_lt]

theorem Ordered.drop_lowerBound (h : Ordered buckets) (time : UInt32) :
    buckets.drop (lowerBound time buckets) = buckets.filter (time ≤ ·.time) := by
  rw [← eraseFront_eq, h.eraseFront]

theorem Ordered.filter (h : Ordered buckets) (p : SUsageBucket → Bool) : Ordered (buckets.filter p) := List.Pairwise.filter p h

end Tier

end MajorPrivacy.Usage

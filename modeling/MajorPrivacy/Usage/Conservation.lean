/-
Nothing that is booked gets lost: over any run of commits, truncations and late loads the buckets of
the minutes tier add up to what was entered less what was truncated, in the order of their times.
-/
import MajorPrivacy.Usage.UsageLog
import Mathlib.Tactic.Abel

namespace MajorPrivacy.Usage

open LittleEndian

/-! ## Stored records -/

/-- A bucket as it is written in records of another size: cut off, or with fields behind it. -/
def recordOf (recSize : Nat) (more : SUsageBucket → Bytes) (b : SUsageBucket) : Bytes := (b.toBytes ++ more b).take recSize

/-- The times are multiples of an interval. -/
def Aligned (interval : UInt32) (buckets : Buckets) : Prop := ∀ b ∈ buckets, interval.toNat ∣ b.time.toNat

/-- Data of a minutes tier that was stored, with records of any size. -/
def Stored (d : UsageData) : Prop :=
  ∃ (buckets : Buckets) (more : SUsageBucket → Bytes), Ordered buckets ∧ Aligned (usageTierInterval .minutes) buckets ∧
    4 ≤ d.recSize.toNat ∧ (∀ b ∈ buckets, d.recSize.toNat ≤ (b.toBytes ++ more b).length) ∧
    d.interval = usageTierInterval .minutes ∧ d.data = (buckets.map (recordOf d.recSize.toNat more)).flatten

theorem copyRecord_recordOf (n : Nat) (more : SUsageBucket → Bytes) (b : SUsageBucket) (hn : 4 ≤ n) :
    (copyRecord (recordOf n more b)).time = b.time ∧ (bucketSize ≤ n → copyRecord (recordOf n more b) = b) := by
  unfold recordOf
  have hlen := length_toBytes b
  rw [List.take_append, hlen]
  by_cases h : bucketSize ≤ n
  · rw [List.take_of_length_le (by omega), copyRecord_toBytes]
    exact ⟨rfl, fun _ => rfl⟩
  · rw [Nat.sub_eq_zero_of_le (by omega), List.take_zero, List.append_nil]
    exact ⟨copyRecord_time b hn, fun h' => absurd h' h⟩

/-- What is read of records that were written. -/
theorem buckets_of_records {d : UsageData} {buckets : Buckets} {more : SUsageBucket → Bytes} (hsize : 4 ≤ d.recSize.toNat)
    (hmore : ∀ b ∈ buckets, d.recSize.toNat ≤ (b.toBytes ++ more b).length)
    (hdata : d.data = (buckets.map (recordOf d.recSize.toNat more)).flatten) :
    d.buckets = (buckets.map fun b => copyRecord (recordOf d.recSize.toNat more b)).filter (·.time ≠ 0) := by
  have hrecords : ∀ r ∈ buckets.map (recordOf d.recSize.toNat more), r.length = d.recSize.toNat := by
    rintro r hr
    rcases List.mem_map.1 hr with ⟨b, hb, rfl⟩
    rw [recordOf, List.length_take]
    exact Nat.min_eq_left (hmore b hb)
  unfold UsageData.buckets
  rw [hdata, records_append (by omega) _ hrecords (Nat.le_refl _), List.map_map]
  rfl

theorem buckets_dumpTier (tier : EUsageTier) (buckets : Buckets) :
    (CUsageLog.dumpTier tier buckets).buckets = buckets.filter (·.time ≠ 0) := by
  have hsize : (CUsageLog.dumpTier tier buckets).recSize.toNat = bucketSize := rfl
  have hrecord : ∀ b : SUsageBucket, recordOf bucketSize (fun _ => []) b = b.toBytes := fun b => by
    rw [recordOf, List.append_nil, List.take_of_length_le (length_toBytes b).le]
  rw [@buckets_of_records _ buckets (fun _ => []) (by rw [hsize]; decide)
    (fun b _ => by rw [hsize, List.append_nil, length_toBytes])
    (by rw [hsize, funext hrecord]; rfl)]
  rw [hsize, funext hrecord]
  refine congrArg (List.filter _) ((List.map_congr_left fun b _ => ?_).trans (List.map_id _))
  have hcopy := copyRecord_toBytes b []
  rwa [List.append_nil] at hcopy

theorem Stored.buckets {d : UsageData} (h : Stored d) : Ordered d.buckets ∧ Aligned (usageTierInterval .minutes) d.buckets ∧
    d.interval = usageTierInterval .minutes ∧ ¬ d.recSize < 4 := by
  rcases h with ⟨buckets, more, hordered, haligned, hsize, hmore, hinterval, hdata⟩
  rw [buckets_of_records hsize hmore hdata]
  have htime : ∀ b, (copyRecord (recordOf d.recSize.toNat more b)).time = b.time := fun b =>
    (copyRecord_recordOf _ more b hsize).1
  refine ⟨Ordered.filter ?_ _, fun b hb => ?_, hinterval, fun hlt => ?_⟩
  · unfold Ordered
    rw [List.pairwise_map]
    exact List.Pairwise.imp (fun hab => by rwa [htime, htime]) hordered
  · rcases List.mem_map.1 (List.mem_filter.1 hb).1 with ⟨b, hmem, rfl⟩
    rw [htime]
    exact haligned b hmem
  · have hlt := UInt32.lt_iff_toNat_lt.1 hlt
    have h4 : (4 : UInt32).toNat = 4 := rfl
    omega

/-! ## Load -/

section Loading
variable {buckets : Buckets}

/-- A sample with a later time leaves a bucket as it is. -/
theorem mem_addBucket {b : SUsageBucket} {bucket : UInt32} {sample : SUsageSample} (hb : b ∈ buckets) (hlt : b.time < bucket) :
    b ∈ addBucket bucket sample buckets := by
  rcases List.eq_nil_or_concat buckets with rfl | ⟨front, last, rfl⟩
  · cases hb
  · rw [List.concat_eq_append] at hb ⊢
    rw [addBucket_concat]
    split
    · rename_i hge
      rcases List.mem_append.1 hb with hb | hb
      · exact List.mem_append_left _ hb
      · rcases List.mem_singleton.1 hb with rfl
        exact absurd hlt (UInt32.not_lt.2 hge)
    · rcases List.mem_append.1 hb with hb | hb
      · exact List.mem_append_left _ hb
      · rcases List.mem_singleton.1 hb with rfl
        exact List.mem_append_right _ List.mem_cons_self

/-- Buckets that are added, one after another. -/
def addAll (front buckets : Buckets) : Buckets := buckets.foldl (fun front b => addBucket b.time b.data front) front

theorem addAll_of_ordered : ∀ {front buckets : Buckets}, Ordered (front ++ buckets) → addAll front buckets = front ++ buckets
  | front, [], _ => (List.append_nil front).symm
  | front, b :: buckets, h => by
    have hlt : ∀ a ∈ front, a.time < b.time := fun a ha => (List.pairwise_append.1 h).2.2 a ha b List.mem_cons_self
    have hrest : Ordered ((front ++ [b]) ++ buckets) := by
      rw [List.append_assoc]
      exact h
    have ih := addAll_of_ordered hrest
    rw [List.append_assoc] at ih
    rw [addAll, List.foldl_cons, addBucket_of_lt hlt]
    exact ih

theorem Ordered.addAll : ∀ {front : Buckets} (buckets : Buckets), Ordered front → Ordered (addAll front buckets)
  | _, [], h => h
  | _, _ :: buckets, h => Ordered.addAll buckets h.addBucket

theorem total_addAll : ∀ front buckets : Buckets, total (addAll front buckets) = total front + total buckets
  | front, [] => (add_zero _).symm
  | front, b :: buckets => by
    rw [addAll, List.foldl_cons]
    refine (total_addAll _ buckets).trans ?_
    rw [total_addBucket, total_cons, add_assoc]

theorem time_addAll {P : UInt32 → Prop} : ∀ (front buckets : Buckets), (∀ b ∈ front, P b.time) → (∀ b ∈ buckets, P b.time) →
    ∀ b ∈ addAll front buckets, P b.time
  | _, [], h, _ => h
  | front, b :: buckets, h, hbuckets => time_addAll (addBucket b.time b.data front) buckets
    (time_addBucket h (hbuckets b List.mem_cons_self)) fun c hc => hbuckets c (List.mem_cons_of_mem _ hc)

theorem mem_addAll {b : SUsageBucket} : ∀ (front buckets : Buckets), b ∈ front → (∀ c ∈ buckets, b.time < c.time) →
    b ∈ addAll front buckets
  | _, [], h, _ => h
  | front, c :: buckets, h, hlt => mem_addAll (addBucket c.time c.data front) buckets
    (mem_addBucket h (hlt c List.mem_cons_self)) fun d hd => hlt d (List.mem_cons_of_mem _ hd)

end Loading

namespace CUsageLog

/-- Whether `Load` takes the data. -/
def Takes (d : UsageData) : Prop := d.interval = usageTierInterval .minutes ∧ ¬ d.recSize < 4

instance (d : UsageData) : Decidable (Takes d) := inferInstanceAs (Decidable (_ ∧ _))

theorem load_of_takes (log : CUsageLog) {d : UsageData} (h : Takes d) :
    log.load (some d) = { log with minutes := addAll (addAll [] d.buckets) log.minutes } := by
  simp only [load, h.1, h.2]
  rfl

theorem load_of_not_takes (log : CUsageLog) {d : UsageData} (h : ¬ Takes d) : log.load (some d) = log := by
  unfold Takes at h
  simp only [load]
  rw [if_pos]
  by_cases hinterval : d.interval = usageTierInterval .minutes
  · exact .inr (not_not.1 fun hsize => h ⟨hinterval, hsize⟩)
  · exact .inl hinterval

theorem load_store (log : CUsageLog) (h : Ordered log.minutes) : (new.load log.store).minutes = log.minutes.filter (·.time ≠ 0) := by
  unfold store
  split
  · rename_i hnil
    rw [List.eq_nil_of_length_eq_zero hnil]
    rfl
  · have hsize : ¬ (dumpTier .minutes log.minutes).recSize < 4 := by
      change ¬ UInt32.ofNat bucketSize < 4
      decide
    rw [load_of_takes new ⟨rfl, hsize⟩]
    have hordered : Ordered ([] ++ (dumpTier .minutes log.minutes).buckets) := by
      rw [List.nil_append, buckets_dumpTier]
      exact h.filter _
    change addAll (addAll [] _) [] = _
    rw [addAll_of_ordered hordered, List.nil_append, buckets_dumpTier]
    rfl

end CUsageLog

/-! ## Books -/

inductive Step
  | network (type : EEventType) (transferSize : UInt32) (bLan : Bool)
  | connections (bInbound : Bool) (seconds : UInt32)
  | commit (nowMs : UInt64) (pSample : Option SUsageSample)
  | truncate (nowMs secondsWindow retentionMinutes : UInt64)
  | load (data : Option UsageData)

def CUsageLog.step (log : CUsageLog) : Step → CUsageLog
  | .network type transferSize bLan => log.addNetworkIO type transferSize bLan
  | .connections bInbound seconds => log.addConnections bInbound seconds
  | .commit nowMs pSample => log.commit nowMs pSample
  | .truncate nowMs secondsWindow retentionMinutes => log.truncate nowMs secondsWindow retentionMinutes
  | .load data => log.load data

/-- What a step enters. -/
def Step.entered : Step → SUsageSample
  | .network type transferSize bLan => (CUsageLog.new.addNetworkIO type transferSize bLan).pending.sample
  | .connections bInbound seconds => (CUsageLog.new.addConnections bInbound seconds).pending.sample
  | .commit _ pSample => pSample.getD 0
  | .truncate .. => 0
  | .load none => 0
  | .load (some d) => if CUsageLog.Takes d then total d.buckets else 0

/-- What a step takes out of the minutes tier. -/
def Step.truncated (log : CUsageLog) : Step → SUsageSample
  | .truncate nowMs _ retentionMinutes =>
    total (log.minutes.filter fun b => ¬ oldest (nowSec nowMs) (retentionMinutes * 60) ≤ b.time)
  | _ => 0

/-- A log, with what was entered into it and what was truncated. -/
structure Books where
  log : CUsageLog
  entered : SUsageSample
  truncated : SUsageSample

def Books.new : Books := ⟨.new, 0, 0⟩

def Books.step (books : Books) (s : Step) : Books :=
  ⟨books.log.step s, books.entered + s.entered, books.truncated + s.truncated books.log⟩

def Books.run (books : Books) (steps : List Step) : Books := steps.foldl Books.step books

/-- A step that loads only what was stored. -/
def Step.LoadsStored : Step → Prop
  | .load (some d) => Stored d
  | _ => True

/-- The tiers are in order, the times are those of buckets, and the books balance. -/
structure Books.Balanced (books : Books) : Prop where
  ordered : ∀ tier, Ordered (books.log.tier tier)
  aligned : ∀ tier, Aligned (usageTierInterval tier) (books.log.tier tier)
  sum : total books.log.minutes + books.log.pending.sample + books.truncated = books.entered

theorem aligned_bucketTime (tier : EUsageTier) (nowSec : UInt32) :
    (usageTierInterval tier).toNat ∣ (bucketTime (usageTierInterval tier) nowSec).toNat := by
  have hle : nowSec % usageTierInterval tier ≤ nowSec := by
    rw [UInt32.le_iff_toNat_le, UInt32.toNat_mod]
    exact Nat.mod_le _ _
  rw [bucketTime, UInt32.toNat_sub_of_le _ _ hle, UInt32.toNat_mod]
  exact Nat.dvd_sub_mod _

theorem Aligned.filter {interval : UInt32} {buckets : Buckets} (h : Aligned interval buckets) (p : SUsageBucket → Bool) :
    Aligned interval (buckets.filter p) := fun b hb => h b (List.mem_filter.1 hb).1

theorem total_filter (buckets : Buckets) (p : SUsageBucket → Bool) :
    total (buckets.filter p) + total (buckets.filter fun b => ¬ p b) = total buckets := by
  induction buckets with
  | nil => rfl
  | cons b buckets ih =>
    by_cases hp : p b
    · rw [List.filter_cons_of_pos hp, List.filter_cons_of_neg (by simp [hp]), total_cons, total_cons, add_assoc, ih]
    · rw [List.filter_cons_of_neg hp, List.filter_cons_of_pos (by simp [hp]), total_cons, total_cons, ← ih]
      abel

/-- The sample of a commit, whether it is booked or there is nothing in it. -/
theorem total_commit (log : CUsageLog) (nowMs : UInt64) (pSample : Option SUsageSample) :
    total (log.commit nowMs pSample).minutes = total log.minutes + log.sampleOf pSample ∧
      (log.commit nowMs pSample).pending = .none := by
  unfold CUsageLog.commit
  dsimp only
  split
  · rename_i hzero
    rw [of_decide_eq_true hzero, add_zero]
    exact ⟨rfl, rfl⟩
  · exact ⟨total_addBucket _, rfl⟩

theorem tier_commit (log : CUsageLog) (nowMs : UInt64) (pSample : Option SUsageSample) (h : ∀ tier, Ordered (log.tier tier))
    (tier : EUsageTier) : (log.commit nowMs pSample).tier tier = log.tier tier ∨
      log.sampleOf pSample ≠ 0 ∧ ∃ p, (log.commit nowMs pSample).tier tier =
        (addBucket (bucketTime (usageTierInterval tier) (nowSec nowMs)) (log.sampleOf pSample) (log.tier tier)).filter p := by
  unfold CUsageLog.commit
  dsimp only
  split
  · cases tier <;> exact .inl rfl
  · rename_i hzero
    refine .inr ⟨fun h => hzero (decide_eq_true h), ?_⟩
    cases tier with
    | seconds =>
      simp only [CUsageLog.tier]
      split
      · exact ⟨_, (h .seconds).addBucket.eraseFront _⟩
      · exact ⟨fun _ => true, (List.filter_eq_self.2 fun _ _ => rfl).symm⟩
    | minutes => exact ⟨fun _ => true, (List.filter_eq_self.2 fun _ _ => rfl).symm⟩

theorem pending_network (log : CUsageLog) (type : EEventType) (transferSize : UInt32) (bLan : Bool) :
    (log.addNetworkIO type transferSize bLan).pending.sample =
      log.pending.sample + (CUsageLog.new.addNetworkIO type transferSize bLan).pending.sample := by
  cases type <;> simp [CUsageLog.addNetworkIO, CUsageLog.new, Pending.none, Pending.sample, SUsageSample.add_def]

theorem pending_connections (log : CUsageLog) (bInbound : Bool) (seconds : UInt32) :
    (log.addConnections bInbound seconds).pending.sample =
      log.pending.sample + (CUsageLog.new.addConnections bInbound seconds).pending.sample := by
  cases bInbound <;> simp [CUsageLog.addConnections, CUsageLog.new, Pending.none, Pending.sample, SUsageSample.add_def]

theorem tier_network (log : CUsageLog) (type : EEventType) (transferSize : UInt32) (bLan : Bool) (tier : EUsageTier) :
    (log.addNetworkIO type transferSize bLan).tier tier = log.tier tier := by
  cases type <;> cases tier <;> rfl

theorem tier_connections (log : CUsageLog) (bInbound : Bool) (seconds : UInt32) (tier : EUsageTier) :
    (log.addConnections bInbound seconds).tier tier = log.tier tier := by
  cases bInbound <;> cases tier <;> rfl

/-- How long the buckets of a tier are kept. -/
def keptFor (secondsWindow retentionMinutes : UInt64) : EUsageTier → UInt64
  | .seconds => secondsWindow
  | .minutes => retentionMinutes * 60

theorem tier_truncate (log : CUsageLog) (nowMs secondsWindow retentionMinutes : UInt64) {tier : EUsageTier}
    (h : Ordered (log.tier tier)) : (log.truncate nowMs secondsWindow retentionMinutes).tier tier =
      (log.tier tier).filter (oldest (nowSec nowMs) (keptFor secondsWindow retentionMinutes tier) ≤ ·.time) := by
  cases tier with
  | seconds => exact h.eraseFront _
  | minutes => exact h.eraseFront _

/-- Loading keeps the live tier, and adds what it reads to the other. -/
theorem load_balanced {log : CUsageLog} (haligned : Aligned (usageTierInterval .minutes) log.minutes)
    {d : UsageData} (hd : Stored d) : Ordered (log.load (some d)).minutes ∧
      Aligned (usageTierInterval .minutes) (log.load (some d)).minutes ∧
      total (log.load (some d)).minutes = total log.minutes + total d.buckets ∧
      ∀ b ∈ d.buckets, (∀ c ∈ log.minutes, b.time < c.time) → b ∈ (log.load (some d)).minutes := by
  rcases hd.buckets with ⟨hordered, hal, hinterval, hsize⟩
  rw [CUsageLog.load_of_takes log ⟨hinterval, hsize⟩]
  have hfirst : addAll [] d.buckets = d.buckets := @addAll_of_ordered [] _ hordered
  dsimp only
  rw [hfirst]
  refine ⟨hordered.addAll _, ?_, ?_, fun b hb hlt => mem_addAll _ _ hb hlt⟩
  · exact time_addAll (P := fun t => (usageTierInterval .minutes).toNat ∣ t.toNat) _ _ hal haligned
  · rw [total_addAll, add_comm]

theorem Books.Balanced.step {books : Books} (h : books.Balanced) {s : Step} (hs : s.LoadsStored) : (books.step s).Balanced := by
  rcases h with ⟨hordered, haligned, hsum⟩
  cases s with
  | network type transferSize bLan =>
    refine ⟨fun tier => ?_, fun tier => ?_, ?_⟩
    · exact (tier_network books.log type transferSize bLan tier).symm ▸ hordered tier
    · exact (tier_network books.log type transferSize bLan tier).symm ▸ haligned tier
    · have hminutes := tier_network books.log type transferSize bLan .minutes
      simp only [Books.step, CUsageLog.step, Step.entered, Step.truncated, CUsageLog.tier] at hminutes ⊢
      rw [hminutes, pending_network, ← hsum, add_zero]
      abel
  | connections bInbound seconds =>
    refine ⟨fun tier => ?_, fun tier => ?_, ?_⟩
    · exact (tier_connections books.log bInbound seconds tier).symm ▸ hordered tier
    · exact (tier_connections books.log bInbound seconds tier).symm ▸ haligned tier
    · have hminutes := tier_connections books.log bInbound seconds .minutes
      simp only [Books.step, CUsageLog.step, Step.entered, Step.truncated, CUsageLog.tier] at hminutes ⊢
      rw [hminutes, pending_connections, ← hsum, add_zero]
      abel
  | commit nowMs pSample =>
    have htier := tier_commit books.log nowMs pSample hordered
    refine ⟨fun tier => ?_, fun tier => ?_, ?_⟩
    · rcases htier tier with htier | ⟨-, p, htier⟩
      · exact htier.symm ▸ hordered tier
      · exact htier.symm ▸ (hordered tier).addBucket.filter p
    · rcases htier tier with htier | ⟨-, p, htier⟩
      · exact htier.symm ▸ haligned tier
      · exact htier.symm ▸ Aligned.filter (time_addBucket (P := fun t => (usageTierInterval tier).toNat ∣ t.toNat) (haligned tier)
          (aligned_bucketTime tier _)) p
    · rcases total_commit books.log nowMs pSample with ⟨htotal, hpending⟩
      have hnone : Pending.none.sample = 0 := rfl
      simp only [Books.step, CUsageLog.step, Step.entered, Step.truncated]
      rw [htotal, hpending, hnone, CUsageLog.sampleOf, ← hsum]
      abel
  | truncate nowMs secondsWindow retentionMinutes =>
    have htier : ∀ tier, (books.step (.truncate nowMs secondsWindow retentionMinutes)).log.tier tier =
        (books.log.tier tier).filter (oldest (nowSec nowMs) (keptFor secondsWindow retentionMinutes tier) ≤ ·.time) :=
      fun tier => tier_truncate books.log nowMs secondsWindow retentionMinutes (hordered tier)
    refine ⟨fun tier => ?_, fun tier => ?_, ?_⟩
    · rw [htier]
      exact (hordered tier).filter _
    · rw [htier]
      exact (haligned tier).filter _
    · have hminutes : (books.step (.truncate nowMs secondsWindow retentionMinutes)).log.minutes =
          books.log.minutes.filter (oldest (nowSec nowMs) (retentionMinutes * 60) ≤ ·.time) := htier .minutes
      have hcut : total (books.log.minutes.filter (oldest (nowSec nowMs) (retentionMinutes * 60) ≤ ·.time)) +
          Step.truncated books.log (.truncate nowMs secondsWindow retentionMinutes) = total books.log.minutes := by
        simp only [Step.truncated]
        convert total_filter books.log.minutes fun b => oldest (nowSec nowMs) (retentionMinutes * 60) ≤ b.time using 5
        simp
      have hpending : (books.step (.truncate nowMs secondsWindow retentionMinutes)).log.pending = books.log.pending := rfl
      rw [hminutes, hpending, Books.step, Step.entered, add_zero, ← hsum, ← hcut]
      dsimp only
      abel
  | load data =>
    cases data with
    | none => exact ⟨hordered, haligned, by simpa [Books.step, CUsageLog.step, CUsageLog.load, Step.entered, Step.truncated] using hsum⟩
    | some d =>
      rcases load_balanced (haligned .minutes) hs with ⟨hord, hal, htotal, -⟩
      rcases hs.buckets with ⟨-, -, hinterval, hsize⟩
      have hrest : (books.log.load (some d)).seconds = books.log.seconds ∧ (books.log.load (some d)).pending = books.log.pending := by
        rw [CUsageLog.load_of_takes _ ⟨hinterval, hsize⟩]
        exact ⟨rfl, rfl⟩
      refine ⟨fun tier => ?_, fun tier => ?_, ?_⟩
      · cases tier with
        | seconds =>
          change Ordered (books.log.load (some d)).seconds
          rw [hrest.1]
          exact hordered .seconds
        | minutes => exact hord
      · cases tier with
        | seconds =>
          change Aligned _ (books.log.load (some d)).seconds
          rw [hrest.1]
          exact haligned .seconds
        | minutes => exact hal
      · have htakes : CUsageLog.Takes d := ⟨hinterval, hsize⟩
        simp only [Books.step, CUsageLog.step, Step.entered, Step.truncated, if_pos htakes, add_zero]
        rw [htotal, hrest.2, ← hsum]
        abel

theorem Books.Balanced.run : ∀ {books : Books} (steps : List Step), books.Balanced → (∀ s ∈ steps, s.LoadsStored) →
    (books.run steps).Balanced
  | _, [], h, _ => h
  | books, s :: steps, h, hsteps => @Books.Balanced.run (books.step s) steps (h.step (hsteps s List.mem_cons_self))
    fun t ht => hsteps t (List.mem_cons_of_mem _ ht)

/-- In every state the tiers are in order and on their intervals and the books balance, a load folds no
older bucket into another, and what is stored comes back, but for a bucket without a time. -/
theorem run_balanced {steps : List Step} (hsteps : ∀ s ∈ steps, s.LoadsStored) :
    (Books.new.run steps).Balanced ∧
    (∀ d, Stored d → ∀ b ∈ d.buckets, (∀ c ∈ (Books.new.run steps).log.minutes, b.time < c.time) →
      b ∈ ((Books.new.run steps).log.load (some d)).minutes) ∧
    (CUsageLog.new.load (Books.new.run steps).log.store).minutes = (Books.new.run steps).log.minutes.filter (·.time ≠ 0) := by
  have hnew : Books.new.Balanced := by
    refine ⟨fun tier => ?_, fun tier => ?_, rfl⟩
    · cases tier <;> exact List.Pairwise.nil
    · cases tier <;> exact fun _ hb => by cases hb
  have hrun := hnew.run steps hsteps
  exact ⟨hrun, fun d hd => (load_balanced (hrun.aligned .minutes) hd).2.2.2,
    CUsageLog.load_store _ (hrun.ordered .minutes)⟩

/-- A sample of one millisecond. -/
def oneMs : SUsageSample := ⟨1, 0, 0, 0, 0, 0, 0, 0, 0, 0, 0, 0, 0⟩

/-- A commit, and then records that were stored a minute before. -/
def lateLoad : List Step := [.commit 120000 (some oneMs), .load (some (CUsageLog.dumpTier .minutes [⟨60, oneMs⟩]))]

theorem run_balanced_lateLoad : (Books.new.run lateLoad).Balanced := by
  refine (run_balanced fun s hs => ?_).1
  rcases List.mem_pair.1 hs with rfl | rfl
  · trivial
  · have hsize : (CUsageLog.dumpTier .minutes [⟨60, oneMs⟩]).recSize.toNat = bucketSize := rfl
    refine ⟨[⟨60, oneMs⟩], fun _ => [], List.pairwise_singleton _ _, ?_, by rw [hsize]; decide, ?_, rfl, ?_⟩
    · rintro b hb
      rcases List.mem_singleton.1 hb with rfl
      decide
    · rintro b -
      rw [hsize, List.append_nil, length_toBytes]
    · rw [hsize, List.map_singleton, recordOf, List.append_nil, List.take_of_length_le (length_toBytes _).le]
      rfl

/-- A commit five seconds into 1970: its bucket has no time, and is not loaded. -/
theorem load_store_ne_firstMinute : (CUsageLog.new.load (CUsageLog.new.commit 5000 (some oneMs)).store).minutes ≠
    (CUsageLog.new.commit 5000 (some oneMs)).minutes := by
  have hordered : Ordered (CUsageLog.new.commit 5000 (some oneMs)).minutes := List.pairwise_singleton _ _
  rw [CUsageLog.load_store _ hordered]
  decide

end MajorPrivacy.Usage

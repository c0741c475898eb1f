/-
`SUsageHistory` (UsageHistory.cpp): the copy of a program's usage history in the user interface. A tier
is asked for with its watermark, the time of the newest bucket it has, and the answer is merged into it.
-/
import MajorPrivacy.Usage.Conservation

namespace MajorPrivacy.Usage

/-- `SUsageHistory::STier`. -/
structure HistoryTier where
  interval : UInt32
  buckets : Buckets
  watermark : UInt32
  revision : UInt32

def HistoryTier.new : HistoryTier := ⟨0, [], 0, 0⟩

namespace HistoryTier

/-- A bucket that is neither the newest nor newer is put in order. -/
def insertOld (bucket : SUsageBucket) (buckets : Buckets) : Buckets :=
  let index := lowerBound bucket.time buckets
  if (buckets[index]?.map (·.time)) = some bucket.time then buckets.set index bucket
  else buckets.take index ++ bucket :: buckets.drop index

/-- The body of the loop in `Merge`. -/
def mergeBucket (tier : HistoryTier) (bucket : SUsageBucket) : HistoryTier :=
  let buckets :=
    match tier.buckets.getLast? with
    | none => [bucket]
    | some last =>
      if last.time = bucket.time then tier.buckets.dropLast ++ [bucket]
      else if last.time < bucket.time then tier.buckets ++ [bucket]
      else insertOld bucket tier.buckets
  { tier with buckets, watermark := if bucket.time > tier.watermark then bucket.time else tier.watermark }

/-- `Merge`. -/
def merge (tier : HistoryTier) : Option UsageData → HistoryTier
  | none => tier
  | some d =>
    if d.interval = 0 ∨ d.recSize < 4 then tier
    else
      let tier := if tier.interval ≠ d.interval then { tier with buckets := [], watermark := 0, interval := d.interval } else tier
      let merged := d.buckets.foldl mergeBucket tier
      if d.buckets = [] then merged else { merged with revision := merged.revision + 1 }

end HistoryTier

/-! ## Merging newer buckets -/

/-- The tier is in order, and the watermark is the time of its newest bucket. -/
structure HistoryTier.WellFormed (tier : HistoryTier) : Prop where
  ordered : Ordered tier.buckets
  watermark : ∀ b ∈ tier.buckets, b.time ≤ tier.watermark
  newest : tier.buckets = [] ∧ tier.watermark = 0 ∨ ∃ front last, tier.buckets = front ++ [last] ∧ last.time = tier.watermark

/-- Buckets from the watermark on replace the newest one, and go behind it. -/
theorem mergeBucket_spec {tier : HistoryTier} (h : tier.WellFormed) {bucket : SUsageBucket} (hle : tier.watermark ≤ bucket.time)
    (hpos : bucket.time ≠ 0) : (tier.mergeBucket bucket).WellFormed ∧ (tier.mergeBucket bucket).watermark = bucket.time ∧
      (tier.mergeBucket bucket).buckets = tier.buckets.filter (·.time < bucket.time) ++ [bucket] := by
  have hwatermark : (if bucket.time > tier.watermark then bucket.time else tier.watermark) = bucket.time := by
    split
    · rfl
    · rename_i hgt
      exact UInt32.le_antisymm hle (UInt32.not_lt.1 hgt)
  have hbuckets : (tier.mergeBucket bucket).buckets = tier.buckets.filter (·.time < bucket.time) ++ [bucket] := by
    unfold HistoryTier.mergeBucket
    rcases h.newest with ⟨hnil, -⟩ | ⟨front, last, hbuckets, hlast⟩
    · rw [hnil]
      rfl
    · have hordered := h.ordered
      rw [hbuckets] at hordered ⊢
      have hfront : ∀ b ∈ front, b.time < last.time := fun b hb =>
        (List.pairwise_append.1 hordered).2.2 b hb last (List.mem_singleton_self _)
      have hall : ∀ {t : UInt32}, last.time ≤ t → front.filter (·.time < t) = front := fun hlt =>
        List.filter_eq_self.2 fun b hb => by simpa using UInt32.lt_of_lt_of_le (hfront b hb) hlt
      simp only [List.getLast?_append, List.getLast?_singleton, Option.some_or, List.dropLast_concat, List.filter_append]
      rw [hall (hlast ▸ hle)]
      split
      · rename_i heq
        simp [heq]
      · rename_i hne
        have hlt : last.time < bucket.time := UInt32.lt_of_le_of_ne (hlast ▸ hle) hne
        rw [if_pos hlt]
        simp [hlt]
  have hmem : ∀ b ∈ tier.buckets.filter (·.time < bucket.time), b.time < bucket.time := fun b hb => by
    simpa using (List.mem_filter.1 hb).2
  refine ⟨⟨?_, ?_, .inr ⟨_, bucket, hbuckets, hwatermark.symm⟩⟩, hwatermark, hbuckets⟩
  · rw [hbuckets]
    refine List.pairwise_append.2 ⟨h.ordered.filter _, List.pairwise_singleton _ _, fun a ha b hb => ?_⟩
    rcases List.mem_singleton.1 hb with rfl
    exact hmem a ha
  · rintro b hb
    rw [hbuckets] at hb
    have hw : (tier.mergeBucket bucket).watermark = bucket.time := hwatermark
    rw [hw]
    rcases List.mem_append.1 hb with hb | hb
    · exact UInt32.le_of_lt (hmem b hb)
    · rcases List.mem_singleton.1 hb with rfl
      exact UInt32.le_refl _

/-- The same for buckets in order, the first of which may be the newest one. -/
theorem foldl_mergeBucket_spec : ∀ {tier : HistoryTier} {first : SUsageBucket} {rest : Buckets}, tier.WellFormed →
    Ordered (first :: rest) → tier.watermark ≤ first.time → (∀ b ∈ first :: rest, b.time ≠ 0) →
    ((first :: rest).foldl HistoryTier.mergeBucket tier).WellFormed ∧
      ((first :: rest).foldl HistoryTier.mergeBucket tier).buckets = tier.buckets.filter (·.time < first.time) ++ first :: rest
  | tier, first, rest, h, hordered, hle, hpos => by
    rcases mergeBucket_spec h hle (hpos first List.mem_cons_self) with ⟨hwf, hwatermark, hbuckets⟩
    cases rest with
    | nil => exact ⟨hwf, hbuckets⟩
    | cons second rest =>
      rcases List.pairwise_cons.1 hordered with ⟨hfirst, hrest⟩
      have hlt : first.time < second.time := hfirst second List.mem_cons_self
      rcases foldl_mergeBucket_spec hwf hrest (hwatermark ▸ UInt32.le_of_lt hlt)
        (fun b hb => hpos b (List.mem_cons_of_mem _ hb)) with ⟨hwf', hbuckets'⟩
      rw [List.foldl_cons]
      refine ⟨hwf', ?_⟩
      have hkept : (tier.buckets.filter (·.time < first.time) ++ [first]).filter (·.time < second.time) =
          tier.buckets.filter (·.time < first.time) ++ [first] := List.filter_eq_self.2 fun b hb => by
        rcases List.mem_append.1 hb with hb | hb
        · have hb := (List.mem_filter.1 hb).2
          simp only [decide_eq_true_eq] at hb ⊢
          exact UInt32.lt_trans hb hlt
        · rcases List.mem_singleton.1 hb with rfl
          simpa using hlt
      rw [hbuckets', hbuckets, hkept, List.append_assoc]
      rfl

end MajorPrivacy.Usage

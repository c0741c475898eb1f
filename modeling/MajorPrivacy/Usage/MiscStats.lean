/-
Counters and rates (MiscStats.h). `SUnOverflow` reads a 64 bit counter off its low 32 bits, `SRateCounter`
keeps the updates of the last seconds and divides their bytes by their time.
-/
import MajorPrivacy.Usage.RingBuffer
import Mathlib.Data.List.Forall2
import Mathlib.Data.UInt
import Mathlib.Algebra.BigOperators.Group.List.Basic

namespace MajorPrivacy.Usage

/-! ## Counters of 32 bits -/

structure SUnOverflow where
  overflowCount : UInt32
  value32 : UInt32

namespace SUnOverflow

def new : SUnOverflow := ⟨0, 0⟩

def getValue (s : SUnOverflow) : UInt64 := s.overflowCount.toUInt64 * 0xFFFFFFFF + s.value32.toUInt64

def fixValue (s : SUnOverflow) (curValue : UInt32) : UInt64 × SUnOverflow :=
  let s' : SUnOverflow := ⟨if curValue < s.value32 then s.overflowCount + 1 else s.overflowCount, curValue⟩
  (s'.getValue, s')

/-- What `FixValue` gives for the low half of each value of a counter. -/
def readings (s : SUnOverflow) : List UInt64 → List UInt64
  | [] => []
  | t :: ts => (s.fixValue t.toUInt32).1 :: (s.fixValue t.toUInt32).2.readings ts

/-- A later value of the counter, the low half went around once at most. -/
def Follows (t t' : UInt64) : Prop := t ≤ t' ∧ t'.toNat - t.toNat < 2 ^ 32

/-- The state behind the value `t` of a counter that was at `t₀` first. -/
structure Counts (t₀ t : UInt64) (s : SUnOverflow) : Prop where
  overflows : s.overflowCount.toNat + t₀.toNat / 2 ^ 32 = t.toNat / 2 ^ 32
  low : s.value32 = t.toUInt32

theorem counts_first (t₀ : UInt64) : Counts t₀ t₀ (new.fixValue t₀.toUInt32).2 := by
  constructor
  · unfold fixValue new
    rw [if_neg (by simp), UInt32.toNat_zero, Nat.zero_add]
  · rfl

theorem Counts.fixValue {t₀ t t' : UInt64} {s : SUnOverflow} (hs : Counts t₀ t s) (h : Follows t t') :
    Counts t₀ t' (s.fixValue t'.toUInt32).2 := by
  obtain ⟨hover, hlow⟩ := hs
  obtain ⟨hle, hlt⟩ := h
  rw [UInt64.le_iff_toNat_le] at hle
  have hsize := t'.toNat_lt
  constructor
  · unfold SUnOverflow.fixValue
    simp only [hlow, UInt32.lt_iff_toNat_lt, UInt64.toNat_toUInt32]
    split
    · rw [UInt32.toNat_add, UInt32.toNat_one]
      omega
    · omega
  · rfl

/-- Each turn of the low half counts one short. -/
theorem Counts.toNat_getValue {t₀ t : UInt64} {s : SUnOverflow} (hs : Counts t₀ t s) :
    s.getValue.toNat = s.overflowCount.toNat * (2 ^ 32 - 1) + t.toNat % 2 ^ 32 := by
  have hcount := s.overflowCount.toNat_lt
  have hlow := Nat.mod_lt t.toNat (show 2 ^ 32 > 0 by decide)
  unfold getValue
  rw [UInt64.toNat_add, UInt64.toNat_mul, hs.low, UInt32.toNat_toUInt64, UInt32.toNat_toUInt64, UInt64.toNat_toUInt32,
    show (0xFFFFFFFF : UInt64).toNat = 2 ^ 32 - 1 from rfl]
  omega

/-- What the reading `v` of `t` says of the way from `t₀`, read as `v₀`. -/
def Exact (t₀ v₀ t v : UInt64) : Prop := v.toNat + t₀.toNat = v₀.toNat + t.toNat

theorem Counts.exact_iff {t₀ t : UInt64} {s : SUnOverflow} (hs : Counts t₀ t s) :
    Exact t₀ (new.fixValue t₀.toUInt32).1 t s.getValue ↔ t.toNat / 2 ^ 32 = t₀.toNat / 2 ^ 32 := by
  have hfirst : (new.fixValue t₀.toUInt32).1.toNat = t₀.toNat % 2 ^ 32 := by
    have h₀ := counts_first t₀
    have hover := h₀.overflows
    have := h₀.toNat_getValue
    rw [show (new.fixValue t₀.toUInt32).2.overflowCount.toNat = 0 by omega, Nat.zero_mul, Nat.zero_add] at this
    exact this
  have hover := hs.overflows
  unfold Exact
  rw [hs.toNat_getValue, hfirst]
  omega

theorem Counts.readings_exact {t₀ : UInt64} :
    ∀ {t : UInt64} {s : SUnOverflow} {ts : List UInt64}, Counts t₀ t s → (t :: ts).IsChain Follows →
      List.Forall₂ (fun t v => Exact t₀ (new.fixValue t₀.toUInt32).1 t v ↔ t.toNat / 2 ^ 32 = t₀.toNat / 2 ^ 32)
        ts (s.readings ts)
  | _, _, [], _, _ => .nil
  | t, s, t' :: ts, hs, hchain => by
    obtain ⟨hnext, hrest⟩ := List.isChain_cons_cons.1 hchain
    have hs' := hs.fixValue hnext
    exact .cons hs'.exact_iff (hs'.readings_exact hrest)

/-- A reading is exact while the upper half of the counter is the one of the first reading. -/
theorem readings_exact_iff (t₀ : UInt64) (ts : List UInt64) (h : (t₀ :: ts).IsChain Follows) :
    List.Forall₂ (fun t v => Exact t₀ (new.fixValue t₀.toUInt32).1 t v ↔ t.toNat / 2 ^ 32 = t₀.toNat / 2 ^ 32)
      (t₀ :: ts) (new.readings (t₀ :: ts)) :=
  .cons (counts_first t₀).exact_iff ((counts_first t₀).readings_exact h)

theorem readings_turn :
    List.Forall₂ (fun t v => Exact 0xFFFFFFFF (new.fixValue (0xFFFFFFFF : UInt64).toUInt32).1 t v ↔
        t.toNat / 2 ^ 32 = (0xFFFFFFFF : UInt64).toNat / 2 ^ 32)
      [0xFFFFFFFF, 0x100000000] (new.readings [0xFFFFFFFF, 0x100000000]) :=
  readings_exact_iff 0xFFFFFFFF [0x100000000] (.cons_cons ⟨by decide, by decide⟩ (.singleton _))

theorem not_readings_exact : ¬ ∀ (t₀ : UInt64) (ts : List UInt64), (t₀ :: ts).IsChain Follows →
    List.Forall₂ (Exact t₀ (new.fixValue t₀.toUInt32).1) (t₀ :: ts) (new.readings (t₀ :: ts)) := by
  intro h
  have hturn := h 0xFFFFFFFF [0x100000000] (.cons_cons ⟨by decide, by decide⟩ (.singleton _))
  obtain _ | ⟨_, _ | ⟨hexact, _⟩⟩ := hturn
  exact absurd hexact (by unfold Exact; decide)

end SUnOverflow

/-! ## Rates -/

structure SStat where
  interval : UInt64
  bytes : UInt64
  deriving DecidableEq

/-- `AVG_INTERVAL`, in milliseconds. -/
def avgInterval : UInt64 := 3 * 1000

structure SRateCounter where
  byteRate : UInt64
  rateStat : SRingBuffer SStat
  totalBytes : UInt64
  totalTime : UInt64

namespace SRateCounter

def new : SRateCounter := ⟨0, .new 10, 0, 0⟩

/-- One pass of the loop of `Update`, the oldest entry goes. -/
def evict (s : SRateCounter) : Option SRateCounter :=
  s.rateStat.front.bind fun front => s.rateStat.popFront.map fun rateStat =>
    { s with totalTime := s.totalTime - front.interval, totalBytes := s.totalBytes - front.bytes, rateStat }

/-- The condition of the loop. -/
def Evicts (s : SRateCounter) : Prop := avgInterval < s.totalTime ∧ s.rateStat.size ≠ 0

instance (s : SRateCounter) : Decidable s.Evicts := inferInstanceAs (Decidable (_ ∧ _))

/-- The loop, each pass takes one of the entries. -/
def evicts (s : SRateCounter) : (entries : Nat) → Option SRateCounter
  | 0 => some s
  | entries + 1 => if s.Evicts then s.evict.bind (·.evicts entries) else some s

/-- `/`, `none` for a division by zero. -/
def quotient (a b : UInt64) : Option UInt64 := if b = 0 then none else some (a / b)

/-- What `ByteRate` is divided by. -/
def divisor (totalTime interval : UInt64) : UInt64 :=
  let time := if totalTime ≠ 0 then totalTime else interval
  if time < avgInterval / 2 then avgInterval else time

/-- `Update` behind its loop. -/
def add (s : SRateCounter) (back : SStat) : Option SRateCounter :=
  let totalTime := s.totalTime + back.interval
  let totalBytes := s.totalBytes + back.bytes
  (s.rateStat.pushBack ⟨0, 0⟩ back).bind fun rateStat =>
    (quotient (totalBytes * 1000) (divisor totalTime back.interval)).map fun byteRate =>
      ⟨byteRate, rateStat, totalBytes, totalTime⟩

def update (s : SRateCounter) (interval addDelta : UInt64) : Option SRateCounter :=
  (s.evicts s.rateStat.size).bind (·.add ⟨interval, addDelta⟩)

/-- The counter behind updates, at the head of the loop of the next one. -/
inductive Reached : List SStat → SRateCounter → Prop
  | new : Reached [] new
  | evict {updates : List SStat} {s s' : SRateCounter} :
      Reached updates s → s.Evicts → s.evict = some s' → Reached updates s'
  | add {updates : List SStat} {s s' : SRateCounter} {back : SStat} :
      Reached updates s → ¬ s.Evicts → s.add back = some s' → Reached (updates ++ [back]) s'

def times (entries : List SStat) : Nat := (entries.map (·.interval.toNat)).sum

def bytes (entries : List SStat) : Nat := (entries.map (·.bytes.toNat)).sum

/-- The totals are the sums over the entries of the buffer, in 64 bits. -/
structure Sums (s : SRateCounter) (entries : List SStat) : Prop where
  holds : s.rateStat.Holds entries
  grows : s.rateStat.grow = 10
  time : s.totalTime.toNat = times entries % 2 ^ 64
  bytes : s.totalBytes.toNat = SRateCounter.bytes entries % 2 ^ 64

theorem sums_new : new.Sums [] := ⟨SRingBuffer.holds_new 10, rfl, rfl, rfl⟩

theorem toNat_sub_sum {total front : UInt64} {rest : Nat} (h : total.toNat = (front.toNat + rest) % 2 ^ 64) :
    (total - front).toNat = rest % 2 ^ 64 := by
  have := front.toNat_lt
  rw [UInt64.toNat_sub, h]
  omega

theorem toNat_add_sum {total back : UInt64} {rest : Nat} (h : total.toNat = rest % 2 ^ 64) :
    (total + back).toNat = (rest + back.toNat) % 2 ^ 64 := by
  rw [UInt64.toNat_add, h, Nat.mod_add_mod]

theorem Sums.evict {s : SRateCounter} {front : SStat} {entries : List SStat} (hs : s.Sums (front :: entries)) :
    s.rateStat.front = some front ∧ ∃ s', s.evict = some s' ∧ s'.Sums entries := by
  obtain ⟨hholds, hgrows, htime, hbytes⟩ := hs
  obtain ⟨rateStat, hpop, hrest, hgrow⟩ := hholds.popFront
  refine ⟨hholds.front, ⟨s.byteRate, rateStat, s.totalBytes - front.bytes, s.totalTime - front.interval⟩, ?_,
    ⟨hrest, hgrow.trans hgrows, toNat_sub_sum htime, toNat_sub_sum hbytes⟩⟩
  rw [SRateCounter.evict, hholds.front, Option.bind_some, hpop, Option.map_some]

theorem divisor_ne_zero (totalTime interval : UInt64) : divisor totalTime interval ≠ 0 := by
  unfold divisor
  generalize (if totalTime ≠ 0 then totalTime else interval) = time
  by_cases hlt : time < avgInterval / 2
  · simp only [if_pos hlt]
    decide
  · simp only [if_neg hlt]
    rintro rfl
    exact hlt (by decide)

theorem Sums.add {s : SRateCounter} {entries : List SStat} (hs : s.Sums entries) (back : SStat) :
    ∃ s', s.add back = some s' ∧ s'.Sums (entries ++ [back]) := by
  obtain ⟨hholds, hgrows, htime, hbytes⟩ := hs
  obtain ⟨rateStat, hpush, hrest, hgrow⟩ := hholds.pushBack (by omega) ⟨0, 0⟩ back
  refine ⟨⟨(s.totalBytes + back.bytes) * 1000 / divisor (s.totalTime + back.interval) back.interval, rateStat,
    s.totalBytes + back.bytes, s.totalTime + back.interval⟩, ?_, ⟨hrest, hgrow.trans hgrows, ?_, ?_⟩⟩
  · simp only [SRateCounter.add, hpush, Option.bind_some, quotient, if_neg (divisor_ne_zero _ _), Option.map_some]
  · rw [toNat_add_sum htime]
    simp only [times, List.map_append, List.sum_append, List.map_cons, List.map_nil, List.sum_singleton]
  · rw [toNat_add_sum hbytes]
    simp only [SRateCounter.bytes, List.map_append, List.sum_append, List.map_cons, List.map_nil, List.sum_singleton]

theorem Sums.size_eq {s : SRateCounter} {entries : List SStat} (hs : s.Sums entries) :
    s.rateStat.size = entries.length := hs.holds.size

/-- The entries are the last updates. -/
theorem Reached.sums {updates : List SStat} {s : SRateCounter} (h : Reached updates s) :
    ∃ entries, s.Sums entries ∧ entries <:+ updates := by
  induction h with
  | new => exact ⟨[], sums_new, List.suffix_refl []⟩
  | @evict updates s s' _ hevicts hrun ih =>
    obtain ⟨entries, hs, hlast⟩ := ih
    obtain _ | ⟨front, entries⟩ := entries
    · exact absurd hs.size_eq hevicts.2
    · obtain ⟨_, s₁, hs₁, hsums⟩ := hs.evict
      rw [hs₁] at hrun
      obtain rfl := Option.some.inj hrun
      exact ⟨entries, hsums, (List.suffix_cons front entries).trans hlast⟩
  | @add updates s s' back _ _ hrun ih =>
    obtain ⟨entries, hs, front, rfl⟩ := ih
    obtain ⟨s₁, hs₁, hsums⟩ := hs.add back
    rw [hs₁] at hrun
    obtain rfl := Option.some.inj hrun
    exact ⟨entries ++ [back], hsums, front, (List.append_assoc _ _ _).symm⟩

theorem Reached.evicts {updates : List SStat} :
    ∀ {n : Nat} {s : SRateCounter}, Reached updates s → s.rateStat.size ≤ n →
      ∃ s', s.evicts n = some s' ∧ Reached updates s' ∧ ¬ s'.Evicts
  | 0, s, h, hn => ⟨s, rfl, h, fun hevicts => hevicts.2 (Nat.le_zero.1 hn)⟩
  | n + 1, s, h, hn => by
    unfold SRateCounter.evicts
    by_cases hevicts : s.Evicts
    · obtain ⟨entries, hs, -⟩ := h.sums
      obtain _ | ⟨front, entries⟩ := entries
      · exact absurd hs.size_eq hevicts.2
      · obtain ⟨_, s₁, hrun, hsums⟩ := hs.evict
        have hsize := hs.size_eq
        rw [List.length_cons] at hsize
        rw [if_pos hevicts, hrun, Option.bind_some]
        exact (h.evict hevicts hrun).evicts (by rw [hsums.size_eq]; omega)
    · exact ⟨s, if_neg hevicts, h, hevicts⟩

/-- An update never divides by zero and never leaves the buffer. -/
theorem Reached.update {updates : List SStat} {s : SRateCounter} (h : Reached updates s) (back : SStat) :
    ∃ s', s.update back.interval back.bytes = some s' ∧ Reached (updates ++ [back]) s' := by
  obtain ⟨s₁, hevicts, hs₁, hstop⟩ := h.evicts (Nat.le_refl _)
  obtain ⟨entries, hs, -⟩ := hs₁.sums
  obtain ⟨s', hadd, -⟩ := hs.add back
  refine ⟨s', ?_, hs₁.add hstop hadd⟩
  rw [SRateCounter.update, hevicts, Option.bind_some, hadd]

end SRateCounter

end MajorPrivacy.Usage

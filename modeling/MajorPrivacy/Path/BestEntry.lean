/-
`CPathTree::GetBestEntry`: of the entries found for a path, the one whose pattern goes furthest
before its first wildcard, and of these the first that does not end in one.
-/
import MajorPrivacy.Path.PathTree

namespace MajorPrivacy.Path

namespace SPatternInfo

/-- `IsExact`: the pattern does not end in a wildcard. -/
def isExact (info : SPatternInfo) : Bool :=
  if info.firstAsterisk ≠ noPos ∧ info.lastAsterisk = info.patternLength - 1 then false
  else if info.firstDblAsterisk ≠ noPos ∧ info.firstDblAsterisk + 1 = info.patternLength - 1 then false
  else true

/-- `GetMatchLen`: the length up to the first wildcard, which counts. -/
def getMatchLen (info : SPatternInfo) : UInt32 :=
  let uMatchLength := if info.firstAsterisk < info.firstDblAsterisk then info.firstAsterisk else info.firstDblAsterisk
  if uMatchLength = noPos then info.patternLength else uMatchLength + 1

end SPatternInfo

/-- `pBestEntry`, `uBestMatchLen` and `bBestExact`. -/
structure SBestEntry (E : Type) where
  pBestEntry : Option E
  uBestMatchLen : UInt32
  bBestExact : Bool

variable {E : Type}

def SBestEntry.step (best : SBestEntry E) (entry : SPathEntry E) : SBestEntry E :=
  let uCurMatchLen := entry.info.getMatchLen
  let bCurExact := entry.info.isExact
  if uCurMatchLen > best.uBestMatchLen ∨ uCurMatchLen = best.uBestMatchLen ∧ best.bBestExact = false ∧ bCurExact = true
  then ⟨some entry.pEntry, uCurMatchLen, bCurExact⟩
  else best

/-- The loop of `GetBestEntry` over what `GetEntries` found. -/
def bestOf (entries : List (SPathEntry E)) : Option E :=
  (entries.foldl SBestEntry.step ⟨none, 0, false⟩).pBestEntry

/-- `CPathTree::GetBestEntry`. -/
def CPathTree.getBestEntry [DecidableEq E] (t : CPathTree E) (path : Str) (flags : MayHaveSeparator) : Option E :=
  bestOf (t.getEntries path flags)

/-! ## The best entry -/

/-- How specific a pattern is: first by its length up to a wildcard, then by its end. -/
def SPathEntry.rank (entry : SPathEntry E) : Nat :=
  2 * entry.info.getMatchLen.toNat + (if entry.info.isExact then 1 else 0)

/-- The first of the most specific entries. -/
def IsBest (entries : List (SPathEntry E)) (best : SPathEntry E) : Prop :=
  ∃ before after, entries = before ++ best :: after ∧ (∀ entry ∈ before, entry.rank < best.rank) ∧
    ∀ entry ∈ after, entry.rank ≤ best.rank

theorem SPatternInfo.isExact_of_no_asterisk {info : SPatternInfo} (h : info.firstAsterisk = noPos)
    (hd : info.firstDblAsterisk = noPos) : info.isExact = true := by
  simp [isExact, h, hd]

/-- A pattern whose length counts as 0 has no wildcard. -/
theorem SPatternInfo.isExact_of_getMatchLen {info : SPatternInfo} (h : info.getMatchLen = 0) : info.isExact = true := by
  unfold getMatchLen at h
  simp only [noPos, UInt32.lt_iff_toNat_lt, ← UInt32.toNat_inj] at h
  apply isExact_of_no_asterisk
  all_goals
    simp only [noPos, ← UInt32.toNat_inj]
    have h₁ := info.firstAsterisk.toNat_lt
    have h₂ := info.firstDblAsterisk.toNat_lt
    split_ifs at h <;> simp at * <;> omega

/-- No pattern is so short that `GetBestEntry` would not take it. -/
theorem SPathEntry.rank_pos (entry : SPathEntry E) : 0 < entry.rank := by
  unfold rank
  by_cases hlen : entry.info.getMatchLen = 0
  · rw [if_pos (SPatternInfo.isExact_of_getMatchLen hlen)]
    omega
  · have : entry.info.getMatchLen.toNat ≠ 0 := fun h => hlen (UInt32.toNat_inj.1 h)
    omega

namespace SBestEntry

/-- What the loop keeps, as a rank. -/
def rank (best : SBestEntry E) : Nat := 2 * best.uBestMatchLen.toNat + (if best.bBestExact then 1 else 0)

theorem step_eq (best : SBestEntry E) (entry : SPathEntry E) :
    best.step entry = if best.rank < entry.rank
      then ⟨some entry.pEntry, entry.info.getMatchLen, entry.info.isExact⟩ else best := by
  unfold step
  apply if_congr _ rfl rfl
  simp only [rank, SPathEntry.rank, gt_iff_lt, UInt32.lt_iff_toNat_lt, ← UInt32.toNat_inj]
  cases best.bBestExact <;> cases entry.info.isExact <;> simp <;> omega

/-- The loop ends with what it began with, if no entry is more specific, and else with the first of
the most specific ones. -/
theorem foldl_step : ∀ (entries : List (SPathEntry E)) (best : SBestEntry E),
    (entries.foldl step best = best ∧ ∀ entry ∈ entries, entry.rank ≤ best.rank) ∨
    ∃ entry, IsBest entries entry ∧ best.rank < entry.rank ∧
      entries.foldl step best = ⟨some entry.pEntry, entry.info.getMatchLen, entry.info.isExact⟩
  | [], best => .inl ⟨rfl, by simp⟩
  | entry :: entries, best => by
    rw [List.foldl_cons, step_eq]
    by_cases hlt : best.rank < entry.rank
    · rw [if_pos hlt]
      obtain ⟨hkeep, hle⟩ | ⟨entry', ⟨before, after, rfl, hbefore, hafter⟩, hmore, heq⟩ :=
        foldl_step entries ⟨some entry.pEntry, entry.info.getMatchLen, entry.info.isExact⟩
      · exact .inr ⟨entry, ⟨[], entries, rfl, by simp, hle⟩, hlt, hkeep⟩
      · have hmore : entry.rank < entry'.rank := hmore
        refine .inr ⟨entry', ⟨entry :: before, after, rfl, ?_, hafter⟩, by omega, heq⟩
        simpa [hmore] using hbefore
    · rw [if_neg hlt]
      obtain ⟨hkeep, hle⟩ | ⟨entry', ⟨before, after, rfl, hbefore, hafter⟩, hmore, heq⟩ := foldl_step entries best
      · refine .inl ⟨hkeep, ?_⟩
        simpa [Nat.not_lt.1 hlt] using hle
      · refine .inr ⟨entry', ⟨entry :: before, after, rfl, ?_, hafter⟩, hmore, heq⟩
        simpa [show entry.rank < entry'.rank by omega] using hbefore

end SBestEntry

/-- `GetBestEntry` gives nothing if nothing was found, and else the first of the most specific
entries. -/
theorem bestOf_spec (entries : List (SPathEntry E)) :
    (entries = [] ∧ bestOf entries = none) ∨ ∃ best, IsBest entries best ∧ bestOf entries = some best.pEntry := by
  obtain ⟨hkeep, hle⟩ | ⟨best, hbest, -, heq⟩ := SBestEntry.foldl_step entries ⟨none, 0, false⟩
  · left
    cases entries with
    | nil => exact ⟨rfl, rfl⟩
    | cons entry entries =>
      have hzero : entry.rank ≤ 0 := hle entry List.mem_cons_self
      have := entry.rank_pos
      omega
  · refine .inr ⟨best, hbest, ?_⟩
    rw [bestOf, heq]

/-- There is one best entry at most. -/
theorem IsBest.unique {entries : List (SPathEntry E)} {best best' : SPathEntry E} (h : IsBest entries best)
    (h' : IsBest entries best') : best = best' := by
  obtain ⟨before, after, rfl, hbefore, hafter⟩ := h
  obtain ⟨before', after', heq, hbefore', hafter'⟩ := h'
  obtain ⟨mid, rfl, hmid⟩ | ⟨mid, rfl, hmid⟩ := List.append_eq_append_iff.1 heq
  · cases mid with
    | nil => exact (List.cons.inj hmid).1
    | cons entry mid =>
      obtain ⟨rfl, rfl⟩ := List.cons.inj hmid
      have h₁ := hbefore' best (by simp)
      have h₂ := hafter best' (by simp)
      omega
  · cases mid with
    | nil => exact (List.cons.inj hmid).1.symm
    | cons entry mid =>
      obtain ⟨rfl, rfl⟩ := List.cons.inj hmid
      have h₁ := hbefore best' (by simp)
      have h₂ := hafter' best (by simp)
      omega

theorem bestOf_eq_none {entries : List (SPathEntry E)} : bestOf entries = none ↔ entries = [] := by
  obtain ⟨rfl, h⟩ | ⟨best, ⟨before, after, rfl, -⟩, h⟩ := bestOf_spec entries <;> simp [h]

theorem bestOf_eq_some {entries : List (SPathEntry E)} {e : E} :
    bestOf entries = some e ↔ ∃ best, IsBest entries best ∧ best.pEntry = e := by
  obtain ⟨rfl, h⟩ | ⟨best, hbest, h⟩ := bestOf_spec entries
  · rw [h]
    simp [IsBest]
  · rw [h, Option.some.injEq]
    constructor
    · exact fun he => ⟨best, hbest, he⟩
    · rintro ⟨best', hbest', rfl⟩
      rw [hbest.unique hbest']

end MajorPrivacy.Path

/-
DOS paths to NT paths and back. A path is on the longest mount point that contains it component by
component, or on its drive. The look-ups by drives go by components, those by mount points only by the
text, so a mount point takes paths that merely begin like it, in both directions.
-/
import Mathlib.Data.List.Induction
import MajorPrivacy.NtPath.NtPathMgr

namespace MajorPrivacy.NtPath

open MajorPrivacy.Path

/-! ## Texts up to case -/

def SameText (a b : Str) : Prop := makeLower a = makeLower b

theorem SameText.length {a b : Str} (h : SameText a b) : a.length = b.length := by
  have := congrArg List.length h
  simpa [makeLower] using this

theorem makeLower_append (a b : Str) : makeLower (a ++ b) = makeLower a ++ makeLower b := List.map_append

theorem makeLower_take (a : Str) (n : Nat) : makeLower (a.take n) = (makeLower a).take n := List.map_take

theorem makeLower_drop (a : Str) (n : Nat) : makeLower (a.drop n) = (makeLower a).drop n := List.map_drop

theorem length_makeLower (a : Str) : (makeLower a).length = a.length := List.length_map _

theorem SameText.append {a b c d : Str} (h : SameText a b) (h' : SameText c d) : SameText (a ++ c) (b ++ d) := by
  unfold SameText at *
  rw [makeLower_append, makeLower_append, h, h']

theorem SameText.take {a b : Str} (h : SameText a b) (n : Nat) : SameText (a.take n) (b.take n) := by
  unfold SameText at *
  rw [makeLower_take, makeLower_take, h]

theorem SameText.drop {a b : Str} (h : SameText a b) (n : Nat) : SameText (a.drop n) (b.drop n) := by
  unfold SameText at *
  rw [makeLower_drop, makeLower_drop, h]

theorem begins_iff {pre s : Str} : begins pre s = true ↔ ∃ front rest, s = front ++ rest ∧ SameText front pre := by
  unfold begins
  rw [decide_eq_true_eq]
  constructor
  · exact fun h => ⟨s.take pre.length, s.drop pre.length, (List.take_append_drop _ _).symm, h.2⟩
  · rintro ⟨front, rest, rfl, h⟩
    have hlen := h.length
    refine ⟨by simp [← hlen], ?_⟩
    rw [← hlen, List.take_left]
    exact h

namespace CNtPathMgr

variable (t : CNtPathMgr)

/-- The place that a DOS path is on: the longest mount point that contains it, or else its drive. -/
def IsOn (DosPath : Str) : Place → Prop
  | .mount Mount => Mount ∈ t.m_Mounts ∧ contains Mount.MountPoint DosPath = true ∧
      ∀ other ∈ t.m_Mounts, contains other.MountPoint DosPath = true → other.MountPoint.length ≤ Mount.MountPoint.length
  | .drive index DevicePath => t.m_Drives index = some DevicePath ∧ driveIndex (DosPath.headD 0) = some index ∧
      ∀ other ∈ t.m_Mounts, contains other.MountPoint DosPath = false

/-- A path on a drive or a mount point comes back, up to letter case. -/
def ComesBack (DosPath : Str) : Prop :=
  (∃ place, t.IsOn DosPath place) → SameText (t.translateNtToDosPath (t.translateDosToNtPath DosPath)) DosPath

end CNtPathMgr

/-- An NT path is on the device of a place: for a network drive also without the component that names
the drive. -/
def Place.HasPath (NtPath : Str) : Place → Prop
  | drive _ DevicePath => contains DevicePath NtPath = true ∨ (uncPrefix DevicePath NtPath).isSome = true
  | mount Mount => contains Mount.DevicePath NtPath = true

namespace CNtPathMgr

variable (t : CNtPathMgr)

/-- A path is on the place, and on none of the same mount point before it. -/
def IsFirstOn (DosPath : Str) : Place → Prop
  | .mount Mount => t.IsOn DosPath (.mount Mount) ∧ ∃ before after, t.m_Mounts = before ++ Mount :: after ∧
      ∀ other ∈ before, contains other.MountPoint DosPath = true → other.MountPoint.length < Mount.MountPoint.length
  | .drive index DevicePath => t.IsOn DosPath (.drive index DevicePath)

/-- The first place of an NT path, and how much of the path is its device: drives go before the shares
of network drives, these before `Z:` if that is not a device's, and all of them before the mounts, which
need not contain the path. -/
inductive FirstOn (NtPath : Str) : Place → Nat → Prop
  | drive {i : Fin 26} {DevicePath : Str} (h : t.m_Drives i = some DevicePath) (hcontains : contains DevicePath NtPath = true)
    (hbefore : ∀ j < i, ∀ d, t.m_Drives j = some d → contains d NtPath = false) :
    FirstOn NtPath (.drive i DevicePath) DevicePath.length
  | share {i : Fin 26} {DevicePath : Str} {PrefixLen : Nat} (hno : ∀ j d, t.m_Drives j = some d → contains d NtPath = false)
    (h : t.m_Drives i = some DevicePath) (hshare : uncPrefix DevicePath NtPath = some PrefixLen)
    (hbefore : ∀ j < i, ∀ d, t.m_Drives j = some d → uncPrefix d NtPath = none) :
    FirstOn NtPath (.drive i DevicePath) PrefixLen
  | last {i : Fin 26} {DevicePath : Str} (hno : ∀ j d, t.m_Drives j = some d → ¬ (Place.drive j d).HasPath NtPath)
    (hsplit : (splitDevice NtPath).isSome = true) (h : t.lastDrive = some (i, DevicePath)) :
    FirstOn NtPath (.drive i DevicePath) 0
  | mount {before after : List SMount} {Mount : SMount}
    (hno : ∀ j d, t.m_Drives j = some d → ¬ (Place.drive j d).HasPath NtPath)
    (hlast : (splitDevice NtPath).isSome = true → t.lastDrive = none) (h : t.m_Mounts = before ++ Mount :: after)
    (hbefore : ∀ other ∈ before, begins other.DevicePath NtPath = false) (hbegins : begins Mount.DevicePath NtPath = true) :
    FirstOn NtPath (.mount Mount) Mount.DevicePath.length

/-- What stands for the front of an NT path: nothing for `\??\`, and the point of the first place that it
is on unless the path is one of the multiple provider. -/
inductive ShownAs (NtPath : Str) : Str → Nat → Prop
  | stripped (h : begins prefixBQQB NtPath = true) : ShownAs NtPath [] 4
  | point {place : Place} {PrefixLen : Nat} (hdevice : begins prefixBQQB NtPath = false) (hmup : begins prefixMup NtPath = false)
    (h : t.FirstOn NtPath place PrefixLen) : ShownAs NtPath place.point PrefixLen

/-- The result is the first of the longest mount points of the list that the path begins with. -/
inductive Longest (DosPath : Str) (mounts : List SMount) : Option SMount → Prop
  | missing (h : ∀ Mount ∈ mounts, begins Mount.MountPoint DosPath = false) : Longest DosPath mounts none
  | found {before after : List SMount} {Mount : SMount} (heq : mounts = before ++ Mount :: after)
    (hbegins : begins Mount.MountPoint DosPath = true)
    (hbefore : ∀ other ∈ before, begins other.MountPoint DosPath = true →
      other.MountPoint.length < Mount.MountPoint.length)
    (hafter : ∀ other ∈ after, begins other.MountPoint DosPath = true →
      other.MountPoint.length ≤ Mount.MountPoint.length) : Longest DosPath mounts (some Mount)

theorem Longest.max {DosPath : Str} {mounts : List SMount} {Mount : SMount} (h : Longest DosPath mounts (some Mount)) :
    ∀ other ∈ mounts, begins other.MountPoint DosPath = true → other.MountPoint.length ≤ Mount.MountPoint.length := by
  obtain _ | ⟨rfl, hbegins, hbefore, hafter⟩ := h
  intro other hother hb
  obtain hother | hother := List.mem_append.1 hother
  · exact (hbefore other hother hb).le
  · obtain rfl | hother := List.mem_cons.1 hother
    · exact Nat.le_refl _
    · exact hafter other hother hb

theorem Longest.mem {DosPath : Str} {mounts : List SMount} {Mount : SMount} (h : Longest DosPath mounts (some Mount)) :
    Mount ∈ mounts ∧ begins Mount.MountPoint DosPath = true := by
  obtain _ | ⟨rfl, hbegins, -, -⟩ := h
  exact ⟨List.mem_append_right _ (List.mem_cons_self ..), hbegins⟩

theorem Longest.append_false {DosPath : Str} {mounts : List SMount} {result : Option SMount} (h : Longest DosPath mounts result)
    {Mount : SMount} (hnot : begins Mount.MountPoint DosPath = false) : Longest DosPath (mounts ++ [Mount]) result := by
  cases h with
  | missing h =>
    refine .missing fun other hother => ?_
    obtain hother | hother := List.mem_append.1 hother
    · exact h other hother
    · rw [List.mem_singleton.1 hother]
      exact hnot
  | @found before after final heq hbegins hbefore hafter =>
    refine @Longest.found _ _ before (after ++ [Mount]) final (by rw [heq, List.append_assoc, List.cons_append]) hbegins hbefore ?_
    intro other hother hb
    obtain hother | hother := List.mem_append.1 hother
    · exact hafter other hother hb
    · rw [List.mem_singleton.1 hother, hnot] at hb
      cases hb

theorem longest_getMountForPath (DosPath : Str) : Longest DosPath t.m_Mounts (t.getMountForPath DosPath) := by
  unfold getMountForPath
  induction t.m_Mounts using List.reverseRecOn with
  | nil => exact .missing (by simp)
  | append_singleton mounts Mount ih =>
    rw [List.foldl_append, List.foldl_cons, List.foldl_nil]
    by_cases hb : begins Mount.MountPoint DosPath = true
    · rw [if_pos hb]
      generalize mounts.foldl _ _ = best at ih ⊢
      cases best with
      | none =>
        obtain ⟨h⟩ := ih
        refine .found rfl hb (fun other hother hbegins => ?_) (by simp)
        rw [h other hother] at hbegins
        cases hbegins
      | some final =>
        dsimp only
        by_cases hlen : Mount.MountPoint.length > final.MountPoint.length
        · rw [if_pos hlen]
          exact .found rfl hb (fun other hother hb' => Nat.lt_of_le_of_lt (ih.max other hother hb') hlen) (by simp)
        · rw [if_neg hlen]
          obtain _ | @⟨before, after, _, heq, hbegins, hbefore, hafter⟩ := ih
          refine @Longest.found _ _ before (after ++ [Mount]) final (by rw [heq, List.append_assoc, List.cons_append]) hbegins hbefore ?_
          intro other hother hb'
          obtain hother | hother := List.mem_append.1 hother
          · exact hafter other hother hb'
          · rw [List.mem_singleton.1 hother]
            exact Nat.le_of_not_lt hlen
    · rw [if_neg hb]
      exact ih.append_false (Bool.not_eq_true _ ▸ hb)

theorem IsFirstOn.isOn {t : CNtPathMgr} {DosPath : Str} {place : Place} (h : t.IsFirstOn DosPath place) : t.IsOn DosPath place := by
  cases place with
  | drive => exact h
  | mount => exact h.1

/-- A path is first on one place only. -/
theorem IsFirstOn.unique {t : CNtPathMgr} {DosPath : Str} {place place' : Place} (h : t.IsFirstOn DosPath place)
    (h' : t.IsFirstOn DosPath place') : place = place' := by
  have hon := h.isOn
  have hon' := h'.isOn
  cases place with
  | drive index DevicePath =>
    cases place' with
    | drive index' DevicePath' =>
      obtain rfl := Option.some.inj (hon.2.1.symm.trans hon'.2.1)
      obtain rfl := Option.some.inj (hon.1.symm.trans hon'.1)
      rfl
    | mount Mount' =>
      have hnot := hon.2.2 Mount' hon'.1
      rw [hon'.2.1] at hnot
      cases hnot
  | mount Mount =>
    cases place' with
    | drive =>
      have hnot := hon'.2.2 Mount hon.1
      rw [hon.2.1] at hnot
      cases hnot
    | mount Mount' =>
      obtain ⟨-, before, after, heq, hbefore⟩ := h
      obtain ⟨-, before', after', heq', hbefore'⟩ := h'
      have hle := hon.2.2 Mount' hon'.1 hon'.2.1
      have hle' := hon'.2.2 Mount hon.1 hon.2.1
      obtain ⟨between, rfl, hrest⟩ | ⟨between, rfl, hrest⟩ := List.append_eq_append_iff.1 (heq.symm.trans heq')
      · cases between with
        | nil =>
          obtain ⟨rfl, -⟩ := List.cons.inj hrest
          rfl
        | cons m between =>
          obtain ⟨rfl, -⟩ := List.cons.inj hrest
          exact absurd (hbefore' Mount (by simp) hon.2.1) (by omega)
      · cases between with
        | nil =>
          obtain ⟨rfl, -⟩ := List.cons.inj hrest
          rfl
        | cons m between =>
          obtain ⟨rfl, -⟩ := List.cons.inj hrest
          exact absurd (hbefore Mount' (by simp) hon'.2.1) (by omega)

/-! ## The place of an NT path -/

theorem getDriveForPath_eq_none {NtPath : Str} :
    t.getDriveForPath NtPath = none ↔ ∀ j d, t.m_Drives j = some d → contains d NtPath = false := by
  unfold getDriveForPath
  rw [Fin.findSome?_eq_none_iff]
  simp only [Option.bind_eq_none_iff, ite_eq_right_iff, reduceCtorEq, imp_false, Bool.not_eq_true]

theorem getDriveForPath_eq_some {NtPath : Str} {i : Fin 26} {DevicePath : Str} :
    t.getDriveForPath NtPath = some (i, DevicePath) ↔ t.m_Drives i = some DevicePath ∧ contains DevicePath NtPath = true ∧
      ∀ j < i, ∀ d, t.m_Drives j = some d → contains d NtPath = false := by
  unfold getDriveForPath
  rw [Fin.findSome?_eq_some_iff]
  simp only [Option.bind_eq_none_iff, Option.bind_eq_some_iff, ite_eq_right_iff, reduceCtorEq, imp_false, Bool.not_eq_true,
    Option.ite_none_right_eq_some, Option.some.injEq, Prod.mk.injEq]
  constructor
  · rintro ⟨i', ⟨d, hd, hc, rfl, rfl⟩, hbefore⟩
    exact ⟨hd, hc, hbefore⟩
  · rintro ⟨hd, hc, hbefore⟩
    exact ⟨i, ⟨DevicePath, hd, hc, rfl, rfl⟩, hbefore⟩

/-- No drive is found just if the path is on no drive's device. -/
theorem no_place_iff {NtPath : Str} : (∀ j d, t.m_Drives j = some d → ¬ (Place.drive j d).HasPath NtPath) ↔
    (∀ j d, t.m_Drives j = some d → contains d NtPath = false) ∧ ∀ j d, t.m_Drives j = some d → uncPrefix d NtPath = none := by
  simp only [Place.HasPath, not_or, Bool.not_eq_true, Option.isSome_eq_false_iff, Option.isNone_iff_eq_none]
  constructor
  · intro h
    exact ⟨fun j d hd => (h j d hd).1, fun j d hd => (h j d hd).2⟩
  · rintro ⟨hc, hu⟩ j d hd
    exact ⟨hc j d hd, hu j d hd⟩

theorem uncPrefix_eq_none {d NtPath : Str} (h : splitDevice NtPath = none) : uncPrefix d NtPath = none := by
  unfold uncPrefix
  rw [h]

/-- The look-up by shares finds a share, or else the last drive. -/
inductive Shared (NtPath : Str) : Option ((Fin 26 × Str) × Nat) → Prop
  | share {i : Fin 26} {DevicePath : Str} {PrefixLen : Nat} (h : t.m_Drives i = some DevicePath)
    (hshare : uncPrefix DevicePath NtPath = some PrefixLen)
    (hbefore : ∀ j < i, ∀ d, t.m_Drives j = some d → uncPrefix d NtPath = none) :
    Shared NtPath (some ((i, DevicePath), PrefixLen))
  | last (hno : ∀ j d, t.m_Drives j = some d → uncPrefix d NtPath = none) (hsplit : (splitDevice NtPath).isSome = true) :
    Shared NtPath (t.lastDrive.map fun last => (last, 0))
  | missing (hno : ∀ j d, t.m_Drives j = some d → uncPrefix d NtPath = none) (hsplit : splitDevice NtPath = none) :
    Shared NtPath none

theorem Shared.getDriveForUncPath {NtPath : Str} {found : Option ((Fin 26 × Str) × Nat)} (h : t.Shared NtPath found) :
    t.getDriveForUncPath NtPath = found := by
  unfold CNtPathMgr.getDriveForUncPath
  cases h with
  | @share i DevicePath PrefixLen h hshare hbefore =>
    have hsplit : splitDevice NtPath ≠ none := by
      intro hnone
      rw [uncPrefix_eq_none hnone] at hshare
      cases hshare
    have hfirst : (Fin.findSome? fun i => (t.m_Drives i).bind fun DevicePath =>
        (uncPrefix DevicePath NtPath).map fun PrefixLen => ((i, DevicePath), PrefixLen)) = some ((i, DevicePath), PrefixLen) := by
      refine Fin.findSome?_eq_some_iff.2 ⟨i, by rw [h, Option.bind_some, hshare]; rfl, fun j hj => ?_⟩
      exact Option.bind_eq_none_iff.2 fun d hd => Option.map_eq_none_iff.2 (hbefore j hj d hd)
    rw [if_neg (by simpa using hsplit), hfirst]
  | last hno hsplit =>
    have hnone : (Fin.findSome? fun i => (t.m_Drives i).bind fun DevicePath =>
        (uncPrefix DevicePath NtPath).map fun PrefixLen => ((i, DevicePath), PrefixLen)) = none :=
      Fin.findSome?_eq_none_iff.2 fun j => Option.bind_eq_none_iff.2 fun d hd => Option.map_eq_none_iff.2 (hno j d hd)
    rw [if_neg (by simpa [Option.isSome_iff_ne_none] using hsplit), hnone]
  | missing hno hsplit => rw [hsplit, Option.isNone_none, if_pos rfl]

theorem getMountForDevice_eq_some {NtPath : Str} {Mount : SMount} : t.getMountForDevice NtPath = some Mount ↔
    begins Mount.DevicePath NtPath = true ∧ ∃ before after, t.m_Mounts = before ++ Mount :: after ∧
      ∀ other ∈ before, begins other.DevicePath NtPath = false := by
  unfold getMountForDevice
  simp only [List.find?_eq_some_iff_append, Bool.not_eq_true']

theorem FirstOn.placeOfNtPath {NtPath : Str} {place : Place} {PrefixLen : Nat} (h : t.FirstOn NtPath place PrefixLen) :
    t.placeOfNtPath NtPath = some (place, PrefixLen) := by
  unfold CNtPathMgr.placeOfNtPath
  cases h with
  | drive h hc hbefore => rw [t.getDriveForPath_eq_some.2 ⟨h, hc, hbefore⟩]
  | share hno h hshare hbefore =>
    rw [t.getDriveForPath_eq_none.2 hno, (Shared.share h hshare hbefore).getDriveForUncPath]
  | last hno hsplit h =>
    obtain ⟨hc, hu⟩ := t.no_place_iff.1 hno
    rw [t.getDriveForPath_eq_none.2 hc, (Shared.last hu hsplit).getDriveForUncPath, h]
    rfl
  | mount hno hlast h hbefore hbegins =>
    obtain ⟨hc, hu⟩ := t.no_place_iff.1 hno
    have hnone : t.getDriveForUncPath NtPath = none := by
      cases hsplit : splitDevice NtPath with
      | none => exact (Shared.missing hu hsplit).getDriveForUncPath
      | some split =>
        have hsome : (splitDevice NtPath).isSome = true := by rw [hsplit]; rfl
        rw [(Shared.last hu hsome).getDriveForUncPath, hlast hsome]
        rfl
    rw [t.getDriveForPath_eq_none.2 hc, hnone, t.getMountForDevice_eq_some.2 ⟨hbegins, _, _, h, hbefore⟩]
    rfl

end CNtPathMgr

/-- The first characters of a DOS path. -/
theorem isDosPath_iff {p : Str} : isDosPath p = true ↔
    ∃ c rest i, p = c :: colon :: rest ∧ driveIndex c = some i ∧ atComponent rest = true := by
  unfold isDosPath atComponent
  match p with
  | [] => simp
  | [c] => simp
  | c :: d :: rest =>
    simp only [List.getElem?_cons_succ, List.getElem?_cons_zero, List.length_cons, List.head?_cons, Option.bind_some,
      Bool.and_eq_true, Bool.or_eq_true, decide_eq_true_eq, Option.some.injEq, Option.isSome_iff_exists, List.cons.injEq]
    constructor
    · rintro ⟨⟨rfl, hrest⟩, i, hi⟩
      refine ⟨c, rest, i, ⟨rfl, rfl, rfl⟩, hi, ?_⟩
      cases rest with
      | nil => simp
      | cons e rest => simpa using hrest
    · rintro ⟨c', rest', i, ⟨rfl, rfl, rfl⟩, hi, hrest⟩
      refine ⟨⟨rfl, ?_⟩, i, hi⟩
      cases rest with
      | nil => simp
      | cons e rest => simpa using hrest

theorem lower_driveIndex {c : WChar} {i : Fin 26} (h : driveIndex c = some i) : lower c = lower (0x41 + .ofNat i.val) := by
  have hi := i.isLt
  have hnat : (0x41 + UInt16.ofNat i.val).toNat = 0x41 + i.val := by
    simp
    omega
  unfold driveIndex at h
  unfold lower
  simp only [UInt16.le_iff_toNat_le, ← UInt16.toNat_inj, hnat, UInt16.reduceToNat]
  split at h
  · rename_i hc
    obtain rfl := Option.some.inj h
    have hsame : c = 0x41 + UInt16.ofNat (c.toNat - 0x41) := by
      rw [← UInt16.toNat_inj, hnat]
      dsimp only
      omega
    rw [if_pos hc, if_pos (by dsimp only; omega), ← hsame]
  · split at h
    · rename_i hnot hc
      obtain rfl := Option.some.inj h
      have hsame : c = 0x41 + UInt16.ofNat (c.toNat - 0x61) + 32 := by
        rw [← UInt16.toNat_inj, UInt16.toNat_add, hnat]
        simp
        omega
      rw [if_neg (by omega), if_pos (by dsimp only; omega), ← hsame]
    · cases h

theorem head_ne_backslash {c : WChar} {i : Fin 26} (h : driveIndex c = some i) : lower c ≠ lower backslash := by
  rw [lower_driveIndex h]
  clear h
  revert i
  decide

namespace CNtPathMgr

variable {t : CNtPathMgr}

/-- The point of the place that a path is on has the drive letter in it. -/
theorem IsOn.two_le {p : Str} (hp : isDosPath p = true) {place : Place} (h : t.IsOn p place) : 2 ≤ place.point.length := by
  cases place with
  | drive => exact Nat.le_refl 2
  | mount Mount =>
    obtain ⟨c, rest, i, rfl, hi, -⟩ := isDosPath_iff.1 hp
    have hend : atComponent ((c :: colon :: rest).drop Mount.MountPoint.length) = true := (Bool.and_eq_true _ _ ▸ h.2.1).2
    have hc : c ≠ backslash := by
      rintro rfl
      exact head_ne_backslash hi rfl
    by_contra hlt
    change ¬ 2 ≤ Mount.MountPoint.length at hlt
    obtain h₀ | h₁ : Mount.MountPoint.length = 0 ∨ Mount.MountPoint.length = 1 := by omega
    · rw [h₀] at hend
      exact hc (by simpa [atComponent] using hend)
    · rw [h₁] at hend
      exact absurd (show colon = backslash by simpa [atComponent] using hend) (by decide)

/-- No mount point that a path begins with is longer than the point of the place it is taken to be on. -/
theorem mount_length_le {p : Str} {place : Place} (h : t.placeOfDosPath p = some place) {Mount : SMount}
    (hmem : Mount ∈ t.m_Mounts) (hbegins : begins Mount.MountPoint p = true) :
    Mount.MountPoint.length ≤ place.point.length := by
  have hlongest := t.longest_getMountForPath p
  unfold placeOfDosPath at h
  generalize t.getMountForPath p = found at hlongest h
  cases found with
  | none =>
    obtain ⟨hnone⟩ := hlongest
    rw [hnone Mount hmem] at hbegins
    cases hbegins
  | some final =>
    obtain rfl := Option.some.inj h
    exact hlongest.max Mount hmem hbegins

theorem ShownAs.translateNtToDosPath {NtPath front : Str} {PrefixLen : Nat}
    (h : t.ShownAs (t.resolveGuid NtPath) front PrefixLen) :
    t.translateNtToDosPath NtPath = front ++ (t.resolveGuid NtPath).drop PrefixLen := by
  unfold CNtPathMgr.translateNtToDosPath
  dsimp only
  cases h with
  | stripped h => rw [if_pos h, List.nil_append]
  | point hdevice hmup h =>
    rw [hdevice, if_neg Bool.false_ne_true, hmup, if_neg Bool.false_ne_true, h.placeOfNtPath]

/-- What a path that comes back has in front is no longer than the point of its place. -/
theorem ShownAs.length_le {p NtPath front back : Str} {place : Place} {PrefixLen : Nat} (hp : isDosPath p = true)
    (hplace : t.placeOfDosPath p = some place) (hon : t.IsOn p place) (h : t.ShownAs NtPath front PrefixLen)
    (hback : SameText (front ++ back) p) : front.length ≤ place.point.length := by
  have hbegins : begins front p = true := by
    refine begins_iff.2 ⟨p.take front.length, p.drop front.length, (List.take_append_drop _ _).symm, ?_⟩
    unfold SameText at hback ⊢
    rw [makeLower_take, ← hback, makeLower_append, List.take_left' (length_makeLower _)]
  cases h with
  | stripped => exact Nat.zero_le _
  | point _ _ h =>
    cases h with
    | drive => exact hon.two_le hp
    | share => exact hon.two_le hp
    | last => exact hon.two_le hp
    | mount _ _ heq _ _ => exact mount_length_le hplace (by rw [heq]; exact List.mem_append_right _ (List.mem_cons_self ..)) hbegins

end CNtPathMgr

/-! ## One drive and one mount point -/

namespace CNtPathMgr

end CNtPathMgr

end MajorPrivacy.NtPath

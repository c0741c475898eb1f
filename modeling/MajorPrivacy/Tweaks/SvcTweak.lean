/-
`CSvcTweak` (Tweak.cpp): a service is disabled, its start type kept in the registry next to it, and put
back. An Apply keeps what it finds, so a second one keeps that the service is disabled.
-/
import Mathlib.Data.List.Basic

namespace MajorPrivacy.Tweaks

def SERVICE_DEMAND_START : UInt32 := 3
def SERVICE_DISABLED : UInt32 := 4

/-- What `RegQueryDWord` is told to give for a missing value. -/
def missing : UInt32 := 0xFFFFFFFF

/-- `ETweakMode`, of which `Apply` and `Undo` look at one bit. -/
structure ETweakMode where
  eDontSet : Bool

inductive ETweakStatus
  | eNotAvailable | eNotSet | eApplied | eSet | eMissing
  deriving DecidableEq

/-- The tweak with the values `Start` and `OldStart` of its service. -/
structure CSvcTweak where
  m_Set : Bool
  /-- The result of `m_Ver.Test()`. -/
  verTest : Bool
  Start : UInt32
  OldStart : Option UInt32

namespace CSvcTweak

variable (t : CSvcTweak)

/-- `IsAvailable`. -/
def isAvailable : Bool := t.verTest && t.Start ≠ missing

/-- `GetStatus`. -/
def getStatus : ETweakStatus :=
  if !t.isAvailable then .eNotAvailable
  else if t.Start = SERVICE_DISABLED then if t.m_Set then .eSet else .eApplied
  else if t.m_Set then .eMissing else .eNotSet

/-- `SetServiceStart`. -/
def setServiceStart (StartValue : UInt32) : CSvcTweak := { t with Start := StartValue }

/-- `Apply`. -/
def apply (Mode : ETweakMode) : CSvcTweak :=
  let t := if Mode.eDontSet then t else { t with m_Set := true }
  { t with OldStart := some t.Start }.setServiceStart SERVICE_DISABLED

/-- `Undo`. -/
def undo (Mode : ETweakMode) : CSvcTweak :=
  let t := if Mode.eDontSet then t else { t with m_Set := false }
  let OldStart := t.OldStart.getD missing
  let SvcStart := if OldStart = missing then SERVICE_DEMAND_START else OldStart
  { t.setServiceStart SvcStart with OldStart := none }

end CSvcTweak

/-! ## Runs -/

inductive TweakCall
  | Apply (Mode : ETweakMode)
  | Undo (Mode : ETweakMode)

def TweakCall.isApply : TweakCall → Bool
  | Apply _ => true
  | Undo _ => false

namespace CSvcTweak

def step (t : CSvcTweak) : TweakCall → CSvcTweak
  | .Apply Mode => t.apply Mode
  | .Undo Mode => t.undo Mode

def run (t : CSvcTweak) (calls : List TweakCall) : CSvcTweak := calls.foldl step t

/-- An Undo in a run, with the calls before the first Apply since the last Undo. -/
structure UndoneAt (calls before repeated : List TweakCall) (Mode Mode' : ETweakMode) : Prop where
  prefix_calls : before ++ .Apply Mode :: repeated ++ [.Undo Mode'] <+: calls
  repeated : ∀ call ∈ repeated, call.isApply = true
  first : ∀ call ∈ before.getLast?, call.isApply = false

/-- After every Undo that follows an Apply, the service has the start type from before the first Apply
since the last Undo. -/
def RestoresStart (t : CSvcTweak) (calls : List TweakCall) : Prop :=
  ∀ before repeated Mode Mode', UndoneAt calls before repeated Mode Mode' →
    (t.run (before ++ .Apply Mode :: repeated ++ [.Undo Mode'])).Start = (t.run before).Start

/-- Nothing is applied twice between two Undos, but to a service that was disabled anyway. -/
def AppliedOnce (t : CSvcTweak) (calls : List TweakCall) : Prop :=
  ∀ before repeated Mode Mode', UndoneAt calls before repeated Mode Mode' →
    repeated = [] ∧ (t.run before).Start ≠ missing ∨ (t.run before).Start = SERVICE_DISABLED

variable {t : CSvcTweak}

theorem run_append (calls calls' : List TweakCall) : t.run (calls ++ calls') = (t.run calls).run calls' :=
  List.foldl_append

@[simp] theorem start_apply (Mode : ETweakMode) : (t.apply Mode).Start = SERVICE_DISABLED := rfl

@[simp] theorem oldStart_apply (Mode : ETweakMode) : (t.apply Mode).OldStart = some t.Start := by
  unfold apply
  dsimp only [setServiceStart]
  split <;> rfl

/-- An applied tweak is reported as set, however often it is applied. -/
theorem getStatus_apply {Mode : ETweakMode} (h : Mode.eDontSet = false) (hver : t.verTest = true) :
    (t.apply Mode).getStatus = .eSet := by
  have hstart : (t.apply Mode).Start = SERVICE_DISABLED := rfl
  unfold getStatus isAvailable
  rw [hstart]
  unfold apply
  dsimp only [setServiceStart]
  rw [h, if_neg Bool.false_ne_true, hver]
  rfl

theorem start_undo (Mode : ETweakMode) {OldStart : UInt32} (h : t.OldStart = some OldStart) :
    (t.undo Mode).Start = if OldStart = missing then SERVICE_DEMAND_START else OldStart := by
  unfold undo
  dsimp only [setServiceStart]
  split <;> rw [h] <;> rfl

/-- What repeated calls of `Apply` leave: the service is disabled, and kept is what the last one found. -/
theorem run_applies : ∀ {repeated : List TweakCall} {t : CSvcTweak}, (∀ call ∈ repeated, call.isApply = true) →
    t.Start = SERVICE_DISABLED → (t.run repeated).Start = SERVICE_DISABLED ∧
      (t.run repeated).OldStart = if repeated = [] then t.OldStart else some SERVICE_DISABLED
  | [], _, _, hstart => ⟨hstart, rfl⟩
  | .Apply Mode :: repeated, t, h, hstart => by
    obtain ⟨hrun, hold⟩ := run_applies (fun call hcall => h call (List.mem_cons_of_mem _ hcall)) (@start_apply t Mode)
    refine ⟨hrun, hold.trans ?_⟩
    rw [oldStart_apply, hstart, ite_self, if_neg (List.cons_ne_nil _ _)]
  | .Undo _ :: _, _, h, _ => nomatch h _ List.mem_cons_self

/-- What the Undo after some Applies restores. -/
theorem start_undone {repeated : List TweakCall} (h : ∀ call ∈ repeated, call.isApply = true) (Mode Mode' : ETweakMode) :
    (t.run (.Apply Mode :: repeated ++ [.Undo Mode'])).Start =
      if repeated = [] then if t.Start = missing then SERVICE_DEMAND_START else t.Start else SERVICE_DISABLED := by
  obtain ⟨-, hold⟩ := run_applies h (@start_apply t Mode)
  rw [oldStart_apply] at hold
  change (((t.apply Mode).run (repeated ++ [.Undo Mode']))).Start = _
  rw [run_append]
  change (((t.apply Mode).run repeated).undo Mode').Start = _
  by_cases hnil : repeated = []
  · rw [if_pos hnil] at hold ⊢
    exact start_undo Mode' hold
  · rw [if_neg hnil] at hold ⊢
    rw [start_undo Mode' hold]
    decide

theorem restored_iff {repeated : List TweakCall} (h : ∀ call ∈ repeated, call.isApply = true) (Mode Mode' : ETweakMode) :
    (t.run (.Apply Mode :: repeated ++ [.Undo Mode'])).Start = t.Start ↔
      repeated = [] ∧ t.Start ≠ missing ∨ t.Start = SERVICE_DISABLED := by
  rw [start_undone h]
  by_cases hnil : repeated = []
  · rw [if_pos hnil]
    by_cases hmissing : t.Start = missing
    · rw [if_pos hmissing, hmissing]
      refine iff_of_false (by decide) ?_
      rintro (⟨-, hne⟩ | heq)
      · exact hne rfl
      · exact absurd heq (by decide)
    · rw [if_neg hmissing]
      exact ⟨fun _ => .inl ⟨hnil, hmissing⟩, fun _ => rfl⟩
  · rw [if_neg hnil]
    exact ⟨fun h => .inr h.symm, fun h => (h.resolve_left fun h' => hnil h'.1).symm⟩

variable (t) in
/-- A run restores the start types just if it applies the tweak once at a time. -/
theorem restoresStart_iff (calls : List TweakCall) : t.RestoresStart calls ↔ t.AppliedOnce calls := by
  unfold RestoresStart AppliedOnce
  refine forall₄_congr fun before repeated Mode Mode' => ?_
  refine forall_congr' fun h => ?_
  rw [List.append_assoc, run_append]
  exact restored_iff h.repeated Mode Mode'

/-- A service that starts automatically stays disabled after two Applies and an Undo. -/
theorem restoresStart_iff_twice : ¬ ∀ (t : CSvcTweak) (calls : List TweakCall), t.RestoresStart calls := by
  intro h
  have hstart := h ⟨false, true, 2, none⟩ [.Apply ⟨false⟩, .Apply ⟨false⟩, .Undo ⟨false⟩] [] [.Apply ⟨false⟩] ⟨false⟩ ⟨false⟩
    ⟨List.prefix_refl _, by simp [TweakCall.isApply], by simp⟩
  exact absurd hstart (by decide)

end CSvcTweak

end MajorPrivacy.Tweaks

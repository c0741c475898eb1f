/-
Who owns a switched item. Every command changes one or two of the three maps of the manager; the owners of
the items stay active presets, and the active presets stay in the list, as long as no active preset is
deleted or left out of a new list, and no entry gives a preset another id than the one it is stored under.
-/
import MajorPrivacy.Presets.PresetManager

namespace MajorPrivacy.Presets

variable {G W : Type} [DecidableEq G] (sys : System G W)

/-! ## Invariant -/

/-- The owners of the items are active, and the active presets exist. -/
structure Owned (s : State G W) : Prop where
  owner : ∀ e ∈ s.ownership, e.2.presetGuid ∈ s.active
  active : ∀ preset ∈ s.active, (Dict.find preset s.presets).isSome = true

/-- Every preset is stored once, under its own id. -/
structure Keyed (presets : List (G × CPreset G)) : Prop where
  own : ∀ e ∈ presets, e.2.guid = e.1 ∧ e.1 ≠ sys.null
  nodup : (presets.map (·.1)).Nodup

/-- A file whose owners are presets that are marked as active. -/
structure Snapshot.Sound (file : Snapshot G) : Prop where
  guid : ∀ p ∈ file.presets, p.guid ≠ sys.null
  nodup : (file.presets.map (·.guid)).Nodup
  owner : ∀ e ∈ file.ownership, ∃ p ∈ file.presets, p.guid = e.2.presetGuid ∧ p.isActive = true

structure Inv (s : State G W) : Prop where
  owned : Owned s
  keyed : Keyed sys s.presets
  file : ∀ file, s.file = some file → file.Sound sys

theorem Inv.new (w : W) : Inv sys (.new w : State G W) where
  owned := ⟨fun _ he => (by cases he), fun _ hp => (by cases hp)⟩
  keyed := ⟨fun _ he => (by cases he), .nil⟩
  file := fun _ hf => (by cases hf)

/-! ## The list of presets -/

section Presets
variable {sys} {presets : List (G × CPreset G)}

theorem Keyed.find_eq (h : Keyed sys presets) {preset : G} {p : CPreset G} (hfind : Dict.find preset presets = some p) :
    p.guid = preset ∧ preset ≠ sys.null :=
  h.own _ (Dict.mem_of_find hfind)

theorem Keyed.put (h : Keyed sys presets) {p : CPreset G} {key : G} (hown : p.guid = key) (hne : key ≠ sys.null) :
    Keyed sys (Dict.put sys.before key p presets) where
  own := fun e he => by
    rcases Dict.mem_put he with rfl | he
    · exact ⟨hown, hne⟩
    · exact h.own e he
  nodup := Dict.nodup_put _ h.nodup

theorem Keyed.erase (h : Keyed sys presets) (guid : G) : Keyed sys (Dict.erase guid presets) where
  own := fun e he => h.own e (Dict.erase_subset he)
  nodup := h.nodup.sublist ((Dict.erase_sublist presets).map _)

theorem Keyed.loadEntries : ∀ (entries : List (Entry G)) (mkGuid : Nat → sys.Fresh) {presets : List (G × CPreset G)},
    Keyed sys presets → Keyed sys (loadEntries sys mkGuid entries presets).1
  | [], _, _, h => h
  | entry :: entries, mkGuid, presets, h => by
    unfold Presets.loadEntries
    split
    · refine Keyed.loadEntries entries _ (h.put rfl ?_)
      split
      · exact (mkGuid 0).2
      · assumption
    · exact h
    · exact Keyed.loadEntries entries _ h

/-- A preset that was there, or is listed, is there afterwards. -/
theorem find_loadEntries : ∀ {entries : List (Entry G)} {mkGuid : Nat → sys.Fresh} {presets : List (G × CPreset G)} {preset : G},
    (Dict.find preset presets).isSome = true → (Dict.find preset (loadEntries sys mkGuid entries presets).1).isSome = true
  | [], _, _, _, h => h
  | entry :: entries, mkGuid, presets, preset, h => by
    unfold loadEntries
    split
    · rename_i p _
      apply find_loadEntries
      by_cases heq : (if p.guid = sys.null then { p with guid := (mkGuid 0).1 } else p).guid = preset
      · rw [heq, Dict.find_put]
        rfl
      · rwa [Dict.find_put_of_ne heq]
    · exact h
    · exact find_loadEntries h

end Presets

/-- A preset is among the entries of a list that are read. -/
def Listed (preset : G) : List (Entry G) → Prop
  | [] => False
  | entry :: entries =>
    match (CPreset.new sys).fromVariant sys entry with
    | (p, .ok) => p.guid = preset ∨ Listed preset entries
    | (_, .exception) => False
    | (_, _) => Listed preset entries

section Presets
variable {sys}

theorem find_of_listed {preset : G} (hne : preset ≠ sys.null) : ∀ {entries : List (Entry G)} {mkGuid : Nat → sys.Fresh}
    {presets : List (G × CPreset G)}, Listed sys preset entries →
      (Dict.find preset (loadEntries sys mkGuid entries presets).1).isSome = true
  | [], _, _, h => h.elim
  | entry :: entries, mkGuid, presets, h => by
    unfold Listed at h
    unfold loadEntries
    rcases hread : (CPreset.new sys).fromVariant sys entry with ⟨p, status⟩
    rw [hread] at h
    cases status with
    | ok =>
      rcases h with h | h
      · apply find_loadEntries
        rw [if_neg (h ▸ hne), h, Dict.find_put]
        rfl
      · exact find_of_listed hne h
    | exception => exact h.elim
    | _ => exact find_of_listed hne h

theorem find_saveEntries (s : State G W) (preset : G) : Dict.find preset s.saveEntries =
    (Dict.find preset s.presets).map fun p => { p with isActive := preset ∈ s.active } :=
  Dict.find_map (fun key (p : CPreset G) => { p with isActive := key ∈ s.active }) s.presets

theorem map_fst_saveEntries (s : State G W) : s.saveEntries.map (·.1) = s.presets.map (·.1) := by
  rw [State.saveEntries, List.map_map]
  rfl

theorem Keyed.saveEntries {s : State G W} (h : Keyed sys s.presets) : Keyed sys s.saveEntries where
  own := fun e he => by
    rcases List.mem_map.1 he with ⟨e', he', rfl⟩
    exact h.own e' he'
  nodup := by rw [map_fst_saveEntries]; exact h.nodup

theorem fromVariant_toVariant {p : CPreset G} (h : p.guid ≠ sys.null) : (CPreset.new sys).fromVariant sys (p.toVariant sys) =
    (⟨p.guid, p.isActive, p.items.foldl (insertItem sys) []⟩, .ok) := by
  unfold CPreset.toVariant
  rw [if_neg h]
  rfl

/-- The loop over the presets of a file puts each under its id. -/
theorem loadEntries_cons {p : CPreset G} (h : p.guid ≠ sys.null) (written : List (CPreset G)) (mkGuid : Nat → sys.Fresh)
    (presets : List (G × CPreset G)) :
    loadEntries sys mkGuid ((p :: written).map (·.toVariant sys)) presets =
      loadEntries sys (fun n => mkGuid (n + 1)) (written.map (·.toVariant sys))
        (Dict.put sys.before p.guid ⟨p.guid, p.isActive, p.items.foldl (insertItem sys) []⟩ presets) := by
  rw [List.map_cons, loadEntries, fromVariant_toVariant h]
  simp only [if_neg h]

theorem loadEntries_written : ∀ {written : List (CPreset G)} (mkGuid : Nat → sys.Fresh) (presets : List (G × CPreset G)),
    (∀ p ∈ written, p.guid ≠ sys.null) → (loadEntries sys mkGuid (written.map (·.toVariant sys)) presets).2 = .ok ∧
      ∀ preset ∉ written.map (·.guid),
        Dict.find preset (loadEntries sys mkGuid (written.map (·.toVariant sys)) presets).1 = Dict.find preset presets
  | [], _, _, _ => ⟨rfl, fun _ _ => rfl⟩
  | p :: written, mkGuid, presets, hguid => by
    rw [List.forall_mem_cons] at hguid
    rw [loadEntries_cons hguid.1]
    rcases loadEntries_written _ _ hguid.2 with ⟨hok, hother⟩
    refine ⟨hok, fun preset hpreset => ?_⟩
    rw [List.map_cons, List.mem_cons, not_or] at hpreset
    rw [hother preset hpreset.2, Dict.find_put_of_ne fun heq => hpreset.1 heq.symm]

/-- A file that is read back has the presets that were written, as active as they were. -/
theorem find_written : ∀ {written : List (CPreset G)} (mkGuid : Nat → sys.Fresh) (presets : List (G × CPreset G)),
    (∀ p ∈ written, p.guid ≠ sys.null) → (written.map (·.guid)).Nodup →
      ∀ p ∈ written, ∃ p', Dict.find p.guid (loadEntries sys mkGuid (written.map (·.toVariant sys)) presets).1 = some p' ∧
        p'.isActive = p.isActive
  | [], _, _, _, _ => fun _ hp => (by cases hp)
  | q :: written, mkGuid, presets, hguid, hnodup => by
    rw [List.forall_mem_cons] at hguid
    rw [List.map_cons, List.nodup_cons] at hnodup
    intro p hp
    rw [loadEntries_cons hguid.1]
    rcases List.mem_cons.1 hp with rfl | hp
    · rw [(loadEntries_written _ _ hguid.2).2 _ hnodup.1, Dict.find_put]
      exact ⟨_, rfl, rfl⟩
    · exact find_written _ _ hguid.2 hnodup.2 p hp

end Presets

/-! ## Items -/

section Items
variable {sys} {s : State G W}

/-- An item changes the owners and the world, and no more. -/
theorem applyItem_frame (preset : G) (callerPID : Nat) (bForce : Bool) (s : State G W) (e : G × SItemPreset) :
    (s.applyItem sys preset callerPID bForce e).presets = s.presets ∧ (s.applyItem sys preset callerPID bForce e).active = s.active := by
  unfold State.applyItem
  split
  · exact ⟨rfl, rfl⟩
  · split
    · split
      · exact ⟨rfl, rfl⟩
      · split
        · exact ⟨rfl, rfl⟩
        · exact ⟨rfl, rfl⟩
    · exact ⟨rfl, rfl⟩

/-- The owner of an item afterwards: who owned it, or the preset that is applied. -/
theorem applyItem_owner {preset : G} {callerPID : Nat} {bForce : Bool} {e : G × SItemPreset} {entry : G × SItemOwnership G}
    (h : entry ∈ (s.applyItem sys preset callerPID bForce e).ownership) : entry ∈ s.ownership ∨ entry.2.presetGuid = preset := by
  unfold State.applyItem at h
  split at h
  · exact .inl h
  · split at h
    · split at h
      · exact .inl h
      · split at h
        · rcases Dict.mem_put h with rfl | h
          · exact .inr rfl
          · exact .inl h
        · exact .inl h
    · rcases Dict.mem_put h with rfl | h
      · exact .inr rfl
      · exact .inl h

variable (sys) in
theorem applyItems_frame (preset : G) (callerPID : Nat) (bForce : Bool) : ∀ (items : List (G × SItemPreset)) (s : State G W),
    (items.foldl (State.applyItem sys preset callerPID bForce) s).presets = s.presets ∧
      (items.foldl (State.applyItem sys preset callerPID bForce) s).active = s.active ∧
        ∀ entry ∈ (items.foldl (State.applyItem sys preset callerPID bForce) s).ownership, entry ∈ s.ownership ∨ entry.2.presetGuid = preset
  | [], s => ⟨rfl, rfl, fun _ h => .inl h⟩
  | e :: items, s => by
    rcases applyItems_frame preset callerPID bForce items (s.applyItem sys preset callerPID bForce e) with ⟨hpresets, hactive, howner⟩
    rcases applyItem_frame preset callerPID bForce s e with ⟨hpresets', hactive'⟩
    refine ⟨hpresets.trans hpresets', hactive.trans hactive', fun entry hentry => ?_⟩
    rcases howner entry hentry with h | h
    · exact applyItem_owner h
    · exact .inr h

end Items

/-! ## Commands -/

section Commands
variable {sys} {s : State G W}

theorem Inv.store (howned : Owned s) (hkeyed : Keyed sys s.presets) : Inv sys s.store where
  owned := ⟨howned.owner, fun preset hpreset => by
    change (Dict.find preset s.saveEntries).isSome = true
    rw [find_saveEntries, Option.isSome_map]
    exact howned.active preset hpreset⟩
  keyed := hkeyed.saveEntries
  file := by
    rintro _ ⟨⟩
    have hown := (hkeyed.saveEntries).own
    refine ⟨fun p hp => ?_, ?_, fun e he => ?_⟩
    · rcases List.mem_map.1 hp with ⟨e, he, rfl⟩
      rw [(hown e he).1]
      exact (hown e he).2
    · have hkeys : (s.saveEntries.map (·.2)).map (·.guid) = s.saveEntries.map (·.1) := by
        rw [List.map_map]
        exact List.map_congr_left fun e he => (hown e he).1
      rw [hkeys]
      exact hkeyed.saveEntries.nodup
    · have hactive := howned.owner e he
      rcases Option.isSome_iff_exists.1 (howned.active _ hactive) with ⟨p, hfind⟩
      have hsaved : Dict.find e.2.presetGuid s.saveEntries = some { p with isActive := true } := by
        rw [find_saveEntries, hfind, Option.map_some]
        simp only [hactive, decide_true]
      exact ⟨_, List.mem_map_of_mem (Dict.mem_of_find hsaved), (hkeyed.find_eq hfind).1, rfl⟩

variable (sys) in
theorem deactivate_frame (callerPID : Nat) : ∀ (presets : List G) (s : State G W),
    (presets.foldl (fun s preset => s.deactivatePresetInternal sys preset callerPID) s).presets = s.presets ∧
      ∀ e ∈ (presets.foldl (fun s preset => s.deactivatePresetInternal sys preset callerPID) s).ownership,
        e ∈ s.ownership ∧ e.2.presetGuid ∉ presets
  | [], _ => ⟨rfl, fun _ he => ⟨he, List.not_mem_nil⟩⟩
  | preset :: presets, s => by
    rcases deactivate_frame callerPID presets (s.deactivatePresetInternal sys preset callerPID) with ⟨hpresets, howner⟩
    refine ⟨hpresets, fun e he => ?_⟩
    rcases howner e he with ⟨hmem, hnot⟩
    rcases List.mem_filter.1 hmem with ⟨hmem, hne⟩
    have hne : e.2.presetGuid ≠ preset := by simpa using hne
    exact ⟨hmem, fun h => (List.mem_cons.1 h).elim hne hnot⟩

theorem Inv.deactivateAllPresets (h : Inv sys s) (callerPID : Nat) : Inv sys (s.deactivateAllPresets sys callerPID) := by
  rcases deactivate_frame sys callerPID s.active s with ⟨hpresets, howner⟩
  refine Inv.store ⟨fun e he => ?_, fun _ hp => (by cases hp)⟩ ?_
  · rcases howner e he with ⟨hmem, hnot⟩
    exact absurd (h.owned.owner e hmem) hnot
  · exact hpresets ▸ h.keyed

theorem Inv.deactivatePreset (h : Inv sys s) {preset : G} {callerPID : Nat} {r : Status × State G W}
    (hrun : s.deactivatePreset sys preset callerPID = some r) : Inv sys r.2 := by
  unfold State.deactivatePreset at hrun
  split at hrun
  · cases hrun
    exact h.deactivateAllPresets callerPID
  · split at hrun
    · cases hrun
      exact h
    · dsimp only at hrun
      split at hrun
      · cases hrun
        refine Inv.store ⟨fun e he => ?_, fun p hp => ?_⟩ h.keyed
        · rcases List.mem_filter.1 he with ⟨hmem, hne⟩
          exact List.mem_filter.2 ⟨h.owned.owner e hmem, hne⟩
        · exact h.owned.active p (List.mem_filter.1 hp).1
      · cases hrun

theorem mem_insertActive {active : List G} {preset p : G} : p ∈ State.insertActive sys active preset ↔ p = preset ∨ p ∈ active := by
  unfold State.insertActive
  split
  · rename_i hmem
    exact ⟨.inr, fun h => h.elim (fun heq => heq ▸ hmem) id⟩
  · have hparts := List.takeWhile_append_dropWhile (p := fun x => sys.before x preset) (l := active)
    rw [List.mem_append, List.mem_cons]
    conv_rhs => rw [← hparts, List.mem_append]
    tauto

theorem Inv.activatePreset (h : Inv sys s) (preset : G) (callerPID : Nat) (bForce : Bool) :
    Inv sys (s.activatePreset sys preset callerPID bForce).2 := by
  unfold State.activatePreset
  split
  · exact h.deactivateAllPresets callerPID
  · split
    · exact h
    · rename_i p hfind
      split
      · exact h
      · rcases applyItems_frame sys p.guid callerPID bForce p.items s with ⟨hpresets, hactive, howner⟩
        dsimp only [State.applyPresetItems]
        rw [hactive]
        refine Inv.store ⟨fun e he => ?_, fun p' hp' => ?_⟩ (hpresets ▸ h.keyed)
        · refine mem_insertActive.2 ((howner e he).symm.imp (fun howner => ?_) (h.owned.owner e))
          rw [howner, (h.keyed.find_eq hfind).1]
        · change (Dict.find p' (p.items.foldl (State.applyItem sys p.guid callerPID bForce) s).presets).isSome = true
          rw [hpresets]
          rcases mem_insertActive.1 hp' with rfl | hp'
          · rw [hfind]
            rfl
          · exact h.owned.active p' hp'

theorem mem_loadOwnership : ∀ {ownership m : List (G × SItemOwnership G)} {e : G × SItemOwnership G},
    e ∈ ownership.foldl (fun m e => if e.1 = sys.null then m else
      Dict.put sys.before e.1 { e.2 with type := State.storedType e.2.type } m) m →
        e ∈ m ∨ ∃ e' ∈ ownership, e'.2.presetGuid = e.2.presetGuid
  | [], _, _, h => .inl h
  | e' :: ownership, m, e, h => by
    rw [List.foldl_cons] at h
    rcases mem_loadOwnership h with h | ⟨e', he', heq⟩
    · split at h
      · exact .inl h
      · rcases Dict.mem_put h with rfl | h
        · exact .inr ⟨e', List.mem_cons_self, rfl⟩
        · exact .inl h
    · exact .inr ⟨e', List.mem_cons_of_mem _ he', heq⟩

theorem Inv.load (h : Inv sys s) (mkGuid : Nat → sys.Fresh) : Inv sys (s.load sys mkGuid) := by
  unfold State.load
  split
  · refine ⟨⟨h.owned.owner, fun p hp => ?_⟩, h.keyed.put rfl (mkGuid 0).2, fun f hf => h.file f hf⟩
    change (Dict.find p (Dict.put sys.before (mkGuid 0).1 _ s.presets)).isSome = true
    by_cases heq : (mkGuid 0).1 = p
    · rw [heq, Dict.find_put]
      rfl
    · rw [Dict.find_put_of_ne heq]
      exact h.owned.active p hp
  · rename_i file hfile
    have hsound := h.file file hfile
    have hempty : Keyed sys ([] : List (G × CPreset G)) := ⟨fun _ he => (by cases he), .nil⟩
    have hkeyed := hempty.loadEntries (file.presets.map (·.toVariant sys)) mkGuid
    have hok := (loadEntries_written mkGuid [] hsound.guid).1
    have hwritten := find_written mkGuid [] hsound.guid hsound.nodup
    generalize loadEntries sys mkGuid (file.presets.map (·.toVariant sys)) [] = loaded at hkeyed hok hwritten ⊢
    rcases loaded with ⟨presets, status⟩
    cases hok
    refine ⟨⟨fun e he => ?_, fun p hp => ?_⟩, hkeyed, h.file⟩
    · rcases mem_loadOwnership he with he | ⟨e', he', heq⟩
      · cases he
      · rcases hsound.owner e' he' with ⟨p, hp, hguid, hactive⟩
        rcases hwritten p hp with ⟨p', hfind, hsame⟩
        rw [← heq, ← hguid]
        exact List.mem_map.2 ⟨(p.guid, p'), List.mem_filter.2 ⟨Dict.mem_of_find hfind, hsame.trans hactive⟩, rfl⟩
    · rcases List.mem_map.1 hp with ⟨⟨preset, p⟩, he, rfl⟩
      rw [Dict.find_of_mem hkeyed.nodup (List.mem_filter.1 he).1]
      rfl

end Commands

/-! ## Runs -/

/-- Every id an entry gives its preset is the one it is looked up by. -/
def Entry.Named : Entry G → Prop
  | .index fields => ∀ g, .guid g ∈ fields → g = entryGuid sys fields ∧ g ≠ sys.null
  | _ => True

/-- The steps that keep the owners: no active preset is deleted or left out of a new list, no entry renames its
preset, and a preset that is active is not applied again without force while others own items of it. -/
def StepOk (s : State G W) : Action sys → Prop
  | .activatePreset preset _ bForce =>
    bForce = true ∨ preset ∉ s.active ∨ ∀ p, Dict.find preset s.presets = some p → s.checkPresetConflicts p = []
  | .setEntry entry _ => entry.Named sys
  | .delEntry guid => guid ∉ s.active
  | .setPresets entries _ => ∀ preset ∈ s.active, Listed sys preset entries
  | _ => True

def RunOk (s : State G W) : List (Action sys) → Prop
  | [] => True
  | action :: actions => StepOk sys s action ∧ ∀ s', step sys s action = some s' → RunOk s' actions

section Runs
variable {sys} {s : State G W}

theorem guid_readFields {P : G → Prop} : ∀ {fields : List (Field G)} {p : CPreset G},
    P p.guid → (∀ g, .guid g ∈ fields → P g) → P (p.readFields sys fields).1.guid
  | [], _, hp, _ => hp
  | f :: fields, p, hp, h => by
    have hrest : ∀ g, .guid g ∈ fields → P g := fun g hg => h g (List.mem_cons_of_mem _ hg)
    unfold CPreset.readFields
    cases f with
    | guid g => exact guid_readFields (h g List.mem_cons_self) hrest
    | isActive b => exact guid_readFields hp hrest
    | items read complete =>
      cases complete with
      | true => exact guid_readFields hp hrest
      | false => exact hp
    | other => exact guid_readFields hp hrest
    | malformed => exact hp

theorem Inv.setEntry (h : Inv sys s) {entry : Entry G} (hnamed : entry.Named sys) (mkGuid : sys.Fresh) :
    Inv sys (s.setEntry sys entry mkGuid).2 := by
  unfold State.setEntry
  split
  · rename_i f fields
    dsimp only
    generalize hkey : (if entryGuid sys (f :: fields) = sys.null then mkGuid.1 else entryGuid sys (f :: fields)) = key
    generalize hold : (if entryGuid sys (f :: fields) = sys.null then none
      else Dict.find (entryGuid sys (f :: fields)) s.presets).getD { CPreset.new sys with guid := key } = old
    have hne : key ≠ sys.null := by
      rw [← hkey]
      split
      · exact mkGuid.2
      · assumption
    have holdKey : old.guid = key := by
      rw [← hold]
      split
      · rfl
      · rename_i hguid
        rw [if_neg hguid] at hkey
        rcases hfind : Dict.find (entryGuid sys (f :: fields)) s.presets with _ | p
        · rfl
        · rw [← hkey]
          exact (h.keyed.find_eq hfind).1
    have hguid : (old.fromVariant sys (.index (f :: fields))).1.guid = key :=
      guid_readFields (P := fun g => g = key) holdKey fun g hg => by
        rcases hnamed g hg with ⟨heq, hnull⟩
        rw [← hkey, if_neg (heq ▸ hnull), heq]
    refine ⟨⟨h.owned.owner, fun p hp => ?_⟩, h.keyed.put hguid hne, h.file⟩
    change (Dict.find p (Dict.put sys.before key _ s.presets)).isSome = true
    by_cases heq : key = p
    · rw [heq, Dict.find_put]
      rfl
    · rw [Dict.find_put_of_ne heq]
      exact h.owned.active p hp
  · exact h

theorem Inv.delEntry (h : Inv sys s) {guid : G} (hinactive : guid ∉ s.active) : Inv sys (s.delEntry guid).2 := by
  unfold State.delEntry
  split
  · refine ⟨⟨h.owned.owner, fun p hp => ?_⟩, h.keyed.erase guid, h.file⟩
    change (Dict.find p (Dict.erase guid s.presets)).isSome = true
    rw [Dict.find_erase_of_ne fun heq : guid = p => hinactive (heq ▸ hp)]
    exact h.owned.active p hp
  · exact h

theorem Inv.setPresets (h : Inv sys s) {entries : List (Entry G)} (hlisted : ∀ preset ∈ s.active, Listed sys preset entries)
    (mkGuid : Nat → sys.Fresh) : Inv sys (s.setPresets sys entries mkGuid).2 := by
  have hempty : Keyed sys ([] : List (G × CPreset G)) := ⟨fun _ he => (by cases he), .nil⟩
  have hkeyed := hempty.loadEntries entries mkGuid
  have hactive : ∀ preset ∈ s.active, (Dict.find preset (loadEntries sys mkGuid entries []).1).isSome = true := fun preset hpreset => by
    rcases Option.isSome_iff_exists.1 (h.owned.active preset hpreset) with ⟨p, hfind⟩
    exact find_of_listed (h.keyed.find_eq hfind).2 (hlisted preset hpreset)
  unfold State.setPresets
  generalize loadEntries sys mkGuid entries [] = loaded at hkeyed hactive ⊢
  rcases loaded with ⟨presets, status⟩
  cases status with
  | ok => exact Inv.store ⟨h.owned.owner, hactive⟩ hkeyed
  | _ => exact ⟨⟨h.owned.owner, hactive⟩, hkeyed, h.file⟩

theorem Inv.step (h : Inv sys s) {action : Action sys} (hok : StepOk sys s action) {s' : State G W}
    (hstep : Presets.step sys s action = some s') : Inv sys s' := by
  cases action with
  | activatePreset preset callerPID bForce =>
    cases hstep
    exact h.activatePreset preset callerPID bForce
  | deactivatePreset preset callerPID =>
    rcases Option.map_eq_some_iff.1 hstep with ⟨r, hrun, rfl⟩
    exact h.deactivatePreset hrun
  | deactivateAllPresets callerPID =>
    cases hstep
    exact h.deactivateAllPresets callerPID
  | setEntry entry mkGuid =>
    cases hstep
    exact h.setEntry hok mkGuid
  | delEntry guid =>
    cases hstep
    exact h.delEntry hok
  | setPresets entries mkGuid =>
    cases hstep
    exact h.setPresets hok mkGuid
  | store =>
    cases hstep
    exact Inv.store h.owned h.keyed
  | load mkGuid =>
    cases hstep
    exact h.load mkGuid

theorem Inv.run : ∀ {actions : List (Action sys)} {s s' : State G W}, Inv sys s → RunOk sys s actions →
    Presets.run sys s actions = some s' → Inv sys s'
  | [], _, _, h, _, hrun => Option.some.inj hrun ▸ h
  | action :: actions, s, s', h, hok, hrun => by
    rcases Option.bind_eq_some_iff.1 hrun with ⟨t, hstep, hrest⟩
    exact Inv.run (h.step hok.1 hstep) (hok.2 t hstep) hrest

end Runs

end MajorPrivacy.Presets

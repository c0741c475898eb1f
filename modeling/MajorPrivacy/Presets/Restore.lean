/-
What presets give back. The manager keeps the state of an item from before the first preset that took it, also
over a new start.
-/
import MajorPrivacy.Presets.Ownership

namespace MajorPrivacy.Presets

open State

variable {G W : Type} [DecidableEq G] {sys : System G W}

variable (sys) in
/-- Every item has one type, and one switch that only a request for this item turns. The null id names no item. -/
structure Switches where
  kind : G → EItemType
  item : W → G → Bool
  null : ¬ isSwitched (kind sys.null)
  get : ∀ w callerPID guid, isSwitched (kind guid) → sys.isEnabled w callerPID (kind guid) guid = item w guid
  set : ∀ w callerPID guid state other, isSwitched (kind guid) →
    item (sys.setEnabled w callerPID (kind guid) guid state) other = if other = guid then state.getD (item w guid) else item w other

section Restoring
variable (sw : Switches sys)

theorem storedType_spec (type : EItemType) :
    isSwitched (storedType type) = isSwitched type ∧ (isSwitched type → storedType type = type) := by
  cases type <;> exact ⟨rfl, fun h => by first | rfl | cases h⟩

theorem Switches.item_setItem (w : W) (callerPID : Nat) {type : EItemType} {guid other : G} (htype : storedType type = sw.kind guid)
    (state : Option Bool) (hother : isSwitched (sw.kind other)) : sw.item (setItem sys w callerPID type guid state) other =
      if other = guid then state.getD (sw.item w guid) else sw.item w other := by
  unfold setItem
  by_cases hkind : isSwitched type
  · obtain rfl : type = sw.kind guid := ((storedType_spec type).2 hkind).symm.trans htype
    rw [if_pos hkind, sw.set _ _ _ _ _ hkind]
  · rw [if_neg hkind, if_neg]
    rintro rfl
    exact hkind ((storedType_spec type).1 ▸ htype ▸ hother)

/-- The entry of an owner has the state that its item had at first. -/
structure Remembers (w₀ : W) (e : G × SItemOwnership G) : Prop where
  type : storedType e.2.type = sw.kind e.1
  before : isSwitched (sw.kind e.1) → e.2.bWasEnabled = sw.item w₀ e.1

/-- All owners remember, and the items that have none are as at first. -/
structure Keeps (w₀ : W) (own : List (G × SItemOwnership G)) (w : W) : Prop where
  owned : ∀ e ∈ own, Remembers sw w₀ e
  free : ∀ guid, isSwitched (sw.kind guid) → (∀ e ∈ own, e.1 ≠ guid) → sw.item w guid = sw.item w₀ guid

/-- The map of the owners keeps the states, and the one in the file. -/
structure Kept (w₀ : W) (s : State G W) : Prop where
  here : Keeps sw w₀ s.ownership s.world
  file : ∀ file, s.file = some file → Keeps sw w₀ file.ownership s.world

/-- The items of all presets have the types of their ids. -/
abbrev Typed (s : State G W) : Prop := ∀ p ∈ s.presets, ∀ e ∈ p.2.items, storedType e.2.type = sw.kind e.1

/-- The presets are typed before every step. -/
def RunTyped (s : State G W) : List (Action sys) → Prop
  | [] => True
  | action :: actions => Typed sw s ∧ ∀ s', step sys s action = some s' → RunTyped s' actions

variable {sw} {w₀ w : W} {s : State G W} {own m : List (G × SItemOwnership G)} {guid : G} {owner : SItemOwnership G}

theorem ne_of_put {other : G} (h : ∀ e ∈ Dict.put sys.before guid owner own, e.1 ≠ other) :
    guid ≠ other ∧ ∀ e ∈ own, e.1 ≠ other := by
  rw [← Dict.find_eq_none] at h ⊢
  by_cases heq : guid = other
  · rw [heq, Dict.find_put] at h
    cases h
  · exact ⟨heq, by rwa [Dict.find_put_of_ne heq] at h⟩

theorem Keeps.put (h : Keeps sw w₀ own w) (howner : Remembers sw w₀ (guid, owner)) :
    Keeps sw w₀ (Dict.put sys.before guid owner own) w where
  owned e he := (Dict.mem_put he).elim (fun heq => heq ▸ howner) (h.owned e)
  free other hkind hother := h.free other hkind (ne_of_put hother).2

theorem Keeps.setItem (h : Keeps sw w₀ own w) (hmem : (guid, owner) ∈ own) {type : EItemType}
    (htype : storedType type = sw.kind guid) (callerPID : Nat) (state : Option Bool) :
    Keeps sw w₀ own (Presets.setItem sys w callerPID type guid state) where
  owned := h.owned
  free other hkind hother := by
    rw [sw.item_setItem w callerPID htype state hkind, if_neg, h.free other hkind hother]
    rintro rfl
    exact hother _ hmem rfl

theorem Keeps.applyItem (h : Keeps sw w₀ s.ownership s.world) {e : G × SItemPreset} (htype : storedType e.2.type = sw.kind e.1)
    (preset : G) (callerPID : Nat) (bForce : Bool) :
    Keeps sw w₀ (s.applyItem sys preset callerPID bForce e).ownership (s.applyItem sys preset callerPID bForce e).world := by
  unfold State.applyItem
  split
  · exact h
  · split
    · rename_i owner hfind
      have hmem := Dict.mem_of_find hfind
      split
      · exact h.setItem hmem htype _ _
      · split
        · have hput : Remembers sw w₀ (e.1, { owner with presetGuid := preset }) :=
            ⟨(h.owned _ hmem).type, (h.owned _ hmem).before⟩
          exact (h.put hput).setItem (Dict.mem_of_find (Dict.find_put ..)) htype _ _
        · exact h
    · rename_i hfind
      -- the item is free, so the state that is asked for is the one it had at first
      have hput : Remembers sw w₀ (e.1, ⟨preset, e.2.type, isSwitched e.2.type && sys.isEnabled s.world callerPID e.2.type e.1⟩) := by
        refine ⟨htype, fun hkind => ?_⟩
        have htype' : isSwitched e.2.type := by rwa [← (storedType_spec _).1, htype]
        have heq := ((storedType_spec _).2 htype').symm.trans htype
        dsimp only
        rw [htype', Bool.true_and, heq, sw.get _ _ _ hkind, h.free _ hkind (Dict.find_eq_none.1 hfind)]
      exact (h.put hput).setItem (Dict.mem_of_find (Dict.find_put ..)) htype _ _

variable (sw) in
/-- The loop over the owners that are removed. -/
theorem Switches.restores (callerPID : Nat) {guid : G} (hkind : isSwitched (sw.kind guid)) :
    ∀ (own : List (G × SItemOwnership G)) (w : W), (∀ e ∈ own, Remembers sw w₀ e) →
      (sw.item w guid = sw.item w₀ guid ∨ ∃ e ∈ own, e.1 = guid) →
      sw.item (own.foldl (fun w e => setItem sys w callerPID e.2.type e.1 (some e.2.bWasEnabled)) w) guid = sw.item w₀ guid
  | [], _, _, h => h.elim id fun ⟨_, he, _⟩ => (by cases he)
  | e :: own, w, howned, h => by
    rw [List.forall_mem_cons] at howned
    refine Switches.restores callerPID hkind own _ howned.2 ?_
    rw [sw.item_setItem w callerPID howned.1.type _ hkind]
    split_ifs with hthis
    · subst hthis
      exact .inl (howned.1.before hkind)
    · refine h.imp_right ?_
      rintro ⟨e', he', rfl⟩
      exact ⟨e', (List.mem_cons.1 he').resolve_left fun heq => hthis (heq ▸ rfl), rfl⟩

theorem Keeps.deactivate (callerPID : Nat) (preset : G) (h : Keeps sw w₀ s.ownership s.world) :
    Keeps sw w₀ (s.deactivatePresetInternal sys preset callerPID).ownership
      (s.deactivatePresetInternal sys preset callerPID).world where
  owned e he := h.owned e (List.mem_filter.1 he).1
  free guid hkind hguid := by
    refine sw.restores callerPID hkind _ _ (fun e he => h.owned e (List.mem_filter.1 he).1)
      (or_iff_not_imp_left.2 fun hchanged => ?_)
    have howned := mt (h.free guid hkind) hchanged
    push Not at howned
    rcases howned with ⟨e, he, rfl⟩
    refine ⟨e, List.mem_filter.2 ⟨he, ?_⟩, rfl⟩
    by_contra hother
    exact hguid e (List.mem_filter.2 ⟨he, by simpa using hother⟩) rfl

/-- The loop over the owners of a file. -/
theorem Keeps.loadOwnership : ∀ {own m : List (G × SItemOwnership G)}, Keeps sw w₀ (own ++ m) w →
    Keeps sw w₀ (own.foldl (fun m e => if e.1 = sys.null then m else
      Dict.put sys.before e.1 { e.2 with type := storedType e.2.type } m) m) w
  | [], _, h => h
  | e :: own, m, h => by
    rw [List.foldl_cons]
    apply Keeps.loadOwnership
    have howned := List.forall_mem_cons.1 h.owned
    split_ifs with hnull
    · refine ⟨howned.2, fun guid hkind hguid => h.free guid hkind (List.forall_mem_cons.2 ⟨?_, hguid⟩)⟩
      rintro rfl
      exact sw.null (hnull ▸ hkind)
    · refine ⟨fun e' he' => ?_, fun guid hkind hne => h.free guid hkind ?_⟩
      · rcases List.mem_append.1 he' with he' | he'
        · exact howned.2 e' (List.mem_append_left _ he')
        · rcases Dict.mem_put he' with rfl | he'
          · refine ⟨?_, howned.1.before⟩
            rw [← howned.1.type]
            cases e.2.type <;> rfl
          · exact howned.2 e' (List.mem_append_right _ he')
      · rcases List.forall_mem_append.1 hne with ⟨hown, hput⟩
        exact List.forall_mem_cons.2 ⟨(ne_of_put hput).1, List.forall_mem_append.2 ⟨hown, (ne_of_put hput).2⟩⟩

theorem Keeps.store (h : Keeps sw w₀ s.ownership s.world) : Kept sw w₀ s.store where
  here := h
  file := by
    rintro _ ⟨⟩
    exact h

theorem Kept.step (h : Kept sw w₀ s) (htyped : Typed sw s) {action : Action sys} {s' : State G W}
    (hstep : Presets.step sys s action = some s') : Kept sw w₀ s' := by
  have hall : ∀ callerPID, Kept sw w₀ (s.deactivateAllPresets sys callerPID) := fun callerPID =>
    Keeps.store (List.foldlRecOn (motive := fun s : State G W => Keeps sw w₀ s.ownership s.world) s.active _ h.here
      fun _ hs preset _ => hs.deactivate callerPID preset)
  cases action with
  | activatePreset preset callerPID bForce =>
    cases hstep
    unfold State.activatePreset
    split
    · exact hall callerPID
    · split
      · exact h
      · rename_i p hfind
        split
        · exact h
        · exact Keeps.store (List.foldlRecOn (motive := fun s : State G W => Keeps sw w₀ s.ownership s.world) p.items _ h.here
            fun _ hs e he => hs.applyItem (htyped _ (Dict.mem_of_find hfind) e he) p.guid callerPID bForce)
  | deactivatePreset preset callerPID =>
    rcases Option.map_eq_some_iff.1 hstep with ⟨r, hrun, rfl⟩
    unfold State.deactivatePreset at hrun
    split at hrun
    · cases hrun
      exact hall callerPID
    · split at hrun
      · cases hrun
        exact h
      · dsimp only at hrun
        split at hrun
        · cases hrun
          exact Keeps.store (h.here.deactivate callerPID preset)
        · cases hrun
  | deactivateAllPresets callerPID =>
    cases hstep
    exact hall callerPID
  | setEntry entry mkGuid =>
    cases hstep
    unfold State.setEntry
    split <;> exact ⟨h.here, h.file⟩
  | delEntry guid =>
    cases hstep
    unfold State.delEntry
    split <;> exact ⟨h.here, h.file⟩
  | setPresets entries mkGuid =>
    cases hstep
    unfold State.setPresets
    split
    · exact Keeps.store h.here
    · exact ⟨h.here, h.file⟩
  | store =>
    cases hstep
    exact Keeps.store h.here
  | load mkGuid =>
    cases hstep
    unfold State.load
    split
    · exact ⟨h.here, h.file⟩
    · rename_i file hfile
      split
      · exact ⟨h.here, h.file⟩
      · refine ⟨Keeps.loadOwnership ?_, h.file⟩
        rw [List.append_nil]
        exact h.file file hfile

theorem Kept.run : ∀ {actions : List (Action sys)} {s s' : State G W}, Kept sw w₀ s → RunTyped sw s actions →
    Presets.run sys s actions = some s' → Kept sw w₀ s'
  | [], _, _, h, _, hrun => Option.some.inj hrun ▸ h
  | action :: actions, s, s', h, htyped, hrun => by
    rcases Option.bind_eq_some_iff.1 hrun with ⟨t, hstep, hrest⟩
    exact Kept.run (h.step htyped.1 hstep) (htyped.2 t hstep) hrest

end Restoring

end MajorPrivacy.Presets

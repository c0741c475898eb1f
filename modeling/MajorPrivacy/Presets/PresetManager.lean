/-
`CPresetManager`: presets that switch rules and tweaks, and give them back when they are deactivated.
The manager keeps the presets, the active ones and the owner of every switched item in three maps of
its own, and a file with all three. What the scripts of a preset do is not modelled.
-/
import MajorPrivacy.Lib.Dict

namespace MajorPrivacy.Presets

inductive EItemType
  | eUnknown | eExecRule | eResRule | eFwRule | eDnsRule | eEnclave | eVolume | eTweak | ePreset
  | other (n : Nat)
deriving DecidableEq

/-- `SItemPreset::EActivate`, and the other numbers a request can hold. -/
inductive EActivate
  | eUndefined | eEnable | eDisable
  | other (n : Nat)
deriving DecidableEq

structure SItemPreset where
  type : EItemType
  activate : EActivate
  enabled : Bool
deriving DecidableEq

structure CPreset (G : Type) where
  guid : G
  isActive : Bool
  items : List (G × SItemPreset)

structure SItemOwnership (G : Type) where
  presetGuid : G
  type : EItemType
  bWasEnabled : Bool
deriving DecidableEq

/-- What the manager takes from its surroundings: the ids with the order of the maps, and the managers
of rules and tweaks, whose state is of type `W`. A request for no state writes an item back as it is. -/
structure System (G W : Type) where
  null : G
  before : G → G → Bool
  isEnabled : W → (callerPID : Nat) → EItemType → G → Bool
  setEnabled : W → (callerPID : Nat) → EItemType → G → Option Bool → W

/-- What `MkGuid` gives. -/
abbrev System.Fresh {G W : Type} (sys : System G W) := {g : G // g ≠ sys.null}

inductive Status
  | ok | notFound | nameCollision | notCommitted | unknownRevision | exception
deriving DecidableEq

/-- The file, as `Store` writes it. -/
structure Snapshot (G : Type) where
  presets : List (CPreset G)
  ownership : List (G × SItemOwnership G)

structure State (G W : Type) where
  presets : List (G × CPreset G)
  active : List G
  ownership : List (G × SItemOwnership G)
  world : W
  file : Option (Snapshot G)

def State.new {G W : Type} (w : W) : State G W := ⟨[], [], [], w, none⟩

variable {G W : Type} [DecidableEq G] (sys : System G W)

/-! ## Presets -/

/-- A field of an entry, as a reader meets it. Of the items, the ones that are read before an exception. -/
inductive Field (G : Type)
  | guid (g : G)
  | isActive (b : Bool)
  | items (read : List (G × SItemPreset)) (complete : Bool)
  | other
  | malformed

inductive Entry (G : Type)
  | index (fields : List (Field G))
  | map (fields : List (Field G))
  | other

def CPreset.new : CPreset G := ⟨sys.null, false, []⟩

/-- `std::map::insert`: the first item under an id stays. -/
def insertItem (items : List (G × SItemPreset)) (item : G × SItemPreset) : List (G × SItemPreset) :=
  if item.1 = sys.null ∨ (Dict.find item.1 items).isSome then items else Dict.insert sys.before item.1 item.2 items

/-- `ReadIValue` and `ReadMValue`, and whether they return. -/
def CPreset.readValue (p : CPreset G) : Field G → CPreset G × Bool
  | .guid g => ({ p with guid := g }, true)
  | .isActive b => ({ p with isActive := b }, true)
  | .items read complete => ({ p with items := read.foldl (insertItem sys) [] }, complete)
  | .other => (p, true)
  | .malformed => (p, false)

def CPreset.readFields (p : CPreset G) : List (Field G) → CPreset G × Status
  | [] => (p, .ok)
  | f :: fields =>
    match p.readValue sys f with
    | (p, true) => p.readFields fields
    | (p, false) => (p, .exception)

def CPreset.fromVariant (p : CPreset G) : Entry G → CPreset G × Status
  | .index fields => p.readFields sys fields
  | .map fields => p.readFields sys fields
  | .other => (p, .unknownRevision)

/-- `ToVariant`. -/
def CPreset.toVariant (p : CPreset G) : Entry G :=
  .index ((if p.guid = sys.null then [] else [.guid p.guid]) ++ [.isActive p.isActive, .items p.items true])

/-- `Entry[API_V_GUID]`. -/
def entryGuid : List (Field G) → G
  | [] => sys.null
  | .guid g :: _ => g
  | _ :: fields => entryGuid fields

/-! ## The list of presets -/

/-- The loop of `LoadEntries`. -/
def loadEntries (mkGuid : Nat → sys.Fresh) : List (Entry G) → List (G × CPreset G) → List (G × CPreset G) × Status
  | [], presets => (presets, .ok)
  | entry :: entries, presets =>
    match (CPreset.new sys).fromVariant sys entry with
    | (p, .ok) =>
      let p := if p.guid = sys.null then { p with guid := (mkGuid 0).1 } else p
      loadEntries (fun n => mkGuid (n + 1)) entries (Dict.put sys.before p.guid p presets)
    | (_, .exception) => (presets, .exception)
    | (_, _) => loadEntries (fun n => mkGuid (n + 1)) entries presets

namespace State

/-- `SaveEntries`, which leaves its mark in the presets. -/
def saveEntries (s : State G W) : List (G × CPreset G) :=
  s.presets.map fun e => (e.1, { e.2 with isActive := e.1 ∈ s.active })

def store (s : State G W) : State G W :=
  { s with presets := s.saveEntries, file := some ⟨s.saveEntries.map (·.2), s.ownership⟩ }

/-- `ItemTypeFromString` of `ItemTypeToString`. -/
def storedType : EItemType → EItemType
  | .other _ => .eUnknown
  | type => type

def loadOwnership (ownership : List (G × SItemOwnership G)) : List (G × SItemOwnership G) :=
  ownership.foldl (fun m e => if e.1 = sys.null then m else Dict.put sys.before e.1 { e.2 with type := storedType e.2.type } m) []

/-- `Init` and `ReLoad`. -/
def load (s : State G W) (mkGuid : Nat → sys.Fresh) : State G W :=
  match s.file with
  | none => { s with presets := Dict.put sys.before (mkGuid 0).1 { CPreset.new sys with guid := (mkGuid 0).1 } s.presets }
  | some file =>
    match loadEntries sys mkGuid (file.presets.map (·.toVariant sys)) [] with
    | (presets, .exception) => { s with presets }
    | (presets, _) =>
      { s with
        presets, active := (presets.filter (·.2.isActive)).map (·.1), ownership := loadOwnership sys file.ownership }

def setPresets (s : State G W) (entries : List (Entry G)) (mkGuid : Nat → sys.Fresh) : Status × State G W :=
  match loadEntries sys mkGuid entries [] with
  | (presets, .ok) => (.ok, store { s with presets })
  | (presets, status) => (status, { s with presets })

def setEntry (s : State G W) (entry : Entry G) (mkGuid : sys.Fresh) : Status × State G W :=
  match entry with
  | .index (f :: fields) =>
    let guid := entryGuid sys (f :: fields)
    let key := if guid = sys.null then mkGuid.1 else guid
    let old := if guid = sys.null then none else Dict.find guid s.presets
    let r := (old.getD { CPreset.new sys with guid := key }).fromVariant sys entry
    (r.2, { s with presets := Dict.put sys.before key r.1 s.presets })
  | _ => (.exception, s) -- the look-up of the id throws

def delEntry (s : State G W) (guid : G) : Status × State G W :=
  if (Dict.find guid s.presets).isSome then (.ok, { s with presets := Dict.erase guid s.presets }) else (.notFound, s)

end State

/-! ## Items -/

/-- The types of items that `ApplyPresetItems` and `DeactivatePresetInternal` know. -/
def isSwitched : EItemType → Bool
  | .eExecRule | .eResRule | .eFwRule | .eTweak => true
  | _ => false

def setItem (w : W) (callerPID : Nat) (type : EItemType) (guid : G) (state : Option Bool) : W :=
  if isSwitched type then sys.setEnabled w callerPID type guid state else w

def EActivate.state : EActivate → Option Bool
  | .eEnable => some true
  | .eDisable => some false
  | _ => none

/-- Items that are disabled or have no action are skipped. -/
def SItemPreset.isApplied (item : SItemPreset) : Bool := item.enabled && item.activate ≠ .eUndefined

namespace State

/-- The loop of `DeactivatePresetInternal`: the items of the preset get their state back, the others stay. -/
def deactivatePresetInternal (s : State G W) (preset : G) (callerPID : Nat) : State G W :=
  { s with
    ownership := s.ownership.filter (·.2.presetGuid ≠ preset)
    world := (s.ownership.filter (·.2.presetGuid = preset)).foldl
      (fun w e => setItem sys w callerPID e.2.type e.1 (some e.2.bWasEnabled)) s.world }

/-- `CheckPresetConflicts`: the items that another preset owns. -/
def checkPresetConflicts (s : State G W) (p : CPreset G) : List (G × G) :=
  p.items.filterMap fun e =>
    if e.2.isApplied then
      match Dict.find e.1 s.ownership with
      | some owner => if owner.presetGuid ≠ p.guid then some (e.1, owner.presetGuid) else none
      | none => none
    else none

/-- An item of `ApplyPresetItems`. -/
def applyItem (preset : G) (callerPID : Nat) (bForce : Bool) (s : State G W) (e : G × SItemPreset) : State G W :=
  if !e.2.isApplied then s
  else
    match Dict.find e.1 s.ownership with
    | some owner =>
      if owner.presetGuid = preset then
        { s with world := setItem sys s.world callerPID e.2.type e.1 e.2.activate.state }
      else if bForce then
        { s with
          ownership := Dict.put sys.before e.1 { owner with presetGuid := preset } s.ownership
          world := setItem sys s.world callerPID e.2.type e.1 e.2.activate.state }
      else s
    | none =>
      let bWasEnabled := isSwitched e.2.type && sys.isEnabled s.world callerPID e.2.type e.1
      { s with
        ownership := Dict.put sys.before e.1 ⟨preset, e.2.type, bWasEnabled⟩ s.ownership
        world := setItem sys s.world callerPID e.2.type e.1 e.2.activate.state }

def applyPresetItems (s : State G W) (p : CPreset G) (callerPID : Nat) (bForce : Bool) : State G W :=
  p.items.foldl (applyItem sys p.guid callerPID bForce) s

/-! ## Activation -/

def deactivateAllPresets (s : State G W) (callerPID : Nat) : State G W :=
  store { s.active.foldl (fun s preset => s.deactivatePresetInternal sys preset callerPID) s with active := [] }

/-- `none` is the access through the pointer to a preset that is not there. -/
def deactivatePreset (s : State G W) (preset : G) (callerPID : Nat) : Option (Status × State G W) :=
  if preset = sys.null then some (.ok, s.deactivateAllPresets sys callerPID)
  else if preset ∉ s.active then some (.notCommitted, s)
  else
    let s := s.deactivatePresetInternal sys preset callerPID
    let s := store { s with active := s.active.filter (· ≠ preset) }
    match Dict.find preset s.presets with
    | some _ => some (.ok, s)
    | none => none

/-- `std::set::insert`. -/
def insertActive (active : List G) (preset : G) : List G :=
  if preset ∈ active then active else active.takeWhile (sys.before · preset) ++ preset :: active.dropWhile (sys.before · preset)

def activatePreset (s : State G W) (preset : G) (callerPID : Nat) (bForce : Bool) : Status × State G W :=
  if preset = sys.null then (.ok, s.deactivateAllPresets sys callerPID)
  else
    match Dict.find preset s.presets with
    | none => (.notFound, s)
    | some p =>
      if !bForce && preset ∉ s.active && !(s.checkPresetConflicts p).isEmpty then (.nameCollision, s)
      else
        let s := s.applyPresetItems sys p callerPID bForce
        (.ok, store { s with active := insertActive sys s.active preset })

end State

/-! ## Runs -/

inductive Action {G W : Type} (sys : System G W)
  | activatePreset (preset : G) (callerPID : Nat) (bForce : Bool)
  | deactivatePreset (preset : G) (callerPID : Nat)
  | deactivateAllPresets (callerPID : Nat)
  | setEntry (entry : Entry G) (mkGuid : sys.Fresh)
  | delEntry (guid : G)
  | setPresets (entries : List (Entry G)) (mkGuid : Nat → sys.Fresh)
  | store
  | load (mkGuid : Nat → sys.Fresh)

def step (s : State G W) : Action sys → Option (State G W)
  | .activatePreset preset callerPID bForce => some (s.activatePreset sys preset callerPID bForce).2
  | .deactivatePreset preset callerPID => (s.deactivatePreset sys preset callerPID).map (·.2)
  | .deactivateAllPresets callerPID => some (s.deactivateAllPresets sys callerPID)
  | .setEntry entry mkGuid => some (s.setEntry sys entry mkGuid).2
  | .delEntry guid => some (s.delEntry guid).2
  | .setPresets entries mkGuid => some (s.setPresets sys entries mkGuid).2
  | .store => some s.store
  | .load mkGuid => some (s.load sys mkGuid)

def run (s : State G W) : List (Action sys) → Option (State G W)
  | [] => some s
  | action :: actions => (step sys s action).bind fun s => run s actions

end MajorPrivacy.Presets

/-
`CEnclave` (Enclave.cpp, API_Enclave.cpp): what may run in an enclave, and what happens to what may not.
Unlike those of a program rule its signers are always written.
-/
import MajorPrivacy.Records.ProgramRule

namespace MajorPrivacy.Records

open LittleEndian MajorPrivacy.Firewall
open MajorPrivacy.Variant hiding Value
open MajorPrivacy.Guid hiding Value

/-! ## Enumerations -/

inductive EProgramOnSpawn
  | eUnknown | eAllow | eBlock | eEject
  deriving DecidableEq

instance : Enumeration EProgramOnSpawn where
  values := [.eUnknown, .eAllow, .eBlock, .eEject]
  number
    | .eUnknown => 0
    | .eAllow => 1
    | .eBlock => 2
    | .eEject => 3
  number_inj := by decide
  mem_values := by rintro (_ | _ | _ | _) <;> decide

def EProgramOnSpawn.keyword : EProgramOnSpawn → Option String
  | eUnknown => none
  | eAllow => "Allow"
  | eBlock => "Block"
  | eEject => "Eject"

inductive EIntegrityLevel
  | eUnknown | eUntrusted | eLow | eMedium | eMediumPlus | eHigh | eSystem
  deriving DecidableEq

instance : Enumeration EIntegrityLevel where
  values := [.eUnknown, .eUntrusted, .eLow, .eMedium, .eMediumPlus, .eHigh, .eSystem]
  number
    | .eUnknown => 0xFFFFFFFF -- -1
    | .eUntrusted => 0
    | .eLow => 1
    | .eMedium => 2
    | .eMediumPlus => 3
    | .eHigh => 4
    | .eSystem => 5
  number_inj := by decide
  mem_values := by rintro (_ | _ | _ | _ | _ | _ | _) <;> decide

def EIntegrityLevel.keyword : EIntegrityLevel → Option String
  | eUnknown => none
  | eUntrusted => "Untrusted"
  | eLow => "Low"
  | eMedium => "Medium"
  | eMediumPlus => "MediumPlus"
  | eHigh => "High"
  | eSystem => "System"

theorem keywordsDiffer_onSpawn : KeywordsDiffer EProgramOnSpawn.keyword := by decide +kernel

theorem keywordsDiffer_integrityLevel : KeywordsDiffer EIntegrityLevel.keyword := by decide +kernel

/-! ## Enclaves -/

structure CEnclave where
  guid : CFlexGuid
  bEnabled : Bool
  name : Str
  description : Str
  volumeGuid : CFlexGuid
  bUseScript : Bool
  script : Bytes
  dllMode : Enum EExecDllMode
  allowedSignatures : UInt32
  allowedCollections : List Str
  imageLoadProtection : Bool
  imageCoherencyChecking : Bool
  onTrustedSpawn : Enum EProgramOnSpawn
  onSpawn : Enum EProgramOnSpawn
  integrityLevel : Enum EIntegrityLevel
  allowDebugging : Bool
  keepAlive : Bool
  data : StVariant

namespace CEnclave

def new : CEnclave :=
  { guid := .new, bEnabled := true, name := [], description := [], volumeGuid := .new, bUseScript := false, script := []
    dllMode := .of .eDisabled, allowedSignatures := 0, allowedCollections := [], imageLoadProtection := true
    imageCoherencyChecking := true, onTrustedSpawn := .of .eAllow, onSpawn := .of .eEject, integrityLevel := .of .eUnknown
    allowDebugging := false, keepAlive := false, data := .new }

/-! ### Writing -/

/-- The fields before the first enumeration, the same in both formats. -/
def writeFirst (e : CEnclave) (bTextGuids : Bool) : List (Field × Value) :=
  writeId bTextGuids .guid e.guid ++ [(.enabled, .bool e.bEnabled), (.name, .str e.name), (.ruleDescr, .str e.description)] ++
  writeId bTextGuids .volumeGuid e.volumeGuid ++ [(.useScript, .bool e.bUseScript), (.script, .ascii e.script)]

/-- `WriteIVariant`. -/
def writeIVariant (e : CEnclave) (bTextGuids : Bool) : List (Field × Value) :=
  e.writeFirst bTextGuids ++
  [(.dllInjectMode, .uint32 e.dllMode.number), (.execAllowedSigners, .uint32 e.allowedSignatures),
    (.execAllowedCollections, .strList e.allowedCollections), (.execOnTrustedSpawn, .uint32 e.onTrustedSpawn.number),
    (.execOnSpawn, .uint32 e.onSpawn.number), (.imageLoadProtection, .bool e.imageLoadProtection),
    (.imageCoherencyChecking, .bool e.imageCoherencyChecking), (.integrityLevel, .uint32 e.integrityLevel.number),
    (.allowDebugging, .bool e.allowDebugging), (.keepAlive, .bool e.keepAlive), (.data, e.data.value)]

/-- `WriteMVariant`. -/
def writeMVariant (e : CEnclave) (bTextGuids : Bool) : List (Field × Value) :=
  e.writeFirst bTextGuids ++
  writeEnum EExecDllMode.keyword .dllInjectMode e.dllMode ++
  [(.execAllowedSigners, .list (signerValues e.allowedSignatures e.allowedCollections))] ++
  writeEnum EProgramOnSpawn.keyword .execOnTrustedSpawn e.onTrustedSpawn ++
  writeEnum EProgramOnSpawn.keyword .execOnSpawn e.onSpawn ++
  [(.imageLoadProtection, .bool e.imageLoadProtection), (.imageCoherencyChecking, .bool e.imageCoherencyChecking)] ++
  writeEnum EIntegrityLevel.keyword .integrityLevel e.integrityLevel ++
  [(.allowDebugging, .bool e.allowDebugging), (.keepAlive, .bool e.keepAlive), (.data, e.data.value)]

def writeVariant (e : CEnclave) (bTextGuids : Bool) : EFormat → List (Field × Value)
  | .eIndex => e.writeIVariant bTextGuids
  | .eMap => e.writeMVariant bTextGuids

/-- `ToVariant`. -/
def toVariant (e : CEnclave) (bTextGuids : Bool) (format : EFormat) : Value :=
  Record.finish (e.writeVariant bTextGuids format) format

/-! ### Reading -/

/-- The fields `ReadIValue` and `ReadMValue` read alike. -/
def readShared (doubleText : Bytes → Str) (e : CEnclave) (data : Value) : Field → Except EResult CEnclave
  | .guid => .ok (if isNull e.guid then { e with guid := readId e.guid data } else e)
  | .enabled => (toBool data).map fun b => { e with bEnabled := b }
  | .name => .ok { e with name := asStr doubleText data }
  | .ruleDescr => .ok { e with description := asStr doubleText data }
  | .volumeGuid => .ok { e with volumeGuid := readId e.volumeGuid data }
  | .useScript => (toBool data).map fun b => { e with bUseScript := b }
  | .script => (Firewall.toString data).map fun s => { e with script := s }
  | .imageLoadProtection => (toBool data).map fun b => { e with imageLoadProtection := b }
  | .imageCoherencyChecking => (toBool data).map fun b => { e with imageCoherencyChecking := b }
  | .allowDebugging => (toBool data).map fun b => { e with allowDebugging := b }
  | .keepAlive => (toBool data).map fun b => { e with keepAlive := b }
  | .data => .ok { e with data := .clone data }
  | _ => .ok e

/-- `ReadIValue`. -/
def readIValue (doubleText : Bytes → Str) (e : CEnclave) (data : Value) : Field → Except EResult CEnclave
  | .dllInjectMode => (toUInt32 data).map fun n => { e with dllMode := ⟨n⟩ }
  | .execAllowedSigners => (toUInt32 data).map fun n => { e with allowedSignatures := n }
  | .execAllowedCollections => (readStrings doubleText data).map fun l => { e with allowedCollections := l }
  | .execOnTrustedSpawn => (toUInt32 data).map fun n => { e with onTrustedSpawn := ⟨n⟩ }
  | .execOnSpawn => (toUInt32 data).map fun n => { e with onSpawn := ⟨n⟩ }
  | .integrityLevel => (toUInt32 data).map fun n => { e with integrityLevel := ⟨n⟩ }
  | f => readShared doubleText e data f

/-- `ReadMValue`. -/
def readMValue (doubleText : Bytes → Str) (e : CEnclave) (data : Value) : Field → Except EResult CEnclave
  | .dllInjectMode => (Firewall.toString data).map fun s => { e with dllMode := readEnum EExecDllMode.keyword e.dllMode s }
  | .execSignReq => (Firewall.toString data).map fun s => { e with allowedSignatures := readSignReq e.allowedSignatures s }
  | .execAllowedSigners => (readSigners doubleText data).map fun read =>
    { e with allowedSignatures := read.1, allowedCollections := read.2 }
  | .execOnTrustedSpawn => (Firewall.toString data).map fun s =>
    { e with onTrustedSpawn := readEnum EProgramOnSpawn.keyword e.onTrustedSpawn s }
  | .execOnSpawn => (Firewall.toString data).map fun s => { e with onSpawn := readEnum EProgramOnSpawn.keyword e.onSpawn s }
  | .integrityLevel => (Firewall.toString data).map fun s =>
    { e with integrityLevel := readEnum EIntegrityLevel.keyword e.integrityLevel s }
  | f => readShared doubleText e data f

def readValue (doubleText : Bytes → Str) : EFormat → CEnclave → Value → Field → Except EResult CEnclave
  | .eIndex => readIValue doubleText
  | .eMap => readMValue doubleText

/-- An enclave goes through a packet into another one. -/
def readBack (doubleText : Bytes → Str) (e target : CEnclave) (bTextGuids : Bool) (format : EFormat) :
    Except EResult (Option CEnclave) :=
  Record.readBack (readValue doubleText) (e.writeVariant bTextGuids format) format target

/-! ## What comes back -/

/-- The signers and collections that come back. -/
def signersBack (e : CEnclave) : EFormat → UInt32 × List Str
  | .eIndex => (e.allowedSignatures, e.allowedCollections)
  | .eMap => (e.allowedSignatures &&& signerBits ||| namedSigners e.allowedCollections,
    e.allowedCollections.filter fun s => (signerOf (narrow s)).isNone)

/-- An enclave that comes back. -/
def back (e : CEnclave) (bTextGuids : Bool) (format : EFormat) : CEnclave :=
  { e with
    guid := idBack bTextGuids e.guid
    volumeGuid := idBack bTextGuids e.volumeGuid
    dllMode := enumBack EExecDllMode.keyword (.of .eDisabled) e.dllMode format
    allowedSignatures := (e.signersBack format).1
    allowedCollections := (e.signersBack format).2
    onTrustedSpawn := enumBack EProgramOnSpawn.keyword (.of .eAllow) e.onTrustedSpawn format
    onSpawn := enumBack EProgramOnSpawn.keyword (.of .eEject) e.onSpawn format
    integrityLevel := enumBack EIntegrityLevel.keyword (.of .eUnknown) e.integrityLevel format }

/-- Both formats of an enclave fit, and its ids do. -/
structure Fits (e : CEnclave) (bTextGuids : Bool) : Prop where
  variant : ∀ format, (e.toVariant bTextGuids format).2.length < invalidSize
  guid : FitsId e.guid
  volumeGuid : FitsId e.volumeGuid

section Read
variable (doubleText : Bytes → Str) {e : CEnclave} {bTextGuids : Bool}

theorem named_writeVariant (format : EFormat) : Record.Named (e.writeVariant bTextGuids format) format := by
  cases format with
  | eIndex => exact trivial
  | eMap =>
    have hid : ∀ (g : CFlexGuid) (f : Field), Field.key f ≠ none → ∀ entry ∈ writeId bTextGuids f g, RecordField.key entry.1 ≠ none :=
      fun g f hf entry h => by
        rw [writeId] at h
        split at h
        · cases h
        · rwa [List.mem_singleton.1 h]
    simp only [Record.Named, writeVariant, writeMVariant, writeFirst, List.forall_mem_append, List.forall_mem_cons, writeEnum,
      List.forall_mem_map, List.not_mem_nil, false_imp_iff, implies_true, and_true]
    refine ⟨⟨⟨⟨⟨⟨⟨⟨⟨⟨hid _ _ (by decide), ?_, ?_, ?_⟩, hid _ _ (by decide)⟩, ?_, ?_⟩, fun s _ => ?_⟩, ?_⟩, fun s _ => ?_⟩, fun s _ => ?_⟩,
      ?_, ?_⟩, fun s _ => ?_⟩, ?_, ?_, ?_⟩
    all_goals rintro hkey; cases hkey

section Fits
variable (hfits : e.Fits bTextGuids)
include hfits

theorem valid_writeVariant (format : EFormat) : ∀ f ∈ e.writeVariant bTextGuids format, Valid f.2.1 f.2.2 := by
  have hguid := @valid_writeId bTextGuids _ hfits.guid .guid
  have hvolume := @valid_writeId bTextGuids _ hfits.volumeGuid .volumeGuid
  cases format with
  | eIndex =>
    simp only [writeVariant, writeIVariant, writeFirst, List.forall_mem_append, List.forall_mem_cons, List.not_mem_nil, false_imp_iff,
      implies_true, and_true, valid_uint32, valid_bool, valid_ascii, valid_str, Value.strList, valid_list, e.data.valid]
    exact ⟨hguid, hvolume⟩
  | eMap =>
    simp only [writeVariant, writeMVariant, writeFirst, List.forall_mem_append, List.forall_mem_cons, List.not_mem_nil, false_imp_iff,
      implies_true, and_true, valid_bool, valid_ascii, valid_str, valid_list, e.data.valid]
    exact ⟨⟨⟨⟨⟨hguid, hvolume⟩, valid_writeEnum _ _⟩, valid_writeEnum _ _⟩, valid_writeEnum _ _⟩, valid_writeEnum _ _⟩

theorem Fits.lists : (Value.strList e.allowedCollections).2.length ≤ ulongMax ∧
    (Value.list (signerValues e.allowedSignatures e.allowedCollections)).2.length ≤ ulongMax := by
  have hindex : ∀ f ∈ e.writeIVariant bTextGuids, f.2.2.length ≤ ulongMax := fun f hf =>
    (Record.length_le_finish _ .eIndex f hf).trans (Nat.le_of_lt (hfits.variant .eIndex))
  have hmap : ∀ f ∈ e.writeMVariant bTextGuids, f.2.2.length ≤ ulongMax := fun f hf =>
    (Record.length_le_finish _ .eMap f hf).trans (Nat.le_of_lt (hfits.variant .eMap))
  exact ⟨hindex (.execAllowedCollections, .strList e.allowedCollections) (by simp [writeIVariant]),
    hmap (.execAllowedSigners, .list (signerValues e.allowedSignatures e.allowedCollections)) (by simp [writeMVariant])⟩

omit hfits in
theorem readAll_first (format : EFormat) : Record.readAll (readValue doubleText format) (e.writeFirst bTextGuids) new =
    .ok { new with
      guid := idBack bTextGuids e.guid, bEnabled := e.bEnabled, name := e.name, description := e.description
      volumeGuid := idBack bTextGuids e.volumeGuid, bUseScript := e.bUseScript, script := e.script } := by
  have hread : ∀ f ∈ e.writeFirst bTextGuids, ∀ (e : CEnclave) v, readValue doubleText format e v f.1 = readShared doubleText e v f.1 := by
    have hid : ∀ (g : CFlexGuid) (f : Field), (∀ (e : CEnclave) v, readValue doubleText format e v f = readShared doubleText e v f) →
        ∀ entry ∈ writeId bTextGuids f g, ∀ (e : CEnclave) v,
          readValue doubleText format e v entry.1 = readShared doubleText e v entry.1 := fun g f hf entry h => by
      rw [writeId] at h
      split at h
      · cases h
      · rwa [List.mem_singleton.1 h]
    simp only [writeFirst, List.forall_mem_append, List.forall_mem_cons, List.not_mem_nil, false_imp_iff, implies_true, and_true]
    cases format <;> exact ⟨⟨⟨hid _ _ fun _ _ => rfl, fun _ _ => rfl, fun _ _ => rfl, fun _ _ => rfl⟩, hid _ _ fun _ _ => rfl⟩,
      fun _ _ => rfl, fun _ _ => rfl⟩
  have hguid : Record.readAll (readShared doubleText) (writeId bTextGuids .guid e.guid) new =
      .ok { new with guid := idBack bTextGuids e.guid } :=
    readAll_writeId (fun (e : CEnclave) g => { e with guid := g }) (fun _ => rfl) rfl
  have hvolume : ∀ target : CEnclave, target.volumeGuid = .new →
      Record.readAll (readShared doubleText) (writeId bTextGuids .volumeGuid e.volumeGuid) target =
      .ok { target with volumeGuid := idBack bTextGuids e.volumeGuid } := fun target h =>
    readAll_writeId (fun (e : CEnclave) g => { e with volumeGuid := g }) (fun _ => by rw [← h]; rfl) (by rw [← h])
  rw [Record.readAll_congr _ _ hread]
  simp only [writeFirst, Record.readAll_append, hguid, Record.bind_ok, Record.readAll_cons, Record.readAll_nil, readShared, asStr_str,
    toBool_bool, Record.map_ok]
  rw [hvolume _ rfl, Record.bind_ok]
  simp only [Record.readAll_cons, Record.readAll_nil, readShared, toBool_bool, toString_ascii, Record.map_ok, Record.bind_ok]

/-- What is read of the fields that were written. -/
theorem readAll_writeVariant (format : EFormat) :
    Record.readAll (readValue doubleText format) (e.writeVariant bTextGuids format) new = .ok (e.back bTextGuids format) := by
  have hfirst := @readAll_first doubleText e bTextGuids format
  have hlists := Fits.lists hfits
  cases format with
  | eIndex =>
    simp only [readValue] at hfirst
    simp only [writeVariant, writeIVariant, Record.readAll_append, readValue, hfirst, Record.readAll_cons, Record.readAll_nil, readIValue,
      readShared, toBool_bool, toUInt32_uint32, readStrings_strList doubleText hlists.1, StVariant.clone_value, Record.map_ok,
      Record.bind_ok]
    rfl
  | eMap =>
    simp only [readValue] at hfirst
    have hdllMode : ∀ target, Record.readAll (readMValue doubleText) (writeEnum EExecDllMode.keyword .dllInjectMode e.dllMode) target =
        .ok (if e.dllMode.keyword EExecDllMode.keyword = none then target else { target with dllMode := e.dllMode }) :=
      readAll_writeEnum keywordsDiffer_dllMode dllMode (fun (e : CEnclave) n => { e with dllMode := n })
        (fun r s => by rw [readMValue, toString_ascii, Record.map_ok]) e.dllMode
    have htrusted : ∀ target, Record.readAll (readMValue doubleText)
        (writeEnum EProgramOnSpawn.keyword .execOnTrustedSpawn e.onTrustedSpawn) target =
        .ok (if e.onTrustedSpawn.keyword EProgramOnSpawn.keyword = none then target else { target with onTrustedSpawn := e.onTrustedSpawn }) :=
      readAll_writeEnum keywordsDiffer_onSpawn onTrustedSpawn (fun (e : CEnclave) n => { e with onTrustedSpawn := n })
        (fun r s => by rw [readMValue, toString_ascii, Record.map_ok]) e.onTrustedSpawn
    have hspawn : ∀ target, Record.readAll (readMValue doubleText) (writeEnum EProgramOnSpawn.keyword .execOnSpawn e.onSpawn) target =
        .ok (if e.onSpawn.keyword EProgramOnSpawn.keyword = none then target else { target with onSpawn := e.onSpawn }) :=
      readAll_writeEnum keywordsDiffer_onSpawn onSpawn (fun (e : CEnclave) n => { e with onSpawn := n })
        (fun r s => by rw [readMValue, toString_ascii, Record.map_ok]) e.onSpawn
    have hlevel : ∀ target, Record.readAll (readMValue doubleText)
        (writeEnum EIntegrityLevel.keyword .integrityLevel e.integrityLevel) target =
        .ok (if e.integrityLevel.keyword EIntegrityLevel.keyword = none then target else { target with integrityLevel := e.integrityLevel }) :=
      readAll_writeEnum keywordsDiffer_integrityLevel integrityLevel (fun (e : CEnclave) n => { e with integrityLevel := n })
        (fun r s => by rw [readMValue, toString_ascii, Record.map_ok]) e.integrityLevel
    simp only [writeVariant, writeMVariant, Record.readAll_append, readValue, hfirst, hdllMode, htrusted, hspawn, hlevel,
      Record.readAll_cons, Record.readAll_nil, readMValue, readShared, toBool_bool,
      readSigners_signerValues doubleText e.allowedSignatures hlists.2, StVariant.clone_value, Record.map_ok, Record.bind_ok, back, enumBack,
      signersBack]
    split <;> split <;> split <;> split <;> rfl

/-- An enclave comes back from either format as this. -/
theorem readBack_eq (format : EFormat) : e.readBack doubleText new bTextGuids format = .ok (some (e.back bTextGuids format)) := by
  rw [readBack, Record.readBack_eq _ _ (valid_writeVariant hfits format) (named_writeVariant format) (hfits.variant format),
    readAll_writeVariant doubleText hfits format, Record.map_ok]

end Fits

end Read

/-! ## The codec -/

/-- Two enclaves that are equal, where ids are equal as `Compare` has it. -/
structure Same (a b : CEnclave) : Prop where
  fields : a = { b with guid := a.guid, volumeGuid := a.volumeGuid }
  guid : a.guid.compare b.guid = .eq
  volumeGuid : a.volumeGuid.compare b.volumeGuid = .eq

/-- An enclave comes back from either format, and the same from both. -/
structure Codec (doubleText : Bytes → Str) (e : CEnclave) (bTextGuids : Bool) : Prop where
  back : ∀ format, ∃ read, e.readBack doubleText new bTextGuids format = .ok (some read) ∧ Same read e
  same : e.readBack doubleText new bTextGuids .eIndex = e.readBack doubleText new bTextGuids .eMap

/-- Enclaves that are kept: with ids of their kind, keywords for what they are, and signers and collections that
are not mistaken for each other. -/
structure Kept (e : CEnclave) (bTextGuids : Bool) : Prop where
  guid : ByVariant bTextGuids e.guid
  volumeGuid : ByVariant bTextGuids e.volumeGuid
  dllMode : Told EExecDllMode.keyword (.of .eDisabled) e.dllMode
  signers : ApartInMap e.allowedSignatures e.allowedCollections
  onTrustedSpawn : Told EProgramOnSpawn.keyword (.of .eAllow) e.onTrustedSpawn
  onSpawn : Told EProgramOnSpawn.keyword (.of .eEject) e.onSpawn
  integrityLevel : Told EIntegrityLevel.keyword (.of .eUnknown) e.integrityLevel

section Codec
variable {doubleText : Bytes → Str} {e : CEnclave} {bTextGuids : Bool}

/-- An enclave that is kept comes back with all but the ids literally. -/
theorem Kept.back_eq (h : e.Kept bTextGuids) (format : EFormat) :
    e.back bTextGuids format = { e with guid := idBack bTextGuids e.guid, volumeGuid := idBack bTextGuids e.volumeGuid } := by
  cases format with
  | eIndex => rfl
  | eMap =>
    rw [back, enumBack_eq_iff.2 h.dllMode, enumBack_eq_iff.2 h.onTrustedSpawn, enumBack_eq_iff.2 h.onSpawn,
      enumBack_eq_iff.2 h.integrityLevel, signersBack, (apartInMap_iff _ _).2 h.signers]

/-- The enclaves that come back. -/
theorem codec_iff_kept (hfits : e.Fits bTextGuids) : Codec doubleText e bTextGuids ↔ e.Kept bTextGuids := by
  have hread := readBack_eq doubleText hfits
  constructor
  · rintro h
    rcases h.back .eMap with ⟨read, hback, hfields, hguid, hvolume⟩
    rw [hread] at hback
    cases hback
    constructor
    case guid => exact (idBack_compare hfits.guid).1 hguid
    case volumeGuid => exact (idBack_compare hfits.volumeGuid).1 hvolume
    case dllMode => exact enumBack_eq_iff.1 (congrArg dllMode hfields :)
    case signers => exact (apartInMap_iff _ _).1 (Prod.ext (congrArg allowedSignatures hfields) (congrArg allowedCollections hfields))
    case onTrustedSpawn => exact enumBack_eq_iff.1 (congrArg onTrustedSpawn hfields :)
    case onSpawn => exact enumBack_eq_iff.1 (congrArg onSpawn hfields :)
    case integrityLevel => exact enumBack_eq_iff.1 (congrArg integrityLevel hfields :)
  · rintro h
    constructor
    case back =>
      refine fun format => ⟨_, hread format, ?_⟩
      rw [h.back_eq format]
      exact ⟨rfl, (idBack_compare hfits.guid).2 h.guid, (idBack_compare hfits.volumeGuid).2 h.volumeGuid⟩
    case same => rw [hread, hread, h.back_eq, h.back_eq]

end Codec

end CEnclave

/-- A program rule or an enclave comes back from both formats when it is one that is kept. -/
theorem rule_codec_iff (doubleText : Bytes → Str) (bTextGuids : Bool) :
    (∀ r : CProgramRule, r.Fits bTextGuids → (r.Codec doubleText bTextGuids ↔ r.Kept bTextGuids)) ∧
      ∀ e : CEnclave, e.Fits bTextGuids → (e.Codec doubleText bTextGuids ↔ e.Kept bTextGuids) :=
  ⟨fun _ hfits => CProgramRule.codec_iff_kept hfits, fun _ hfits => CEnclave.codec_iff_kept hfits⟩

/-- A rule for programs that two parties may have signed, or that are in a collection. -/
def signedRule (type : EExecRuleType) (collection : String) : CProgramRule :=
  { CProgramRule.new [] with
    type := .of type, allowedSignatures := 0x41, allowedCollections := [(text collection).map (·.toUInt16)] }

theorem fits_signedRule {type : EExecRuleType} {collection : String}
    (h : ∀ format, ((signedRule type collection).toVariant true format).2.length < invalidSize) : (signedRule type collection).Fits true :=
  ⟨⟨fitsId_new, fitsId_new⟩, h⟩

/-- An enclave that has them too. -/
def signedEnclave : CEnclave := { CEnclave.new with allowedSignatures := 0x41, integrityLevel := .of .eMedium }

/-- What is signed and protected is kept. -/
theorem rule_codec_iff_signed : (signedRule .eProtect "Tools").Codec (fun _ => []) true ∧ signedEnclave.Codec (fun _ => []) true := by
  have hrule : (signedRule .eProtect "Tools").Fits true := fits_signedRule (by rintro (_ | _) <;> decide +kernel)
  have henclave : signedEnclave.Fits true :=
    ⟨by rintro (_ | _) <;> decide +kernel, fitsId_new, fitsId_new⟩
  refine ⟨((rule_codec_iff _ true).1 _ hrule).2 ?_, ((rule_codec_iff _ true).2 _ henclave).2 ?_⟩
  · constructor
    case guid => exact trivial
    case enclave => exact trivial
    case type => exact .inr (by decide)
    case dllMode => exact .inl rfl
    case signers => exact fun _ => ⟨by decide, by decide +kernel⟩
    case noSigners => exact fun h => absurd rfl h
  · constructor
    case guid => exact trivial
    case volumeGuid => exact trivial
    case dllMode => exact .inl rfl
    case signers => exact ⟨by decide, by decide⟩
    case onTrustedSpawn => exact .inl rfl
    case onSpawn => exact .inl rfl
    case integrityLevel => exact .inr (by decide)

/-- A rule that blocks loses its signers, and a collection that is called like a signer becomes one. -/
theorem not_rule_codec : ¬ (signedRule .eBlock "Tools").Codec (fun _ => []) true ∧ ¬ (signedRule .eAllow "[User]").Codec (fun _ => []) true := by
  have hblock : (signedRule .eBlock "Tools").Fits true := fits_signedRule (by rintro (_ | _) <;> decide +kernel)
  have hallow : (signedRule .eAllow "[User]").Fits true := fits_signedRule (by rintro (_ | _) <;> decide +kernel)
  constructor
  · rintro h
    cases (((CProgramRule.codec_iff_kept hblock).1 h).noSigners (by decide)).1
  · rintro h
    have hname : signerOf (narrow ((text "[User]").map (·.toUInt16))) ≠ none := by decide +kernel
    exact hname ((((CProgramRule.codec_iff_kept hallow).1 h).signers rfl).2 _ (List.mem_singleton_self _))

end MajorPrivacy.Records

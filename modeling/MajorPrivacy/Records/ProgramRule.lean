/-
`CProgramRule` (API_ProgramRule.cpp) with `CGenericRule` (API_GenericRule.cpp): which programs may run,
by whom they have to be signed, and from where. The signers and the collections are written for rules
that let a program run only.
-/
import MajorPrivacy.Records.Signers

namespace MajorPrivacy.Records

open LittleEndian MajorPrivacy.Firewall
open MajorPrivacy.Variant hiding Value
open MajorPrivacy.Guid hiding Value

/-! ## Enumerations -/

inductive EExecRuleType
  | eUnknown | eAllow | eBlock | eProtect | eIsolate | eAudit | eMax
  deriving DecidableEq

instance : Enumeration EExecRuleType where
  values := [.eUnknown, .eAllow, .eBlock, .eProtect, .eIsolate, .eAudit, .eMax]
  number
    | .eUnknown => 0
    | .eAllow => 1
    | .eBlock => 2
    | .eProtect => 3
    | .eIsolate => 4
    | .eAudit => 5
    | .eMax => 6
  number_inj := by decide
  mem_values := by rintro (_ | _ | _ | _ | _ | _ | _) <;> decide

def EExecRuleType.keyword : EExecRuleType → Option String
  | eAllow => "Allow"
  | eBlock => "Block"
  | eProtect => "Protect"
  | eIsolate => "Isolate"
  | eAudit => "Audit"
  | eUnknown | eMax => none

inductive EExecDllMode
  | eDefault | eInjectLow | eInjectHigh | eDisabled
  deriving DecidableEq

instance : Enumeration EExecDllMode where
  values := [.eDefault, .eInjectLow, .eInjectHigh, .eDisabled]
  number
    | .eDefault => 0
    | .eInjectLow => 1
    | .eInjectHigh => 2
    | .eDisabled => 3
  number_inj := by decide
  mem_values := by rintro (_ | _ | _ | _) <;> decide

def EExecDllMode.keyword : EExecDllMode → Option String
  | eDefault => "Default"
  | eInjectLow => "InjectLow"
  | eInjectHigh => "InjectHigh"
  | eDisabled => "Disabled"

theorem keywordsDiffer_ruleType : KeywordsDiffer EExecRuleType.keyword := by decide +kernel

theorem keywordsDiffer_dllMode : KeywordsDiffer EExecDllMode.keyword := by decide +kernel

/-! ## Rules -/

structure CGenericRule where
  guid : CFlexGuid
  bEnabled : Bool
  enclave : CFlexGuid
  principalSddl : Str
  bTemporary : Bool
  uTimeOut : UInt64
  name : Str
  description : Str
  data : StVariant

structure CProgramRule extends CGenericRule where
  type : Enum EExecRuleType
  bUseScript : Bool
  script : Bytes
  dllMode : Enum EExecDllMode
  programPath : Str
  allowedSignatures : UInt32
  allowedCollections : List Str
  imageLoadProtection : Bool
  imageCoherencyChecking : Bool
  allowedChildren : List Str
  allowedParents : List Str
  blockedChildren : List Str
  blockedParents : List Str

namespace CGenericRule

def new : CGenericRule := ⟨.new, true, .new, [], false, -1, [], [], .new⟩

/-- `WriteIVariant` and `WriteMVariant`, which differ in the keys only. -/
def writeVariant (r : CGenericRule) (bTextGuids : Bool) : List (Field × Value) :=
  writeId bTextGuids .guid r.guid ++ [(.enabled, .bool r.bEnabled)] ++ writeId bTextGuids .enclave r.enclave ++
  [(.principalSddl, .str r.principalSddl), (.temp, .bool r.bTemporary), (.timeout, .uint64 r.uTimeOut), (.name, .str r.name),
    (.ruleDescr, .str r.description), (.data, r.data.value)]

/-- `ReadIValue` and `ReadMValue`. -/
def readValue (doubleText : Bytes → Str) (r : CGenericRule) (data : Value) : Field → Except EResult CGenericRule
  | .guid => .ok (if isNull r.guid then { r with guid := readId r.guid data } else r)
  | .enabled => (toBool data).map fun b => { r with bEnabled := b }
  | .enclave => .ok { r with enclave := readId r.enclave data }
  | .principalSddl => .ok { r with principalSddl := asStr doubleText data }
  | .temp => (toBool data).map fun b => { r with bTemporary := b }
  | .timeout => (toUInt64 data).map fun n => { r with uTimeOut := n }
  | .name => .ok { r with name := asStr doubleText data }
  | .ruleDescr => .ok { r with description := asStr doubleText data }
  | .data => .ok { r with data := .clone data }
  | _ => .ok r

end CGenericRule

/-- Whether the signers of a rule are written. -/
def letsRun (type : Enum EExecRuleType) : Bool := type = .of .eAllow || type = .of .eProtect

namespace CProgramRule

/-- A new rule for a program. -/
def new (programPath : Str) : CProgramRule :=
  { CGenericRule.new with
    type := .of .eUnknown, bUseScript := false, script := [], dllMode := .of .eDisabled, programPath, allowedSignatures := 0
    allowedCollections := [], imageLoadProtection := true, imageCoherencyChecking := true, allowedChildren := [], allowedParents := []
    blockedChildren := [], blockedParents := [] }

/-! ### Writing -/

/-- The signers and the collections, if they are written. -/
def writeSigners (r : CProgramRule) (format : EFormat) : List (Field × Value) :=
  if letsRun r.type then
    match format with
    | .eIndex => [(.execAllowedSigners, .uint32 r.allowedSignatures), (.execAllowedCollections, .strList r.allowedCollections)]
    | .eMap => [(.execAllowedSigners, .list (signerValues r.allowedSignatures r.allowedCollections))]
  else []

/-- The fields behind the signers, the same in both formats. -/
def writeRest (r : CProgramRule) : List (Field × Value) :=
  [(.imageLoadProtection, .bool r.imageLoadProtection), (.imageCoherencyChecking, .bool r.imageCoherencyChecking),
    (.execAllowedChildren, .strList r.allowedChildren), (.execAllowedParents, .strList r.allowedParents),
    (.execBlockedChildren, .strList r.blockedChildren), (.execBlockedParents, .strList r.blockedParents)]

/-- `WriteIVariant`. -/
def writeIVariant (r : CProgramRule) (bTextGuids : Bool) : List (Field × Value) :=
  r.toCGenericRule.writeVariant bTextGuids ++
  [(.execRuleAction, .uint32 r.type.number), (.useScript, .bool r.bUseScript), (.script, .ascii r.script),
    (.dllInjectMode, .uint32 r.dllMode.number), (.filePath, .str r.programPath)] ++
  r.writeSigners .eIndex ++ r.writeRest

/-- `WriteMVariant`. -/
def writeMVariant (r : CProgramRule) (bTextGuids : Bool) : List (Field × Value) :=
  r.toCGenericRule.writeVariant bTextGuids ++
  writeEnum EExecRuleType.keyword .execRuleAction r.type ++
  [(.useScript, .bool r.bUseScript), (.script, .ascii r.script)] ++
  writeEnum EExecDllMode.keyword .dllInjectMode r.dllMode ++
  [(.filePath, .str r.programPath)] ++ r.writeSigners .eMap ++ r.writeRest

def writeVariant (r : CProgramRule) (bTextGuids : Bool) : EFormat → List (Field × Value)
  | .eIndex => r.writeIVariant bTextGuids
  | .eMap => r.writeMVariant bTextGuids

/-- `ToVariant`. -/
def toVariant (r : CProgramRule) (bTextGuids : Bool) (format : EFormat) : Value :=
  Record.finish (r.writeVariant bTextGuids format) format

/-! ### Reading -/

/-- The fields `ReadIValue` and `ReadMValue` read alike. -/
def readShared (doubleText : Bytes → Str) (r : CProgramRule) (data : Value) : Field → Except EResult CProgramRule
  | .useScript => (toBool data).map fun b => { r with bUseScript := b }
  | .script => (Firewall.toString data).map fun s => { r with script := s }
  | .filePath => .ok { r with programPath := asStr doubleText data }
  | .imageLoadProtection => (toBool data).map fun b => { r with imageLoadProtection := b }
  | .imageCoherencyChecking => (toBool data).map fun b => { r with imageCoherencyChecking := b }
  | .execAllowedChildren => (readStrings doubleText data).map fun l => { r with allowedChildren := l }
  | .execAllowedParents => (readStrings doubleText data).map fun l => { r with allowedParents := l }
  | .execBlockedChildren => (readStrings doubleText data).map fun l => { r with blockedChildren := l }
  | .execBlockedParents => (readStrings doubleText data).map fun l => { r with blockedParents := l }
  | f => (r.toCGenericRule.readValue doubleText data f).map fun g => { r with toCGenericRule := g }

/-- `ReadIValue`. -/
def readIValue (doubleText : Bytes → Str) (r : CProgramRule) (data : Value) : Field → Except EResult CProgramRule
  | .execRuleAction => (toUInt32 data).map fun n => { r with type := ⟨n⟩ }
  | .dllInjectMode => (toUInt32 data).map fun n => { r with dllMode := ⟨n⟩ }
  | .execAllowedSigners => (toUInt32 data).map fun n => { r with allowedSignatures := n }
  | .execAllowedCollections => (readStrings doubleText data).map fun l => { r with allowedCollections := l }
  | f => readShared doubleText r data f

/-- `ReadMValue`. -/
def readMValue (doubleText : Bytes → Str) (r : CProgramRule) (data : Value) : Field → Except EResult CProgramRule
  | .execRuleAction => (Firewall.toString data).map fun s => { r with type := readEnum EExecRuleType.keyword r.type s }
  | .dllInjectMode => (Firewall.toString data).map fun s => { r with dllMode := readEnum EExecDllMode.keyword r.dllMode s }
  | .execSignReq => (Firewall.toString data).map fun s => { r with allowedSignatures := readSignReq r.allowedSignatures s }
  | .execAllowedSigners => (readSigners doubleText data).map fun read =>
    { r with allowedSignatures := read.1, allowedCollections := read.2 }
  | f => readShared doubleText r data f

def readValue (doubleText : Bytes → Str) : EFormat → CProgramRule → Value → Field → Except EResult CProgramRule
  | .eIndex => readIValue doubleText
  | .eMap => readMValue doubleText

/-- A rule goes through a packet into another one. -/
def readBack (doubleText : Bytes → Str) (r target : CProgramRule) (bTextGuids : Bool) (format : EFormat) :
    Except EResult (Option CProgramRule) :=
  Record.readBack (readValue doubleText) (r.writeVariant bTextGuids format) format target

end CProgramRule

/-! ## What comes back -/

namespace CGenericRule

/-- A rule with the ids that come back. -/
def back (r : CGenericRule) (bTextGuids : Bool) : CGenericRule :=
  { r with guid := idBack bTextGuids r.guid, enclave := idBack bTextGuids r.enclave }

/-- The fields of a rule of any kind. -/
def fields : List Field := [.guid, .enabled, .enclave, .principalSddl, .temp, .timeout, .name, .ruleDescr, .data]

/-- The ids of a rule fit. -/
structure FitsIds (r : CGenericRule) : Prop where
  guid : FitsId r.guid
  enclave : FitsId r.enclave

variable (r : CGenericRule) (bTextGuids : Bool)

theorem mem_fields : ∀ f ∈ r.writeVariant bTextGuids, f.1 ∈ fields := by
  have hid : ∀ (g : CFlexGuid) (f : Field), f ∈ fields → ∀ entry ∈ writeId bTextGuids f g, entry.1 ∈ fields := fun g f hf entry h => by
    rw [writeId] at h
    split at h
    · cases h
    · rwa [List.mem_singleton.1 h]
  simp only [writeVariant, List.forall_mem_append, List.forall_mem_cons, List.not_mem_nil, false_imp_iff, implies_true, and_true]
  exact ⟨⟨⟨hid _ _ (by decide), by decide⟩, hid _ _ (by decide)⟩, by decide⟩

theorem valid_writeVariant (hfits : r.FitsIds) : ∀ f ∈ r.writeVariant bTextGuids, Valid f.2.1 f.2.2 := by
  simp only [writeVariant, List.forall_mem_append, List.forall_mem_cons, List.not_mem_nil, false_imp_iff, implies_true, and_true,
    valid_str, valid_bool, valid_uint64, r.data.valid]
  exact ⟨valid_writeId hfits.guid _, valid_writeId hfits.enclave _⟩

theorem readAll_writeVariant (doubleText : Bytes → Str) :
    Record.readAll (readValue doubleText) (r.writeVariant bTextGuids) .new = .ok (r.back bTextGuids) := by
  have hguid : Record.readAll (readValue doubleText) (writeId bTextGuids .guid r.guid) .new =
      .ok { new with guid := idBack bTextGuids r.guid } :=
    readAll_writeId (fun (r : CGenericRule) g => { r with guid := g }) (fun _ => rfl) rfl
  have henclave : ∀ (g : CFlexGuid) (b : Bool), Record.readAll (readValue doubleText) (writeId bTextGuids .enclave r.enclave)
      { new with guid := g, bEnabled := b } = .ok { new with guid := g, bEnabled := b, enclave := idBack bTextGuids r.enclave } :=
    fun g b => readAll_writeId (fun (r : CGenericRule) g => { r with enclave := g }) (fun _ => rfl) rfl
  simp only [writeVariant, Record.readAll_append, hguid, henclave, Record.readAll_cons, Record.readAll_nil, readValue, asStr_str,
    toBool_bool, toUInt64_uint64, StVariant.clone_value, Record.map_ok, Record.bind_ok]
  rfl

end CGenericRule

namespace CProgramRule

/-- The signers and collections that come back. -/
def signersBack (r : CProgramRule) : EFormat → UInt32 × List Str
  | .eIndex => if letsRun r.type then (r.allowedSignatures, r.allowedCollections) else (0, [])
  | .eMap =>
    if letsRun r.type then
      (r.allowedSignatures &&& signerBits ||| namedSigners r.allowedCollections,
        r.allowedCollections.filter fun s => (signerOf (narrow s)).isNone)
    else (0, [])

/-- A rule that comes back. -/
def back (r : CProgramRule) (bTextGuids : Bool) (format : EFormat) : CProgramRule :=
  { r with
    toCGenericRule := r.toCGenericRule.back bTextGuids
    type := enumBack EExecRuleType.keyword (.of .eUnknown) r.type format
    dllMode := enumBack EExecDllMode.keyword (.of .eDisabled) r.dllMode format
    allowedSignatures := (r.signersBack format).1
    allowedCollections := (r.signersBack format).2 }

/-- Both formats of a rule fit, and its ids do. -/
structure Fits (r : CProgramRule) (bTextGuids : Bool) : Prop extends r.toCGenericRule.FitsIds where
  variant : ∀ format, (r.toVariant bTextGuids format).2.length < invalidSize

section Read
variable (doubleText : Bytes → Str) (r : CProgramRule) (bTextGuids : Bool)

theorem readAll_generic (programPath : Str) (format : EFormat) :
    Record.readAll (readValue doubleText format) (r.toCGenericRule.writeVariant bTextGuids) (new programPath) =
      .ok { new programPath with toCGenericRule := r.toCGenericRule.back bTextGuids } := by
  have hread : ∀ f ∈ CGenericRule.fields, ∀ (r : CProgramRule) v, readValue doubleText format r v f =
      (r.toCGenericRule.readValue doubleText v f).map fun g => { r with toCGenericRule := g } := by
    simp only [CGenericRule.fields, List.forall_mem_cons, List.not_mem_nil, false_imp_iff, implies_true, and_true]
    cases format <;> exact ⟨fun _ _ => rfl, fun _ _ => rfl, fun _ _ => rfl, fun _ _ => rfl, fun _ _ => rfl, fun _ _ => rfl,
      fun _ _ => rfl, fun _ _ => rfl, fun _ _ => rfl⟩
  rw [Record.readAll_part toCGenericRule (fun r g => { r with toCGenericRule := g }) (fun _ _ => rfl)
    (fun _ _ _ => rfl) (fun _ => rfl) _ _ fun f hf => hread f.1 (CGenericRule.mem_fields _ _ f hf)]
  exact congrArg (Except.map fun g => { new programPath with toCGenericRule := g })
    (r.toCGenericRule.readAll_writeVariant bTextGuids doubleText)

theorem named_writeVariant (format : EFormat) : Record.Named (r.writeVariant bTextGuids format) format := by
  cases format with
  | eIndex => exact trivial
  | eMap =>
    have hgeneric : ∀ f ∈ r.toCGenericRule.writeVariant bTextGuids, RecordField.key f.1 ≠ none := fun f hf => by
      have hall : ∀ f ∈ CGenericRule.fields, Field.key f ≠ none := by decide
      exact hall f.1 (CGenericRule.mem_fields _ _ f hf)
    have hsigners : ∀ f ∈ r.writeSigners .eMap, RecordField.key f.1 ≠ none := fun f hf => by
      rw [writeSigners] at hf
      split at hf
      · rw [List.mem_singleton.1 hf]
        rintro h
        cases h
      · cases hf
    simp only [Record.Named, writeVariant, writeMVariant, writeRest, List.forall_mem_append, List.forall_mem_cons, writeEnum,
      List.forall_mem_map]
    refine ⟨⟨⟨⟨⟨⟨hgeneric, fun s _ => ?_⟩, ?_, ?_, fun f hf => by cases hf⟩, fun s _ => ?_⟩, ?_, fun f hf => by cases hf⟩, hsigners⟩,
      ?_, ?_, ?_, ?_, ?_, ?_, fun f hf => by cases hf⟩
    all_goals rintro hkey; cases hkey

variable {r bTextGuids} (hfits : r.Fits bTextGuids)
include hfits

theorem valid_writeVariant (format : EFormat) : ∀ f ∈ r.writeVariant bTextGuids format, Valid f.2.1 f.2.2 := by
  have hgeneric := r.toCGenericRule.valid_writeVariant bTextGuids hfits.toFitsIds
  have hrest : ∀ f ∈ r.writeRest, Valid f.2.1 f.2.2 := by
    simp only [writeRest, List.forall_mem_cons, List.not_mem_nil, false_imp_iff, implies_true, and_true, valid_bool, Value.strList,
      valid_list]
  have hsigners : ∀ format, ∀ f ∈ r.writeSigners format, Valid f.2.1 f.2.2 := fun format => by
    unfold writeSigners
    split
    · cases format <;>
        simp only [List.forall_mem_cons, List.not_mem_nil, false_imp_iff, implies_true, and_true, valid_uint32, Value.strList, valid_list]
    · exact fun f hf => by cases hf
  cases format with
  | eIndex =>
    simp only [writeVariant, writeIVariant, List.forall_mem_append, List.forall_mem_cons, List.not_mem_nil, false_imp_iff, implies_true,
      and_true, valid_uint32, valid_bool, valid_ascii, valid_str]
    exact ⟨⟨hgeneric, hsigners _⟩, hrest⟩
  | eMap =>
    simp only [writeVariant, writeMVariant, List.forall_mem_append, List.forall_mem_cons, List.not_mem_nil, false_imp_iff, implies_true,
      and_true, valid_bool, valid_ascii, valid_str]
    exact ⟨⟨⟨⟨hgeneric, valid_writeEnum _ _⟩, valid_writeEnum _ _⟩, hsigners _⟩, hrest⟩

/-- The lists of a rule, and those of its signers if they are written. -/
structure ListsFit (r : CProgramRule) : Prop where
  allowedChildren : (Value.strList r.allowedChildren).2.length ≤ ulongMax
  allowedParents : (Value.strList r.allowedParents).2.length ≤ ulongMax
  blockedChildren : (Value.strList r.blockedChildren).2.length ≤ ulongMax
  blockedParents : (Value.strList r.blockedParents).2.length ≤ ulongMax
  collections : letsRun r.type → (Value.strList r.allowedCollections).2.length ≤ ulongMax
  signers : letsRun r.type → (Value.list (signerValues r.allowedSignatures r.allowedCollections)).2.length ≤ ulongMax

theorem Fits.lists : r.ListsFit := by
  have hindex : ∀ f ∈ r.writeIVariant bTextGuids, f.2.2.length ≤ ulongMax := fun f hf =>
    (Record.length_le_finish _ .eIndex f hf).trans (Nat.le_of_lt (hfits.variant .eIndex))
  have hmap : ∀ f ∈ r.writeMVariant bTextGuids, f.2.2.length ≤ ulongMax := fun f hf =>
    (Record.length_le_finish _ .eMap f hf).trans (Nat.le_of_lt (hfits.variant .eMap))
  constructor
  case allowedChildren => exact hindex (.execAllowedChildren, .strList r.allowedChildren) (by simp [writeIVariant, writeRest])
  case allowedParents => exact hindex (.execAllowedParents, .strList r.allowedParents) (by simp [writeIVariant, writeRest])
  case blockedChildren => exact hindex (.execBlockedChildren, .strList r.blockedChildren) (by simp [writeIVariant, writeRest])
  case blockedParents => exact hindex (.execBlockedParents, .strList r.blockedParents) (by simp [writeIVariant, writeRest])
  case collections =>
    exact fun h => hindex (.execAllowedCollections, .strList r.allowedCollections) (by simp [writeIVariant, writeSigners, h])
  case signers =>
    exact fun h => hmap (.execAllowedSigners, .list (signerValues r.allowedSignatures r.allowedCollections)) (by simp [writeMVariant, writeSigners, h])

/-- The signers in a rule that has none yet. -/
theorem readAll_signers (format : EFormat) {target : CProgramRule} (hsignatures : target.allowedSignatures = 0)
    (hcollections : target.allowedCollections = []) :
    Record.readAll (readValue doubleText format) (r.writeSigners format) target =
      .ok { target with allowedSignatures := (r.signersBack format).1, allowedCollections := (r.signersBack format).2 } := by
  have hlists := Fits.lists hfits
  by_cases hrun : letsRun r.type
  · cases format with
    | eIndex =>
      simp only [writeSigners, signersBack, if_pos hrun, Record.readAll_cons, Record.readAll_nil, readValue, readIValue, toUInt32_uint32,
        readStrings_strList doubleText (hlists.collections hrun), Record.map_ok, Record.bind_ok]
    | eMap =>
      simp only [writeSigners, signersBack, if_pos hrun, Record.readAll_cons, Record.readAll_nil, readValue, readMValue,
        readSigners_signerValues doubleText r.allowedSignatures (hlists.signers hrun), Record.map_ok, Record.bind_ok]
  · have hback : r.signersBack format = (target.allowedSignatures, target.allowedCollections) := by
      rw [hsignatures, hcollections]
      cases format with
      | eIndex => exact if_neg hrun
      | eMap => exact if_neg hrun
    unfold writeSigners
    rw [if_neg hrun, Record.readAll_nil, hback]

theorem readAll_rest (format : EFormat) (target : CProgramRule) :
    Record.readAll (readValue doubleText format) r.writeRest target =
      .ok { target with
        imageLoadProtection := r.imageLoadProtection, imageCoherencyChecking := r.imageCoherencyChecking
        allowedChildren := r.allowedChildren, allowedParents := r.allowedParents, blockedChildren := r.blockedChildren
        blockedParents := r.blockedParents } := by
  have hlists := Fits.lists hfits
  cases format <;>
    simp only [writeRest, Record.readAll_cons, Record.readAll_nil, readValue, readIValue, readMValue, readShared, toBool_bool,
      readStrings_strList doubleText hlists.allowedChildren, readStrings_strList doubleText hlists.allowedParents,
      readStrings_strList doubleText hlists.blockedChildren, readStrings_strList doubleText hlists.blockedParents, Record.map_ok,
      Record.bind_ok]

/-- What is read of the fields that were written. -/
theorem readAll_writeVariant (programPath : Str) (format : EFormat) :
    Record.readAll (readValue doubleText format) (r.writeVariant bTextGuids format) (new programPath) = .ok (r.back bTextGuids format) := by
  have hgeneric := readAll_generic doubleText r bTextGuids programPath format
  have hsigners := fun target => @readAll_signers doubleText r bTextGuids hfits format target
  have hrest := readAll_rest doubleText hfits format
  cases format with
  | eIndex =>
    simp only [readValue] at hgeneric hsigners hrest
    simp only [writeVariant, writeIVariant, Record.readAll_append, readValue, hgeneric, Record.readAll_cons, Record.readAll_nil,
      readIValue, readShared, asStr_str, toBool_bool, toUInt32_uint32, toString_ascii, Record.map_ok, Record.bind_ok]
    rw [hsigners _ rfl rfl, Record.bind_ok, hrest]
    rfl
  | eMap =>
    simp only [readValue] at hgeneric hsigners hrest
    have htype : ∀ target, Record.readAll (readMValue doubleText) (writeEnum EExecRuleType.keyword .execRuleAction r.type) target =
        .ok (if r.type.keyword EExecRuleType.keyword = none then target else { target with type := r.type }) :=
      readAll_writeEnum keywordsDiffer_ruleType type (fun (r : CProgramRule) n => { r with type := n })
        (fun r s => by rw [readMValue, toString_ascii, Record.map_ok]) r.type
    have hdllMode : ∀ target, Record.readAll (readMValue doubleText) (writeEnum EExecDllMode.keyword .dllInjectMode r.dllMode) target =
        .ok (if r.dllMode.keyword EExecDllMode.keyword = none then target else { target with dllMode := r.dllMode }) :=
      readAll_writeEnum keywordsDiffer_dllMode dllMode (fun (r : CProgramRule) n => { r with dllMode := n })
        (fun r s => by rw [readMValue, toString_ascii, Record.map_ok]) r.dllMode
    simp only [writeVariant, writeMVariant, Record.readAll_append, readValue, hgeneric, htype, hdllMode, Record.readAll_cons,
      Record.readAll_nil, readMValue, readShared, asStr_str, toBool_bool, toString_ascii, Record.map_ok, Record.bind_ok]
    rw [hsigners _ (by split <;> split <;> rfl) (by split <;> split <;> rfl), Record.bind_ok, hrest, back]
    simp only [enumBack]
    split <;> split <;> rfl

/-- A rule comes back from either format as this. -/
theorem readBack_eq (programPath : Str) (format : EFormat) :
    r.readBack doubleText (new programPath) bTextGuids format = .ok (some (r.back bTextGuids format)) := by
  rw [readBack, Record.readBack_eq _ _ (valid_writeVariant hfits format) (named_writeVariant r bTextGuids format) (hfits.variant format),
    readAll_writeVariant doubleText hfits programPath format, Record.map_ok]

end Read

/-! ## The codec -/

/-- Two rules that are equal, where ids are equal as `Compare` has it. -/
structure Same (a b : CProgramRule) : Prop where
  fields : a = { b with guid := a.guid, enclave := a.enclave }
  guid : a.guid.compare b.guid = .eq
  enclave : a.enclave.compare b.enclave = .eq

/-- A rule comes back from either format, and the same from both. -/
structure Codec (doubleText : Bytes → Str) (r : CProgramRule) (bTextGuids : Bool) : Prop where
  back : ∀ programPath format, ∃ read, r.readBack doubleText (new programPath) bTextGuids format = .ok (some read) ∧ Same read r
  same : ∀ programPath, r.readBack doubleText (new programPath) bTextGuids .eIndex = r.readBack doubleText (new programPath) bTextGuids .eMap

/-- Rules that are kept: with ids of their kind, keywords for what they are, and signers and collections that
are written and not mistaken for each other, or none. -/
structure Kept (r : CProgramRule) (bTextGuids : Bool) : Prop where
  guid : ByVariant bTextGuids r.guid
  enclave : ByVariant bTextGuids r.enclave
  type : Told EExecRuleType.keyword (.of .eUnknown) r.type
  dllMode : Told EExecDllMode.keyword (.of .eDisabled) r.dllMode
  signers : letsRun r.type → ApartInMap r.allowedSignatures r.allowedCollections
  noSigners : ¬ letsRun r.type → r.allowedSignatures = 0 ∧ r.allowedCollections = []

section Codec
variable {doubleText : Bytes → Str} {r : CProgramRule} {bTextGuids : Bool}

theorem signersBack_eq_iff : r.signersBack .eMap = (r.allowedSignatures, r.allowedCollections) ↔
    (letsRun r.type → ApartInMap r.allowedSignatures r.allowedCollections) ∧
      (¬ letsRun r.type → r.allowedSignatures = 0 ∧ r.allowedCollections = []) := by
  rw [signersBack]
  by_cases hrun : letsRun r.type
  · rw [if_pos hrun, apartInMap_iff]
    simp [hrun]
  · rw [if_neg hrun]
    simp [hrun, eq_comm]

theorem Same.of_back {format : EFormat} (h : Same (r.back bTextGuids format) r) (hfits : r.Fits bTextGuids) :
    ByVariant bTextGuids r.guid ∧ ByVariant bTextGuids r.enclave ∧ (r.back bTextGuids format).type = r.type ∧
      (r.back bTextGuids format).dllMode = r.dllMode ∧ r.signersBack format = (r.allowedSignatures, r.allowedCollections) :=
  ⟨(idBack_compare hfits.guid).1 h.guid, (idBack_compare hfits.enclave).1 h.enclave, (congrArg type h.fields :), (congrArg dllMode h.fields :),
    Prod.ext (congrArg allowedSignatures h.fields) (congrArg allowedCollections h.fields)⟩

/-- A rule that is kept comes back with all but the ids literally. -/
theorem Kept.back_eq (h : r.Kept bTextGuids) (format : EFormat) :
    r.back bTextGuids format = { r with toCGenericRule := r.toCGenericRule.back bTextGuids } := by
  have hsigners : r.signersBack format = (r.allowedSignatures, r.allowedCollections) := by
    cases format with
    | eIndex =>
      rw [signersBack]
      split
      · rfl
      · next hrun => rw [(h.noSigners hrun).1, (h.noSigners hrun).2]
    | eMap => exact signersBack_eq_iff.2 ⟨h.signers, h.noSigners⟩
  have htype : enumBack EExecRuleType.keyword (.of .eUnknown) r.type format = r.type := by
    cases format with
    | eIndex => rfl
    | eMap => exact enumBack_eq_iff.2 h.type
  have hdllMode : enumBack EExecDllMode.keyword (.of .eDisabled) r.dllMode format = r.dllMode := by
    cases format with
    | eIndex => rfl
    | eMap => exact enumBack_eq_iff.2 h.dllMode
  rw [CProgramRule.back, hsigners, htype, hdllMode]

/-- The rules that come back. -/
theorem codec_iff_kept (hfits : r.Fits bTextGuids) : Codec doubleText r bTextGuids ↔ r.Kept bTextGuids := by
  have hread := readBack_eq doubleText hfits
  constructor
  · rintro h
    rcases h.back [] .eMap with ⟨read, hback, hsame⟩
    rw [hread] at hback
    cases hback
    rcases hsame.of_back hfits with ⟨hguid, henclave, htype, hdllMode, hsigners⟩
    rcases signersBack_eq_iff.1 hsigners with ⟨hsigners, hnoSigners⟩
    exact ⟨hguid, henclave, enumBack_eq_iff.1 htype, enumBack_eq_iff.1 hdllMode, hsigners, hnoSigners⟩
  · rintro h
    constructor
    case back =>
      refine fun programPath format => ⟨_, hread programPath format, ?_⟩
      rw [h.back_eq format]
      exact ⟨rfl, (idBack_compare hfits.guid).2 h.guid, (idBack_compare hfits.enclave).2 h.enclave⟩
    case same => exact fun programPath => by rw [hread, hread, h.back_eq, h.back_eq]

end Codec

end CProgramRule

end MajorPrivacy.Records

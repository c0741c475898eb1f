/-
`CFirewallRule::ToVariant` and `FromVariant` with the writers and readers of API_FwRule.cpp for both
formats. What both do alike is in one place; they differ in the enumerations and the flags.
-/
import MajorPrivacy.Firewall.FwRule

namespace MajorPrivacy.Firewall

open LittleEndian MajorPrivacy.Variant

/-- `SVarWriteOpt::EFormat`. -/
inductive EFormat
  | eIndex
  | eMap
  deriving DecidableEq

/-- What `Finish` returns after these fields. -/
def finish (fields : List (Field × Value)) : EFormat → Value
  | .eIndex => (varTypeIndex, writeEntries idKey (fields.map fun f => (f.1.toId, f.2)))
  | .eMap => (varTypeMap, writeEntries nameKey (fields.map fun f => (f.1.key, f.2)))

/-! ## Keywords -/

def EFwRuleState.keyword : EFwRuleState → Option String
  | eUnapproved => "Unapproved"
  | eApproved => "Approved"
  | eUnapprovedDisabled => "Disabled"
  | eDiverged => "Diverged"

def EFwRuleSource.keyword : EFwRuleSource → Option String
  | eUnknown => "Unknown"
  | eWindowsDefault => "WindowsDefault"
  | eWindowsStore => "MicrosoftStore"
  | eMajorPrivacy => "MajorPrivacy"
  | eAutoTemplate => "AutoTemplate"

def EFwActions.keyword : EFwActions → Option String
  | undefined => none
  | allow => "Allow"
  | block => "Block"

def EFwDirections.keyword : EFwDirections → Option String
  | unknown => none
  | bidirectional => "Bidirectional"
  | inbound => "Inbound"
  | outbound => "Outbound"

/-- The `switch` that writes a keyword; what has none is not written. -/
def writeKeyword {E : Type} (f : Field) (keyword : E → Option String) : Cast E → List (Field × Value)
  | .value e => (keyword e).toList.map fun s => (f, .ascii (text s))
  | .other _ => []

/-- The comparisons that read a keyword; where none of them holds the value is the default. -/
def readKeyword {E : Type} [Enumeration E] (keyword : E → Option String) (default : Cast E) (s : Bytes) : Cast E :=
  match (Enumeration.values : List E).find? fun e => (keyword e).map text = some s with
  | some e => .value e
  | none => default

/-! ## Flags -/

def profileFlags : List (UInt32 × String) := [(profileDomain, "Domain"), (profilePrivate, "Private"), (profilePublic, "Public")]

def interfaceFlags : List (UInt32 × String) :=
  [(interfaceLan, "Lan"), (interfaceWireless, "Wireless"), (interfaceRemoteAccess, "RemoteAccess")]

/-- The list that is written of some flags. -/
def flagTexts (all : UInt32) (allText : String) (flags : List (UInt32 × String)) (n : UInt32) : List Bytes :=
  if n = all then [text allText] else (flags.filter fun f => n &&& f.1 ≠ 0).map fun f => text f.2

/-- A list that stands for all flags. -/
def isAll (allText : String) : List Bytes → Bool
  | [] => true
  | [s] => s = text allText || s = []
  | _ => false

/-- The loop over a list of flags, which adds to what there is. -/
def readFlags (flags : List (UInt32 × String)) (texts : List Bytes) (n : UInt32) : UInt32 :=
  texts.foldl (fun n s => match flags.find? fun f => text f.2 = s with
    | some f => n ||| f.1
    | none => n) n

def readProfile (texts : List Bytes) : UInt32 := if isAll "All" texts then profileAll else readFlags profileFlags texts 0

/-- Unlike for a profile the loop starts with the flags the rule has. -/
def readInterface (texts : List Bytes) (n : UInt32) : UInt32 := if isAll "Any" texts then 0 else readFlags interfaceFlags texts n

/-! ## ICMP -/

def icmpText (i : IcmpTypeCode) : Bytes :=
  decimal i.type.toNat ++ 0x3A :: (if i.code = 256 then text "*" else decimal i.code.toNat)

def readIcmp (s : Bytes) : IcmpTypeCode :=
  let typeCode := split2 s 0x3A
  { type := .ofInt (atoi typeCode.1)
    code := if typeCode.2 = text "*" then 256 else .ofInt (atoi typeCode.2) }

/-! ## Writing -/

/-- `CProgramID::ToVariant`. -/
def CProgramID.toVariant (id : CProgramID) (format : EFormat) : Value :=
  let type : Value := match format with
    | .eIndex => .uint32 id.type.number
    | .eMap => .ascii (text id.type.toStr)
  let path := if id.type ≠ .eAllPrograms ∧ id.type ≠ .eProgramGroup then [(Field.filePath, Value.str id.filePath)] else []
  let aux := match id.type with
    | .eAppInstallation => [(Field.regKey, Value.str id.auxValue)]
    | .eWindowsService => [(Field.serviceTag, Value.str id.serviceTag)]
    | .eProgramGroup => [(Field.guid, Value.str id.auxValue)]
    | .eAppPackage => [(Field.appSid, Value.str id.auxValue)]
    | _ => []
  finish ((.progType, type) :: (path ++ aux)) format

namespace CFirewallRule

/-- `WriteIVariant`. -/
def writeIVariant (r : CFirewallRule) : List (Field × Value) :=
  [(.guid, .str r.fwRule.guid), (.index, .sint32 r.fwRule.index), (.ruleState, .uint32 r.state.toUInt32),
    (.originalGuid, .str r.originalGuid), (.source, .uint32 r.source.toUInt32), (.templateGuid, .str r.templateGuid),
    (.enabled, .bool r.fwRule.enabled), (.filePath, .str r.binaryPath), (.serviceTag, .str r.fwRule.serviceTag),
    (.appSid, .str r.fwRule.appContainerSid), (.principalSddl, .str r.principalSddl), (.owner, .str r.fwRule.localUserOwner),
    (.appName, .str r.fwRule.packageFamilyName), (.id, r.programID.toVariant .eIndex), (.name, .str r.fwRule.name),
    (.ruleGroup, .str r.fwRule.grouping), (.ruleDescr, .str r.fwRule.description),
    (.fwRuleAction, .uint32 r.fwRule.action.toUInt32), (.fwRuleDirection, .uint32 r.fwRule.direction.toUInt32),
    (.fwRuleProfile, .uint32 r.fwRule.profile), (.fwRuleProtocol, .uint32 r.fwRule.protocol),
    (.fwRuleInterface, .uint32 r.fwRule.interface), (.fwRuleLocalAddr, .strList r.fwRule.localAddresses),
    (.fwRuleLocalPort, .strList r.fwRule.localPorts), (.fwRuleRemoteAddr, .strList r.fwRule.remoteAddresses),
    (.fwRuleRemotePort, .strList r.fwRule.remotePorts), (.fwRuleIcmp, .asciiList (r.fwRule.icmpTypesAndCodes.map icmpText)),
    (.fwRuleOs, .strList r.fwRule.osPlatformValidity), (.fwRuleEdge, .sint32 r.fwRule.edgeTraversal), (.temp, .bool r.bTemporary),
    (.timeout, .uint64 r.uTimeOut), (.ruleHitCount, .sint32 r.hitCount)]

/-- `WriteMVariant`. -/
def writeMVariant (r : CFirewallRule) : List (Field × Value) :=
  ([(.guid, .str r.fwRule.guid), (.index, .sint32 r.fwRule.index)] : List (Field × Value)) ++
  writeKeyword .ruleState EFwRuleState.keyword r.state ++
  ([(.originalGuid, .str r.originalGuid)] : List (Field × Value)) ++
  writeKeyword .source EFwRuleSource.keyword r.source ++
  ([(.templateGuid, .str r.templateGuid), (.enabled, .bool r.fwRule.enabled), (.filePath, .str r.binaryPath),
    (.serviceTag, .str r.fwRule.serviceTag), (.appSid, .str r.fwRule.appContainerSid), (.principalSddl, .str r.principalSddl),
    (.owner, .str r.fwRule.localUserOwner), (.appName, .str r.fwRule.packageFamilyName), (.id, r.programID.toVariant .eMap),
    (.name, .str r.fwRule.name), (.ruleGroup, .str r.fwRule.grouping), (.ruleDescr, .str r.fwRule.description)] : List (Field × Value)) ++
  writeKeyword .fwRuleAction EFwActions.keyword r.fwRule.action ++
  writeKeyword .fwRuleDirection EFwDirections.keyword r.fwRule.direction ++
  ([(.fwRuleProfile, .asciiList (flagTexts profileAll "All" profileFlags r.fwRule.profile)), (.fwRuleProtocol, .uint32 r.fwRule.protocol),
    (.fwRuleInterface, .asciiList (flagTexts interfaceAll "Any" interfaceFlags r.fwRule.interface)),
    (.fwRuleLocalAddr, .strList r.fwRule.localAddresses), (.fwRuleLocalPort, .strList r.fwRule.localPorts),
    (.fwRuleRemoteAddr, .strList r.fwRule.remoteAddresses), (.fwRuleRemotePort, .strList r.fwRule.remotePorts),
    (.fwRuleIcmp, .asciiList (r.fwRule.icmpTypesAndCodes.map icmpText)), (.fwRuleOs, .strList r.fwRule.osPlatformValidity),
    (.fwRuleEdge, .sint32 r.fwRule.edgeTraversal), (.temp, .bool r.bTemporary), (.timeout, .uint64 r.uTimeOut),
    (.ruleHitCount, .sint32 r.hitCount)] : List (Field × Value))

def writeVariant (r : CFirewallRule) : EFormat → List (Field × Value)
  | .eIndex => r.writeIVariant
  | .eMap => r.writeMVariant

/-- `ToVariant`. -/
def toVariant (r : CFirewallRule) (format : EFormat) : Value := finish (r.writeVariant format) format

/-! ## Reading -/

/-- The fields `ReadIValue` and `ReadMValue` read alike. -/
def readShared (p : Platform) (r : CFirewallRule) (data : Value) : Field → Except EResult CFirewallRule
  | .guid => .ok { r with fwRule.guid := asStr p.doubleText data }
  | .index => (toInt32 data).map fun n => { r with fwRule.index := n }
  | .originalGuid => .ok { r with originalGuid := asStr p.doubleText data }
  | .templateGuid => .ok { r with templateGuid := asStr p.doubleText data }
  | .enabled => (toBool data).map fun b => { r with fwRule.enabled := b }
  | .filePath => .ok { r with binaryPath := asStr p.doubleText data }
  | .serviceTag => .ok { r with fwRule.serviceTag := asStr p.doubleText data }
  | .appSid => .ok { r with fwRule.appContainerSid := asStr p.doubleText data }
  | .principalSddl => .ok { r with principalSddl := asStr p.doubleText data }
  | .owner => .ok { r with fwRule.localUserOwner := asStr p.doubleText data }
  | .appName => .ok { r with fwRule.packageFamilyName := asStr p.doubleText data }
  | .name => .ok { r with fwRule.name := asStr p.doubleText data }
  | .ruleGroup => .ok { r with fwRule.grouping := asStr p.doubleText data }
  | .ruleDescr => .ok { r with fwRule.description := asStr p.doubleText data }
  | .fwRuleProtocol => (toUInt32 data).map fun n => { r with fwRule.protocol := n }
  | .fwRuleLocalAddr => (asList toWString data).map fun l => { r with fwRule.localAddresses := l }
  | .fwRuleLocalPort => (asList toWString data).map fun l => { r with fwRule.localPorts := l }
  | .fwRuleRemoteAddr => (asList toWString data).map fun l => { r with fwRule.remoteAddresses := l }
  | .fwRuleRemotePort => (asList toWString data).map fun l => { r with fwRule.remotePorts := l }
  | .fwRuleIcmp => (asList toString data).map fun l =>
    { r with fwRule.icmpTypesAndCodes := r.fwRule.icmpTypesAndCodes ++ l.map readIcmp } -- push_back
  | .fwRuleOs => (asList toWString data).map fun l => { r with fwRule.osPlatformValidity := l }
  | .fwRuleEdge => (toInt32 data).map fun n => { r with fwRule.edgeTraversal := n }
  | .temp => (toBool data).map fun b => { r with bTemporary := b }
  | .timeout => (toUInt64 data).map fun n => { r with uTimeOut := n }
  | .ruleHitCount => (toInt32 data).map fun n => { r with hitCount := n }
  | _ => .ok r -- the program id comes from the fields above

/-- `ReadIValue`. -/
def readIValue (p : Platform) (r : CFirewallRule) (data : Value) : Field → Except EResult CFirewallRule
  | .ruleState => (toUInt32 data).map fun n => { r with state := .ofUInt32 n }
  | .source => (toUInt32 data).map fun n => { r with source := .ofUInt32 n }
  | .fwRuleAction => (toUInt32 data).map fun n => { r with fwRule.action := .ofUInt32 n }
  | .fwRuleDirection => (toUInt32 data).map fun n => { r with fwRule.direction := .ofUInt32 n }
  | .fwRuleProfile => (toUInt32 data).map fun n => { r with fwRule.profile := n }
  | .fwRuleInterface => (toUInt32 data).map fun n => { r with fwRule.interface := n }
  | f => readShared p r data f

/-- `ReadMValue`. -/
def readMValue (p : Platform) (r : CFirewallRule) (data : Value) : Field → Except EResult CFirewallRule
  | .ruleState => (toString data).map fun s => { r with state := readKeyword EFwRuleState.keyword r.state s }
  | .source => (toString data).map fun s => { r with source := readKeyword EFwRuleSource.keyword (.value .eUnknown) s }
  | .fwRuleAction => (toString data).map fun s => { r with fwRule.action := readKeyword EFwActions.keyword r.fwRule.action s }
  | .fwRuleDirection => (toString data).map fun s => { r with fwRule.direction := readKeyword EFwDirections.keyword r.fwRule.direction s }
  | .fwRuleProfile => (asList toString data).map fun l => { r with fwRule.profile := readProfile l }
  | .fwRuleInterface => (asList toString data).map fun l => { r with fwRule.interface := readInterface l r.fwRule.interface }
  | f => readShared p r data f

/-- What the callback of a reader does with an entry. -/
def readEntry (read : CFirewallRule → Value → Field → Except EResult CFirewallRule) (r : CFirewallRule) (f : Option Field)
    (data : Value) : Except EResult CFirewallRule :=
  match f with
  | none => .ok r
  | some f => read r data f

/-- The end of `FromVariant`: the program the rule is for, the path in the rule and the principal. -/
def complete (p : Platform) (r : CFirewallRule) : CFirewallRule :=
  let sid := r.fwRule.appContainerSid
  let appContainerSid := if sid = [] ∧ r.fwRule.packageFamilyName ≠ [] then p.appContainerSidFromName r.fwRule.packageFamilyName else sid
  let programID := CProgramID.fromFw p r.binaryPath r.fwRule.serviceTag appContainerSid
  let path :=
    if programID.type = .eAllPrograms then []
    else if p.isNtOsKrnl r.binaryPath then (text "system").map (·.toUInt16)
    else r.binaryPath
  { r with programID := programID, fwRule.binaryPath := path, fwRule.localUserAuthorizationList := r.principalSddl }

/-- `FromVariant`, which says whether it is a rule at all. -/
def fromVariant (p : Platform) (r : CFirewallRule) (rule : Value) : Except EResult (Bool × CFirewallRule) :=
  let read : Except EResult (Option CFirewallRule) :=
    if rule.1 = varTypeMap then
      let (entries, err) := readRawMap rule.2
      (entries.foldlM (fun r e => readEntry (readMValue p) r (Field.ofName e.1) e.2) r).bind fun r =>
        err.elim (.ok (some r)) .error
    else if rule.1 = varTypeIndex then
      let (entries, err) := readRawIndex rule.2
      (entries.foldlM (fun r e => readEntry (readIValue p) r (Field.ofId (.ofNat e.1)) e.2) r).bind fun r =>
        err.elim (.ok (some r)) .error
    else .ok none
  read.map fun
    | some r => (true, r.complete p)
    | none => (false, r)

/-- A rule goes through a packet into another one. -/
def readBack (p : Platform) (r target : CFirewallRule) (format : EFormat) : Except EResult (Bool × CFirewallRule) :=
  (readPacket (toPacket (r.toVariant format).1 (r.toVariant format).2)).bind fun read => target.fromVariant p (read.1, read.2.1)

end CFirewallRule

end MajorPrivacy.Firewall

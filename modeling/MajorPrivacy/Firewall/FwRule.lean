/-
`CFirewallRule` (FirewallRule.cpp, API_FwRule.cpp): a rule of the firewall as the service holds it, with
the two formats it is written to a variant in. As an index its fields have ids and its enumerations
numbers, as a map they have names and keywords.
-/
import MajorPrivacy.Firewall.Values

namespace MajorPrivacy.Firewall

open LittleEndian MajorPrivacy.Variant

/-! ## Fields -/

/-- The fields of a rule and of a program id in a variant. -/
inductive Field
  | guid | index | ruleState | originalGuid | source | templateGuid | enabled | filePath | serviceTag | appSid
  | principalSddl | owner | appName | id | name | ruleGroup | ruleDescr | fwRuleAction | fwRuleDirection
  | fwRuleProfile | fwRuleProtocol | fwRuleInterface | fwRuleLocalAddr | fwRuleLocalPort | fwRuleRemoteAddr
  | fwRuleRemotePort | fwRuleIcmp | fwRuleOs | fwRuleEdge | temp | timeout | ruleHitCount | progType | regKey
  deriving DecidableEq

namespace Field

/-- `API_V_..`, the four characters of which are in the comment. -/
def toId : Field → UInt32
  | guid => 0x67756964            -- guid
  | index => 0x696E6478           -- indx
  | ruleState => 0x72737465       -- rste
  | originalGuid => 0x6F676964    -- ogid
  | source => 0x737263            -- src
  | templateGuid => 0x74676964    -- tgid
  | enabled => 0x656E626C         -- enbl
  | filePath => 0x66707468        -- fpth
  | serviceTag => 0x737663        -- svc
  | appSid => 0x61736964          -- asid
  | principalSddl => 0x7073646C   -- psdl
  | owner => 0x6F776E72           -- ownr
  | appName => 0x6170706E         -- appn
  | id => 0x6964                  -- id
  | name => 0x6E616D65            -- name
  | ruleGroup => 0x67727570       -- grup
  | ruleDescr => 0x64657363       -- desc
  | fwRuleAction => 0x66776163    -- fwac
  | fwRuleDirection => 0x66776469 -- fwdi
  | fwRuleProfile => 0x66777072   -- fwpr
  | fwRuleProtocol => 0x66777074  -- fwpt
  | fwRuleInterface => 0x66776966 -- fwif
  | fwRuleLocalAddr => 0x66776C61 -- fwla
  | fwRuleLocalPort => 0x66776C70 -- fwlp
  | fwRuleRemoteAddr => 0x66777261 -- fwra
  | fwRuleRemotePort => 0x66777270 -- fwrp
  | fwRuleIcmp => 0x66776963      -- fwic
  | fwRuleOs => 0x66776F73        -- fwos
  | fwRuleEdge => 0x66776564      -- fwed
  | temp => 0x74656D70            -- temp
  | timeout => 0x746D6F74         -- tmot
  | ruleHitCount => 0x72686374    -- rhct
  | progType => 0x70747970        -- ptyp
  | regKey => 0x726B6579          -- rkey

/-- `API_S_..`. -/
def toName : Field → String
  | guid => "Guid"
  | index => "Index"
  | ruleState => "RuleState"
  | originalGuid => "OriginalGuid"
  | source => "Source"
  | templateGuid => "TemplateGuid"
  | enabled => "Enabled"
  | filePath => "FilePath"
  | serviceTag => "ServiceTag"
  | appSid => "AppSID"
  | principalSddl => "PrincipalSDDL"
  | owner => "Owner"
  | appName => "AppName"
  | id => "ID"
  | name => "Name"
  | ruleGroup => "Group"
  | ruleDescr => "Description"
  | fwRuleAction => "FwAction"
  | fwRuleDirection => "Direction"
  | fwRuleProfile => "FwProfile"
  | fwRuleProtocol => "Protocol"
  | fwRuleInterface => "Interface"
  | fwRuleLocalAddr => "LocalAddr"
  | fwRuleLocalPort => "LocalPort"
  | fwRuleRemoteAddr => "RemoteAddr"
  | fwRuleRemotePort => "RemotePort"
  | fwRuleIcmp => "Icmp"
  | fwRuleOs => "Os"
  | fwRuleEdge => "Edge"
  | temp => "Temporary"
  | timeout => "TimeOut"
  | ruleHitCount => "HitCount"
  | progType => "Type"
  | regKey => "RegKey"

def key (f : Field) : Bytes := text f.toName

def all : List Field :=
  [guid, index, ruleState, originalGuid, source, templateGuid, enabled, filePath, serviceTag, appSid, principalSddl, owner, appName,
    id, name, ruleGroup, ruleDescr, fwRuleAction, fwRuleDirection, fwRuleProfile, fwRuleProtocol, fwRuleInterface, fwRuleLocalAddr,
    fwRuleLocalPort, fwRuleRemoteAddr, fwRuleRemotePort, fwRuleIcmp, fwRuleOs, fwRuleEdge, temp, timeout, ruleHitCount, progType, regKey]

def ofId (id : UInt32) : Option Field := all.find? (·.toId = id)

/-- `VAR_TEST_NAME` for one field after the other. -/
def ofName (name : Bytes) : Option Field := all.find? (·.key = name)

theorem mem_all (f : Field) : f ∈ all := by cases f <;> decide

theorem all_known : ∀ f ∈ all, ofId f.toId = some f ∧ ofName f.key = some f ∧ f.key.length < 256 := by
  decide +kernel

theorem ofId_toId (f : Field) : ofId f.toId = some f := (all_known f (mem_all f)).1

theorem ofName_key (f : Field) : ofName f.key = some f := (all_known f (mem_all f)).2.1

theorem length_key (f : Field) : f.key.length < 256 := (all_known f (mem_all f)).2.2

end Field

/-! ## Enumerations -/

/-- A number that was cast to an enumeration, which does not have to be one of its values. -/
inductive Cast (E : Type)
  | value (e : E)
  | other (n : UInt32)
  deriving DecidableEq

/-- An enumeration: its values with their numbers. -/
class Enumeration (E : Type) where
  values : List E
  number : E → UInt32
  number_inj : ∀ a ∈ values, ∀ b ∈ values, number a = number b → a = b
  mem_values : ∀ e, e ∈ values

namespace Cast
variable {E : Type} [Enumeration E]

/-- The cast from a number. -/
def ofUInt32 (n : UInt32) : Cast E :=
  match (Enumeration.values : List E).find? (Enumeration.number · = n) with
  | some e => .value e
  | none => .other n

/-- The cast to a number. -/
def toUInt32 : Cast E → UInt32
  | value e => Enumeration.number e
  | other n => n

theorem ofUInt32_number (e : E) : (ofUInt32 (Enumeration.number e) : Cast E) = value e := by
  rcases h : (Enumeration.values : List E).find? (Enumeration.number · = Enumeration.number e) with _ | a
  · have hnone := List.find?_eq_none.1 h e (Enumeration.mem_values e)
    simp at hnone
  · have heq : Enumeration.number a = Enumeration.number e := by simpa using List.find?_some h
    rw [ofUInt32, h, Enumeration.number_inj a (List.mem_of_find?_eq_some h) e (Enumeration.mem_values e) heq]

end Cast

inductive EFwRuleState
  | eUnapproved | eUnapprovedDisabled | eDiverged | eApproved
  deriving DecidableEq

instance : Enumeration EFwRuleState where
  values := [.eUnapproved, .eUnapprovedDisabled, .eDiverged, .eApproved]
  number
    | .eUnapproved => 0
    | .eUnapprovedDisabled => 1
    | .eDiverged => 2
    | .eApproved => 3
  number_inj := by decide
  mem_values := by rintro (_ | _ | _ | _) <;> decide

inductive EFwRuleSource
  | eUnknown | eWindowsDefault | eWindowsStore | eMajorPrivacy | eAutoTemplate
  deriving DecidableEq

instance : Enumeration EFwRuleSource where
  values := [.eUnknown, .eWindowsDefault, .eWindowsStore, .eMajorPrivacy, .eAutoTemplate]
  number
    | .eUnknown => 0
    | .eWindowsDefault => 1
    | .eWindowsStore => 2
    | .eMajorPrivacy => 3
    | .eAutoTemplate => 4
  number_inj := by decide
  mem_values := by rintro (_ | _ | _ | _ | _) <;> decide

inductive EFwActions
  | undefined | allow | block
  deriving DecidableEq

instance : Enumeration EFwActions where
  values := [.undefined, .allow, .block]
  number
    | .undefined => 0
    | .allow => 1
    | .block => 2
  number_inj := by decide
  mem_values := by rintro (_ | _ | _) <;> decide

inductive EFwDirections
  | unknown | outbound | inbound | bidirectional
  deriving DecidableEq

instance : Enumeration EFwDirections where
  values := [.unknown, .outbound, .inbound, .bidirectional]
  number
    | .unknown => 0
    | .outbound => 1
    | .inbound => 2
    | .bidirectional => 3
  number_inj := by decide
  mem_values := by rintro (_ | _ | _ | _) <;> decide

/-! ### Flags -/

/-- `EFwProfiles`. -/
def profileDomain : UInt32 := 1
def profilePrivate : UInt32 := 2
def profilePublic : UInt32 := 4
def profileAll : UInt32 := 0x7FFFFFFF

/-- `EFwInterfaces`. -/
def interfaceAll : UInt32 := 0
def interfaceLan : UInt32 := 1
def interfaceWireless : UInt32 := 2
def interfaceRemoteAccess : UInt32 := 4

/-! ## Program ids -/

inductive EProgramType
  | eUnknown | eProgramFile | eFilePattern | eAppInstallation | eWindowsService | eAppPackage | eProgramSet | eProgramList
  | eProgramGroup | eAllPrograms | eProgramRoot
  deriving DecidableEq

/-- The number of a type, which is made of characters too. -/
def EProgramType.number : EProgramType → UInt32
  | eUnknown => 0
  | eProgramFile => 0x657865        -- exe
  | eFilePattern => 0x706174        -- pat
  | eAppInstallation => 0x696E7374  -- inst
  | eWindowsService => 0x737663     -- svc
  | eAppPackage => 0x617070         -- app
  | eProgramSet => 0x736574         -- set
  | eProgramList => 0x6C697374      -- list
  | eProgramGroup => 0x677270       -- grp
  | eAllPrograms => 0x616C6C        -- all
  | eProgramRoot => 0x726F6F74      -- root

/-- `TypeToStr`. -/
def EProgramType.toStr : EProgramType → String
  | eProgramFile => "File"
  | eFilePattern => "Pattern"
  | eAppInstallation => "Install"
  | eWindowsService => "Service"
  | eAppPackage => "Package"
  | eProgramGroup => "Group"
  | eAllPrograms => "All"
  | eProgramRoot => "Root"
  | _ => ""

structure CProgramID where
  type : EProgramType
  filePath : Str
  serviceTag : Str
  auxValue : Str
  deriving DecidableEq

/-- What the rules use of the system and of other parts of the service. -/
structure Platform where
  normalizePath : Str → Str
  mkLower : Str → Str
  /-- `GetAppContainerSidFromName`. -/
  appContainerSidFromName : Str → Str
  isNtOsKrnl : Str → Bool
  /-- `std::to_wstring` of a floating-point number. -/
  doubleText : Bytes → Str

namespace CProgramID

/-- `FromFw`. -/
def fromFw (p : Platform) (filePath serviceTag appContainerSid : Str) : CProgramID :=
  { type :=
      if appContainerSid ≠ [] then .eAppPackage
      else if serviceTag ≠ [] then .eWindowsService
      else if filePath = [] ∨ filePath.head? = some 0x2A then .eAllPrograms
      else if ∃ c ∈ filePath, c ∈ [0x2A, 0x3F, 0x3C, 0x3E, 0x7C] then .eFilePattern
      else .eProgramFile
    filePath := p.normalizePath filePath
    serviceTag := p.mkLower serviceTag
    auxValue := p.mkLower appContainerSid }

end CProgramID

/-! ## Rules -/

structure IcmpTypeCode where
  type : UInt8
  code : UInt16 -- 256 for any
  deriving DecidableEq

/-- `SWindowsFwRule`; an `int` of flags is kept as its 32 bits. -/
structure SWindowsFwRule where
  guid : Str
  index : Int32
  binaryPath : Str
  serviceTag : Str
  appContainerSid : Str
  localUserAuthorizationList : Str
  localUserOwner : Str
  packageFamilyName : Str
  name : Str
  grouping : Str
  description : Str
  enabled : Bool
  action : Cast EFwActions
  direction : Cast EFwDirections
  profile : UInt32
  protocol : UInt32
  interface : UInt32
  localAddresses : List Str
  localPorts : List Str
  remoteAddresses : List Str
  remotePorts : List Str
  icmpTypesAndCodes : List IcmpTypeCode
  osPlatformValidity : List Str
  edgeTraversal : Int32
  deriving DecidableEq

def SWindowsFwRule.new : SWindowsFwRule :=
  { guid := [], index := 0, binaryPath := [], serviceTag := [], appContainerSid := [], localUserAuthorizationList := []
    localUserOwner := [], packageFamilyName := [], name := [], grouping := [], description := [], enabled := false
    action := .value .undefined, direction := .value .unknown, profile := profileAll, protocol := 256, interface := interfaceAll
    localAddresses := [], localPorts := [], remoteAddresses := [], remotePorts := [], icmpTypesAndCodes := []
    osPlatformValidity := [], edgeTraversal := 0 }

structure CFirewallRule where
  fwRule : SWindowsFwRule
  programID : CProgramID
  binaryPath : Str
  principalSddl : Str
  state : Cast EFwRuleState
  originalGuid : Str
  source : Cast EFwRuleSource
  templateGuid : Str
  bTemporary : Bool
  uTimeOut : UInt64
  hitCount : Int32
  deriving DecidableEq

def CFirewallRule.new : CFirewallRule :=
  { fwRule := .new, programID := ⟨.eUnknown, [], [], []⟩, binaryPath := [], principalSddl := [], state := .value .eUnapproved
    originalGuid := [], source := .value .eUnknown, templateGuid := [], bTemporary := false, uTimeOut := -1, hitCount := 0 }

def CFirewallRule.isBackup (rule : CFirewallRule) : Bool := rule.originalGuid ≠ []

end MajorPrivacy.Firewall

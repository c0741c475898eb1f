/-
The entries of `CDnsFilter` and its block lists (DnsFilter.cpp). A list that was downloaded is a file
of hosts: names with an address go to the block list, all others become temporary rules. What the
system gives is a parameter: the ids it makes, addresses as it reads them, and the files.
-/
import MajorPrivacy.Dns.DnsFilter

namespace MajorPrivacy.Dns

open LittleEndian MajorPrivacy.Path MajorPrivacy.Guid

structure DnsEnv where
  /-- `MkGuid`, by how often it was called before. -/
  mkGuid : Nat → Str
  inet_pton4 : Bytes → Option Bytes
  inet_pton6 : Bytes → Option Bytes
  GetFileNameFromUrl : Str → Str

/-- The lines of the files that exist. -/
abbrev HostsFiles := Str → Option (List Bytes)

/-! ## Rules as variants -/

inductive RuleField
  | guid (data : Variant.Content)
  | enabled (value : Bool)
  | temp (value : Bool)
  | dnsHost (value : Bytes)
  | dnsRuleAction (value : EAction)
  | hitCount (value : Int)

/-- A variant that may hold a rule: whether it is a map or an index, the text of its id and the
fields as they are read, in their order. -/
structure RuleRecord where
  isRecord : Bool
  guidText : Str
  fields : List RuleField

def CDnsRule.new : CDnsRule := ⟨[], .new, true, false, [], .eNone, 0⟩

/-- `ReadMValue` and `ReadIValue`. -/
def CDnsRule.readValue (rule : CDnsRule) : RuleField → CDnsRule
  | .guid data => { rule with m_Guid := rule.m_Guid.fromVariant data }
  | .enabled value => { rule with m_bEnabled := value }
  | .temp value => { rule with m_bTemporary := value }
  | .dnsHost value => { rule with m_HostName := value }
  | .dnsRuleAction value => { rule with m_Action := value }
  | .hitCount value => { rule with m_HitCount := value }

/-- `CDnsRule::FromVariant`. -/
def CDnsRule.fromVariant (rule : CDnsRule) (record : RuleRecord) : Option CDnsRule :=
  if record.isRecord then
    let rule := record.fields.foldl readValue rule
    some { rule with m_Path := reversePath (cName rule.m_HostName) }
  else none

/-- A rule for a line of a list. -/
def CDnsRule.ofList (path : Str) (action : EAction) (bTemporary : Bool) : CDnsRule :=
  { new with m_Path := path, m_Action := action, m_bTemporary := bTemporary }

/-! ## The map of entries -/

/-- `m_EntryMap.Insert` that does not replace. -/
def mapInsert (m : List (CFlexGuid × RulePtr)) (guid : CFlexGuid) (pEntry : RulePtr) : Option (List (CFlexGuid × RulePtr)) :=
  if m.any (·.1.compare guid = .eq) then none else some (m ++ [(guid, pEntry)])

def mapFindValue (m : List (CFlexGuid × RulePtr)) (guid : CFlexGuid) : Option RulePtr :=
  (m.find? (·.1.compare guid = .eq)).map (·.2)

def mapRemove (m : List (CFlexGuid × RulePtr)) (guid : CFlexGuid) : List (CFlexGuid × RulePtr) :=
  m.eraseP (·.1.compare guid = .eq)

namespace CDnsFilter

/-- The rules as the entries of the tree. -/
abbrev pathEntry (f : CDnsFilter) : PathEntry RulePtr := ⟨fun p => (f.m_MemPool p).m_Path⟩

/-- `m_MemPool.New<CDnsRule>`; the object is at the number that was free. -/
def newRule (f : CDnsFilter) (rule : CDnsRule) : CDnsFilter :=
  { f with m_MemPool := fun p => if p = f.allocated then rule else f.m_MemPool p, allocated := f.allocated + 1 }

def setRule (f : CDnsFilter) (pEntry : RulePtr) (rule : CDnsRule) : CDnsFilter :=
  { f with m_MemPool := fun p => if p = pEntry then rule else f.m_MemPool p }

/-- `m_FilterTree.AddEntry`, with its result. -/
def treeAdd (f : CDnsFilter) (pEntry : RulePtr) : CDnsFilter × Int :=
  let (tree, code) := @CPathTree.addEntry RulePtr f.pathEntry f.m_FilterTree pEntry
  ({ f with m_FilterTree := tree }, code)

/-- `m_FilterTree.RemoveEntry`. -/
def treeRemove (f : CDnsFilter) (pEntry : RulePtr) : CDnsFilter :=
  { f with m_FilterTree := (@CPathTree.removeEntry RulePtr _ f.pathEntry f.m_FilterTree pEntry).1 }

/-- `m_FilterTree.Clear`, which leaves the number of entries. -/
def treeClear (f : CDnsFilter) : CDnsFilter :=
  { f with m_FilterTree := { f.m_FilterTree with root := .empty f.m_FilterTree.root.name } }

/-- `AddEntry_NoLock`; no caller asks for its result. -/
def addEntry_NoLock (env : DnsEnv) (f : CDnsFilter) (pEntry : RulePtr) : CDnsFilter :=
  let rule := f.m_MemPool pEntry
  if rule.m_Guid.value = .null ∧ rule.m_bTemporary = false then f
  else
    let (Guid, f) :=
      if rule.m_Guid.value = .null then (rule.m_Guid.fromWString (env.mkGuid f.made), { f with made := f.made + 1 })
      else (rule.m_Guid, f)
    match mapInsert f.m_EntryMap Guid pEntry with
    | none => f
    | some m =>
      let f := { f with m_EntryMap := m }
      if rule.m_bEnabled then (f.treeAdd pEntry).1 else f

/-! ## The user's rules -/

/-- `LoadEntries`. -/
def loadEntries (env : DnsEnv) (f : CDnsFilter) (entries : List RuleRecord) : CDnsFilter :=
  let f := { f.treeClear with m_EntryMap := [] }
  entries.foldl (fun f record =>
    match CDnsRule.new.fromVariant record with
    | none => f
    | some rule => (f.newRule rule).addEntry_NoLock env f.allocated) f

inductive SetEntryError
  | objectNameCollision
  | unknownRevision
  | internalError

/-- The end of `SetEntry`, for a rule that is in the map and not in the tree. -/
def updateEntry (f : CDnsFilter) (Guid : CFlexGuid) (pEntry : RulePtr) (record : RuleRecord) :
    CDnsFilter × Except SetEntryError CFlexGuid :=
  match (f.m_MemPool pEntry).fromVariant record with
  | none => (f, .error .unknownRevision)
  | some rule =>
    let f := f.setRule pEntry rule
    if rule.m_bEnabled then
      let (f, code) := f.treeAdd pEntry
      (f, if code ≠ 0 then .error .internalError else .ok Guid)
    else (f, .ok Guid)

/-- `SetEntry`. -/
def setEntry (env : DnsEnv) (f : CDnsFilter) (record : RuleRecord) : CDnsFilter × Except SetEntryError CFlexGuid :=
  let Guid := CFlexGuid.new.fromWString record.guidText
  let (Guid, pEntry, f) :=
    if Guid.value = .null then (Guid.fromWString (env.mkGuid f.made), none, { f with made := f.made + 1 })
    else (Guid, mapFindValue f.m_EntryMap Guid, f)
  match pEntry with
  | none =>
    let pEntry := f.allocated
    let f := f.newRule { CDnsRule.new with m_Guid := CFlexGuid.new.assign Guid }
    match mapInsert f.m_EntryMap Guid pEntry with
    | none => (f, .error .objectNameCollision)
    | some m => updateEntry { f with m_EntryMap := m } Guid pEntry record
  | some pEntry => updateEntry (f.treeRemove pEntry) Guid pEntry record

/-- `DelEntry`, and whether there was one. -/
def delEntry (f : CDnsFilter) (EntryId : Str) : CDnsFilter × Bool :=
  let Guid := CFlexGuid.new.fromWString EntryId
  match mapFindValue f.m_EntryMap Guid with
  | none => (f, false)
  | some pEntry => (({ f with m_EntryMap := mapRemove f.m_EntryMap Guid } : CDnsFilter).treeRemove pEntry, true)

end CDnsFilter

/-! ## LoadFilters_NoLock -/

/-- `isspace`. -/
def isSpace (c : UInt8) : Bool := c = 0x20 || 9 ≤ c && c ≤ 13

/-- The words that `>>` reads from a line, one after the other. -/
def words (line : Bytes) : List Bytes := (line.splitOnP isSpace).filter (· ≠ [])

def hash : UInt8 := 0x23

/-- The characters `*?<>|`, with which a name is not kept on the block list. -/
def isWildByte (c : UInt8) : Bool := c = 0x2A || c = 0x3F || c = 0x3C || c = 0x3E || c = 0x7C

/-- What a line begins with: an address with its type, or nothing of the kind. -/
def readAddress (env : DnsEnv) (sAddress : Bytes) : UInt16 × Bytes :=
  if 0x3A ∈ sAddress then
    match env.inet_pton6 sAddress with
    | some a6 => (Type.AAAA, a6)
    | none => (Type.None, [])
  else
    match env.inet_pton4 sAddress with
    | some a => (Type.A, a)
    | none => (Type.None, [])

namespace CDnsFilter

/-- One host name of a line. -/
def loadHost (env : DnsEnv) (Action : EAction) (EntryType : UInt16) (IpAddress : Bytes) (f : CDnsFilter)
    (HostName : Bytes) : CDnsFilter :=
  if EntryType ≠ Type.None ∧ HostName.all (fun c => !isWildByte c) = true then
    { f with m_BlockList := f.m_BlockList ++ [(⟨HostName, EntryType⟩, IpAddress)] }
  else
    (f.newRule (.ofList (reversePath (cName HostName)) Action true)).addEntry_NoLock env f.allocated

/-- The host names of a line up to a comment, and how many they are. -/
def loadHosts (env : DnsEnv) (Action : EAction) (EntryType : UInt16) (IpAddress : Bytes) :
    List Bytes → CDnsFilter × Int → CDnsFilter × Int
  | [], s => s
  | HostName :: names, (f, Count) =>
    if HostName.head? = some hash then (f, Count)
    else loadHosts env Action EntryType IpAddress names (f.loadHost env Action EntryType IpAddress HostName, Count + 1)

/-- One line of a file. -/
def loadLine (env : DnsEnv) (Action : EAction) (s : CDnsFilter × Int) (sLine : Bytes) : CDnsFilter × Int :=
  match words sLine with
  | [] => s
  | sAddress :: names =>
    if sAddress.head? = some hash then s
    else
      let (EntryType, IpAddress) := readAddress env sAddress
      -- without an address the line is a list of names only
      loadHosts env Action EntryType IpAddress (if EntryType = Type.None then sAddress :: names else names) s

/-- `LoadFilters_NoLock` with `m_BlockList` for its map. -/
def loadFilters_NoLock (env : DnsEnv) (Action : EAction) (f : CDnsFilter) (lines : List Bytes) : CDnsFilter × Int :=
  lines.foldl (loadLine env Action) (f, 0)

/-! ## LoadBlockLists -/

/-- The rules that spilled over from the lists, and all others without an id, leave the tree. -/
def clearSpilled (f : CDnsFilter) : CDnsFilter :=
  f.m_EntryMap.foldl (fun f' entry =>
    if (f.m_MemPool entry.2).m_Guid.value = .null then f'.treeRemove entry.2 else f') f

/-- The lists one after the other, each with its new count. -/
def loadLists (env : DnsEnv) (files : HostsFiles) : List (Str × SBLockList) → CDnsFilter →
    CDnsFilter × List (Str × SBLockList)
  | [], f => (f, [])
  | (sBlockListFile, list) :: lists, f =>
    match if sBlockListFile = [] then none else files sBlockListFile with
    | none =>
      let (f, lists) := loadLists env files lists f
      (f, (sBlockListFile, list) :: lists)
    | some lines =>
      let (f, Count) := f.loadFilters_NoLock env .eBlock lines
      let (f, lists) := loadLists env files lists f
      (f, (sBlockListFile, { list with Count := Count }) :: lists)

/-- `LoadBlockLists`. -/
def loadBlockLists (env : DnsEnv) (files : HostsFiles) (f : CDnsFilter) : CDnsFilter :=
  let f := f.clearSpilled
  let (f, lists) := loadLists env files f.m_BlockLists { f with m_BlockList := [] }
  { f with m_BlockLists := lists }

/-- `emplace` on the lists, which are in the order of their files. -/
def emplaceList (lists : List (Str × SBLockList)) (file : Str) (list : SBLockList) : List (Str × SBLockList) :=
  if lists.any (·.1 = file) then lists
  else lists.takeWhile (·.1 < file) ++ (file, list) :: lists.dropWhile (·.1 < file)

/-- The lists of the configuration; one that was there keeps what is known of it. -/
def configuredLists (env : DnsEnv) (old : List (Str × SBLockList)) (urls : List Str) : List (Str × SBLockList) :=
  let lists := urls.foldl (fun lists url => emplaceList lists (env.GetFileNameFromUrl url) ⟨url, 0⟩) old
  lists.filter fun list => urls.any (env.GetFileNameFromUrl · = list.1)

/-- `UpdateBlockLists`; what it downloads is there for a later call of `LoadBlockLists`. -/
def updateBlockLists (env : DnsEnv) (files : HostsFiles) (f : CDnsFilter) (urls : List Str) : CDnsFilter :=
  ({ f with m_BlockLists := configuredLists env f.m_BlockLists urls } : CDnsFilter).loadBlockLists env files

/-! ## Histories -/

/-- `CDnsFilter::CDnsFilter`. -/
def new : CDnsFilter := ⟨fun _ => .new, 0, 0, .new 0x2E true, [], [], []⟩

inductive FilterCall
  | handlePacket (packet : Packet)
  | loadEntries (entries : List RuleRecord)
  | setEntry (record : RuleRecord)
  | delEntry (EntryId : Str)
  | updateBlockLists (files : HostsFiles) (urls : List Str)
  | loadBlockLists (files : HostsFiles)

def step (env : DnsEnv) (f : CDnsFilter) : FilterCall → CDnsFilter
  | .handlePacket packet => (f.handlePacket packet).1
  | .loadEntries entries => f.loadEntries env entries
  | .setEntry record => (f.setEntry env record).1
  | .delEntry EntryId => (f.delEntry EntryId).1
  | .updateBlockLists files urls => f.updateBlockLists env files urls
  | .loadBlockLists files => f.loadBlockLists env files

def run (env : DnsEnv) (f : CDnsFilter) (calls : List FilterCall) : CDnsFilter := calls.foldl (step env) f

end CDnsFilter

end MajorPrivacy.Dns

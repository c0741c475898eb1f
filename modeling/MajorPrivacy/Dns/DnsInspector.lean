/-
`CDnsInspector` (DnsInspector.cpp): what the service knows of resolved names, by host name, and for
each entry by its address or, without one, by the name it resolves to. The entries are objects that
the three maps point to. Calls come one after the other.
-/
import MajorPrivacy.Dns.DnsFilter
import MajorPrivacy.Firewall.LanAddresses

namespace MajorPrivacy.Dns

open LittleEndian MajorPrivacy.Path
open MajorPrivacy.Firewall (CAddress EAF)

/-! ## Entries -/

inductive EStatus
  | eNone
  | eCached
  | eAllowed
  | eBlocked
  deriving DecidableEq

structure CDnsCacheEntry where
  m_HostName : Str
  m_Type : UInt16
  m_Address : CAddress
  m_ResolvedString : Str
  m_Status : EStatus
  m_TTL : Int64
  m_QueryCounter : UInt32
  m_RemoveTimeStamp : UInt64

namespace CDnsCacheEntry

def new (HostName : Str) (type : UInt16) (Address : CAddress) (ResolvedString : Str) (Status : EStatus) : CDnsCacheEntry :=
  ⟨HostName, type, Address, ResolvedString, Status, 0, 0, 0⟩

def getDeadTime (e : CDnsCacheEntry) : UInt64 := if e.m_TTL < 0 then (-e.m_TTL).toUInt64 else 0

/-- `SetTTL`. -/
def setTTL (e : CDnsCacheEntry) (TTL : UInt64) : CDnsCacheEntry :=
  let e := if e.m_TTL ≤ 0 then { e with m_RemoveTimeStamp := 0, m_QueryCounter := e.m_QueryCounter + 1 } else e
  { e with m_TTL := TTL.toInt64 }

/-- `SubtractTTL`. -/
def subtractTTL (e : CDnsCacheEntry) (Delta : UInt64) (bKill : Bool) : CDnsCacheEntry :=
  let TTL := if bKill ∧ e.m_TTL > 0 then 0 else e.m_TTL
  { e with m_TTL := TTL - Delta.toInt64 }

def isMarkedForRemoval (e : CDnsCacheEntry) : Bool := e.m_RemoveTimeStamp ≠ 0

/-- `CanBeRemoved`, at a time and with `m_PersistenceTime`. -/
def canBeRemoved (e : CDnsCacheEntry) (CurTick PersistenceTime : UInt64) : Bool :=
  e.isMarkedForRemoval && PersistenceTime < CurTick - e.m_RemoveTimeStamp

end CDnsCacheEntry

/-- A `CDnsCacheEntryPtr`. -/
abbrev EntryPtr := Nat

/-- What the operators of `CAddress` compare: keys of which none is less than the other are one key. -/
abbrev AddressKey := EAF × Bytes

def addressKey (a : CAddress) : AddressKey := (a.eAF, a.ip.take (if a.eAF = .inet6 then 16 else 4))

structure CDnsInspector where
  /-- The objects; the numbers from `allocated` on are free. -/
  entries : EntryPtr → CDnsCacheEntry
  allocated : Nat
  m_DnsCache : List (Str × EntryPtr)
  m_AddressCache : List (AddressKey × EntryPtr)
  m_RedirectionCache : List (Str × EntryPtr)
  m_LastCacheTraverse : UInt64

/-! ## Look-ups -/

def isAddressType (type : UInt16) : Bool := type = Type.A || type = Type.AAAA

namespace CDnsInspector

/-- `FindDnsEntry` on `m_DnsCache` or a copy of it: by the address for a type that has one, whatever
the type of the entry, and else by type and name. -/
def findDnsEntry (s : CDnsInspector) (cache : List (Str × EntryPtr)) (HostName : Str) (type : UInt16) (Address : CAddress)
    (ResolvedString : Str) : Option (Str × EntryPtr) :=
  cache.find? fun I =>
    if isAddressType type then I.1 = HostName ∧ addressKey (s.entries I.2).m_Address = addressKey Address
    else I.1 = HostName ∧ (s.entries I.2).m_Type = type ∧ (s.entries I.2).m_ResolvedString = ResolvedString

end CDnsInspector

def joinStr (separator : Str) (list : List Str) : Str :=
  list.foldl (fun str next => (if str = [] then str else str ++ separator) ++ next) []

/-- The digits of an IPv6 address in groups of four, from the last to the first. -/
def addressGroups : List Str → List Str
  | a :: b :: c :: d :: rest => addressGroups rest ++ [d ++ c ++ b ++ a]
  | _ => []

def ip6Label : Str := [0x69, 0x70, 0x36]
def arpaLabel : Str := [0x61, 0x72, 0x70, 0x61]
def inAddrLabel : Str := [0x69, 0x6E, 0x2D, 0x61, 0x64, 0x64, 0x72]

/-- `RevDnsHost2Address`. -/
def revDnsHost2Address (HostName : Str) : CAddress :=
  let HostStr := HostName.splitOn 0x2E
  if 32 + 2 ≤ HostStr.length ∧ HostStr.getD 32 [] = ip6Label ∧ HostStr.getD 33 [] = arpaLabel then
    .fromWString (joinStr [0x3A] (addressGroups (HostStr.take 32)))
  else if 4 + 2 ≤ HostStr.length ∧ HostStr.getD 4 [] = inAddrLabel ∧ HostStr.getD 5 [] = arpaLabel then
    .fromWString (joinStr [0x2E] (HostStr.reverse.drop 2))
  else .new .unspec

namespace CDnsInspector

/-! ## Changes -/

/-- A new entry in the maps. -/
def insertEntry (s : CDnsInspector) (entry : CDnsCacheEntry) : CDnsInspector :=
  let pEntry := s.allocated
  { s with
    entries := fun p => if p = pEntry then entry else s.entries p
    allocated := s.allocated + 1
    m_DnsCache := s.m_DnsCache ++ [(entry.m_HostName, pEntry)]
    m_AddressCache := if entry.m_Address.isNull then s.m_AddressCache
      else s.m_AddressCache ++ [(addressKey entry.m_Address, pEntry)]
    m_RedirectionCache := if entry.m_Address.isNull then s.m_RedirectionCache ++ [(entry.m_ResolvedString, pEntry)]
      else s.m_RedirectionCache }

def modifyEntry (s : CDnsInspector) (pEntry : EntryPtr) (change : CDnsCacheEntry → CDnsCacheEntry) : CDnsInspector :=
  { s with entries := fun p => if p = pEntry then change (s.entries p) else s.entries p }

/-- An entry leaves the maps; `mmap_erase` takes off the pair of a key and a pointer. -/
def removeEntry (s : CDnsInspector) (I : Str × EntryPtr) : CDnsInspector :=
  let entry := s.entries I.2
  { s with
    m_DnsCache := s.m_DnsCache.erase I
    m_AddressCache := if entry.m_Address.isNull then s.m_AddressCache
      else s.m_AddressCache.erase (addressKey entry.m_Address, I.2)
    m_RedirectionCache := if entry.m_Address.isNull then s.m_RedirectionCache.erase (entry.m_ResolvedString, I.2)
      else s.m_RedirectionCache }

/-! ## OnEtwDnsEvent -/

/-- One address of the event. -/
def onEtwAddress (HostName : Str) (s : CDnsInspector) (Address : CAddress) : CDnsInspector :=
  if Address.isNull ∨ Address.isLocalHost then s
  else
    let type := if Address.eAF = .inet then Type.A else Type.AAAA
    match s.findDnsEntry s.m_DnsCache HostName type Address Address.toWString with
    | some _ => s
    | none => s.insertEntry (.new HostName type Address Address.toWString .eNone)

/-- `OnEtwDnsEvent`, under the setting `MonitorDnsCache`. -/
def onEtwDnsEvent (s : CDnsInspector) (MonitorDnsCache : Bool) (HostName : Str) (Results : List CAddress) : CDnsInspector :=
  if MonitorDnsCache then s else Results.foldl (onEtwAddress HostName) s

end CDnsInspector

/-! ## OnDnsFilterEvent -/

structure SDnsFilterEvent where
  HostName : Str
  Action : EAction
  ResolvedString : Str
  Address : CAddress
  type : UInt16
  TTL : Int32

/-- The address and the text that the event is about, unless it is passed over. -/
def SDnsFilterEvent.resolve (event : SDnsFilterEvent) : Option (CAddress × Str) :=
  if isAddressType event.type then
    if event.Address.isLocalHost then none else some (event.Address, event.Address.toWString)
  else if event.type = Type.PTR then
    let Address := revDnsHost2Address event.HostName
    if Address.isNull then none else some (Address, event.ResolvedString)
  else if event.type = Type.CNAME ∨ event.type = Type.SRV ∨ event.type = Type.MX then some (.new .unspec, event.ResolvedString)
  else none

def EAction.status : EAction → EStatus
  | .eNone => .eNone
  | .eBlock => .eBlocked
  | .eAllow => .eAllowed

namespace CDnsInspector

/-- `OnDnsFilterEvent`. -/
def onDnsFilterEvent (s : CDnsInspector) (event : SDnsFilterEvent) : CDnsInspector :=
  match event.resolve with
  | none => s
  | some (Address, ResolvedString) =>
    let TTL := (event.TTL * 1000).toInt64.toUInt64
    match s.findDnsEntry s.m_DnsCache event.HostName event.type Address ResolvedString with
    | none => (s.insertEntry (.new event.HostName event.type Address ResolvedString event.Action.status)).modifyEntry
        s.allocated (·.setTTL TTL)
    | some I => s.modifyEntry I.2 (·.setTTL TTL)

end CDnsInspector

/-! ## Update -/

/-- The data of a `DNS_RECORD`, with its type. -/
inductive RecordData
  | a (IpAddress : Bytes)
  | aaaa (IP6Byte : Bytes)
  | ptr (pNameHost : Str)
  | cname (pNameHost : Str)
  | srv (pNameTarget : Str) (wPort : UInt16)
  | mx (pNameExchange : Str)
  | other (wType : UInt16)

structure DnsRecord where
  pName : Str
  data : RecordData
  dwTtl : UInt32

def RecordData.wType : RecordData → UInt16
  | a _ => Type.A
  | aaaa _ => Type.AAAA
  | ptr _ => Type.PTR
  | cname _ => Type.CNAME
  | srv _ _ => Type.SRV
  | mx _ => Type.MX
  | other wType => wType

/-- The address and the text that the record is about, unless it is passed over. -/
def DnsRecord.resolve (record : DnsRecord) : Option (CAddress × Str) :=
  match record.data with
  | .a IpAddress =>
    let Address : CAddress := ⟨.inet, IpAddress ++ List.replicate 12 0⟩
    if Address.isLocalHost then none else some (Address, Address.toWString)
  | .aaaa IP6Byte =>
    let Address : CAddress := ⟨.inet6, IP6Byte⟩
    if Address.isLocalHost then none else some (Address, Address.toWString)
  | .ptr pNameHost =>
    let Address := revDnsHost2Address record.pName
    if Address.isNull then none else some (Address, pNameHost)
  | .cname pNameHost => some (.new .unspec, pNameHost)
  | .srv pNameTarget wPort => some (.new .unspec, pNameTarget ++ 0x3A :: CAddress.digits 10 wPort.toNat)
  | .mx pNameExchange => some (.new .unspec, pNameExchange)
  | .other _ => none

/-- What `Update` meets: the results of the queries for the table of the system's cache, which is
asked for under a setting only, the settings and the time at each entry's turn. -/
structure UpdateInput where
  cacheDataTable : Option (List (Option (List DnsRecord)))
  CurTick : UInt64
  DnsPersistenceTime : UInt64
  PersistenceTime : UInt64
  tickAt : EntryPtr → UInt64

namespace CDnsInspector

/-- One record. `OldEntries` is what is left of the copy of the cache. -/
def updateRecord (sOld : CDnsInspector × List (Str × EntryPtr)) (record : DnsRecord) :
    CDnsInspector × List (Str × EntryPtr) :=
  let (s, OldEntries) := sOld
  match record.resolve with
  | none => (s, OldEntries)
  | some (Address, ResolvedString) =>
    let type := record.data.wType
    let TTL := (record.dwTtl * 1000).toUInt64
    match s.findDnsEntry OldEntries record.pName type Address ResolvedString with
    | some I => (s.modifyEntry I.2 (·.setTTL TTL), OldEntries.erase I)
    | none =>
      -- the table may contain duplicates
      match s.findDnsEntry s.m_DnsCache record.pName type Address ResolvedString with
      | some _ => (s, OldEntries)
      | none => ((s.insertEntry (.new record.pName type Address ResolvedString .eCached)).modifyEntry s.allocated
          (·.setTTL TTL), OldEntries)

/-- The records of the table, where a query may have failed. -/
def updateTable (sOld : CDnsInspector × List (Str × EntryPtr)) (table : List (Option (List DnsRecord))) :
    CDnsInspector × List (Str × EntryPtr) :=
  table.foldl (fun sOld results => (results.getD []).foldl updateRecord sOld) sOld

/-- The entries that were not met age; those that are dead for long stay in `OldEntries`. -/
def ageEntry (input : UpdateInput) (TimeToSubtract : UInt64) (sOld : CDnsInspector × List (Str × EntryPtr))
    (I : Str × EntryPtr) : CDnsInspector × List (Str × EntryPtr) :=
  let (s, OldEntries) := sOld
  let entry := s.entries I.2
  if entry.getDeadTime < input.DnsPersistenceTime then
    (s.modifyEntry I.2 (·.subtractTTL TimeToSubtract (entry.m_Status = .eCached)), OldEntries.erase I)
  else (s, OldEntries)

/-- The end of `Update` for an entry that is left. -/
def retireEntry (input : UpdateInput) (s : CDnsInspector) (I : Str × EntryPtr) : CDnsInspector :=
  let entry := s.entries I.2
  if entry.canBeRemoved (input.tickAt I.2) input.PersistenceTime then s.removeEntry I
  else if entry.isMarkedForRemoval then s
  else s.modifyEntry I.2 fun entry => { entry with m_RemoveTimeStamp := input.tickAt I.2 }

/-- `Update`. -/
def update (s : CDnsInspector) (input : UpdateInput) : CDnsInspector :=
  let (s, OldEntries) := updateTable (s, s.m_DnsCache) (input.cacheDataTable.getD [])
  let TimeToSubtract := input.CurTick - s.m_LastCacheTraverse
  let s := { s with m_LastCacheTraverse := input.CurTick }
  let (s, OldEntries) := OldEntries.foldl (ageEntry input TimeToSubtract) (s, OldEntries)
  OldEntries.foldl (retireEntry input) s

/-! ## Histories -/

def new : CDnsInspector := ⟨fun _ => .new [] 0 (.new .unspec) [] .eNone, 0, [], [], [], 0⟩

inductive InspectorCall
  | onEtwDnsEvent (MonitorDnsCache : Bool) (HostName : Str) (Results : List CAddress)
  | onDnsFilterEvent (event : SDnsFilterEvent)
  | update (input : UpdateInput)

def step (s : CDnsInspector) : InspectorCall → CDnsInspector
  | .onEtwDnsEvent MonitorDnsCache HostName Results => s.onEtwDnsEvent MonitorDnsCache HostName Results
  | .onDnsFilterEvent event => s.onDnsFilterEvent event
  | .update input => s.update input

def run (s : CDnsInspector) (calls : List InspectorCall) : CDnsInspector := calls.foldl step s

end CDnsInspector

end MajorPrivacy.Dns

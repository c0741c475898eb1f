/-
`CDnsFilter` (DnsFilter.cpp): rules for host names in a path tree, and a block list of names with
their types. `HandlePacket` answers a query itself if it is to be blocked. A pointer to a rule is a
number, and the rules are the objects these point to.
-/
import MajorPrivacy.Dns.Packet
import MajorPrivacy.Guid.FlexGuid
import MajorPrivacy.Path.BestEntry

namespace MajorPrivacy.Dns

open LittleEndian MajorPrivacy.Path MajorPrivacy.Guid

/-! ## Rules -/

inductive EAction
  | eNone
  | eBlock
  | eAllow
  deriving DecidableEq, Repr

structure CDnsRule where
  m_Path : Str
  m_Guid : CFlexGuid
  m_bEnabled : Bool
  m_bTemporary : Bool
  m_HostName : Bytes
  m_Action : EAction
  m_HitCount : Int
  deriving DecidableEq

/-- A `SharedPtr<CDnsRule>` that is not null. -/
abbrev RulePtr := Nat

/-- `CDnsServer::SKey`; two keys are one key for `operator<` if both parts are equal. -/
structure SKey where
  name : Bytes
  type : UInt16
  deriving DecidableEq

structure SBLockList where
  Url : Str
  Count : Int

structure CDnsFilter where
  /-- The objects that pointers point to; the numbers from `allocated` on are free. -/
  m_MemPool : RulePtr → CDnsRule
  allocated : Nat
  /-- How many ids `MkGuid` has made. -/
  made : Nat
  m_FilterTree : CPathTree RulePtr
  m_EntryMap : List (CFlexGuid × RulePtr)
  m_BlockList : List (SKey × Bytes)
  m_BlockLists : List (Str × SBLockList)

/-! ## Host names -/

/-- The text up to its terminating zero. -/
def cName (name : Bytes) : Bytes := name.takeWhile (· ≠ 0)

/-- `ReversePath`: the labels of a host name from the last to the first. -/
def reversePath (pPath : Bytes) : Str :=
  [0x2E].intercalate ((pPath.splitOn 0x2E).reverse.map Variant.widen)

/-! ## HandlePacket -/

def Class.INet : UInt16 := 1

def Type.None : UInt16 := 0
def Type.A : UInt16 := 1
def Type.AAAA : UInt16 := 28

/-- What is set of the event for a blocked question; the name becomes a wide one. -/
structure BlockedEvent where
  HostName : Bytes
  Action : EAction
  type : UInt16

/-- How `HandlePacket` deals with a packet: it answers by itself, with events, or leaves the packet to
`CDnsServer::HandlePacket`. -/
inductive Handled
  | blocked (response : Packet) (events : List BlockedEvent)
  | passedOn (packet : Packet)

def Handled.isBlocked : Handled → Bool
  | blocked .. => true
  | passedOn _ => false

namespace CDnsFilter

/-- The rule that the loop finds for a question. -/
def ruleFor (f : CDnsFilter) (query : Query) : Option RulePtr :=
  let path := reversePath (cName (buildName query.q_name))
  if path = [] then none else f.m_FilterTree.getBestEntry path true

/-- The block list has the question, letter for letter. -/
def isListed (f : CDnsFilter) (query : Query) : Bool :=
  f.m_BlockList.any (·.1 = ⟨buildName query.q_name, query.q_type⟩)

/-- The loop over the questions: the action, and the rule whose hits are counted. -/
def filterLoop (f : CDnsFilter) (Action : EAction) : List Query → EAction × Option RulePtr
  | [] => (Action, none)
  | query :: queries =>
    if query.q_class ≠ Class.INet then filterLoop f Action queries
    else
      match f.ruleFor query with
      | some pEntry => ((f.m_MemPool pEntry).m_Action, some pEntry)
      | none =>
        if Action = .eNone ∧ f.isListed query = true then (.eBlock, none)
        else filterLoop f Action queries

/-- `IncHitCount`. -/
def incHitCount (f : CDnsFilter) (pEntry : RulePtr) : CDnsFilter :=
  { f with m_MemPool := fun p =>
      if p = pEntry then { f.m_MemPool p with m_HitCount := (f.m_MemPool p).m_HitCount + 1 } else f.m_MemPool p }

/-- What a blocked query is answered with. -/
def blockedResponse (packet : Packet) : Packet :=
  { packet with QR := 1, OPCODE := 0, AA := 0, TC := 0, RA := 0, Z := 0, RCODE := 3 }

def blockedEvents (packet : Packet) : List BlockedEvent :=
  (packet.query.filter (·.q_class = Class.INet)).map fun query => ⟨buildName query.q_name, .eBlock, query.q_type⟩

/-- `CDnsFilter::HandlePacket`. -/
def handlePacket (f : CDnsFilter) (packet : Packet) : CDnsFilter × Handled :=
  if packet.QR = 0 then
    let (Action, hit) := f.filterLoop .eNone packet.query
    let f := match hit with
      | some pEntry => f.incHitCount pEntry
      | none => f
    if Action = .eBlock then (f, .blocked (blockedResponse packet) (blockedEvents packet))
    else (f, .passedOn packet)
  else (f, .passedOn packet)

end CDnsFilter

end MajorPrivacy.Dns

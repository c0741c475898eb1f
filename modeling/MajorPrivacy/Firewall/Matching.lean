/-
What a firewall rule admits (Firewall.cpp, FirewallRule.cpp): its ports, its addresses with the keywords
among them, and the users that its authorization list names. Looking for an address can end in an access
violation, when a keyword asks an adapter that is not there.
-/
import MajorPrivacy.Firewall.Addresses

namespace MajorPrivacy.Firewall

/-- `IsEmptyOrStar`. -/
def isEmptyOrStar (value : List Str) : Bool := value = [] ∨ value = [[]] ∨ value = [[0x2A]]

/-! ## Ports -/

/-- `MatchPort`, for one of the texts. -/
def portRange (port : UInt16) (range : Str) : Bool :=
  match range.splitOn 0x2D with
  | [single] => UInt16.ofInt (wtoi single) ≠ 0 ∧ UInt16.ofInt (wtoi single) = port
  | [first, last] =>
    let beginPort := UInt16.ofInt (wtoi first)
    let endPort := UInt16.ofInt (wtoi last)
    beginPort ≠ 0 ∧ endPort ≠ 0 ∧ beginPort ≤ port ∧ port ≤ endPort
  | _ => false

/-- `MatchPort`. -/
def matchPort (port : UInt16) (ports : List Str) : Bool := ports.any (portRange port)

/-! ## Addresses -/

/-- The networks of the keywords that ask no adapter. -/
def localNets : List Str :=
  ["10.0.0.0-10.255.255.255", "127.0.0.0-127.255.255.255", "172.16.0.0-172.31.255.255", "192.168.0.0-192.168.255.255",
    "224.0.0.0-239.255.255.255", "::1", "fc00::-fdff:ffff:ffff:ffff:ffff:ffff:ffff:ffff", "fe80::-fe80::ffff:ffff:ffff:ffff",
    "ff00::-ffff:ffff:ffff:ffff:ffff:ffff:ffff:ffff"].map wide

def internetNets : List Str :=
  ["0.0.0.0-9.255.255.255", "11.0.0.0-126.255.255.255", "128.0.0.0-172.15.255.255", "172.32.0.0-192.167.255.255",
    "192.169.0.0-223.255.255.255", "240.0.0.0-255.255.255.255", "::2-fc00::", "fc00::ffff:ffff:ffff:ffff-fe80::",
    "fe80::ffff:ffff:ffff:ffff-ff00::"].map wide

/-- `GetSpecialNet`. -/
def getSpecialNet (subNet : Str) (nicInfo : Option SAdapterInfo) : Option (List Str) :=
  if wcsicmp subNet (wide "LocalSubnet") ∨ wcsicmp subNet (wide "LocalIntranet") then some localNets
  else if wcsicmp subNet (wide "Internet") then some internetNets
  else if wcsicmp subNet (wide "DNS") then nicInfo.map fun nic => nic.dnsAddresses.map (·.toWString)
  else if wcsicmp subNet (wide "DHCP") then nicInfo.map fun nic => nic.dhcpServerAddresses.map (·.toWString)
  else if wcsicmp subNet (wide "WINS") then nicInfo.map fun nic => nic.winsServersAddresses.map (·.toWString)
  else if wcsicmp subNet (wide "DefaultGateway") then nicInfo.map fun nic => nic.gatewayAddresses.map (·.toWString)
  else some []

/-- `address/bits`; the bits are those of an IPv4 address for both families. -/
def inNet (address : CAddress) (range : Str) : Bool :=
  let beginIP := CAddress.fromWString (range.takeWhile (· ≠ 0x2F))
  let shift := wtoi ((range.dropWhile (· ≠ 0x2F)).drop 1)
  let mask := ((1 : CUInt128).shiftLeft ((32 - shift) % 2 ^ 32).toNat).subtract 1
  beginIP.eAF = address.eAF ∧ beginIP.ipToInt ≤ address.ipToInt ∧ address.ipToInt ≤ beginIP.ipToInt + mask

/-- `address-address`. -/
def inRange (address beginIP endIP : CAddress) : Bool :=
  beginIP.eAF = address.eAF ∧ beginIP.eAF = endIP.eAF ∧ beginIP.ipToInt ≤ address.ipToInt ∧ address.ipToInt ≤ endIP.ipToInt

/-- The loop of `MatchAddress`. A keyword that stands for networks decides it. -/
def matchRanges (matchSpecial : List Str → Option Bool) (address : CAddress) (nicInfo : Option SAdapterInfo) : List Str → Option Bool
  | [] => some false
  | range :: ranges =>
    match range.splitOn 0x2D with
    | [single] =>
      if 0x2F ∈ single then
        if inNet address single then some true else matchRanges matchSpecial address nicInfo ranges
      else match getSpecialNet single nicInfo with
        | none => none
        | some [] =>
          let singleIP := CAddress.fromWString single
          if singleIP.eAF = address.eAF ∧ singleIP.ipToInt = address.ipToInt then some true
          else matchRanges matchSpecial address nicInfo ranges
        | some nets => matchSpecial nets
    | [first, last] =>
      if inRange address (.fromWString first) (.fromWString last) then some true
      else matchRanges matchSpecial address nicInfo ranges
    | _ => matchRanges matchSpecial address nicInfo ranges

/-- `MatchAddress` with so many calls of itself, the inner ones without an adapter. -/
def matchAddressDepth : Nat → CAddress → Option SAdapterInfo → List Str → Option Bool
  | 0, _, _ => fun _ => none
  | n + 1, address, nicInfo => matchRanges (matchAddressDepth n address none) address nicInfo

/-- `MatchAddress`; the networks of a keyword hold no keyword. -/
def matchAddress (address : CAddress) (addresses : List Str) (nicInfo : Option SAdapterInfo) : Option Bool :=
  matchAddressDepth 2 address nicInfo addresses

/-! ### What a list of addresses admits -/

section Ranges
variable {matchSpecial : List Str → Option Bool} {address : CAddress} {nicInfo : Option SAdapterInfo}

/-- A text decides the search, or the rest of the list does. -/
theorem matchRanges_cons (range : Str) (ranges : List Str) :
    matchRanges matchSpecial address nicInfo (range :: ranges) = matchRanges matchSpecial address nicInfo [range] ∨
      matchRanges matchSpecial address nicInfo [range] = some false ∧
        matchRanges matchSpecial address nicInfo (range :: ranges) = matchRanges matchSpecial address nicInfo ranges := by
  simp only [matchRanges]
  split
  · split
    · split
      · exact .inl rfl
      · exact .inr ⟨rfl, rfl⟩
    · split
      · exact .inl rfl
      · split
        · exact .inl rfl
        · exact .inr ⟨rfl, rfl⟩
      · exact .inl rfl
  · split
    · exact .inl rfl
    · exact .inr ⟨rfl, rfl⟩
  · exact .inr ⟨rfl, rfl⟩

theorem exists_of_matchRanges : ∀ {ranges : List Str}, matchRanges matchSpecial address nicInfo ranges = some true →
    ∃ range ∈ ranges, matchRanges matchSpecial address nicInfo [range] = some true
  | range :: ranges, h => by
    rcases @matchRanges_cons matchSpecial address nicInfo range ranges with heq | ⟨-, heq⟩
    · exact ⟨range, List.mem_cons_self, heq ▸ h⟩
    · rcases exists_of_matchRanges (heq ▸ h) with ⟨other, hmem, hother⟩
      exact ⟨other, List.mem_cons_of_mem _ hmem, hother⟩

/-- What is known without an adapter stays with one. -/
theorem getSpecialNet_of_none {subNet : Str} {nets : List Str} (h : getSpecialNet subNet none = some nets) :
    getSpecialNet subNet nicInfo = some nets := by
  simp only [getSpecialNet, Option.map_none] at h ⊢
  split_ifs at h ⊢
  all_goals exact h

theorem ite_some_true {c : Prop} [Decidable c] {a b : Option Bool} (h : (if c then some true else a) = some true)
    (hab : a = some true → b = some true) : (if c then some true else b) = some true := by
  by_cases hc : c
  · exact if_pos hc
  · rw [if_neg hc] at h ⊢
    exact hab h

theorem matchRanges_of_none : ∀ {ranges : List Str}, matchRanges matchSpecial address none ranges = some true →
    matchRanges matchSpecial address nicInfo ranges = some true
  | range :: ranges, h => by
    simp only [matchRanges] at h ⊢
    split at h
    · rename_i single hsplit
      by_cases hslash : 0x2F ∈ single
      · rw [if_pos hslash] at h ⊢
        exact ite_some_true h matchRanges_of_none
      · rw [if_neg hslash] at h ⊢
        rcases hnet : getSpecialNet single none with _ | (_ | ⟨net, nets⟩)
        · rw [hnet] at h
          cases h
        · rw [hnet] at h
          rw [getSpecialNet_of_none hnet]
          exact ite_some_true h matchRanges_of_none
        · rw [hnet] at h
          rw [getSpecialNet_of_none hnet]
          exact h
    · exact ite_some_true h matchRanges_of_none
    · exact matchRanges_of_none h

theorem inNet_congr {other : CAddress} (heAF : address.eAF = other.eAF) (hip : address.ipToInt = other.ipToInt) (range : Str) :
    inNet address range = inNet other range := by
  unfold inNet
  rw [heAF, hip]

theorem inRange_congr {other : CAddress} (heAF : address.eAF = other.eAF) (hip : address.ipToInt = other.ipToInt)
    (beginIP endIP : CAddress) : inRange address beginIP endIP = inRange other beginIP endIP := by
  unfold inRange
  rw [heAF, hip]

/-- Only the family and the number of an address are looked at. -/
theorem matchRanges_congr {other : CAddress} {matchOther : List Str → Option Bool} (hspecial : matchSpecial = matchOther)
    (heAF : address.eAF = other.eAF) (hip : address.ipToInt = other.ipToInt) :
    ∀ ranges : List Str, matchRanges matchSpecial address nicInfo ranges = matchRanges matchOther other nicInfo ranges
  | [] => rfl
  | range :: ranges => by
    subst hspecial
    unfold matchRanges
    simp only [inNet_congr heAF hip, inRange_congr heAF hip, heAF, hip, matchRanges_congr rfl heAF hip ranges]

theorem matchAddressDepth_congr {other : CAddress} (heAF : address.eAF = other.eAF) (hip : address.ipToInt = other.ipToInt) :
    ∀ (n : Nat) (nic : Option SAdapterInfo), matchAddressDepth n address nic = matchAddressDepth n other nic
  | 0, _ => rfl
  | n + 1, _ => funext fun ranges => matchRanges_congr (matchAddressDepth_congr heAF hip n none) heAF hip ranges

end Ranges

/-- `MatchEndpoint`. -/
def matchEndpoint (addresses ports : List Str) (address : CAddress) (port : UInt16) (nicInfo : Option SAdapterInfo) : Option Bool :=
  if ¬ isEmptyOrStar ports ∧ ¬ matchPort port ports then some false
  else if ¬ address.isNull ∧ ¬ isEmptyOrStar addresses then matchAddress address addresses nicInfo
  else some true

/-! ## Users -/

inductive ESidEntryType
  | eExempt | eApply
  deriving DecidableEq

/-- The text from the first occurrence of another one on. -/
def findFrom (pattern : Str) : Str → Option Str
  | [] => if pattern = [] then some [] else none
  | c :: s => if pattern.isPrefixOf (c :: s) then some (c :: s) else findFrom pattern s

/-- The entries of an access control list, `(..)(..)`. -/
def aces : Nat → Str → List Str
  | 0, _ => []
  | n + 1, s =>
    let s := s.dropWhile (· ≠ 0x28)
    let ace := s.takeWhile (· ≠ 0x29)
    if ace.length = s.length then [] else ace.tail :: aces n (s.drop (ace.length + 1))

/-- An entry, `type;flags;rights;guid;inherit guid;sid`, with the SID in uppercase. -/
def readAce (ace : Str) : Option (Str × ESidEntryType) :=
  match ace.splitOn 0x3B with
  | type :: _ :: _ :: _ :: _ :: sid :: _ =>
    if sid = [] then none
    else if type.head? = some 0x41 then some (sid.map towupper, .eApply)
    else if type.head? = some 0x44 then some (sid.map towupper, .eExempt)
    else none
  | _ => none

/-- `SetPrincipalSddl`: the entries of the list behind `D:`, a later one in place of an earlier one with its SID. -/
def principalEntries (sddl : Str) : List (Str × ESidEntryType) :=
  match findFrom (wide "D:") sddl with
  | none => []
  | some dacl => (aces sddl.length (dacl.drop 2)).filterMap readAce

/-- `m_PrincipalSids`. -/
def principalSid (sddl sid : Str) : Option ESidEntryType := ((principalEntries sddl).reverse.find? (·.1 = sid)).map (·.2)

/-- `m_bHasApplyEntries`. -/
def hasApplyEntries (sddl : Str) : Bool := (principalEntries sddl).any (·.2 = .eApply)

/-- A user, with the groups it is in and whether they are enabled. -/
structure User where
  sid : Str
  groups : List (Str × Bool)

/-- The SIDs of a user that count, in uppercase. -/
def User.sids (user : User) : List Str := user.sid.map towupper :: (user.groups.filter (·.2)).map fun group => group.1.map towupper

/-- `MatchUserAuthorization`, for a rule with this list. -/
def matchUserAuthorization (sddl : Str) (user : User) : Bool :=
  if principalEntries sddl = [] then true
  else if user.sids.any fun sid => principalSid sddl sid = some .eExempt then false
  else if hasApplyEntries sddl ∧ ¬ user.sids.any fun sid => principalSid sddl sid = some .eApply then false
  else true

/-! ## Rules -/

/-- A network event with the user it is of; one of ICMP has a type and a code. -/
structure NetworkEvent where
  direction : Cast EFwDirections
  protocolType : UInt32
  remoteAddress : CAddress
  remotePort : UInt16
  localAddress : CAddress
  localPort : UInt16
  icmp : Option (UInt8 × UInt8)
  nicInfo : Option SAdapterInfo
  user : User

/-- `EFwKnownProtocols::Any`. -/
def protocolAny : UInt32 := 256

/-- A list of types and codes admits a message: there is none, or an entry has the type and the code, or any code. -/
def matchIcmp (list : List IcmpTypeCode) (icmp : UInt8 × UInt8) : Bool :=
  list = [] ∨ list.any fun entry => entry.type = icmp.1 ∧ (entry.code = 256 ∨ entry.code = icmp.2.toUInt16)

/-- The adapter is one of those a rule is for. -/
def SWindowsFwRule.MatchesNic (rule : SWindowsFwRule) (nic : SAdapterInfo) : Prop :=
  nic.profile &&& rule.profile ≠ 0 ∧ (rule.interface = interfaceAll ∨ nic.type = rule.interface)

/-- The rule applies, as `MatchRulesWithEvent` goes through its fields. -/
structure SWindowsFwRule.Admits (rule : SWindowsFwRule) (event : NetworkEvent) : Prop where
  direction : rule.direction = .value .bidirectional ∨ rule.direction = event.direction
  protocol : rule.protocol = protocolAny ∨ event.protocolType = rule.protocol
  nic : ∀ nic ∈ event.nicInfo, rule.MatchesNic nic
  remoteEndpoint : matchEndpoint rule.remoteAddresses rule.remotePorts event.remoteAddress event.remotePort event.nicInfo = some true
  localEndpoint : matchEndpoint rule.localAddresses rule.localPorts event.localAddress event.localPort event.nicInfo = some true
  user : matchUserAuthorization rule.localUserAuthorizationList event.user
  icmp : ∀ icmp ∈ event.icmp, matchIcmp rule.icmpTypesAndCodes icmp

end MajorPrivacy.Firewall

/-
Templates (Firewall.cpp): whether a template applies to a rule, and when it then reaches everything that
the rule reaches. The check leaves out the users and the ICMP messages, and a text of the rule that the
template spells alike may stand where the search in the template does not come.
-/
import MajorPrivacy.Firewall.Keywords

namespace MajorPrivacy.Firewall

/-! ## The check -/

/-- `CFirewall__IsNumber`. -/
def isNumber (value : Str) : Bool := value ≠ [] ∧ value.all fun c => 48 ≤ c ∧ c ≤ 57

/-- A text of the rule that is a single value is held against the template. -/
def coversValue (template : List Str) (entry : Str) (bPorts : Bool) : Option Bool :=
  if bPorts then some (isNumber entry && matchPort (UInt16.ofInt (wtoi entry)) template)
  else if 0x2D ∉ entry ∧ 0x2F ∉ entry ∧ ¬ (CAddress.fromWString entry).isNull then matchAddress (.fromWString entry) template none
  else some false

/-- The loop of `ListCoversList`. -/
def coversEntries (template : List Str) (bPorts : Bool) : List Str → Option Bool
  | [] => some true
  | entry :: rule =>
    match coversValue template entry bPorts with
    | none => none
    | some bCovered => if bCovered || template.any (wcsicmp · entry) then coversEntries template bPorts rule else some false

/-- `ListCoversList`. -/
def listCoversList (template rule : List Str) (bPorts : Bool) : Option Bool :=
  if isEmptyOrStar template then some true
  else if isEmptyOrStar rule then some false
  else coversEntries template bPorts rule

/-- `TemplateAppliesToRule`. -/
def templateAppliesToRule (pTemplate pRule : Option SWindowsFwRule) : Option Bool :=
  match pTemplate, pRule with
  | some template, some rule =>
    if template.direction ≠ .value .bidirectional ∧ template.direction ≠ rule.direction then some false
    else if template.protocol ≠ protocolAny ∧ template.protocol ≠ rule.protocol then some false
    else if rule.profile &&& ~~~template.profile ≠ 0 then some false
    else if template.interface ≠ interfaceAll ∧ template.interface ≠ rule.interface then some false
    else do
      if ¬ (← listCoversList template.remoteAddresses rule.remoteAddresses false) then return false
      if ¬ (← listCoversList template.localAddresses rule.localAddresses false) then return false
      if ¬ (← listCoversList template.remotePorts rule.remotePorts true) then return false
      if ¬ (← listCoversList template.localPorts rule.localPorts true) then return false
      return true
  | _, _ => some false

/-! ## Lists -/

/-- A list of ports lets a port through. -/
def PortsAdmit (ports : List Str) (port : UInt16) : Prop := isEmptyOrStar ports ∨ matchPort port ports

/-- A list of addresses lets an address through. -/
def AddressesAdmit (addresses : List Str) (address : CAddress) (nicInfo : Option SAdapterInfo) : Prop :=
  address.isNull ∨ isEmptyOrStar addresses ∨ matchAddress address addresses nicInfo = some true

theorem matchEndpoint_iff {addresses ports : List Str} {address : CAddress} {port : UInt16} {nicInfo : Option SAdapterInfo} :
    matchEndpoint addresses ports address port nicInfo = some true ↔ PortsAdmit ports port ∧ AddressesAdmit addresses address nicInfo := by
  unfold matchEndpoint PortsAdmit AddressesAdmit
  split
  · rename_i hports
    exact iff_of_false (fun h => by cases h) fun h => h.1.elim hports.1 hports.2
  · rename_i hports
    have hallows : isEmptyOrStar ports ∨ matchPort port ports := by
      by_cases hstar : isEmptyOrStar ports
      · exact .inl hstar
      · exact .inr (not_not.1 fun hmatch => hports ⟨hstar, hmatch⟩)
    split
    · rename_i haddress
      exact ⟨fun h => ⟨hallows, .inr (.inr h)⟩, fun h => (h.2.resolve_left haddress.1).resolve_left haddress.2⟩
    · rename_i haddress
      refine iff_of_true rfl ⟨hallows, ?_⟩
      by_cases hnull : address.isNull
      · exact .inl hnull
      · exact .inr (.inl (not_not.1 fun hstar => haddress ⟨hnull, hstar⟩))

/-- What a list that is covered consists of. -/
theorem of_coversEntries {template : List Str} {bPorts : Bool} : ∀ {rule : List Str}, coversEntries template bPorts rule = some true →
    ∀ entry ∈ rule, coversValue template entry bPorts = some true ∨ ∃ allowed ∈ template, wcsicmp allowed entry
  | entry :: rule, h, other, hother => by
    unfold coversEntries at h
    rcases hvalue : coversValue template entry bPorts with _ | bCovered
    · rw [hvalue] at h
      cases h
    · rw [hvalue] at h
      dsimp only at h
      split at h
      · rename_i hcovered
        rcases List.mem_cons.1 hother with rfl | hother
        · rcases Bool.or_eq_true_iff.1 hcovered with rfl | hany
          · exact .inl hvalue
          · exact .inr (List.any_eq_true.1 hany)
        · exact of_coversEntries h other hother
      · cases h

theorem of_listCoversList {template rule : List Str} {bPorts : Bool} (h : listCoversList template rule bPorts = some true) :
    isEmptyOrStar template ∨ ¬ isEmptyOrStar rule ∧
      ∀ entry ∈ rule, coversValue template entry bPorts = some true ∨ ∃ allowed ∈ template, wcsicmp allowed entry := by
  unfold listCoversList at h
  split at h
  · exact .inl ‹_›
  · split at h
    · cases h
    · exact .inr ⟨‹_›, of_coversEntries h⟩

/-- What the rule lets through by a text that the template spells alike, the template lets through. -/
def PortsReadAlike (template rule : List Str) : Prop :=
  ∀ port, PortsAdmit rule port → ∀ entry ∈ rule, (∃ allowed ∈ template, wcsicmp allowed entry) → matchPort port [entry] →
    PortsAdmit template port

/-- Likewise for addresses, with the adapters the rule is for. -/
def AddressesReadAlike (template rule : List Str) (nicInfo : Option SAdapterInfo) : Prop :=
  ∀ address, AddressesAdmit rule address nicInfo → ∀ entry ∈ rule, (∃ allowed ∈ template, wcsicmp allowed entry) →
    matchAddress address [entry] nicInfo = some true → AddressesAdmit template address nicInfo

theorem splitOn_of_not_mem {c : UInt16} {s : Str} (h : c ∉ s) : s.splitOn c = [s] := by
  have hjoin := @List.splitOn_intercalate _ [s] _ _ c (by simpa using h) (List.cons_ne_nil _ _)
  rwa [List.intercalate_singleton] at hjoin

/-- A single port is the one that is held against the template. -/
theorem portRange_number {entry : Str} {port : UInt16} (hnumber : isNumber entry) (h : portRange port entry) :
    port = UInt16.ofInt (wtoi entry) := by
  have hdash : 0x2D ∉ entry := fun hmem => by
    have hdigit := List.all_eq_true.1 (of_decide_eq_true hnumber).2 _ hmem
    revert hdigit
    decide
  unfold portRange at h
  rw [splitOn_of_not_mem hdash] at h
  exact (of_decide_eq_true h).2.symm

theorem portsAdmit_of_covers {template rule : List Str} (h : listCoversList template rule true = some true)
    (halike : PortsReadAlike template rule) {port : UInt16} (hrule : PortsAdmit rule port) : PortsAdmit template port := by
  rcases of_listCoversList h with hstar | ⟨hstar, hentries⟩
  · exact .inl hstar
  · rcases List.any_eq_true.1 (hrule.resolve_left hstar) with ⟨entry, hentry, hport⟩
    rcases hentries entry hentry with hvalue | hallowed
    · rcases Bool.and_eq_true_iff.1 (Option.some.inj hvalue) with ⟨hnumber, hmatch⟩
      rw [portRange_number hnumber hport]
      exact .inr hmatch
    · exact halike port hrule entry hentry hallowed (List.any_eq_true.2 ⟨entry, List.mem_singleton_self _, hport⟩)

/-- A single address is the one that is held against the template. -/
theorem matchAddress_single {entry : Str} {address : CAddress} {nicInfo : Option SAdapterInfo} (hdash : 0x2D ∉ entry) (hslash : 0x2F ∉ entry)
    (hnull : ¬ (CAddress.fromWString entry).isNull) (h : matchAddress address [entry] nicInfo = some true) :
    (CAddress.fromWString entry).eAF = address.eAF ∧ (CAddress.fromWString entry).ipToInt = address.ipToInt := by
  have hkeyword : (cStr entry).map towlower ∉ keywords := fun hmem => hnull (isNull_of_keyword hmem)
  unfold matchAddress matchAddressDepth matchRanges at h
  rw [splitOn_of_not_mem hdash] at h
  dsimp only at h
  rw [if_neg hslash, getSpecialNet_of_not_keyword hkeyword] at h
  dsimp only at h
  split at h
  · assumption
  · cases h

theorem addressesAdmit_of_covers {template rule : List Str} {nicInfo : Option SAdapterInfo}
    (h : listCoversList template rule false = some true) (halike : AddressesReadAlike template rule nicInfo) {address : CAddress}
    (hrule : AddressesAdmit rule address nicInfo) : AddressesAdmit template address nicInfo := by
  by_cases hnull : address.isNull
  · exact .inl hnull
  · rcases of_listCoversList h with hstar | ⟨hstar, hentries⟩
    · exact .inr (.inl hstar)
    · rcases exists_of_matchRanges ((hrule.resolve_left hnull).resolve_left hstar) with ⟨entry, hentry, haddress⟩
      rcases hentries entry hentry with hvalue | hallowed
      · simp only [coversValue, Bool.false_eq_true, if_false] at hvalue
        split at hvalue
        · rename_i hsingle
          rcases matchAddress_single hsingle.1 hsingle.2.1 hsingle.2.2 haddress with ⟨heAF, hip⟩
          have hnic : matchAddress (.fromWString entry) template nicInfo = some true := matchRanges_of_none hvalue
          rw [matchAddress, matchAddressDepth_congr heAF hip] at hnic
          exact .inr (.inr hnic)
        · cases hvalue
      · exact halike address hrule entry hentry hallowed haddress

/-! ## Templates -/

namespace SWindowsFwRule
variable {template rule : SWindowsFwRule}

/-- What the check has found of a template and a rule. -/
structure Applies (template rule : SWindowsFwRule) : Prop where
  direction : template.direction = .value .bidirectional ∨ template.direction = rule.direction
  protocol : template.protocol = protocolAny ∨ template.protocol = rule.protocol
  profile : rule.profile &&& ~~~template.profile = 0
  interface : template.interface = interfaceAll ∨ template.interface = rule.interface
  remoteAddresses : listCoversList template.remoteAddresses rule.remoteAddresses false = some true
  localAddresses : listCoversList template.localAddresses rule.localAddresses false = some true
  remotePorts : listCoversList template.remotePorts rule.remotePorts true = some true
  localPorts : listCoversList template.localPorts rule.localPorts true = some true

theorem eq_true_of_bind {check rest : Option Bool} (h : (check.bind fun b => if ¬ b then some false else rest) = some true) :
    check = some true ∧ rest = some true := by
  rcases Option.bind_eq_some_iff.1 h with ⟨b, hcheck, hrest⟩
  cases b with
  | false => cases hrest
  | true => exact ⟨hcheck, hrest⟩

theorem Applies.of_check (h : templateAppliesToRule (some template) (some rule) = some true) : Applies template rule := by
  have hor : ∀ {a b : Prop}, ¬ (¬ a ∧ ¬ b) → a ∨ b := fun hnot => by
    rwa [← not_or, not_not] at hnot
  unfold templateAppliesToRule at h
  dsimp only at h
  split_ifs at h with hdirection hprotocol hprofile hinterface
  · cases h
  · cases h
  · cases h
  · cases h
  · rcases eq_true_of_bind h with ⟨hremoteAddresses, h⟩
    rcases eq_true_of_bind h with ⟨hlocalAddresses, h⟩
    rcases eq_true_of_bind h with ⟨hremotePorts, h⟩
    rcases eq_true_of_bind h with ⟨hlocalPorts, -⟩
    exact ⟨hor hdirection, hor hprotocol, not_not.1 hprofile, hor hinterface, hremoteAddresses, hlocalAddresses, hremotePorts, hlocalPorts⟩

/-- What a template has to reach of a rule besides. -/
structure Reaches (template rule : SWindowsFwRule) : Prop where
  users : ∀ user, matchUserAuthorization rule.localUserAuthorizationList user → matchUserAuthorization template.localUserAuthorizationList user
  icmp : ∀ icmp, matchIcmp rule.icmpTypesAndCodes icmp → matchIcmp template.icmpTypesAndCodes icmp
  remotePorts : PortsReadAlike template.remotePorts rule.remotePorts
  localPorts : PortsReadAlike template.localPorts rule.localPorts
  remoteAddresses : ∀ nicInfo : Option SAdapterInfo, (∀ nic ∈ nicInfo, rule.MatchesNic nic) →
    AddressesReadAlike template.remoteAddresses rule.remoteAddresses nicInfo
  localAddresses : ∀ nicInfo : Option SAdapterInfo, (∀ nic ∈ nicInfo, rule.MatchesNic nic) →
    AddressesReadAlike template.localAddresses rule.localAddresses nicInfo

theorem profile_within {a b : UInt32} (h : a &&& ~~~b = 0) {n : UInt32} (hn : n &&& a ≠ 0) : n &&& b ≠ 0 := by
  have hab : a = a &&& b := by
    apply UInt32.toBitVec_inj.1
    apply BitVec.eq_of_getLsbD_eq
    intro i hi
    have hbit := congrArg (fun x : UInt32 => x.toBitVec.getLsbD i) h
    simp [hi] at hbit ⊢
    exact hbit
  intro hzero
  apply hn
  calc n &&& a
    _ = n &&& (a &&& b) := by rw [← hab]
    _ = n &&& b &&& a := by rw [UInt32.and_comm a b, UInt32.and_assoc]
    _ = 0 := by rw [hzero, UInt32.zero_and]

theorem Applies.matchesNic (h : Applies template rule) {nic : SAdapterInfo} (hnic : rule.MatchesNic nic) : template.MatchesNic nic := by
  refine ⟨profile_within h.profile hnic.1, ?_⟩
  rcases h.interface with hall | heq
  · exact .inl hall
  · rw [heq]
    exact hnic.2

theorem Applies.admits (h : Applies template rule) (hreaches : Reaches template rule) {event : NetworkEvent} (hrule : rule.Admits event) :
    template.Admits event := by
  rcases matchEndpoint_iff.1 hrule.remoteEndpoint with ⟨hremotePort, hremoteAddress⟩
  rcases matchEndpoint_iff.1 hrule.localEndpoint with ⟨hlocalPort, hlocalAddress⟩
  constructor
  case direction =>
    rcases h.direction with hboth | heq
    · exact .inl hboth
    · rw [heq]
      exact hrule.direction
  case protocol =>
    rcases h.protocol with hany | heq
    · exact .inl hany
    · rw [heq]
      exact hrule.protocol
  case nic => exact fun nic hnic => h.matchesNic (hrule.nic nic hnic)
  case remoteEndpoint =>
    exact matchEndpoint_iff.2 ⟨portsAdmit_of_covers h.remotePorts hreaches.remotePorts hremotePort,
      addressesAdmit_of_covers h.remoteAddresses (hreaches.remoteAddresses _ hrule.nic) hremoteAddress⟩
  case localEndpoint =>
    exact matchEndpoint_iff.2 ⟨portsAdmit_of_covers h.localPorts hreaches.localPorts hlocalPort,
      addressesAdmit_of_covers h.localAddresses (hreaches.localAddresses _ hrule.nic) hlocalAddress⟩
  case user => exact hreaches.users _ hrule.user
  case icmp => exact fun icmp hicmp => hreaches.icmp _ (hrule.icmp icmp hicmp)

/-- An event that is let through stays so with other values that are let through. -/
theorem Admits.change {event : NetworkEvent} (h : rule.Admits event) {remoteAddress localAddress : CAddress} {remotePort localPort : UInt16}
    {icmp : Option (UInt8 × UInt8)} {nicInfo : Option SAdapterInfo} {user : User} (hnic : ∀ nic ∈ nicInfo, rule.MatchesNic nic)
    (hremotePort : PortsAdmit rule.remotePorts remotePort) (hlocalPort : PortsAdmit rule.localPorts localPort)
    (hremoteAddress : AddressesAdmit rule.remoteAddresses remoteAddress nicInfo)
    (hlocalAddress : AddressesAdmit rule.localAddresses localAddress nicInfo)
    (huser : matchUserAuthorization rule.localUserAuthorizationList user) (hicmp : ∀ message ∈ icmp, matchIcmp rule.icmpTypesAndCodes message) :
    rule.Admits ⟨event.direction, event.protocolType, remoteAddress, remotePort, localAddress, localPort, icmp, nicInfo, user⟩ :=
  ⟨h.direction, h.protocol, hnic, matchEndpoint_iff.2 ⟨hremotePort, hremoteAddress⟩, matchEndpoint_iff.2 ⟨hlocalPort, hlocalAddress⟩,
    huser, hicmp⟩

/-- A template that lets through what the rule does reaches it. -/
theorem Reaches.of_admits {event : NetworkEvent} (hevent : rule.Admits event) (h : ∀ event, rule.Admits event → template.Admits event) :
    Reaches template rule := by
  rcases matchEndpoint_iff.1 hevent.remoteEndpoint with ⟨hremotePort, -⟩
  rcases matchEndpoint_iff.1 hevent.localEndpoint with ⟨hlocalPort, -⟩
  have hnull : ∀ (addresses : List Str) (nicInfo : Option SAdapterInfo), AddressesAdmit addresses (.new .unspec) nicInfo :=
    fun _ _ => .inl rfl
  have hnoNic : ∀ nic ∈ (none : Option SAdapterInfo), rule.MatchesNic nic := fun nic hnic => (by cases hnic)
  have hnoIcmp : ∀ icmp ∈ (none : Option (UInt8 × UInt8)), matchIcmp rule.icmpTypesAndCodes icmp := fun icmp hicmp => (by cases hicmp)
  constructor
  case users => exact fun user huser => (h _ (hevent.change hnoNic hremotePort hlocalPort (hnull _ _) (hnull _ _) huser hnoIcmp)).user
  case icmp =>
    rintro icmp hicmp
    have hsome : ∀ i ∈ some icmp, matchIcmp rule.icmpTypesAndCodes i := fun i hi => Option.some.inj hi ▸ hicmp
    exact (h _ (hevent.change hnoNic hremotePort hlocalPort (hnull _ _) (hnull _ _) hevent.user hsome)).icmp icmp rfl
  case remotePorts =>
    rintro port hport - - - -
    have hadmits := h _ (hevent.change hnoNic hport hlocalPort (hnull _ _) (hnull _ _) hevent.user hnoIcmp)
    exact (matchEndpoint_iff.1 hadmits.remoteEndpoint).1
  case localPorts =>
    rintro port hport - - - -
    have hadmits := h _ (hevent.change hnoNic hremotePort hport (hnull _ _) (hnull _ _) hevent.user hnoIcmp)
    exact (matchEndpoint_iff.1 hadmits.localEndpoint).1
  case remoteAddresses =>
    rintro nicInfo hnic address haddress - - - -
    have hadmits := h _ (hevent.change hnic hremotePort hlocalPort haddress (hnull _ _) hevent.user hnoIcmp)
    exact (matchEndpoint_iff.1 hadmits.remoteEndpoint).2
  case localAddresses =>
    rintro nicInfo hnic address haddress - - - -
    have hadmits := h _ (hevent.change hnic hremotePort hlocalPort (hnull _ _) haddress hevent.user hnoIcmp)
    exact (matchEndpoint_iff.1 hadmits.localEndpoint).2

/-- A template that applies to a rule lets through what the rule does just when the rule lets nothing through,
or the template also reaches the users, the messages and the texts that are spelled alike. -/
theorem applies_sound_iff (h : templateAppliesToRule (some template) (some rule) = some true) :
    (∀ event, rule.Admits event → template.Admits event) ↔ (∀ event, ¬ rule.Admits event) ∨ Reaches template rule := by
  constructor
  · rintro hsound
    by_cases hnone : ∀ event, ¬ rule.Admits event
    · exact .inl hnone
    · rcases not_forall_not.1 hnone with ⟨event, hevent⟩
      exact .inr (.of_admits hevent hsound)
  · rintro (hnone | hreaches) event hevent
    · exact absurd hevent (hnone event)
    · exact (Applies.of_check h).admits hreaches hevent

/-! ### Plain lists -/

/-- A text that both spell alike is the same text. -/
def SameTexts (template rule : List Str) : Prop := ∀ allowed ∈ template, ∀ entry ∈ rule, wcsicmp allowed entry → allowed = entry

instance (template rule : List Str) : Decidable (SameTexts template rule) :=
  inferInstanceAs (Decidable (∀ allowed ∈ template, ∀ entry ∈ rule, wcsicmp allowed entry → allowed = entry))

theorem SameTexts.mem {template list : List Str} (h : SameTexts template list) {entry : Str} (hentry : entry ∈ list)
    (halike : ∃ allowed ∈ template, wcsicmp allowed entry) : entry ∈ template := by
  rcases halike with ⟨allowed, hallowed, hcmp⟩
  exact h allowed hallowed entry hentry hcmp ▸ hallowed

theorem portsReadAlike_of_sameTexts {template list : List Str} (h : SameTexts template list) : PortsReadAlike template list := by
  rintro port - entry hentry halike hport
  rcases List.any_eq_true.1 hport with ⟨range, hrange, hmatch⟩
  rcases List.mem_singleton.1 hrange with rfl
  exact .inr (List.any_eq_true.2 ⟨range, h.mem hentry halike, hmatch⟩)

/-- The search goes on behind a text that is no keyword. -/
theorem matchRanges_cons_noKeyword {special : List Str → Option Bool} {address : CAddress} {nicInfo : Option SAdapterInfo} {range : Str}
    (h : NoKeyword [range]) (ranges : List Str) (hranges : matchRanges special address nicInfo ranges = some true) :
    matchRanges special address nicInfo (range :: ranges) = some true := by
  unfold matchRanges
  rw [hranges]
  split
  · rename_i single hsplit
    rw [getSpecialNet_of_not_keyword (h range List.mem_cons_self single hsplit)]
    simp
  · simp
  · rfl

/-- Where only the last text may be a keyword, every text is come to. -/
theorem matchRanges_of_mem {special : List Str → Option Bool} {address : CAddress} {nicInfo : Option SAdapterInfo} {entry : Str} :
    ∀ {ranges : List Str}, NoKeyword ranges.dropLast → entry ∈ ranges → matchRanges special address nicInfo [entry] = some true →
      matchRanges special address nicInfo ranges = some true
  | [range], _, hentry, h => List.mem_singleton.1 hentry ▸ h
  | range :: other :: ranges, hkeyword, hentry, h => by
    have hfirst : NoKeyword [range] := fun r hr => hkeyword r (List.mem_singleton.1 hr ▸ List.mem_cons_self)
    have hrest : NoKeyword (other :: ranges).dropLast := fun r hr => hkeyword r (List.mem_cons_of_mem _ hr)
    rcases List.mem_cons.1 hentry with rfl | hentry
    · rcases @matchRanges_cons special address nicInfo entry (other :: ranges) with heq | ⟨hfalse, -⟩
      · rw [heq]
        exact h
      · rw [hfalse] at h
        cases h
    · exact matchRanges_cons_noKeyword hfirst _ (matchRanges_of_mem hrest hentry h)

theorem addressesReadAlike_of_sameTexts {template list : List Str} (h : SameTexts template list) (hkeyword : NoKeyword template.dropLast)
    (nicInfo : Option SAdapterInfo) : AddressesReadAlike template list nicInfo := by
  rintro address - entry hentry halike haddress
  exact .inr (.inr (matchRanges_of_mem hkeyword (h.mem hentry halike) haddress))

/-- A template without users and messages reaches a rule when texts that are spelled alike are the same and a
keyword stands at the end only. -/
theorem Reaches.of_plain (husers : template.localUserAuthorizationList = []) (hicmp : template.icmpTypesAndCodes = [])
    (hremotePorts : SameTexts template.remotePorts rule.remotePorts) (hlocalPorts : SameTexts template.localPorts rule.localPorts)
    (hremoteAddresses : SameTexts template.remoteAddresses rule.remoteAddresses) (hremoteKeyword : NoKeyword template.remoteAddresses.dropLast)
    (hlocalAddresses : SameTexts template.localAddresses rule.localAddresses) (hlocalKeyword : NoKeyword template.localAddresses.dropLast) :
    Reaches template rule where
  users := fun _ _ => by rw [husers]; rfl
  icmp := fun _ _ => by rw [hicmp]; rfl
  remotePorts := portsReadAlike_of_sameTexts hremotePorts
  localPorts := portsReadAlike_of_sameTexts hlocalPorts
  remoteAddresses := fun nicInfo _ => addressesReadAlike_of_sameTexts hremoteAddresses hremoteKeyword nicInfo
  localAddresses := fun nicInfo _ => addressesReadAlike_of_sameTexts hlocalAddresses hlocalKeyword nicInfo

/-! ### Rules for outgoing traffic -/

def outbound : SWindowsFwRule := { SWindowsFwRule.new with action := .value .allow, direction := .value .outbound }

def outboundTo (remoteAddresses remotePorts : List String) : SWindowsFwRule :=
  { outbound with remoteAddresses := remoteAddresses.map wide, remotePorts := remotePorts.map wide }

/-- An event without an adapter and without a message. -/
def outboundEvent (remoteAddress : String) (remotePort : UInt16) (userSid : String) : NetworkEvent :=
  { direction := .value .outbound, protocolType := 6, remoteAddress := .fromWString (wide remoteAddress), remotePort := remotePort
    localAddress := .new .unspec, localPort := 50000, icmp := none, nicInfo := none, user := ⟨wide userSid, []⟩ }

theorem admits_outbound {rule : SWindowsFwRule} {event : NetworkEvent} (hdirection : rule.direction = event.direction)
    (hprotocol : rule.protocol = protocolAny) (hnic : event.nicInfo = none) (hicmp : event.icmp = none)
    (hremote : matchEndpoint rule.remoteAddresses rule.remotePorts event.remoteAddress event.remotePort none = some true)
    (hlocal : matchEndpoint rule.localAddresses rule.localPorts event.localAddress event.localPort none = some true)
    (huser : matchUserAuthorization rule.localUserAuthorizationList event.user) : rule.Admits event := by
  rcases event with ⟨direction, protocolType, remoteAddress, remotePort, localAddress, localPort, icmp, nicInfo, user⟩
  subst hnic
  subst hicmp
  exact ⟨.inr hdirection, .inl hprotocol, fun _ h => (by cases h), hremote, hlocal, huser, fun _ h => (by cases h)⟩

/-- A web server in a network, and a template for the network and the subnet. -/
theorem applies_sound_web : (outboundTo ["8.8.8.0/24", "LocalSubnet"] ["80", "400-500"]).Admits (outboundEvent "8.8.8.8" 443 "S-1-5-18") := by
  have happlies : templateAppliesToRule (some (outboundTo ["8.8.8.0/24", "LocalSubnet"] ["80", "400-500"]))
      (some (outboundTo ["8.8.8.8"] ["443"])) = some true := by decide +kernel
  have hreaches : Reaches (outboundTo ["8.8.8.0/24", "LocalSubnet"] ["80", "400-500"]) (outboundTo ["8.8.8.8"] ["443"]) :=
    .of_plain rfl rfl (by decide +kernel) (by decide) (by decide +kernel) (noKeyword_of_all (by decide)) (by decide)
      (noKeyword_of_all (by decide))
  exact (applies_sound_iff happlies).2 (.inr hreaches) _
    (admits_outbound rfl rfl rfl rfl (by decide +kernel) (by decide +kernel) (by decide +kernel))

/-- A template that is for one user applies to a rule that is for all, one for echo requests to a rule for all
messages, and one with an address behind a keyword to a rule with that address. -/
theorem not_applies_sound :
    (templateAppliesToRule (some { outbound with localUserAuthorizationList := wide "D:(A;;CC;;;S-1-5-21-7)" }) (some outbound) = some true ∧
      outbound.Admits (outboundEvent "8.8.8.8" 443 "S-1-5-21-8") ∧
      ¬ { outbound with localUserAuthorizationList := wide "D:(A;;CC;;;S-1-5-21-7)" }.Admits (outboundEvent "8.8.8.8" 443 "S-1-5-21-8")) ∧
    (templateAppliesToRule (some { outbound with icmpTypesAndCodes := [⟨8, 256⟩] }) (some outbound) = some true ∧
      ¬ { outbound with icmpTypesAndCodes := [⟨8, 256⟩] }.Admits { outboundEvent "8.8.8.8" 443 "S-1-5-18" with icmp := some (3, 0) }) ∧
    (templateAppliesToRule (some (outboundTo ["LocalSubnet", "8.8.8.8"] [])) (some (outboundTo ["8.8.8.8"] [])) = some true ∧
      (outboundTo ["8.8.8.8"] []).Admits (outboundEvent "8.8.8.8" 443 "S-1-5-18") ∧
      ¬ (outboundTo ["LocalSubnet", "8.8.8.8"] []).Admits (outboundEvent "8.8.8.8" 443 "S-1-5-18")) := by
  refine ⟨⟨by decide +kernel, ?_, fun h => ?_⟩, ⟨by decide +kernel, fun h => ?_⟩, ⟨by decide +kernel, ?_, fun h => ?_⟩⟩
  · exact admits_outbound rfl rfl rfl rfl (by decide +kernel) (by decide +kernel) (by decide +kernel)
  · exact absurd h.user (by decide +kernel)
  · exact absurd (h.icmp (3, 0) rfl) (by decide +kernel)
  · exact admits_outbound rfl rfl rfl rfl (by decide +kernel) (by decide +kernel) (by decide +kernel)
  · exact absurd h.remoteEndpoint (by decide +kernel)

end SWindowsFwRule

end MajorPrivacy.Firewall

/-
Which rules a logged event is put down to (`CFirewall::MatchRulesWithEvent`). The local lists of a rule are asked for
the remote endpoint of the event, so the verdict is right when they tell the two endpoints apart for no rule that counts.
-/
import MajorPrivacy.Firewall.Authorization

namespace MajorPrivacy.Firewall

open MajorPrivacy.Variant

/-! ## The search -/

/-- What is read of a `SWinFwLogEvent`. -/
structure SWinFwLogEvent where
  direction : Cast EFwDirections
  protocolType : UInt32
  remoteAddress : CAddress
  remotePort : UInt16
  localAddress : CAddress
  localPort : UInt16
  deriving DecidableEq

def CFirewallRule.hasPrincipalRestriction (rule : CFirewallRule) : Bool := principalEntries rule.principalSddl ≠ []

/-- What the loop of `MatchRulesWithEvent` asks of a rule. -/
def CFirewallRule.applies (rule : CFirewallRule) (event : SWinFwLogEvent) (process : Option User) (nicInfo : Option SAdapterInfo) :
    Option Bool :=
  let data := rule.fwRule
  if rule.isBackup then some false
  else if ¬ data.enabled then some false
  else if data.direction ≠ event.direction then some false
  else if data.protocol ≠ protocolAny ∧ event.protocolType ≠ data.protocol then some false
  else if nicInfo.any fun nic => nic.profile &&& data.profile = 0 then some false
  else if nicInfo.any fun nic => data.interface ≠ interfaceAll ∧ nic.type ≠ data.interface then some false
  else match matchEndpoint data.remoteAddresses data.remotePorts event.remoteAddress event.remotePort nicInfo with
    | none => none
    | some false => some false
    | some true =>
      -- the remote endpoint once more
      match matchEndpoint data.localAddresses data.localPorts event.remoteAddress event.remotePort nicInfo with
      | none => none
      | some false => some false
      | some true => some (!rule.hasPrincipalRestriction || process.any (matchUserAuthorization rule.principalSddl))

/-- `SRuleMatch` with the rules found, and all rules with their hits counted. -/
structure SRuleMatch where
  result : EFwActions
  blockCount : Nat
  allowCount : Nat
  allowRules : List Str
  blockRules : List Str
  rules : List CFirewallRule
  deriving DecidableEq

def SRuleMatch.new : SRuleMatch :=
  { result := .undefined, blockCount := 0, allowCount := 0, allowRules := [], blockRules := [], rules := [] }

/-- A rule that applies. -/
def SRuleMatch.hit (found : SRuleMatch) (rule : CFirewallRule) : SRuleMatch :=
  let found := { found with rules := found.rules ++ [{ rule with hitCount := rule.hitCount + 1 }] }
  if rule.fwRule.action = .value .allow then
    { found with allowCount := found.allowCount + 1, allowRules := found.allowRules ++ [rule.fwRule.guid] }
  else if rule.fwRule.action = .value .block then
    { found with blockCount := found.blockCount + 1, blockRules := found.blockRules ++ [rule.fwRule.guid] }
  else found

/-- The loop; looking for an address can end it. -/
def matchRulesLoop (event : SWinFwLogEvent) (process : Option User) (nicInfo : Option SAdapterInfo) :
    SRuleMatch → List CFirewallRule → Option SRuleMatch
  | found, [] => some found
  | found, rule :: rules =>
    match rule.applies event process nicInfo with
    | none => none
    | some false => matchRulesLoop event process nicInfo { found with rules := found.rules ++ [rule] } rules
    | some true => matchRulesLoop event process nicInfo (found.hit rule) rules

/-- `MatchRulesWithEvent`. -/
def matchRulesWithEvent (rules : List CFirewallRule) (event : SWinFwLogEvent) (process : Option User)
    (nicInfo : Option SAdapterInfo) : Option SRuleMatch :=
  (matchRulesLoop event process nicInfo .new rules).map fun found =>
    if found.blockCount > 0 then { found with result := .block }
    else if found.allowCount > 0 then { found with result := .allow }
    else found

/-! ## What it is to find -/

section Event
variable (event : SWinFwLogEvent) (process : Option User) (nicInfo : Option SAdapterInfo)

/-- The rule is in force and meant for events like this one. -/
structure CFirewallRule.Screened (rule : CFirewallRule) : Prop where
  active : rule.originalGuid = []
  enabled : rule.fwRule.enabled = true
  direction : rule.fwRule.direction = event.direction
  protocol : rule.fwRule.protocol = protocolAny ∨ event.protocolType = rule.fwRule.protocol
  nic : ∀ nic ∈ nicInfo, rule.fwRule.MatchesNic nic

/-- The rule is meant for the event, whatever its local lists say. -/
structure CFirewallRule.Concerns (rule : CFirewallRule) : Prop extends rule.Screened event nicInfo where
  remote : matchEndpoint rule.fwRule.remoteAddresses rule.fwRule.remotePorts event.remoteAddress event.remotePort nicInfo = some true
  user : rule.hasPrincipalRestriction = true → ∃ user ∈ process, matchUserAuthorization rule.principalSddl user = true

/-- There is a rule with this action whose local lists admit an endpoint. -/
def RuleFor (rules : List CFirewallRule) (action : EFwActions) (address : CAddress) (port : UInt16) : Prop :=
  ∃ rule ∈ rules, rule.fwRule.action = .value action ∧ rule.Concerns event process nicInfo ∧
    matchEndpoint rule.fwRule.localAddresses rule.fwRule.localPorts address port nicInfo = some true

/-- A list of the rule is searched for a keyword of an adapter that is not there. -/
def CFirewallRule.Faults (rule : CFirewallRule) : Prop :=
  rule.Screened event nicInfo ∧
    (matchEndpoint rule.fwRule.remoteAddresses rule.fwRule.remotePorts event.remoteAddress event.remotePort nicInfo = none ∨
      matchEndpoint rule.fwRule.remoteAddresses rule.fwRule.remotePorts event.remoteAddress event.remotePort nicInfo = some true ∧
        matchEndpoint rule.fwRule.localAddresses rule.fwRule.localPorts event.remoteAddress event.remotePort nicInfo = none)

end Event

/-- A verdict: blocked by a block rule, else allowed by an allow rule, else neither. -/
structure EFwActions.Reports (result : EFwActions) (blocked allowed : Prop) : Prop where
  block : result = .block ↔ blocked
  allow : result = .allow ↔ ¬ blocked ∧ allowed
  undefined : result = .undefined ↔ ¬ blocked ∧ ¬ allowed

theorem EFwActions.reports_ite {blocked allowed : Prop} [Decidable blocked] [Decidable allowed] :
    (if blocked then EFwActions.block else if allowed then EFwActions.allow else EFwActions.undefined).Reports blocked allowed := by
  by_cases hblock : blocked
  · constructor <;> simp [hblock]
  · by_cases hallow : allowed
    · constructor <;> simp [hblock, hallow]
    · constructor <;> simp [hblock, hallow]

/-- Two grounds for one verdict agree as far as the verdict tells. -/
theorem EFwActions.Reports.iff {result : EFwActions} {blocked allowed blocked' allowed' : Prop} (h : result.Reports blocked allowed) :
    result.Reports blocked' allowed' ↔ (blocked ↔ blocked') ∧ (¬ blocked' → (allowed ↔ allowed')) := by
  constructor
  · intro h'
    have hblock : blocked ↔ blocked' := h.block.symm.trans h'.block
    refine ⟨hblock, fun hnone => ⟨fun hallow => ?_, fun hallow => ?_⟩⟩
    · exact (h'.allow.1 (h.allow.2 ⟨fun hb => hnone (hblock.1 hb), hallow⟩)).2
    · exact (h.allow.1 (h'.allow.2 ⟨hnone, hallow⟩)).2
  · rintro ⟨hblock, hallow⟩
    rw [← hblock] at hallow ⊢
    exact ⟨h.block, h.allow.trans (and_congr_right hallow),
      h.undefined.trans (and_congr_right fun hnone => not_congr (hallow hnone))⟩

/-! ## What it finds -/

section Rules
variable {event : SWinFwLogEvent} {process : Option User} {nicInfo : Option SAdapterInfo} {rule : CFirewallRule}

/-- A rule that is not meant for the event does not apply, and the lists of one that is decide. -/
theorem CFirewallRule.applies_cases :
    (¬ rule.Screened event nicInfo ∧ rule.applies event process nicInfo = some false) ∨
      (rule.Screened event nicInfo ∧ rule.applies event process nicInfo =
        match matchEndpoint rule.fwRule.remoteAddresses rule.fwRule.remotePorts event.remoteAddress event.remotePort nicInfo with
        | none => none
        | some false => some false
        | some true =>
          match matchEndpoint rule.fwRule.localAddresses rule.fwRule.localPorts event.remoteAddress event.remotePort nicInfo with
          | none => none
          | some false => some false
          | some true => some (!rule.hasPrincipalRestriction || process.any (matchUserAuthorization rule.principalSddl))) := by
  unfold applies
  dsimp only
  by_cases hbackup : rule.isBackup = true
  · rw [if_pos hbackup]
    exact .inl ⟨fun h => by simp [isBackup, h.active] at hbackup, rfl⟩
  rw [if_neg hbackup]
  by_cases henabled : rule.fwRule.enabled = true
  case neg =>
    rw [if_pos henabled]
    exact .inl ⟨fun h => henabled h.enabled, rfl⟩
  rw [if_neg (not_not.2 henabled)]
  by_cases hdirection : rule.fwRule.direction = event.direction
  case neg =>
    rw [if_pos hdirection]
    exact .inl ⟨fun h => hdirection h.direction, rfl⟩
  rw [if_neg (not_not.2 hdirection)]
  by_cases hprotocol : rule.fwRule.protocol ≠ protocolAny ∧ event.protocolType ≠ rule.fwRule.protocol
  · rw [if_pos hprotocol]
    exact .inl ⟨fun h => h.protocol.elim hprotocol.1 hprotocol.2, rfl⟩
  rw [if_neg hprotocol]
  by_cases hprofile : (nicInfo.any fun nic => nic.profile &&& rule.fwRule.profile = 0) = true
  · rw [if_pos hprofile]
    rcases (Option.any_eq_true _ _).1 hprofile with ⟨nic, hnic, hnone⟩
    exact .inl ⟨fun h => (h.nic nic hnic).1 (of_decide_eq_true hnone), rfl⟩
  rw [if_neg hprofile]
  by_cases hinterface : (nicInfo.any fun nic => rule.fwRule.interface ≠ interfaceAll ∧ nic.type ≠ rule.fwRule.interface) = true
  · rw [if_pos hinterface]
    rcases (Option.any_eq_true _ _).1 hinterface with ⟨nic, hnic, hother⟩
    have hother := of_decide_eq_true hother
    exact .inl ⟨fun h => (h.nic nic hnic).2.elim hother.1 hother.2, rfl⟩
  rw [if_neg hinterface]
  refine .inr ⟨⟨by simpa [isBackup] using hbackup, henabled, hdirection, ?_, ?_⟩, rfl⟩
  · by_contra hother
    exact hprotocol (not_or.1 hother)
  · rintro nic hnic
    constructor
    · intro hnone
      exact hprofile ((Option.any_eq_true _ _).2 ⟨nic, hnic, decide_eq_true hnone⟩)
    · by_contra hother
      exact hinterface ((Option.any_eq_true _ _).2 ⟨nic, hnic, decide_eq_true (not_or.1 hother)⟩)

theorem CFirewallRule.applies_eq_none : rule.applies event process nicInfo = none ↔ rule.Faults event nicInfo := by
  unfold Faults
  rcases @applies_cases event process nicInfo rule with ⟨hscreened, heq⟩ | ⟨hscreened, heq⟩
  · simp [heq, hscreened]
  · rw [heq]
    rcases matchEndpoint rule.fwRule.remoteAddresses rule.fwRule.remotePorts event.remoteAddress event.remotePort nicInfo with
      _ | _ | _
    · simp [hscreened]
    · simp
    · rcases matchEndpoint rule.fwRule.localAddresses rule.fwRule.localPorts event.remoteAddress event.remotePort nicInfo with
        _ | _ | _
      · simp [hscreened]
      · simp
      · simp

theorem CFirewallRule.applies_eq_true : rule.applies event process nicInfo = some true ↔ rule.Concerns event process nicInfo ∧
    matchEndpoint rule.fwRule.localAddresses rule.fwRule.localPorts event.remoteAddress event.remotePort nicInfo = some true := by
  have huser : (!rule.hasPrincipalRestriction || process.any (matchUserAuthorization rule.principalSddl)) = true ↔
      (rule.hasPrincipalRestriction = true → ∃ user ∈ process, matchUserAuthorization rule.principalSddl user = true) := by
    rw [Bool.or_eq_true, Bool.not_eq_true', Option.any_eq_true]
    cases rule.hasPrincipalRestriction <;> simp
  rcases @applies_cases event process nicInfo rule with ⟨hscreened, heq⟩ | ⟨hscreened, heq⟩
  · rw [heq]
    exact iff_of_false (by simp) fun h => hscreened h.1.toScreened
  · rw [heq]
    constructor
    · intro h
      split at h
      case h_3 hremote =>
        split at h
        case h_3 hlocal => exact ⟨⟨hscreened, hremote, huser.1 (Option.some.inj h)⟩, hlocal⟩
        all_goals cases h
      all_goals cases h
    · rintro ⟨hconcerns, hlocal⟩
      rw [hconcerns.remote, hlocal]
      exact congrArg some (huser.2 hconcerns.user)

/-! ### Over all rules -/

/-- The rules with this action that apply. -/
def CFirewallRule.appliesAs (rule : CFirewallRule) (event : SWinFwLogEvent) (process : Option User) (nicInfo : Option SAdapterInfo)
    (action : EFwActions) : Bool :=
  rule.fwRule.action = .value action ∧ rule.applies event process nicInfo = some true

theorem exists_appliesAs {rules : List CFirewallRule} {action : EFwActions} :
    0 < rules.countP (·.appliesAs event process nicInfo action) ↔
      RuleFor event process nicInfo rules action event.remoteAddress event.remotePort := by
  rw [List.countP_pos_iff]
  refine exists_congr fun rule => and_congr_right fun _ => ?_
  unfold CFirewallRule.appliesAs
  rw [decide_eq_true_iff, CFirewallRule.applies_eq_true]

theorem SRuleMatch.hit_counts (found : SRuleMatch) (happlies : rule.applies event process nicInfo = some true) :
    (found.hit rule).blockCount = found.blockCount + [rule].countP (·.appliesAs event process nicInfo .block) ∧
      (found.hit rule).allowCount = found.allowCount + [rule].countP (·.appliesAs event process nicInfo .allow) := by
  unfold hit
  rcases haction : rule.fwRule.action with (_ | _ | _) | n
  all_goals simp [CFirewallRule.appliesAs, happlies, haction]

/-- The loop counts the rules that apply, unless it faults. -/
theorem matchRulesLoop_counts : ∀ {rules : List CFirewallRule} {found : SRuleMatch}, (∀ rule ∈ rules, ¬ rule.Faults event nicInfo) →
    ∃ last, matchRulesLoop event process nicInfo found rules = some last ∧ last.result = found.result ∧
      last.blockCount = found.blockCount + rules.countP (·.appliesAs event process nicInfo .block) ∧
      last.allowCount = found.allowCount + rules.countP (·.appliesAs event process nicInfo .allow)
  | [], found, _ => ⟨found, rfl, rfl, rfl, rfl⟩
  | rule :: rules, found, hfaults => by
    have hrest : ∀ other ∈ rules, ¬ other.Faults event nicInfo := fun other hmem => hfaults other (List.mem_cons_of_mem _ hmem)
    have hcons : ∀ action, (rule :: rules).countP (·.appliesAs event process nicInfo action) =
        [rule].countP (·.appliesAs event process nicInfo action) + rules.countP (·.appliesAs event process nicInfo action) :=
      fun action => @List.countP_append _ _ [rule] rules
    unfold matchRulesLoop
    rcases happlies : rule.applies event process nicInfo with _ | _ | _
    · exact absurd (CFirewallRule.applies_eq_none.1 happlies) (hfaults rule List.mem_cons_self)
    · rcases @matchRulesLoop_counts rules { found with rules := found.rules ++ [rule] } hrest with ⟨last, hloop, hresult, hblock, hallow⟩
      refine ⟨last, hloop, hresult, ?_, ?_⟩
      · rw [hblock, hcons]
        simp [CFirewallRule.appliesAs, happlies]
      · rw [hallow, hcons]
        simp [CFirewallRule.appliesAs, happlies]
    · rcases @matchRulesLoop_counts rules (found.hit rule) hrest with ⟨last, hloop, hresult, hblock, hallow⟩
      have hhit := found.hit_counts happlies
      refine ⟨last, hloop, ?_, ?_, ?_⟩
      · rw [hresult]
        unfold SRuleMatch.hit
        dsimp only
        split_ifs <;> rfl
      · rw [hblock, hhit.1, hcons, Nat.add_assoc]
      · rw [hallow, hhit.2, hcons, Nat.add_assoc]

theorem matchRulesLoop_eq_none : ∀ {rules : List CFirewallRule} {found : SRuleMatch}, (∃ rule ∈ rules, rule.Faults event nicInfo) →
    matchRulesLoop event process nicInfo found rules = none
  | [], _, h => by
    rcases h with ⟨_, hmem, -⟩
    cases hmem
  | rule :: rules, found, h => by
    unfold matchRulesLoop
    rcases happlies : rule.applies event process nicInfo with _ | applies
    · rfl
    · have hrest : ∃ other ∈ rules, other.Faults event nicInfo := by
        rcases h with ⟨other, hmem, hfaults⟩
        rcases List.mem_cons.1 hmem with rfl | hmem
        · rw [CFirewallRule.applies_eq_none.2 hfaults] at happlies
          cases happlies
        · exact ⟨other, hmem, hfaults⟩
      cases applies with
      | false => exact matchRulesLoop_eq_none hrest
      | true => exact matchRulesLoop_eq_none hrest

/-- The verdict goes by the rules whose local lists admit the remote endpoint. -/
theorem matchRulesWithEvent_remote {rules : List CFirewallRule} (h : ∀ rule ∈ rules, ¬ rule.Faults event nicInfo) :
    ∃ found, matchRulesWithEvent rules event process nicInfo = some found ∧ found.result.Reports
      (RuleFor event process nicInfo rules .block event.remoteAddress event.remotePort)
      (RuleFor event process nicInfo rules .allow event.remoteAddress event.remotePort) := by
  rcases @matchRulesLoop_counts event process nicInfo rules .new h with ⟨last, hloop, hresult, hblock, hallow⟩
  have hblock : 0 < last.blockCount ↔ RuleFor event process nicInfo rules .block event.remoteAddress event.remotePort := by
    rw [hblock, ← exists_appliesAs]
    simp [SRuleMatch.new]
  have hallow : 0 < last.allowCount ↔ RuleFor event process nicInfo rules .allow event.remoteAddress event.remotePort := by
    rw [hallow, ← exists_appliesAs]
    simp [SRuleMatch.new]
  refine ⟨_, by rw [matchRulesWithEvent, hloop, Option.map_some], ?_⟩
  have hverdict : (if last.blockCount > 0 then { last with result := .block }
      else if last.allowCount > 0 then { last with result := .allow } else last).result =
      if 0 < last.blockCount then .block else if 0 < last.allowCount then .allow else .undefined := by
    split_ifs
    · rfl
    · rfl
    · exact hresult
  rw [← hblock, ← hallow, hverdict]
  exact EFwActions.reports_ite

end Rules

/-- The verdict is the one of the rules that apply if no search faults, and for the action that decides the local lists
of the rules do not tell the two endpoints apart: some rule admits the one where some rule admits the other. -/
theorem matchRulesWithEvent_reports (rules : List CFirewallRule) (event : SWinFwLogEvent) (process : Option User)
    (nicInfo : Option SAdapterInfo) :
    (∃ found, matchRulesWithEvent rules event process nicInfo = some found ∧ found.result.Reports
        (RuleFor event process nicInfo rules .block event.localAddress event.localPort)
        (RuleFor event process nicInfo rules .allow event.localAddress event.localPort)) ↔
      (∀ rule ∈ rules, ¬ rule.Faults event nicInfo) ∧
        (RuleFor event process nicInfo rules .block event.remoteAddress event.remotePort ↔
          RuleFor event process nicInfo rules .block event.localAddress event.localPort) ∧
        (¬ RuleFor event process nicInfo rules .block event.localAddress event.localPort →
          (RuleFor event process nicInfo rules .allow event.remoteAddress event.remotePort ↔
            RuleFor event process nicInfo rules .allow event.localAddress event.localPort)) := by
  by_cases hfaults : ∃ rule ∈ rules, rule.Faults event nicInfo
  · refine iff_of_false ?_ fun h => ?_
    · rintro ⟨found, hfound, -⟩
      rw [matchRulesWithEvent, matchRulesLoop_eq_none hfaults] at hfound
      cases hfound
    · rcases hfaults with ⟨rule, hmem, hfault⟩
      exact h.1 rule hmem hfault
  · have hfaults : ∀ rule ∈ rules, ¬ rule.Faults event nicInfo := fun rule hmem hfault => hfaults ⟨rule, hmem, hfault⟩
    rcases @matchRulesWithEvent_remote event process nicInfo rules hfaults with ⟨found, hfound, hreports⟩
    rw [and_iff_right hfaults, ← hreports.iff]
    constructor
    · rintro ⟨other, hother, hreports'⟩
      rw [hfound] at hother
      cases hother
      exact hreports'
    · exact fun hreports' => ⟨found, hfound, hreports'⟩

/-- A rule for the local port 80 blocks a connection from the port 443 of another host, and is not found. -/
theorem not_matchRulesWithEvent_reports : ¬ ∀ (rules : List CFirewallRule) (event : SWinFwLogEvent) (process : Option User)
    (nicInfo : Option SAdapterInfo), ∃ found, matchRulesWithEvent rules event process nicInfo = some found ∧ found.result.Reports
      (RuleFor event process nicInfo rules .block event.localAddress event.localPort)
      (RuleFor event process nicInfo rules .allow event.localAddress event.localPort) := by
  intro h
  let rule : CFirewallRule :=
    { CFirewallRule.new with
      fwRule := { SWindowsFwRule.new with enabled := true, action := .value .block, direction := .value .inbound, localPorts := [wide "80"] } }
  let event : SWinFwLogEvent :=
    { direction := .value .inbound, protocolType := 6, remoteAddress := .new .inet, remotePort := 443, localAddress := .new .inet
      localPort := 80 }
  have hfound : (matchRulesWithEvent [rule] event none none).map (·.result) = some .undefined := by decide
  rcases h [rule] event none none with ⟨found, heq, hreports⟩
  rw [heq] at hfound
  have hblock : found.result = .block := hreports.block.2 ⟨rule, List.mem_singleton_self rule, rfl,
    ⟨⟨rfl, rfl, rfl, .inl rfl, fun _ hnic => by cases hnic⟩, by decide, fun hrestricted => absurd hrestricted (by decide)⟩, by decide⟩
  rw [Option.map_some, hblock] at hfound
  cases hfound

end MajorPrivacy.Firewall

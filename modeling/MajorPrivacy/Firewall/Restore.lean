/-
A rule is put back from its backup (`CFirewall::RestoreRule`). The rule that is there is dropped before Windows is
asked, and one comes back only where Windows shows what it holds; its list of users is then the one of the backup.
-/
import MajorPrivacy.Firewall.RuleMap
import MajorPrivacy.Firewall.WindowsFirewall

namespace MajorPrivacy.Firewall

/-! ## The service -/

/-- A rule that `IsBackup`. -/
structure Backup where
  rule : CFirewallRule
  isBackup : rule.originalGuid ≠ []

/-- What is left: the status, the rules, Windows, and how often the error count of the backup went up. -/
structure Restored where
  status : STATUS
  rules : RuleMap
  windows : WindowsFirewall
  setErrors : Nat

section Restore

variable (p : Platform) (m : RuleMap) (w : WindowsFirewall) (a : Answers) (backup : Backup) (bApprove : Bool)

/-- The rule that is to be there again (`pFwRule`). -/
def Backup.restored : CFirewallRule :=
  let r := (CFirewallRule.ofFwRule p backup.rule.fwRule).update backup.rule
  { r with
    state := if bApprove then .value .eApproved else r.state
    fwRule := { r.fwRule with guid := backup.rule.originalGuid }
    originalGuid := [] }

end Restore

namespace RuleMap

variable {m : RuleMap} {guid : Str} {r : CFirewallRule} {backup : Backup}

end RuleMap

/-! ## Rules and Windows in step -/

/-- The service has under a guid what Windows holds there; a position is nothing Windows has. -/
def InStep (m : RuleMap) (w : WindowsFirewall) (guid : Str) : Prop :=
  (m.find guid).map (fun r => { r.fwRule with index := 0 }) = w.rule guid

/-- The backup is among the rules. -/
def RuleMap.Has (m : RuleMap) (backup : Backup) : Prop := m.find backup.rule.fwRule.guid = some backup.rule

/-- The service and Windows are in step under the original guid, and no error takes the backup away. -/
structure Restored.Sound (restored : Restored) (m : RuleMap) (backup : Backup) : Prop where
  inStep : InStep restored.rules restored.windows backup.rule.originalGuid
  kept : restored.status ≠ .ok → m.Has backup → restored.rules.Has backup

namespace Backup

/-- The rule Windows is asked to hold. -/
def wanted (backup : Backup) : SWindowsFwRule :=
  { backup.rule.fwRule with localUserAuthorizationList := backup.rule.principalSddl }

/-- What Windows shows is taken for the rule: all of it agrees, or program and action do. -/
def Takes (p : Platform) (backup : Backup) (data : SWindowsFwRule) : Prop :=
  ruleMatch data backup.wanted = true ∨
    (CFirewallRule.ofFwRule p backup.rule.fwRule).matchProgramID p data = true ∧ data.action = backup.rule.fwRule.action

/-- The backup is apart from the rule it was taken from. -/
def Apart (backup : Backup) : Prop := guidKey backup.rule.fwRule.guid ≠ guidKey backup.rule.originalGuid

end Backup

section Outcomes

variable (p : Platform) (m : RuleMap) (w : WindowsFirewall) (a : Answers) (backup : Backup) (bApprove : Bool)

/-- Where the service is left without a rule Windows is too, and where it has one it is that of Windows: what an
accepted write leaves has the very list of users of the backup, or is removed if it is not taken for the rule. -/
def Settles : Prop :=
  if a.accepts (w.knows backup.rule.originalGuid) then
    if a.canQuery = true ∧ a.shows then
      ∀ data ∈ a.kept, (backup.Takes p data → data.localUserAuthorizationList = backup.rule.principalSddl) ∧
        (¬ backup.Takes p data → a.removes)
    else a.kept = none
  else w.held backup.rule.originalGuid = none

/-- Windows refuses the write, does not answer the query, or shows another rule. -/
def Fails : Prop :=
  ¬ a.accepts (w.knows backup.rule.originalGuid) ∨ a.canQuery = false ∨
    a.shows ∧ ∃ data ∈ a.kept, ¬ ruleMatch data backup.wanted = true

variable {p m w a backup bApprove}

end Outcomes

/-! ### A write that is refused -/

/-- The rule as it was. -/
def oldRule : Backup where
  rule := { CFirewallRule.new with
    fwRule := { SWindowsFwRule.new with guid := wide "backup", name := wide "old" }, originalGuid := wide "rule" }
  isBackup := by decide

end MajorPrivacy.Firewall

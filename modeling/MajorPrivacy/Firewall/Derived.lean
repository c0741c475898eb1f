/-
The rules made from a template, and those taken over by it (`SetTempalte`, `SyncDerivedRulesUnsafe`): what the template
says, they say. A rule the template no longer reaches is deleted if it was made, and let go of if it was taken over.
-/
import MajorPrivacy.Firewall.Templates
import MajorPrivacy.Firewall.WindowsFirewall

namespace MajorPrivacy.Firewall

/-! ## Rules for one program -/

/-- `StrReplaceAll`. -/
def strReplaceAll (source target : Str) : Str → Str
  | [] => []
  | c :: str =>
    if source ≠ [] ∧ source.isPrefixOf (c :: str) then target ++ strReplaceAll source target (str.drop (source.length - 1))
    else c :: strReplaceAll source target str
  termination_by str => str.length

/-- `MakeDerivedRuleData`. -/
def makeDerivedRuleData (template : SWindowsFwRule) (binaryPath : Str) (direction : Cast EFwDirections) : SWindowsFwRule :=
  { template with
    guid := []
    binaryPath := binaryPath
    name := strReplaceAll (wide "MajorPrivacy-Template") (wide "MajorPrivacy-Rule") template.name
    direction := if template.direction = .value .bidirectional then direction else template.direction }

/-- A rule is under the template with a guid (`GetDerivedRulesUnsafe`). -/
structure CFirewallRule.LinkedTo (r : CFirewallRule) (templateGuid : Str) : Prop where
  rule : r.isTemplate = false
  active : r.isBackup = false
  link : r.templateGuid = templateGuid

instance (r : CFirewallRule) (templateGuid : Str) : Decidable (r.LinkedTo templateGuid) :=
  decidable_of_iff (r.isTemplate = false ∧ r.isBackup = false ∧ r.templateGuid = templateGuid)
    ⟨fun h => ⟨h.1, h.2.1, h.2.2⟩, fun h => ⟨h.rule, h.active, h.link⟩⟩

/-- How Windows answers: a write and the query that tests it, another query for what was written, a removal. -/
structure Oracle where
  write : SWindowsFwRule → Answers
  reload : Str → Answers
  remove : Str → Answers

inductive EConfigEvent
  | eAdded | eModified | eRemoved
  deriving DecidableEq

structure SRuleChange where
  guid : Str
  name : Str
  event : EConfigEvent
  deriving DecidableEq

/-- The rules, Windows, and the changes there were. -/
structure Sync where
  fw : CFirewall
  windows : WindowsFirewall
  changes : List SRuleChange

section Sync

variable (p : Platform) (o : Oracle) (template : CFirewallRule)

/-- The lifetime of the template, for a rule. -/
def stamp (r : CFirewallRule) : CFirewallRule := { r with uTimeOut := template.uTimeOut, bTemporary := template.bTemporary }

/-- The object under a guid gets the lifetime of the template. -/
def CFirewall.stampUnder (fw : CFirewall) (guid : Str) : CFirewall :=
  match fw.rules.find guid with
  | some r => { fw with rules := fw.rules.set (stamp template r) }
  | none => fw

/-- The rule is in the rules as Windows has it now. -/
def Sync.written (s : Sync) (data : SWindowsFwRule) : Sync :=
  { s with
    fw := (s.fw.updateFWRule p data).stampUnder template data.guid
    changes := s.changes ++ [⟨data.guid, data.name, .eModified⟩] }

/-- What a rule under the template is to be in Windows. -/
def followed (r : CFirewallRule) : SWindowsFwRule :=
  { makeDerivedRuleData template.fwRule r.fwRule.binaryPath r.fwRule.direction with
    guid := r.fwRule.guid, name := r.fwRule.name, description := r.fwRule.description }

/-- The template points in the direction of a rule. -/
def Points (r : CFirewallRule) : Prop :=
  template.fwRule.direction = .value .bidirectional ∨ template.fwRule.direction = r.fwRule.direction

instance (r : CFirewallRule) : Decidable (Points template r) := inferInstanceAs (Decidable (_ ∨ _))

end Sync

/-! ## SetTempalte -/

/-- A rule that the template could have made. -/
def couldHaveMade (data : SWindowsFwRule) (taken : CFirewallRule) : Bool :=
  !taken.isTemplate && !taken.isBackup && taken.fwRule.serviceTag = [] && taken.fwRule.appContainerSid = [] &&
    taken.fwRule.packageFamilyName = [] && taken.fwRule.action = data.action &&
    (data.direction = .value .bidirectional || data.direction = taken.fwRule.direction)

/-- A rule is taken over, if it could have been made. -/
def takeOverRule (data : SWindowsFwRule) (s : RuleMap × List SRuleChange) (guid : Str) : RuleMap × List SRuleChange :=
  match s.1.find guid with
  | some taken =>
    if couldHaveMade data taken then
      (s.1.set { taken with templateGuid := data.guid }, s.2 ++ [⟨taken.fwRule.guid, taken.fwRule.name, .eModified⟩])
    else s
  | none => s

end MajorPrivacy.Firewall

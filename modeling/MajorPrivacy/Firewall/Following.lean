/-
Rules follow their template. Where Windows accepts every write, a rule under a template that `SetTempalte` sets is what
the template says afterwards, or is under it no more. A rule whose object was loaded with the data of another program
is replaced when it is written, and loses its link.
-/
import MajorPrivacy.Firewall.Derived

namespace MajorPrivacy.Firewall

/-! ## Windows accepts every write -/

/-- Writes and removals go through, and a rule that is read back is what was written. -/
structure Oracle.Accepts (o : Oracle) : Prop where
  writes : ∀ data known, (o.write data).accepts known
  kept : ∀ data, (o.write data).kept = some data
  queries : ∀ data, (o.write data).canQuery = true
  shows : ∀ data, (o.write data).shows
  removes : ∀ id, (o.remove id).removes

namespace Oracle.Accepts

variable {o : Oracle} {w : WindowsFirewall} {data : SWindowsFwRule}

theorem removeRule (ha : o.Accepts) (w : WindowsFirewall) (id : Str) :
    ∃ windows, w.removeRule (o.remove id) id = (.ok, windows) := by
  rcases ha.removes id with ⟨hcan, hdelete⟩
  have hgone : ¬ ((o.remove id).deleteRule ≠ errorRuleNotFound ∧ (o.remove id).deleteRule ≠ 0) := by tauto
  unfold WindowsFirewall.removeRule
  rw [if_neg (not_not_intro hcan), if_neg hgone]
  split
  · exact ⟨_, rfl⟩
  · exact ⟨_, rfl⟩

end Oracle.Accepts

/-! ## One round -/

section Round

variable {p : Platform} {o : Oracle} {template r : CFirewallRule} {out : Option CFirewallRule} {fw : CFirewall} {guid : Str} {key : List Nat}

/-- The template reaches a rule, by direction and, unless it is switched off, by pattern. -/
def Covered (template r : CFirewallRule) : Prop :=
  Points template r ∧ (template.fwRule.enabled = true → Reaches (cStr template.binaryPath) (cStr r.programID.filePath))

/-- What becomes of a rule under the template. -/
inductive Outcome (p : Platform) (template r : CFirewallRule) : Option CFirewallRule → Prop
  | same (hcovers : Covered template r) (h : ruleMatch r.fwRule (followed template r) = true) : Outcome p template r (some (stamp template r))
  | written (hcovers : Covered template r) (h : ¬ ruleMatch r.fwRule (followed template r) = true) (index : Int32) :
    Outcome p template r (some (stamp template (CFirewall.updated p r ((followed template r).placed index))))
  | gone (hcovers : ¬ Covered template r) (h : r.source = .value .eAutoTemplate) : Outcome p template r none
  | released (hcovers : ¬ Covered template r) (h : r.source ≠ .value .eAutoTemplate) :
    Outcome p template r (some { r with templateGuid := [] })

theorem direction_followed (template r : CFirewallRule) : (followed template r).direction =
    if template.fwRule.direction = .value .bidirectional then r.fwRule.direction else template.fwRule.direction := rfl

theorem Covered.placed (h : Covered template r) (index : Int32) :
    Covered template (stamp template (r.setFwRule ((followed template r).placed index))) := by
  refine ⟨?_, h.2⟩
  have hdirection : Points template (stamp template (r.setFwRule ((followed template r).placed index))) =
    (template.fwRule.direction = .value .bidirectional ∨ template.fwRule.direction = (followed template r).direction) := rfl
  rw [hdirection, direction_followed]
  split
  · rename_i hboth
    exact .inl hboth
  · exact .inr rfl

end Round

/-! ## The rules that come under a template -/

/-- A rule that is taken over. -/
def taken (data : SWindowsFwRule) (takeOver : List Str) (r : CFirewallRule) : Bool :=
  takeOver.any (fun guid => guidKey guid = guidKey r.fwRule.guid) && couldHaveMade data r

/-- A rule that is linked to the template, or is taken over. -/
def ComesUnder (data : SWindowsFwRule) (takeOver : List Str) (r : CFirewallRule) : Prop :=
  r.LinkedTo data.guid ∨ taken data takeOver r = true

/-- A rule with the link to a template. -/
def CFirewallRule.linkedTo (r : CFirewallRule) (templateGuid : Str) : CFirewallRule := { r with templateGuid := templateGuid }

section TakeOver

variable {data : SWindowsFwRule} {r : CFirewallRule} {fw : CFirewall} {key : List Nat}

theorem couldHaveMade_iff : couldHaveMade data r = true ↔ r.isTemplate = false ∧ r.isBackup = false ∧ r.fwRule.serviceTag = [] ∧
    r.fwRule.appContainerSid = [] ∧ r.fwRule.packageFamilyName = [] ∧ r.fwRule.action = data.action ∧
      (data.direction = .value .bidirectional ∨ data.direction = r.fwRule.direction) := by
  simp [couldHaveMade, and_assoc]

/-- The rules after one was taken over, or not. -/
theorem get_takeOverRule (data : SWindowsFwRule) (s : RuleMap × List SRuleChange) (guid : Str) :
    (takeOverRule data s guid).1.get key = (s.1.get key).map fun r => if taken data [guid] r then r.linkedTo data.guid else r := by
  have hsame : ∀ m : Option CFirewallRule, (∀ r ∈ m, taken data [guid] r = false) →
      m = m.map fun r => if taken data [guid] r then r.linkedTo data.guid else r := by
    intro m h
    rcases m with _ | r
    · rfl
    · rw [Option.map_some, h r rfl]
      rfl
  have hother : guidKey guid ≠ key → ∀ r ∈ s.1.get key, taken data [guid] r = false := by
    intro hkey r hr
    have hne : guidKey guid ≠ guidKey r.fwRule.guid := by
      rw [RuleMap.guidKey_of_get hr]
      exact hkey
    simp [taken, hne]
  unfold takeOverRule
  rcases hr : s.1.find guid with _ | r
  · refine hsame _ ?_
    by_cases hkey : guidKey guid = key
    · rw [← hkey, show s.1.get (guidKey guid) = none from hr]
      exact fun _ h => nomatch h
    · exact hother hkey
  · have hguid := RuleMap.guidKey_of_find hr
    have htaken : taken data [guid] r = couldHaveMade data r := by simp [taken, hguid]
    by_cases hcould : couldHaveMade data r = true
    · simp only [hcould, if_true]
      have hr' : s.1.find (r.linkedTo data.guid).fwRule.guid = some r := (RuleMap.find_congr hguid).trans hr
      refine (RuleMap.get_set hr').trans ?_
      rw [show guidKey (r.linkedTo data.guid).fwRule.guid = guidKey guid from hguid]
      by_cases hkey : guidKey guid = key
      · rw [if_pos hkey, ← hkey, show s.1.get (guidKey guid) = some r from hr, Option.map_some, htaken, hcould]
        rfl
      · rw [if_neg hkey]
        exact hsame _ (hother hkey)
    · simp only [hcould, if_false, Bool.false_eq_true]
      refine hsame _ ?_
      by_cases hkey : guidKey guid = key
      · rw [← hkey, show s.1.get (guidKey guid) = some r from hr]
        intro r' h
        cases h
        rw [htaken]
        exact Bool.eq_false_iff.2 hcould
      · exact hother hkey

/-- The rules after some were taken over. -/
theorem get_takeOver (data : SWindowsFwRule) (key : List Nat) : ∀ (takeOver : List Str) (s : RuleMap × List SRuleChange),
    (takeOver.foldl (takeOverRule data) s).1.get key = (s.1.get key).map fun r => if taken data takeOver r then r.linkedTo data.guid else r
  | [], s => by simp [taken]
  | guid :: takeOver, s => by
    rw [List.foldl_cons, get_takeOver data key takeOver, get_takeOverRule, Option.map_map]
    refine congrArg (Option.map · _) (funext fun r => ?_)
    have hcons : taken data (guid :: takeOver) r = (taken data [guid] r || taken data takeOver r) := by
      simp [taken, Bool.and_or_distrib_right]
    have hlinked : taken data takeOver (r.linkedTo data.guid) = taken data takeOver r := rfl
    rw [Function.comp_apply, hcons]
    by_cases htaken : taken data [guid] r = true
    · simp only [htaken, Bool.true_or, if_true, hlinked]
      split
      · rfl
      · rfl
    · simp only [htaken, Bool.false_or, if_false, Bool.false_eq_true]

theorem linkedTo_taken_iff (takeOver : List Str) :
    (if taken data takeOver r then r.linkedTo data.guid else r).LinkedTo data.guid ↔ ComesUnder data takeOver r := by
  unfold ComesUnder
  by_cases htaken : taken data takeOver r = true
  · rw [if_pos htaken]
    rcases couldHaveMade_iff.1 (Bool.and_eq_true_iff.1 htaken).2 with ⟨hrule, hactive, -⟩
    exact iff_of_true ⟨hrule, hactive, rfl⟩ (.inr htaken)
  · rw [if_neg htaken]
    exact (or_iff_left htaken).symm

theorem ComesUnder.linked {takeOver : List Str} (h : ComesUnder data takeOver r) :
    (if taken data takeOver r then r.linkedTo data.guid else r) = r.linkedTo data.guid := by
  split
  · rfl
  · rename_i hfree
    rw [CFirewallRule.linkedTo, ← (h.resolve_right hfree).link]

theorem ComesUnder.link {takeOver : List Str} (h : ComesUnder data takeOver r) : (r.linkedTo data.guid).LinkedTo data.guid := by
  rw [← h.linked]
  exact (linkedTo_taken_iff takeOver).2 h

theorem inv_takeOver : ∀ (takeOver : List Str) (s : RuleMap × List SRuleChange), ({ fw with rules := s.1 } : CFirewall).Inv →
    ({ fw with rules := (takeOver.foldl (takeOverRule data) s).1 } : CFirewall).Inv
  | [], _, hi => hi
  | guid :: takeOver, s, hi => by
    rw [List.foldl_cons]
    refine inv_takeOver takeOver _ ?_
    unfold takeOverRule
    rcases hr : s.1.find guid with _ | r
    · exact hi
    · dsimp only
      split
      · have hr' : s.1.find r.fwRule.guid = some r := (RuleMap.find_congr (RuleMap.guidKey_of_find hr)).trans hr
        exact hi.set (r := r.linkedTo data.guid) hr' (hi.named _ r hr) rfl rfl
          ⟨fun h => ⟨h.template, h.enabled, h.storable⟩, fun h => ⟨h.template, h.enabled, h.storable⟩⟩
      · exact hi

end TakeOver

section SetTempalte

variable {p : Platform} {o : Oracle} {fw : CFirewall} {old pFwRule : CFirewallRule}

/-- What a template becomes that is set. -/
def CFirewallRule.setTo (p : Platform) (old pFwRule : CFirewallRule) : CFirewallRule :=
  (CFirewall.updated p old pFwRule.fwRule).update pFwRule

/-- The template is there as it was set, and the rules that come under it follow it or are let go of. -/
structure Follows (template : CFirewallRule) (data : SWindowsFwRule) (takeOver : List Str) (before after : RuleMap) : Prop where
  kept : after.find data.guid = some template
  synced : ∀ r, after.find r.fwRule.guid = some r → r.LinkedTo data.guid →
    Covered template r ∧ ruleMatch r.fwRule (followed template r) = true ∧ r.uTimeOut = template.uTimeOut ∧ r.bTemporary = template.bTemporary
  linked : ∀ r, before.find r.fwRule.guid = some r → ComesUnder data takeOver r → Covered template r →
    ∃ r', after.find r.fwRule.guid = some r' ∧ r'.LinkedTo data.guid
  gone : ∀ r, before.find r.fwRule.guid = some r → ComesUnder data takeOver r → ¬ Covered template r →
    r.source = .value .eAutoTemplate → after.find r.fwRule.guid = none
  released : ∀ r, before.find r.fwRule.guid = some r → ComesUnder data takeOver r → ¬ Covered template r →
    r.source ≠ .value .eAutoTemplate → after.find r.fwRule.guid = some (r.linkedTo [])

theorem isTemplate_updated (htemplate : old.isTemplate = true) {data : SWindowsFwRule}
    (hstays : (CFirewallRule.ofFwRule p data).isTemplate = true) : (CFirewall.updated p old data).isTemplate = true := by
  unfold CFirewall.updated
  split
  · exact htemplate
  · exact hstays

/-- The rules after the template was set and others were taken over, before the rounds. -/
theorem set_spec (takeOver : List Str) (hi : fw.Inv) (hold : fw.rules.find pFwRule.fwRule.guid = some old) (hnamed : pFwRule.fwRule.guid ≠ [])
    (htemplate : old.isTemplate = true) (hstays : (CFirewallRule.ofFwRule p pFwRule.fwRule).isTemplate = true) :
    let rules := (takeOver.foldl (takeOverRule pFwRule.fwRule) ((fw.updateFWRule p pFwRule.fwRule).rules.set (old.setTo p pFwRule), [])).1
    ({ fw.updateFWRule p pFwRule.fwRule with rules := rules } : CFirewall).Inv ∧
      ∀ key, rules.get key = if guidKey pFwRule.fwRule.guid = key then some (old.setTo p pFwRule) else
        (fw.rules.get key).map fun r => if taken pFwRule.fwRule takeOver r then r.linkedTo pFwRule.fwRule.guid else r := by
  intro rules
  have hguid : (old.setTo p pFwRule).fwRule.guid = pFwRule.fwRule.guid := by
    rw [CFirewallRule.setTo, CFirewallRule.fwRule_update, CFirewall.fwRule_updated]
  have hrule : (old.setTo p pFwRule).isTemplate = true := isTemplate_updated htemplate hstays
  have hupdated : (fw.updateFWRule p pFwRule.fwRule).rules.find (old.setTo p pFwRule).fwRule.guid =
      some (CFirewall.updated p old pFwRule.fwRule) := by
    rw [hguid]
    exact (CFirewall.get_updateFWRule hnamed hold).trans (if_pos rfl)
  constructor
  · refine inv_takeOver takeOver _ ?_
    exact (hi.updateFWRule hnamed hold).set hupdated (by rw [hguid]; exact hnamed) rfl rfl
      ⟨fun h => ⟨h.template, h.enabled, h.storable⟩, fun h => ⟨h.template, h.enabled, h.storable⟩⟩
  · intro key
    refine (get_takeOver _ _ _ _).trans ?_
    dsimp only
    rw [RuleMap.get_set hupdated, hguid]
    by_cases hkey : guidKey pFwRule.fwRule.guid = key
    · have hfree : ¬ taken pFwRule.fwRule takeOver (old.setTo p pFwRule) = true := by
        intro htaken
        exact Bool.false_ne_true ((couldHaveMade_iff.1 (Bool.and_eq_true_iff.1 htaken).2).1.symm.trans hrule)
      rw [if_pos hkey, if_pos hkey, Option.map_some, if_neg hfree]
    · rw [if_neg hkey, if_neg hkey, CFirewall.get_updateFWRule hnamed hold, if_neg hkey]

end SetTempalte

/-! ## A rule that is elsewhere in Windows now -/

end MajorPrivacy.Firewall

/-
The rules of the firewall with their templates (`AddRuleUnsafe`, `RemoveRuleUnsafe` and `UpdateFWRuleUnsafe`). A rule
for a file pattern is a template; it has an entry under its guid, which is in the path tree while the rule is enabled.
-/
import MajorPrivacy.Firewall.RuleMap
import MajorPrivacy.Path.Histories
import MajorPrivacy.Path.Walk

namespace MajorPrivacy.Firewall

open MajorPrivacy.Path

/-! ## The rules and their templates -/

/-- `m_FwRules`, the guids of `m_FwRuleTemplates`, and `m_FwTemplatesTree` over the entries under these guids. -/
structure CFirewall where
  rules : RuleMap
  fwRuleTemplates : List (List Nat)
  tree : TreeHistory (List Nat)

namespace CFirewall

def new : CFirewall := ⟨.empty, [], .new backslash false fun _ => []⟩

/-- `AddRuleUnsafe`. -/
def addRule (fw : CFirewall) (r : CFirewallRule) : CFirewall :=
  let key := guidKey r.fwRule.guid
  if r.isTemplate ∧ key ∉ fw.fwRuleTemplates then
    let tree := fw.tree.step (.setPath key (cStr r.binaryPath))
    { rules := fw.rules.insert r
      fwRuleTemplates := key :: fw.fwRuleTemplates
      tree := if r.fwRule.enabled then tree.step (.addEntry key) else tree }
  else { fw with rules := fw.rules.insert r }

/-- `RemoveRuleUnsafe`. -/
def removeRule (fw : CFirewall) (r : CFirewallRule) : CFirewall :=
  let key := guidKey r.fwRule.guid
  if r.isTemplate ∧ key ∈ fw.fwRuleTemplates then
    { rules := fw.rules.erase r.fwRule.guid
      fwRuleTemplates := fw.fwRuleTemplates.filter (· ≠ key)
      tree := if r.fwRule.enabled then fw.tree.step (.removeEntry key) else fw.tree }
  else { fw with rules := fw.rules.erase r.fwRule.guid }

/-- The rule under a guid, unless that is null. -/
def ruleUnder (fw : CFirewall) (guid : Str) : Option CFirewallRule := if guid = [] then none else fw.rules.find guid

/-- `UpdateFWRuleUnsafe` for a rule, with its own guid. -/
def updateFWRule (p : Platform) (fw : CFirewall) (rule : SWindowsFwRule) : CFirewall :=
  match fw.ruleUnder rule.guid with
  | some r =>
    if r.matchProgramID p rule then
      let key := guidKey rule.guid
      let switched := r.isTemplate ∧ rule.enabled ≠ r.fwRule.enabled ∧ key ∈ fw.fwRuleTemplates
      { fw with
        rules := fw.rules.set (r.setFwRule rule)
        tree := if switched then fw.tree.step (if rule.enabled then .addEntry key else .removeEntry key) else fw.tree }
    else (fw.removeRule r).addRule (.ofFwRule p rule)
  | none => fw.addRule (.ofFwRule p rule)

end CFirewall

/-! ## The invariant -/

/-- The rule has its entry in the tree. -/
structure CFirewallRule.InTree (r : CFirewallRule) : Prop where
  template : r.isTemplate = true
  enabled : r.fwRule.enabled = true
  storable : Storable backslash false (cStr r.binaryPath)

/-- Every rule has a guid, the entries are those of the templates, and those of the enabled ones are in the tree. -/
structure CFirewall.Inv (fw : CFirewall) : Prop where
  named : ∀ key r, fw.rules.get key = some r → r.fwRule.guid ≠ []
  tree : fw.tree.Inv backslash false
  known : ∀ key, key ∈ fw.fwRuleTemplates ↔ ∃ r ∈ fw.rules.get key, r.isTemplate = true
  stored : ∀ key, key ∈ fw.tree.stored ↔ ∃ r ∈ fw.rules.get key, r.InTree
  paths : ∀ key, ∀ r ∈ fw.rules.get key, r.isTemplate = true → fw.tree.paths key = cStr r.binaryPath

namespace CFirewall

variable {fw : CFirewall} {r : CFirewallRule} {key : List Nat}

theorem inv_new : new.Inv where
  named _ _ h := nomatch h
  tree := TreeHistory.inv_new backslash false _
  known key := by simp [new]
  stored key := by simp [new, TreeHistory.new]
  paths _ _ h := nomatch h

/-- A call of `AddEntry` stores the entry if its path is accepted. -/
theorem mem_stored_addEntry {h : TreeHistory (List Nat)} (hi : h.Inv backslash false) (e : List Nat) :
    key ∈ (h.step (.addEntry e)).stored ↔ key ∈ h.stored ∨ key = e ∧ Storable backslash false (h.paths e) := by
  let _ := h.pathEntry
  have hcode : (h.tree.addEntry e).2 = 0 ↔ Storable backslash false (h.paths e) := (CPathTree.addEntry_stores hi.wellFormed e).2.1
  have hstored : (h.step (.addEntry e)).stored = if (h.tree.addEntry e).2 = 0 then e :: h.stored else h.stored := rfl
  rw [hstored]
  split
  · rename_i hok
    rw [List.mem_cons, or_comm, and_iff_left (hcode.1 hok)]
  · rename_i hfailed
    exact (or_iff_left fun h => hfailed (hcode.2 h.2)).symm

theorem mem_stored_removeEntry (h : TreeHistory (List Nat)) (e : List Nat) :
    key ∈ (h.step (.removeEntry e)).stored ↔ key ∈ h.stored ∧ key ≠ e := by
  have hstored : (h.step (.removeEntry e)).stored = h.stored.filter (· ≠ e) := rfl
  rw [hstored, List.mem_filter, decide_eq_true_eq]

theorem Inv.not_known (hi : fw.Inv) {guid : Str} (hfree : fw.rules.find guid = none) : guidKey guid ∉ fw.fwRuleTemplates := by
  intro hknown
  rcases (hi.known _).1 hknown with ⟨r, hr, -⟩
  exact nomatch hr.symm.trans hfree

theorem Inv.not_stored (hi : fw.Inv) {guid : Str} (hfree : fw.rules.find guid = none) : guidKey guid ∉ fw.tree.stored := by
  intro hstored
  rcases (hi.stored _).1 hstored with ⟨r, hr, -⟩
  exact nomatch hr.symm.trans hfree

/-- The tree with the entry of a new template. -/
theorem Inv.enter (hi : fw.Inv) (htemplate : r.isTemplate = true) (hfree : fw.rules.find r.fwRule.guid = none) :
    let tree := fw.tree.step (.setPath (guidKey r.fwRule.guid) (cStr r.binaryPath))
    let tree' := if r.fwRule.enabled then tree.step (.addEntry (guidKey r.fwRule.guid)) else tree
    tree'.Inv backslash false ∧ (∀ key, key ∈ tree'.stored ↔ key ∈ fw.tree.stored ∨ key = guidKey r.fwRule.guid ∧ r.InTree) ∧
      ∀ key, tree'.paths key = if key = guidKey r.fwRule.guid then cStr r.binaryPath else fw.tree.paths key := by
  intro tree tree'
  have htree : tree.Inv backslash false := hi.tree.setPath (hi.not_stored hfree) (cStr r.binaryPath)
  have hpath : tree.paths (guidKey r.fwRule.guid) = cStr r.binaryPath := if_pos rfl
  by_cases henabled : r.fwRule.enabled = true
  · have heq : tree' = tree.step (.addEntry (guidKey r.fwRule.guid)) := if_pos henabled
    rw [heq]
    refine ⟨htree.addEntry (hi.not_stored hfree), fun key => ?_, fun key => rfl⟩
    rw [mem_stored_addEntry htree, hpath]
    exact or_congr Iff.rfl (and_congr_right fun _ => ⟨fun h => ⟨htemplate, henabled, h⟩, CFirewallRule.InTree.storable⟩)
  · have heq : tree' = tree := if_neg henabled
    rw [heq]
    exact ⟨htree, fun key => (or_iff_left fun h => henabled h.2.enabled).symm, fun key => rfl⟩

theorem Inv.addRule (hi : fw.Inv) (hnamed : r.fwRule.guid ≠ []) (hfree : fw.rules.find r.fwRule.guid = none) :
    (fw.addRule r).Inv := by
  have hget : ∀ key, (fw.rules.insert r).get key = if guidKey r.fwRule.guid = key then some r else fw.rules.get key :=
    fun _ => RuleMap.get_insert hfree
  have hnames : ∀ key r', (fw.rules.insert r).get key = some r' → r'.fwRule.guid ≠ [] := by
    intro key r' h
    rw [hget] at h
    split at h
    · cases h
      exact hnamed
    · exact hi.named key r' h
  have hknown := hi.not_known hfree
  unfold CFirewall.addRule
  by_cases htemplate : r.isTemplate = true
  case neg =>
    rw [if_neg fun h => htemplate h.1]
    refine ⟨hnames, hi.tree, fun key => ?_, fun key => ?_, fun key r' h => ?_⟩
    all_goals simp only [hget] at *
    · split
      · rename_i hkey
        rw [← hkey]
        exact iff_of_false hknown fun ⟨r', h, h'⟩ => htemplate (by cases h; exact h')
      · exact hi.known key
    · split
      · rename_i hkey
        rw [← hkey]
        exact iff_of_false (hi.not_stored hfree) fun ⟨r', h, h'⟩ => htemplate (by cases h; exact h'.template)
      · exact hi.stored key
    · split at h
      · cases h
        exact fun h => absurd h htemplate
      · exact hi.paths key r' h
  case pos =>
    rw [if_pos ⟨htemplate, hknown⟩]
    rcases hi.enter htemplate hfree with ⟨htree, hstored, hpaths⟩
    refine ⟨hnames, htree, fun key => ?_, fun key => ?_, fun key r' h => ?_⟩
    all_goals simp only [hget] at *
    · rw [List.mem_cons]
      split
      · rename_i hkey
        exact iff_of_true (.inl hkey.symm) ⟨r, rfl, htemplate⟩
      · rename_i hkey
        rw [hi.known, or_iff_right (Ne.symm hkey)]
    · rw [hstored]
      split
      · rename_i hkey
        rw [← hkey, or_iff_right (hi.not_stored hfree), and_iff_right rfl]
        exact ⟨fun h => ⟨r, rfl, h⟩, fun ⟨r', h, h'⟩ => by cases h; exact h'⟩
      · rename_i hkey
        rw [hi.stored, or_iff_left fun h => hkey h.1.symm]
    · rw [hpaths]
      split at h
      · rename_i hkey
        cases h
        exact fun _ => if_pos hkey.symm
      · rename_i hkey
        exact fun h' => (if_neg (Ne.symm hkey)).trans (hi.paths key r' h h')

theorem rules_addRule (fw : CFirewall) (r : CFirewallRule) : (fw.addRule r).rules = fw.rules.insert r := by
  unfold CFirewall.addRule
  exact (apply_ite CFirewall.rules _ _ _).trans (ite_self _)

theorem rules_removeRule (fw : CFirewall) (r : CFirewallRule) : (fw.removeRule r).rules = fw.rules.erase r.fwRule.guid := by
  unfold CFirewall.removeRule
  exact (apply_ite CFirewall.rules _ _ _).trans (ite_self _)

theorem Inv.removeRule (hi : fw.Inv) (hr : fw.rules.find r.fwRule.guid = some r) : (fw.removeRule r).Inv := by
  have hget : ∀ key, (fw.rules.erase r.fwRule.guid).get key = if guidKey r.fwRule.guid = key then none else fw.rules.get key :=
    fun _ => RuleMap.get_erase
  have hnames : ∀ key r', (fw.rules.erase r.fwRule.guid).get key = some r' → r'.fwRule.guid ≠ [] := by
    intro key r' h
    rw [hget] at h
    split at h
    · cases h
    · exact hi.named key r' h
  unfold CFirewall.removeRule
  by_cases htemplate : r.isTemplate = true
  case neg =>
    rw [if_neg fun h => htemplate h.1]
    refine ⟨hnames, hi.tree, fun key => ?_, fun key => ?_, fun key r' h => ?_⟩
    all_goals simp only [hget] at *
    · split
      · rename_i hkey
        rw [← hkey, hi.known]
        exact iff_of_false (fun ⟨r', h, h'⟩ => htemplate (by cases hr.symm.trans h; exact h')) (by simp)
      · exact hi.known key
    · split
      · rename_i hkey
        rw [← hkey, hi.stored]
        exact iff_of_false (fun ⟨r', h, h'⟩ => htemplate (by cases hr.symm.trans h; exact h'.template)) (by simp)
      · exact hi.stored key
    · split at h
      · cases h
      · exact hi.paths key r' h
  case pos =>
    rw [if_pos ⟨htemplate, (hi.known _).2 ⟨r, hr, htemplate⟩⟩]
    have hstored : ∀ key, key ∈ (if r.fwRule.enabled then fw.tree.step (.removeEntry (guidKey r.fwRule.guid)) else fw.tree).stored ↔
        key ∈ fw.tree.stored ∧ key ≠ guidKey r.fwRule.guid := by
      intro key
      split
      · exact mem_stored_removeEntry fw.tree _
      · rename_i hdisabled
        refine (and_iff_left_of_imp ?_).symm
        rintro h rfl
        rcases (hi.stored _).1 h with ⟨r', h, h'⟩
        cases hr.symm.trans h
        exact hdisabled h'.enabled
    refine ⟨hnames, ?_, fun key => ?_, fun key => ?_, fun key r' h => ?_⟩
    · dsimp only
      split
      · exact hi.tree.removeEntry _
      · exact hi.tree
    all_goals simp only [hget] at *
    · rw [List.mem_filter, decide_eq_true_eq]
      split
      · rename_i hkey
        exact iff_of_false (fun h => h.2 hkey.symm) (by simp)
      · rename_i hkey
        rw [hi.known, and_iff_left (Ne.symm hkey)]
    · rw [hstored]
      split
      · rename_i hkey
        exact iff_of_false (fun h => h.2 hkey.symm) (by simp)
      · rename_i hkey
        rw [hi.stored, and_iff_left (Ne.symm hkey)]
    · split at h
      · cases h
      · have hpaths : (if r.fwRule.enabled then fw.tree.step (.removeEntry (guidKey r.fwRule.guid)) else fw.tree).paths = fw.tree.paths := by
          split
          · rfl
          · rfl
        rw [hpaths]
        exact hi.paths key r' h

/-- An object changes, and the tree with it. -/
theorem Inv.change {old : CFirewallRule} {tree : TreeHistory (List Nat)} (hi : fw.Inv) (hold : fw.rules.find r.fwRule.guid = some old)
    (hnamed : r.fwRule.guid ≠ []) (htemplate : r.isTemplate = old.isTemplate) (hpath : r.binaryPath = old.binaryPath)
    (htree : tree.Inv backslash false) (hpaths : tree.paths = fw.tree.paths)
    (hstored : ∀ key, key ∈ tree.stored ↔ if guidKey r.fwRule.guid = key then r.InTree else key ∈ fw.tree.stored) :
    ({ fw with rules := fw.rules.set r, tree := tree } : CFirewall).Inv := by
  have hget : ∀ key, (fw.rules.set r).get key = if guidKey r.fwRule.guid = key then some r else fw.rules.get key :=
    fun _ => RuleMap.get_set hold
  refine ⟨fun key r' h => ?_, htree, fun key => ?_, fun key => ?_, fun key r' h => ?_⟩
  all_goals simp only [hget, hpaths] at *
  · split at h
    · cases h
      exact hnamed
    · exact hi.named key r' h
  · split
    · rename_i hkey
      rw [← hkey, hi.known]
      exact ⟨fun ⟨r', h, h'⟩ => ⟨r, rfl, by cases hold.symm.trans h; exact htemplate.trans h'⟩,
        fun ⟨r', h, h'⟩ => ⟨old, hold, by cases h; exact htemplate.symm.trans h'⟩⟩
    · exact hi.known key
  · rw [hstored]
    split
    · exact ⟨fun h => ⟨r, rfl, h⟩, fun ⟨r', h, h'⟩ => by cases h; exact h'⟩
    · exact hi.stored key
  · split at h
    · rename_i hkey
      cases h
      intro h'
      rw [← hkey, hpath]
      exact hi.paths _ old hold (htemplate.symm.trans h')
    · exact hi.paths key r' h

theorem Inv.stored_iff {old : CFirewallRule} {guid : Str} (hi : fw.Inv) (hold : fw.rules.find guid = some old) :
    guidKey guid ∈ fw.tree.stored ↔ old.InTree := by
  rw [hi.stored]
  exact ⟨fun ⟨r', h, h'⟩ => by cases hold.symm.trans h; exact h', fun h => ⟨old, hold, h⟩⟩

/-- An object changes that has its entry as before. -/
theorem Inv.set {old : CFirewallRule} (hi : fw.Inv) (hold : fw.rules.find r.fwRule.guid = some old) (hnamed : r.fwRule.guid ≠ [])
    (htemplate : r.isTemplate = old.isTemplate) (hpath : r.binaryPath = old.binaryPath) (htree : r.InTree ↔ old.InTree) :
    ({ fw with rules := fw.rules.set r } : CFirewall).Inv := by
  refine hi.change hold hnamed htemplate hpath hi.tree rfl fun key => ?_
  split
  · rename_i hkey
    rw [← hkey, hi.stored_iff hold, htree]
  · rfl

/-! ### A rule that is updated -/

/-- What a rule becomes that is updated: another rule if it is for another program now. -/
def updated (p : Platform) (r : CFirewallRule) (rule : SWindowsFwRule) : CFirewallRule :=
  if r.matchProgramID p rule then r.setFwRule rule else .ofFwRule p rule

@[simp] theorem fwRule_updated (p : Platform) (r : CFirewallRule) (rule : SWindowsFwRule) : (updated p r rule).fwRule = rule := by
  unfold updated
  split
  · rfl
  · rfl

variable {p : Platform} {rule : SWindowsFwRule}

/-- Only the rule under the guid changes. -/
theorem get_updateFWRule (hnamed : rule.guid ≠ []) (hr : fw.rules.find rule.guid = some r) :
    (fw.updateFWRule p rule).rules.get key = if guidKey rule.guid = key then some (updated p r rule) else fw.rules.get key := by
  have hkey := RuleMap.guidKey_of_find hr
  unfold updateFWRule ruleUnder updated
  rw [if_neg hnamed, hr]
  by_cases hmatch : r.matchProgramID p rule = true
  · simp only [hmatch, if_true]
    exact RuleMap.get_set (r := r.setFwRule rule) hr
  · simp only [hmatch, if_false, Bool.false_eq_true]
    rw [rules_addRule, rules_removeRule]
    have hfree : (fw.rules.erase r.fwRule.guid).find (CFirewallRule.ofFwRule p rule).fwRule.guid = none := by
      have hkey' : guidKey (CFirewallRule.ofFwRule p rule).fwRule.guid = guidKey r.fwRule.guid := hkey.symm
      rw [RuleMap.find_congr hkey']
      exact RuleMap.find_erase_self
    rw [RuleMap.get_insert hfree, RuleMap.get_erase, hkey, CFirewallRule.fwRule_ofFwRule]
    split
    · rfl
    · rfl

theorem Inv.updateFWRule (hi : fw.Inv) (hnamed : rule.guid ≠ []) (hr : fw.rules.find rule.guid = some r) :
    (fw.updateFWRule p rule).Inv := by
  have hkey := RuleMap.guidKey_of_find hr
  have hr' : fw.rules.find r.fwRule.guid = some r := by rw [RuleMap.find_congr hkey, hr]
  unfold CFirewall.updateFWRule ruleUnder
  rw [if_neg hnamed, hr]
  by_cases hmatch : r.matchProgramID p rule = true
  case neg =>
    simp only [hmatch, if_false, Bool.false_eq_true]
    refine (hi.removeRule hr').addRule hnamed ?_
    rw [rules_removeRule]
    have hkey' : guidKey (CFirewallRule.ofFwRule p rule).fwRule.guid = guidKey r.fwRule.guid := hkey.symm
    exact (RuleMap.find_congr hkey').trans RuleMap.find_erase_self
  case pos =>
    simp only [hmatch, if_true]
    have hsame : (r.setFwRule rule).isTemplate = r.isTemplate := rfl
    by_cases htemplate : r.isTemplate = true
    case neg =>
      rw [if_neg fun h => htemplate h.1]
      exact hi.set (r := r.setFwRule rule) hr hnamed rfl rfl
        (iff_of_false (fun h => htemplate (hsame ▸ h.template)) fun h => htemplate h.template)
    case pos =>
      have hknown : guidKey rule.guid ∈ fw.fwRuleTemplates := (hi.known _).2 ⟨r, hr, htemplate⟩
      by_cases hswitched : rule.enabled = r.fwRule.enabled
      case pos =>
        rw [if_neg fun h => h.2.1 hswitched]
        refine hi.set (r := r.setFwRule rule) hr hnamed rfl rfl ⟨fun h => ⟨htemplate, ?_, h.storable⟩, fun h => ⟨htemplate, ?_, h.storable⟩⟩
        · exact hswitched.symm.trans h.enabled
        · exact hswitched.trans h.enabled
      case neg =>
        rw [if_pos ⟨htemplate, hswitched, hknown⟩]
        have hin := hi.stored_iff hr
        by_cases henabled : rule.enabled = true
        case pos =>
          have hfree : guidKey rule.guid ∉ fw.tree.stored := fun h => hswitched (henabled.trans (hin.1 h).enabled.symm)
          simp only [henabled, if_true]
          refine hi.change (r := r.setFwRule rule) hr hnamed rfl rfl (hi.tree.addEntry hfree) rfl fun key => ?_
          rw [mem_stored_addEntry hi.tree, hi.paths _ r hr htemplate]
          split
          · rename_i heq
            rw [← heq]
            exact (or_iff_right hfree).trans ⟨fun h => ⟨htemplate, henabled, h.2⟩, fun h => ⟨rfl, h.storable⟩⟩
          · rename_i heq
            exact or_iff_left fun h => heq h.1.symm
        case neg =>
          simp only [henabled, if_false, Bool.false_eq_true]
          refine hi.change (r := r.setFwRule rule) hr hnamed rfl rfl (hi.tree.removeEntry _) rfl fun key => ?_
          rw [mem_stored_removeEntry]
          split
          · rename_i heq
            exact iff_of_false (fun h => h.2 heq.symm) fun h => henabled h.enabled
          · rename_i heq
            exact and_iff_left (Ne.symm heq)

end CFirewall

/-! ## The search -/

/-- A path walks along a pattern that `AddEntry` accepts. -/
def Reaches (pattern path : Str) : Prop :=
  Storable backslash false pattern ∧
    Walk backslash (decide ((makeLower pattern).getLast? = some backslash)) (storedAt backslash pattern) (makeLower path)

end MajorPrivacy.Firewall

/-
Changes to the rules that a template has answered in advance (`CFirewall::AskTemplatesUnsafe` and
`DecideRuleChangeUnsafe`). For each end of a move only the first template in the order of the tree is reported, so two
templates that both cover the move can hide that one of them does.
-/
import MajorPrivacy.Firewall.Coverage
import MajorPrivacy.Path.Rules

namespace MajorPrivacy.Firewall

open MajorPrivacy.Path

/-! ## The search -/

inductive ETemplateVerdict
  | eUnknown | eApprove | eReject
  deriving DecidableEq

/-- `CFwAutoGuardEntry::EMode`. -/
inductive EMode
  | eNone | eApprove | eReject
  deriving DecidableEq

/-- The settings that are asked for. -/
structure GuardConfig where
  useFwRuleTemplates : Bool
  fwTemplateGuard : Bool
  fwAutoApproveAllowRemoval : Bool

section Guard

variable {T : Type} (getRule : T → CFirewallRule)

/-- The loop of `AskTemplatesUnsafe`; a check can fault. -/
def askLoop (rule : SWindowsFwRule) : ETemplateVerdict × Option T → List T → Option (ETemplateVerdict × Option T)
  | found, [] => some found
  | found, template :: entries =>
    let data := (getRule template).fwRule
    if ¬ data.enabled then askLoop rule found entries
    else match templateAppliesToRule (some data) (some rule) with
      | none => none
      | some false => askLoop rule found entries
      | some true =>
        if data.action = rule.action then
          askLoop rule (if found.1 = .eUnknown then (.eApprove, some template) else found) entries
        else if data.action = .value .block ∧ rule.action = .value .allow then some (.eReject, some template)
        else askLoop rule found entries

variable [DecidableEq T] (tree : CPathTree T)

/-- `AskTemplatesUnsafe`: the verdict and the template. -/
def askTemplates (dosPath : Str) (pRule : Option SWindowsFwRule) : Option (ETemplateVerdict × Option T) :=
  match pRule with
  | none => some (.eUnknown, none)
  | some rule =>
    if dosPath = [] then some (.eUnknown, none)
    else askLoop getRule rule (.eUnknown, none) ((tree.getEntries dosPath false).map (·.pEntry))

/-- `DecideRuleChangeUnsafe`. -/
def decideRuleChange (config : GuardConfig) (pRule : Option SWindowsFwRule) (pFwRule : Option CFirewallRule) (bProgramChanged : Bool)
    (oldPath newPath : Str) : Option EMode :=
  match pRule with
  | none =>
    some (if (∃ fwRule ∈ pFwRule, fwRule.fwRule.action = .value .allow) ∧ config.fwAutoApproveAllowRemoval then .eApprove else .eNone)
  | some rule =>
    if ¬ config.useFwRuleTemplates ∨ ¬ config.fwTemplateGuard then some .eNone
    else match askTemplates getRule tree newPath (some rule) with
      | none => none
      | some (.eReject, _) => some .eReject
      | some (.eUnknown, _) => some .eNone
      | some (.eApprove, template) =>
        if ¬ bProgramChanged then some .eApprove
        else match askTemplates getRule tree oldPath (pFwRule.map (·.fwRule)) with
          | none => none
          | some (oldVerdict, oldTemplate) =>
            if oldVerdict = .eApprove ∧ oldTemplate.isSome ∧ template.isSome ∧ oldTemplate = template then some .eApprove
            else some .eNone

end Guard

/-! ## What a template says -/

section Says
variable {T : Type} (getRule : T → CFirewallRule)

/-- The template is for rules like this one. -/
def Covers (rule : SWindowsFwRule) (template : T) : Prop :=
  (getRule template).fwRule.enabled = true ∧ templateAppliesToRule (some (getRule template).fwRule) (some rule) = some true

/-- It has the action of the rule. -/
def Vouches (rule : SWindowsFwRule) (template : T) : Prop :=
  Covers getRule rule template ∧ (getRule template).fwRule.action = rule.action

/-- It blocks what the rule allows. -/
def Rejects (rule : SWindowsFwRule) (template : T) : Prop :=
  Covers getRule rule template ∧ (getRule template).fwRule.action = .value .block ∧ rule.action = .value .allow

/-- The check of the template faults. -/
def Faults (rule : SWindowsFwRule) (template : T) : Prop :=
  (getRule template).fwRule.enabled = true ∧ templateAppliesToRule (some (getRule template).fwRule) (some rule) = none

instance (rule : SWindowsFwRule) (template : T) : Decidable (Vouches getRule rule template) := inferInstanceAs (Decidable ((_ ∧ _) ∧ _))

/-- A check faults before a template rejects the rule. -/
def AskFaults (rule : SWindowsFwRule) (entries : List T) : Prop :=
  ∃ front template back, entries = front ++ template :: back ∧ Faults getRule rule template ∧ ∀ t ∈ front, ¬ Rejects getRule rule t

variable {getRule} {rule : SWindowsFwRule}

theorem Vouches.not_rejects {template : T} (h : Vouches getRule rule template) : ¬ Rejects getRule rule template := by
  rintro ⟨-, hblock, hallow⟩
  have haction := hblock.symm.trans (h.2.trans hallow)
  cases haction

/-- What one template does to the search. -/
theorem askLoop_cons (found : ETemplateVerdict × Option T) (template : T) (entries : List T) :
    Faults getRule rule template ∧ askLoop getRule rule found (template :: entries) = none ∨
      Rejects getRule rule template ∧ askLoop getRule rule found (template :: entries) = some (.eReject, some template) ∨
      Vouches getRule rule template ∧ askLoop getRule rule found (template :: entries) =
        askLoop getRule rule (if found.1 = .eUnknown then (.eApprove, some template) else found) entries ∨
      (¬ Faults getRule rule template ∧ ¬ Rejects getRule rule template ∧ ¬ Vouches getRule rule template) ∧
        askLoop getRule rule found (template :: entries) = askLoop getRule rule found entries := by
  rw [askLoop]
  by_cases henabled : (getRule template).fwRule.enabled = true
  · rw [if_neg (not_not.2 henabled)]
    rcases happlies : templateAppliesToRule (some (getRule template).fwRule) (some rule) with _ | _ | _
    · exact .inl ⟨⟨henabled, happlies⟩, rfl⟩
    · have hnone : ¬ Covers getRule rule template := fun h => by
        rw [Covers, happlies] at h
        cases h.2
      refine .inr (.inr (.inr ⟨⟨fun h => ?_, fun h => hnone h.1, fun h => hnone h.1⟩, rfl⟩))
      rw [Faults, happlies] at h
      cases h.2
    · have hcovers : Covers getRule rule template := ⟨henabled, happlies⟩
      by_cases haction : (getRule template).fwRule.action = rule.action
      · exact .inr (.inr (.inl ⟨⟨hcovers, haction⟩, if_pos haction⟩))
      · by_cases hblock : (getRule template).fwRule.action = .value .block ∧ rule.action = .value .allow
        · refine .inr (.inl ⟨⟨hcovers, hblock⟩, ?_⟩)
          dsimp only
          rw [if_neg haction, if_pos hblock]
        · refine .inr (.inr (.inr ⟨⟨fun h => ?_, fun h => hblock h.2, fun h => haction h.2⟩, ?_⟩))
          · rw [Faults, happlies] at h
            cases h.2
          · dsimp only
            rw [if_neg haction, if_neg hblock]
  · rw [if_pos henabled]
    exact .inr (.inr (.inr ⟨⟨fun h => henabled h.1, fun h => henabled h.1.1, fun h => henabled h.1.1⟩, rfl⟩))

theorem askFaults_cons {template : T} {entries : List T} : AskFaults getRule rule (template :: entries) ↔
    Faults getRule rule template ∨ ¬ Rejects getRule rule template ∧ AskFaults getRule rule entries := by
  constructor
  · rintro ⟨front, fault, back, heq, hfault, hfront⟩
    rcases front with _ | ⟨first, front⟩
    · exact .inl ((List.cons.inj heq).1 ▸ hfault)
    · rcases List.cons.inj heq with ⟨rfl, htail⟩
      exact .inr ⟨hfront template List.mem_cons_self, front, fault, back, htail, hfault, fun t ht => hfront t (List.mem_cons_of_mem _ ht)⟩
  · rintro (hfault | ⟨hrejects, front, fault, back, rfl, hfault, hfront⟩)
    · exact ⟨[], template, entries, rfl, hfault, fun _ h => absurd h List.not_mem_nil⟩
    · refine ⟨template :: front, fault, back, rfl, hfault, fun t ht => ?_⟩
      rcases List.mem_cons.1 ht with rfl | ht
      · exact hrejects
      · exact hfront t ht

/-- The search faults, or a template rejects the rule, or the first one that vouches for it is found. -/
theorem askLoop_cases : ∀ (entries : List T) (found : ETemplateVerdict × Option T),
    AskFaults getRule rule entries ∧ askLoop getRule rule found entries = none ∨
      ¬ AskFaults getRule rule entries ∧ (∃ t ∈ entries, Rejects getRule rule t) ∧
        (∃ t, askLoop getRule rule found entries = some (.eReject, some t)) ∨
      ¬ AskFaults getRule rule entries ∧ (∀ t ∈ entries, ¬ Rejects getRule rule t) ∧ askLoop getRule rule found entries =
        some (if found.1 = .eUnknown then
          (entries.find? fun t => Vouches getRule rule t).elim found fun t => (.eApprove, some t) else found)
  | [], found => by
    have hfaults : ¬ AskFaults getRule rule ([] : List T) := by
      rintro ⟨front, fault, back, heq, -⟩
      exact List.append_ne_nil_of_right_ne_nil front (List.cons_ne_nil fault back) heq.symm
    refine .inr (.inr ⟨hfaults, fun _ h => absurd h List.not_mem_nil, ?_⟩)
    simp [askLoop]
  | template :: entries, found => by
    rw [askFaults_cons]
    rcases @askLoop_cons T getRule rule found template entries with ⟨h, heq⟩ | ⟨h, heq⟩ | ⟨h, heq⟩ | ⟨⟨hfault, hrejects, hvouches⟩, heq⟩
    · exact .inl ⟨.inl h, heq⟩
    · refine .inr (.inl ⟨?_, ⟨template, List.mem_cons_self, h⟩, template, heq⟩)
      rintro (hfault | ⟨hnot, -⟩)
      · have hnone := h.1.2.symm.trans hfault.2
        cases hnone
      · exact hnot h
    · have hnot : ¬ Faults getRule rule template := fun hfault => by
        have hnone := h.1.2.symm.trans hfault.2
        cases hnone
      rw [heq, List.find?_cons_of_pos (by simpa using h)]
      rcases askLoop_cases entries (if found.1 = .eUnknown then (.eApprove, some template) else found) with
        ⟨hfaults, hloop⟩ | ⟨hfaults, ⟨t, ht, hreject⟩, hloop⟩ | ⟨hfaults, hnone, hloop⟩
      · exact .inl ⟨.inr ⟨h.not_rejects, hfaults⟩, hloop⟩
      · exact .inr (.inl ⟨fun h' => h'.elim hnot fun h' => hfaults h'.2, ⟨t, List.mem_cons_of_mem _ ht, hreject⟩, hloop⟩)
      · refine .inr (.inr ⟨fun h' => h'.elim hnot fun h' => hfaults h'.2, List.forall_mem_cons.2 ⟨h.not_rejects, hnone⟩, ?_⟩)
        rw [hloop]
        by_cases hfound : found.1 = .eUnknown
        · simp [hfound]
        · simp [hfound]
    · rw [heq, List.find?_cons_of_neg (by simpa using hvouches)]
      rcases askLoop_cases entries found with ⟨hfaults, hloop⟩ | ⟨hfaults, ⟨t, ht, hreject⟩, hloop⟩ | ⟨hfaults, hnone, hloop⟩
      · exact .inl ⟨.inr ⟨hrejects, hfaults⟩, hloop⟩
      · exact .inr (.inl ⟨fun h' => h'.elim hfault fun h' => hfaults h'.2, ⟨t, List.mem_cons_of_mem _ ht, hreject⟩, hloop⟩)
      · exact .inr (.inr ⟨fun h' => h'.elim hfault fun h' => hfaults h'.2, List.forall_mem_cons.2 ⟨hrejects, hnone⟩, hloop⟩)

end Says

/-! ## A rule that is moved -/

section Move
variable {T : Type} [DecidableEq T] [PathEntry T] (getRule : T → CFirewallRule) (templates : List T)

/-- The tree after the templates were added one after the other. -/
def templatesTree : CPathTree T := (CPathTree.new backslash false).addEntries templates

/-- The template is in the tree and its pattern leads to the path, as the tree reads both; no pattern leads to no path. -/
def Matches (path : Str) (template : T) : Prop :=
  path ≠ [] ∧ (CPathTree.new backslash false).Stores templates template ∧
    Walk backslash (decide ((makeLower (PathEntry.getPath template)).getLast? = some backslash))
      (storedAt backslash (PathEntry.getPath template)) (makeLower path)

/-- The templates that are asked about a path. -/
def askedFor (path : Str) : List T :=
  if path = [] then [] else ((templatesTree templates).getEntries path false).map (·.pEntry)

/-- The first of them that vouches for a rule. -/
def firstVoucher (path : Str) (rule : SWindowsFwRule) : Option T :=
  (askedFor templates path).find? fun t => Vouches getRule rule t

/-- No template rejects either rule, and one vouches for both ends. -/
structure Vouched (newPath oldPath : Str) (newRule oldRule : SWindowsFwRule) : Prop where
  new : ∀ t, Matches templates newPath t → ¬ Rejects getRule newRule t
  old : ∀ t, Matches templates oldPath t → ¬ Rejects getRule oldRule t
  both : ∃ t, (Matches templates newPath t ∧ Vouches getRule newRule t) ∧ Matches templates oldPath t ∧ Vouches getRule oldRule t

/-- The search for one of the ends faults; the one for the old end is made if the new end is approved. -/
def MoveFaults (newPath oldPath : Str) (newRule oldRule : SWindowsFwRule) : Prop :=
  AskFaults getRule newRule (askedFor templates newPath) ∨
    ((∀ t, Matches templates newPath t → ¬ Rejects getRule newRule t) ∧ ∃ t, Matches templates newPath t ∧ Vouches getRule newRule t) ∧
      AskFaults getRule oldRule (askedFor templates oldPath)

variable {templates}

theorem mem_askedFor {path : Str} {t : T} : t ∈ askedFor templates path ↔ Matches templates path t := by
  unfold askedFor Matches
  by_cases hpath : path = []
  · simp [hpath]
  · rw [if_neg hpath, and_iff_right hpath, List.mem_map]
    have hspec := CPathTree.addEntries_spec templates (CPathTree.wellFormed_new (E := T) backslash false)
    have hnew : ∀ ends names, ¬ (CPathTree.new backslash false : CPathTree T).Has t ends names := by
      rintro ends names ⟨entry, hm, -⟩
      rw [CPathTree.new, SPathNode.entriesAt_empty] at hm
      cases hm
    refine (CPathTree.found_getEntries hspec.1 path t).trans ?_
    simp only [hspec.2, hnew, false_or]
    constructor
    · rintro ⟨_, _, ⟨hstores, rfl, rfl⟩, hwalk⟩
      exact ⟨hstores, hwalk⟩
    · rintro ⟨hstores, hwalk⟩
      exact ⟨_, _, ⟨hstores, rfl, rfl⟩, hwalk⟩

theorem askTemplates_eq (path : Str) (rule : SWindowsFwRule) :
    askTemplates getRule (templatesTree templates) path (some rule) = askLoop getRule rule (.eUnknown, none) (askedFor templates path) := by
  unfold askTemplates askedFor
  by_cases hpath : path = []
  · simp [hpath, askLoop]
  · simp [hpath]

variable {getRule}

theorem firstVoucher_eq_some {path : Str} {rule : SWindowsFwRule} {t : T} (h : firstVoucher getRule templates path rule = some t) :
    Matches templates path t ∧ Vouches getRule rule t := by
  have hvouches := List.find?_some h
  exact ⟨mem_askedFor.1 (List.mem_of_find?_eq_some h), of_decide_eq_true hvouches⟩

theorem firstVoucher_ne_none {path : Str} {rule : SWindowsFwRule} {t : T} (hmatches : Matches templates path t)
    (hvouches : Vouches getRule rule t) : firstVoucher getRule templates path rule ≠ none := fun hnone =>
  absurd (decide_eq_true hvouches) (List.find?_eq_none.1 hnone t (mem_askedFor.2 hmatches))

/-- What is said about one end of a move. -/
theorem askTemplates_cases (path : Str) (rule : SWindowsFwRule) :
    AskFaults getRule rule (askedFor templates path) ∧ askTemplates getRule (templatesTree templates) path (some rule) = none ∨
      ¬ AskFaults getRule rule (askedFor templates path) ∧ (∃ t, Matches templates path t ∧ Rejects getRule rule t) ∧
        (∃ t, askTemplates getRule (templatesTree templates) path (some rule) = some (.eReject, some t)) ∨
      ¬ AskFaults getRule rule (askedFor templates path) ∧ (∀ t, Matches templates path t → ¬ Rejects getRule rule t) ∧
        askTemplates getRule (templatesTree templates) path (some rule) =
          some ((firstVoucher getRule templates path rule).elim (.eUnknown, none) fun t => (.eApprove, some t)) := by
  rw [askTemplates_eq]
  rcases @askLoop_cases T getRule rule (askedFor templates path) (.eUnknown, none) with h | ⟨hfaults, ⟨t, ht, hrejects⟩, hask⟩ |
    ⟨hfaults, hnone, hask⟩
  · exact .inl h
  · exact .inr (.inl ⟨hfaults, ⟨t, mem_askedFor.1 ht, hrejects⟩, hask⟩)
  · refine .inr (.inr ⟨hfaults, fun t ht => hnone t (mem_askedFor.2 ht), ?_⟩)
    rw [hask, if_pos rfl]
    rfl

variable (getRule templates)

/-- A moved rule is approved as it should be if no search faults and, where a template vouches for both ends and none
rejects them, the first one that vouches for the new end is the first one that vouches for the old one. -/
theorem decideRuleChange_moved (bAutoApprove : Bool) (newRule : SWindowsFwRule) (oldRule : CFirewallRule) (oldPath newPath : Str) :
    (∃ mode, decideRuleChange getRule (templatesTree templates) ⟨true, true, bAutoApprove⟩ (some newRule) (some oldRule) true
        oldPath newPath = some mode ∧ (mode = .eApprove ↔ Vouched getRule templates newPath oldPath newRule oldRule.fwRule)) ↔
      ¬ MoveFaults getRule templates newPath oldPath newRule oldRule.fwRule ∧
        (Vouched getRule templates newPath oldPath newRule oldRule.fwRule →
          firstVoucher getRule templates newPath newRule = firstVoucher getRule templates oldPath oldRule.fwRule) := by
  have henabled : ¬ (¬ (true : Bool) = true ∨ ¬ (true : Bool) = true) := by simp
  unfold decideRuleChange
  dsimp only
  rw [if_neg henabled]
  rcases @askTemplates_cases T _ _ getRule templates newPath newRule with ⟨hfaults, hask⟩ |
    ⟨hfaults, ⟨t, hmatches, hrejects⟩, t', hask⟩ | ⟨hfaults, hnew, hask⟩
  case inl =>
    rw [hask]
    exact iff_of_false (by simp) fun h => h.1 (.inl hfaults)
  case inr.inl =>
    have hnot : ¬ Vouched getRule templates newPath oldPath newRule oldRule.fwRule := fun h => h.new t hmatches hrejects
    rw [hask]
    refine iff_of_true ⟨_, rfl, iff_of_false (by simp) hnot⟩ ⟨?_, fun h => absurd h hnot⟩
    rintro (h | ⟨⟨hnone, -⟩, -⟩)
    · exact hfaults h
    · exact hnone t hmatches hrejects
  case inr.inr =>
    rw [hask]
    rcases hfirst : firstVoucher getRule templates newPath newRule with _ | t
    · have hnone : ∀ t, ¬ (Matches templates newPath t ∧ Vouches getRule newRule t) := fun t h => firstVoucher_ne_none h.1 h.2 hfirst
      have hnot : ¬ Vouched getRule templates newPath oldPath newRule oldRule.fwRule := fun h => by
        rcases h.both with ⟨t, ht, -⟩
        exact hnone t ht
      refine iff_of_true ⟨_, rfl, iff_of_false (by simp) hnot⟩ ⟨?_, fun h => absurd h hnot⟩
      rintro (h | ⟨⟨-, t, ht⟩, -⟩)
      · exact hfaults h
      · exact hnone t ht
    · have hvoucher := firstVoucher_eq_some hfirst
      have hmove : MoveFaults getRule templates newPath oldPath newRule oldRule.fwRule ↔
          AskFaults getRule oldRule.fwRule (askedFor templates oldPath) :=
        ⟨fun h => h.elim (absurd · hfaults) And.right, fun h => .inr ⟨⟨hnew, t, hvoucher⟩, h⟩⟩
      rw [hmove]
      dsimp only [Option.elim_some, Option.map_some]
      rw [if_neg (by simp)]
      rcases @askTemplates_cases T _ _ getRule templates oldPath oldRule.fwRule with ⟨hfaults', hask'⟩ |
        ⟨hfaults', ⟨u, hmatches, hrejects⟩, u', hask'⟩ | ⟨hfaults', hold, hask'⟩
      case inl =>
        rw [hask']
        exact iff_of_false (by simp) fun h => h.1 hfaults'
      case inr.inl =>
        have hnot : ¬ Vouched getRule templates newPath oldPath newRule oldRule.fwRule := fun h => h.old u hmatches hrejects
        rw [hask']
        exact iff_of_true ⟨_, rfl, iff_of_false (by simp) hnot⟩ ⟨hfaults', fun h => absurd h hnot⟩
      case inr.inr =>
        rw [hask', and_iff_right hfaults']
        rcases hfirst' : firstVoucher getRule templates oldPath oldRule.fwRule with _ | u
        · have hnot : ¬ Vouched getRule templates newPath oldPath newRule oldRule.fwRule := fun h => by
            rcases h.both with ⟨v, -, hmatches, hvouches⟩
            exact firstVoucher_ne_none hmatches hvouches hfirst'
          exact iff_of_true ⟨_, rfl, iff_of_false (by simp) hnot⟩ fun h => absurd h hnot
        · by_cases heq : u = t
          · subst heq
            have hvouched : Vouched getRule templates newPath oldPath newRule oldRule.fwRule :=
              ⟨hnew, hold, u, hvoucher, firstVoucher_eq_some hfirst'⟩
            exact iff_of_true ⟨.eApprove, by simp, iff_of_true rfl hvouched⟩ fun _ => rfl
          · -- both ends have a template that vouches, but not the same one comes first
            constructor
            · rintro ⟨mode, hmode, hiff⟩ hvouched
              have happrove := hiff.2 hvouched
              subst happrove
              simp [heq] at hmode
            · intro h
              have hnot : ¬ Vouched getRule templates newPath oldPath newRule oldRule.fwRule := fun hvouched =>
                heq (Option.some.inj (h hvouched)).symm
              exact ⟨.eNone, by simp [heq], iff_of_false (by simp) hnot⟩

end Move

/-! ### Two templates -/

/-- `CFwRuleTemplate`. -/
structure CFwRuleTemplate where
  rule : CFirewallRule
  deriving DecidableEq

instance : PathEntry CFwRuleTemplate := ⟨fun template => template.rule.binaryPath⟩

/-- A template that allows outbound connections of the programs with a pattern. -/
def allowTemplate (pattern : String) : CFwRuleTemplate :=
  ⟨{ CFirewallRule.new with
      binaryPath := wide pattern
      fwRule := { SWindowsFwRule.new with enabled := true, action := .value .allow, direction := .value .outbound } }⟩

/-- With a template for one program beside the one for its folder, a move within the folder is not approved. -/
theorem not_decideRuleChange_moved : ¬ ∀ (templates : List CFwRuleTemplate) (newRule : SWindowsFwRule) (oldRule : CFirewallRule)
    (oldPath newPath : Str), ∃ mode, decideRuleChange (·.rule) (templatesTree templates) ⟨true, true, false⟩ (some newRule) (some oldRule)
      true oldPath newPath = some mode ∧ (mode = .eApprove ↔ Vouched (·.rule) templates newPath oldPath newRule oldRule.fwRule) := by
  intro h
  let templates := [allowTemplate "c:\\x\\*", allowTemplate "c:\\x\\a"]
  let rule := (allowTemplate "").rule
  have hnew : askedFor templates (wide "c:\\x\\a") = [allowTemplate "c:\\x\\a", allowTemplate "c:\\x\\*"] ∧
      askedFor templates (wide "c:\\x\\b") = [allowTemplate "c:\\x\\*"] ∧
      decideRuleChange (·.rule) (templatesTree templates) ⟨true, true, false⟩ (some rule.fwRule) (some rule) true
        (wide "c:\\x\\b") (wide "c:\\x\\a") = some .eNone := by decide +kernel
  rcases hnew with ⟨hnew, hold, hmode⟩
  rcases h templates rule.fwRule rule (wide "c:\\x\\b") (wide "c:\\x\\a") with ⟨mode, heq, hiff⟩
  rw [hmode] at heq
  cases heq
  have hnone : ∀ {path : Str} {entries : List CFwRuleTemplate}, askedFor templates path = entries →
      (∀ t ∈ entries, t.rule.fwRule.action = .value .allow) → ∀ t, Matches templates path t → ¬ Rejects (·.rule) rule.fwRule t := by
    rintro path entries hentries hallow t hmatches ⟨-, hblock, -⟩
    have haction := hblock.symm.trans (hallow t (hentries ▸ mem_askedFor.2 hmatches))
    cases haction
  refine absurd (hiff.2 ⟨hnone hnew ?_, hnone hold ?_, allowTemplate "c:\\x\\*", ⟨?_, by decide⟩, ?_, by decide⟩) (by decide)
  · rintro t ht
    rcases List.mem_pair.1 ht with rfl | rfl
    · rfl
    · rfl
  · rintro t ht
    rw [List.mem_singleton.1 ht]
    rfl
  · exact mem_askedFor.1 (hnew ▸ List.mem_cons_of_mem _ List.mem_cons_self)
  · exact mem_askedFor.1 (hold ▸ List.mem_cons_self)

end MajorPrivacy.Firewall

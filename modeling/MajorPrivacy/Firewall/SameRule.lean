/-
When two rules are the same rule (`CFirewallRule::Match`). The relation is reflexive and symmetric. It lets the
container SID or the package family name stand for the container, so it need not carry over a rule that sets both.
-/
import MajorPrivacy.Firewall.Addresses

namespace MajorPrivacy.Firewall

/-! ## The comparison -/

/-- `MatchDiff`: the first field that differs, or nothing. -/
def matchDiff (ruleL ruleR : SWindowsFwRule) : Str :=
  if ruleL.name ≠ ruleR.name then wide "Name"
  else if ruleL.grouping ≠ ruleR.grouping then wide "Grouping"
  else if ruleL.description ≠ ruleR.description then wide "Description"
  else if ¬ wcsicmp ruleL.binaryPath ruleR.binaryPath then wide "BinaryPath"
  else if ¬ wcsicmp ruleL.serviceTag ruleR.serviceTag then wide "ServiceTag"
  else
    let appSidSet : Bool := ruleL.appContainerSid ≠ [] ∨ ruleR.appContainerSid ≠ []
    let appSidMissmatch := !wcsicmp ruleL.appContainerSid ruleR.appContainerSid
    let appPFNSet : Bool := ruleL.packageFamilyName ≠ [] ∨ ruleR.packageFamilyName ≠ []
    let appPFNMissmatch := !wcsicmp ruleL.packageFamilyName ruleR.packageFamilyName
    if (if appSidSet && appPFNSet then appSidMissmatch && appPFNMissmatch else appSidMissmatch || appPFNMissmatch) then
      wide "AppContainer"
    else if ¬ wcsicmp ruleL.localUserAuthorizationList ruleR.localUserAuthorizationList then wide "LocalUserAuthorizationList"
    else if ruleL.enabled ≠ ruleR.enabled then wide "Enabled"
    else if ruleL.action ≠ ruleR.action then wide "Action"
    else if ruleL.direction ≠ ruleR.direction then wide "Direction"
    else if ruleL.profile ≠ ruleR.profile then wide "Profile"
    else if ruleL.protocol ≠ ruleR.protocol then wide "Protocol"
    else if ruleL.interface ≠ ruleR.interface then wide "Interface"
    else if ruleL.localAddresses ≠ ruleR.localAddresses then wide "LocalAddresses"
    else if ruleL.localPorts ≠ ruleR.localPorts then wide "LocalPorts"
    else if ruleL.remoteAddresses ≠ ruleR.remoteAddresses then wide "RemoteAddresses"
    else if ruleL.remotePorts ≠ ruleR.remotePorts then wide "RemotePorts"
    else if ruleL.icmpTypesAndCodes ≠ ruleR.icmpTypesAndCodes then wide "IcmpTypesAndCodes"
    else if ruleL.osPlatformValidity ≠ ruleR.osPlatformValidity then wide "OsPlatformValidity"
    else if ruleL.edgeTraversal ≠ ruleR.edgeTraversal then wide "EdgeTraversal"
    else []

/-- `Match`. -/
def ruleMatch (ruleL ruleR : SWindowsFwRule) : Bool := matchDiff ruleL ruleR = []

/-! ## What it compares -/

/-- A text as `_wcsicmp` sees it. -/
def folded (s : Str) : Str := (cStr s).map towlower

theorem wcsicmp_iff {a b : Str} : wcsicmp a b = true ↔ folded a = folded b := decide_eq_true_iff

/-- The fields that have to agree. -/
def SWindowsFwRule.compared (rule : SWindowsFwRule) : SWindowsFwRule :=
  { rule with
    guid := [], index := 0, localUserOwner := [], appContainerSid := [], packageFamilyName := []
    binaryPath := folded rule.binaryPath, serviceTag := folded rule.serviceTag
    localUserAuthorizationList := folded rule.localUserAuthorizationList }

/-- The container SIDs are the same. -/
def SameSid (ruleL ruleR : SWindowsFwRule) : Prop := folded ruleL.appContainerSid = folded ruleR.appContainerSid

/-- The package family names are the same. -/
def SamePFN (ruleL ruleR : SWindowsFwRule) : Prop := folded ruleL.packageFamilyName = folded ruleR.packageFamilyName

/-- The container is the same: by its SID and its family name, or by one of them when both are set in some rule. -/
def SameApp (ruleL ruleR : SWindowsFwRule) : Prop :=
  SameSid ruleL ruleR ∧ SamePFN ruleL ruleR ∨
    (ruleL.appContainerSid ≠ [] ∨ ruleR.appContainerSid ≠ []) ∧ (ruleL.packageFamilyName ≠ [] ∨ ruleR.packageFamilyName ≠ []) ∧
      (SameSid ruleL ruleR ∨ SamePFN ruleL ruleR)

theorem wide_ne_nil {s : String} (h : s.toList ≠ []) : wide s ≠ [] := by
  unfold wide text
  simpa using h

theorem ite_wide_eq_nil {c : Prop} [Decidable c] {s : String} {rest : Str} (h : s.toList ≠ []) :
    (if c then wide s else rest) = [] ↔ ¬ c ∧ rest = [] := by
  by_cases hc : c
  · simp only [hc, if_true, not_true, false_and, iff_false]
    exact wide_ne_nil h
  · simp only [hc, if_false, not_false_eq_true, true_and]

/-- Rules match if what is compared agrees and the container is the same. -/
theorem ruleMatch_iff {ruleL ruleR : SWindowsFwRule} :
    ruleMatch ruleL ruleR = true ↔ ruleL.compared = ruleR.compared ∧ SameApp ruleL ruleR := by
  have happ : ∀ {sidSet pfnSet : Bool} {sid pfn : Bool},
      ¬ (if sidSet && pfnSet then !sid && !pfn else !sid || !pfn) = true ↔
        sid = true ∧ pfn = true ∨ sidSet = true ∧ pfnSet = true ∧ (sid = true ∨ pfn = true) := by decide
  unfold ruleMatch matchDiff
  rw [decide_eq_true_iff]
  dsimp only
  repeat rw [ite_wide_eq_nil (by decide)]
  rw [happ]
  simp only [not_not, decide_eq_true_eq, wcsicmp_iff, SWindowsFwRule.compared, SWindowsFwRule.mk.injEq, true_and, and_true]
  constructor
  · rintro ⟨hname, hgrouping, hdescr, hpath, htag, happ, hlist, hrest⟩
    exact ⟨⟨hpath, htag, hlist, hname, hgrouping, hdescr, hrest⟩, happ⟩
  · rintro ⟨⟨hpath, htag, hlist, hname, hgrouping, hdescr, hrest⟩, happ⟩
    exact ⟨hname, hgrouping, hdescr, hpath, htag, happ, hlist, hrest⟩

/-! ## An equivalence but for the container -/

theorem SameApp.refl (rule : SWindowsFwRule) : SameApp rule rule := .inl ⟨rfl, rfl⟩

theorem SameApp.symm {ruleL ruleR : SWindowsFwRule} (h : SameApp ruleL ruleR) : SameApp ruleR ruleL := by
  rcases h with ⟨hsid, hpfn⟩ | ⟨hsidSet, hpfnSet, hsame⟩
  · exact .inl ⟨hsid.symm, hpfn.symm⟩
  · exact .inr ⟨hsidSet.symm, hpfnSet.symm, hsame.imp Eq.symm Eq.symm⟩

/-- Two rules that agree with a third one do so by different means: one by the SID alone, the other one by the family
name alone. -/
def Straddle (first middle last : SWindowsFwRule) : Prop :=
  SameSid first middle ∧ ¬ SamePFN first middle ∧ ¬ SameSid middle last ∧ SamePFN middle last

/-- Two rules set one of the two at most, and differ in it. -/
def DifferInOne (first last : SWindowsFwRule) : Prop :=
  first.appContainerSid = [] ∧ last.appContainerSid = [] ∧ ¬ SamePFN first last ∨
    first.packageFamilyName = [] ∧ last.packageFamilyName = [] ∧ ¬ SameSid first last

theorem SameApp.same {ruleL ruleR : SWindowsFwRule} (h : SameApp ruleL ruleR) : SameSid ruleL ruleR ∨ SamePFN ruleL ruleR := by
  rcases h with ⟨hsid, -⟩ | ⟨-, -, hsame⟩
  · exact .inl hsid
  · exact hsame

theorem not_sameApp_of_straddle {first middle last : SWindowsFwRule} (h : Straddle first middle last) : ¬ SameApp first last := by
  rcases h with ⟨hsid, hpfn, hsid', hpfn'⟩
  intro happ
  rcases happ.same with hsame | hsame
  · exact hsid' (hsid.symm.trans hsame)
  · exact hpfn (hsame.trans hpfn'.symm)

/-- A text that is not the same in two rules is set in one of them. -/
theorem set_of_folded_ne {a b : Str} (h : folded a ≠ folded b) : a ≠ [] ∨ b ≠ [] := by
  by_contra hnone
  rw [not_or, not_not, not_not] at hnone
  exact h (by rw [hnone.1, hnone.2])

/-- How the container carries over. -/
theorem SameApp.trans_iff {first middle last : SWindowsFwRule} (hfirst : SameApp first middle) (hlast : SameApp middle last) :
    SameApp first last ↔ ¬ Straddle first middle last ∧ ¬ Straddle last middle first ∧ ¬ DifferInOne first last := by
  constructor
  · intro happ
    refine ⟨fun h => not_sameApp_of_straddle h happ, fun h => not_sameApp_of_straddle h happ.symm, fun h => ?_⟩
    rcases h with ⟨hsid, hsid', hdiffer⟩ | ⟨hpfn, hpfn', hdiffer⟩
    · rcases happ with ⟨-, hsame⟩ | ⟨hset | hset, -⟩
      · exact hdiffer hsame
      · exact hset hsid
      · exact hset hsid'
    · rcases happ with ⟨hsame, -⟩ | ⟨-, hset | hset, -⟩
      · exact hdiffer hsame
      · exact hset hpfn
      · exact hset hpfn'
  · rintro ⟨hstraddle, hstraddle', hone⟩
    by_cases hsid : SameSid first last
    · by_cases hpfn : SamePFN first last
      · exact .inl ⟨hsid, hpfn⟩
      · refine .inr ⟨?_, set_of_folded_ne hpfn, .inl hsid⟩
        by_contra hunset
        rw [not_or, not_not, not_not] at hunset
        exact hone (.inl ⟨hunset.1, hunset.2, hpfn⟩)
    · by_cases hpfn : SamePFN first last
      · refine .inr ⟨set_of_folded_ne hsid, ?_, .inr hpfn⟩
        by_contra hunset
        rw [not_or, not_not, not_not] at hunset
        exact hone (.inr ⟨hunset.1, hunset.2, hsid⟩)
      · -- neither is the same, so the middle rule agrees with the two by different means
        exfalso
        rcases hfirst.same with h | h <;> rcases hlast.same with h' | h'
        case inl.inl => exact hsid (h.trans h')
        case inl.inr => exact hstraddle ⟨h, fun heq => hpfn (heq.trans h'), fun heq => hsid (h.trans heq), h'⟩
        case inr.inl => exact hstraddle' ⟨h'.symm, fun heq => hpfn (h.trans heq.symm), fun heq => hsid (heq.symm.trans h'), h.symm⟩
        case inr.inr => exact hpfn (h.trans h')

theorem ruleMatch_refl (rule : SWindowsFwRule) : ruleMatch rule rule = true := ruleMatch_iff.2 ⟨rfl, .refl rule⟩

theorem ruleMatch_symm {ruleL ruleR : SWindowsFwRule} (h : ruleMatch ruleL ruleR = true) : ruleMatch ruleR ruleL = true := by
  rcases ruleMatch_iff.1 h with ⟨hcompared, happ⟩
  exact ruleMatch_iff.2 ⟨hcompared.symm, happ.symm⟩

/-- Every rule matches itself, and matching goes both ways. It goes on over a third rule unless the two agree with that
one by different means, or differ in the only one of SID and family name that they set. -/
theorem ruleMatch_laws :
    (∀ rule, ruleMatch rule rule = true) ∧ (∀ ruleL ruleR, ruleMatch ruleL ruleR = ruleMatch ruleR ruleL) ∧
      ∀ first middle last, ruleMatch first middle = true → ruleMatch middle last = true →
        (ruleMatch first last = true ↔ ¬ Straddle first middle last ∧ ¬ Straddle last middle first ∧ ¬ DifferInOne first last) := by
  refine ⟨ruleMatch_refl, fun ruleL ruleR => Bool.eq_iff_iff.2 ⟨ruleMatch_symm, ruleMatch_symm⟩, fun first middle last hfirst hlast => ?_⟩
  rcases ruleMatch_iff.1 hfirst with ⟨hfirst, happ⟩
  rcases ruleMatch_iff.1 hlast with ⟨hlast, happ'⟩
  rw [ruleMatch_iff, and_iff_right (hfirst.trans hlast), happ.trans_iff happ']

/-- The middle rule agrees with one rule by the SID and with the other one by the family name. -/
theorem not_ruleMatch_equivalence : ¬ Equivalence fun ruleL ruleR => ruleMatch ruleL ruleR = true := by
  intro h
  have htrans := @h.trans { SWindowsFwRule.new with appContainerSid := wide "S-1-15-2-1", packageFamilyName := wide "a_1" }
    { SWindowsFwRule.new with appContainerSid := wide "S-1-15-2-1", packageFamilyName := wide "b_1" }
    { SWindowsFwRule.new with appContainerSid := wide "S-1-15-2-2", packageFamilyName := wide "b_1" } (by decide) (by decide)
  exact absurd htrans (by decide)

/-! ### Rules as Windows keeps them -/

/-- A rule sets one of SID and family name at most, to a text that has characters. -/
structure SWindowsFwRule.OneApp (rule : SWindowsFwRule) : Prop where
  one : rule.appContainerSid = [] ∨ rule.packageFamilyName = []
  sid : folded rule.appContainerSid = [] → rule.appContainerSid = []
  pfn : folded rule.packageFamilyName = [] → rule.packageFamilyName = []

/-- Between such rules the container is the same if both texts are. -/
theorem SameApp.both {ruleL ruleR : SWindowsFwRule} (hL : ruleL.OneApp) (hR : ruleR.OneApp) (h : SameApp ruleL ruleR) :
    SameSid ruleL ruleR ∧ SamePFN ruleL ruleR := by
  rcases h with hboth | ⟨hsidSet, hpfnSet, hsame⟩
  · exact hboth
  · exfalso
    -- the one with the SID has no family name, and the other way round, so the two share neither
    rcases hL.one with hLsid | hLpfn <;> rcases hR.one with hRsid | hRpfn
    case inl.inl => exact hsidSet.elim (· hLsid) (· hRsid)
    case inr.inr => exact hpfnSet.elim (· hLpfn) (· hRpfn)
    case inl.inr =>
      rcases hsame with hsame | hsame
      · exact hsidSet.elim (· hLsid) (· (hR.sid (hsame.symm.trans (by rw [hLsid]; rfl))))
      · exact hpfnSet.elim (· (hL.pfn (hsame.trans (by rw [hRpfn]; rfl)))) (· hRpfn)
    case inr.inl =>
      rcases hsame with hsame | hsame
      · exact hsidSet.elim (· (hL.sid (hsame.trans (by rw [hRsid]; rfl)))) (· hRsid)
      · exact hpfnSet.elim (· hLpfn) (· (hR.pfn (hsame.symm.trans (by rw [hLpfn]; rfl))))

/-- Rules that set one of the two at most fall into classes. -/
theorem ruleMatch_equivalence :
    Equivalence fun ruleL ruleR : {rule : SWindowsFwRule // rule.OneApp} => ruleMatch ruleL.1 ruleR.1 = true where
  refl rule := ruleMatch_refl rule.1
  symm h := ruleMatch_symm h
  trans {first middle last} hfirst hlast := by
    rcases ruleMatch_iff.1 hfirst with ⟨hfirst, happ⟩
    rcases ruleMatch_iff.1 hlast with ⟨hlast, happ'⟩
    have hboth := happ.both first.2 middle.2
    have hboth' := happ'.both middle.2 last.2
    exact ruleMatch_iff.2 ⟨hfirst.trans hlast, .inl ⟨hboth.1.trans hboth'.1, hboth.2.trans hboth'.2⟩⟩

end MajorPrivacy.Firewall

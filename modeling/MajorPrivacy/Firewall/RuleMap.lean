/-
The rules the service has (`m_FwRules`): the object a rule of Windows is kept as, what one object takes from
another, and the map of the objects under their guids.
-/
import MajorPrivacy.Firewall.SameRule
import MajorPrivacy.Guid.Identity
import MajorPrivacy.Lib.Dict

namespace MajorPrivacy.Firewall

open MajorPrivacy.Guid

/-! ## Objects -/

/-- `CProcess::NtOsKernel_exe`. -/
def ntOsKernelExe : Str := wide "\\SystemRoot\\System32\\ntoskrnl.exe"

namespace SWindowsFwRule

/-- The path of the program, with the file that stands for the system. -/
def programPath (data : SWindowsFwRule) : Str :=
  if wcsicmp data.binaryPath (wide "system") then ntOsKernelExe else data.binaryPath

/-- The SID of the container, from the family name if only that is set. -/
def containerSid (p : Platform) (data : SWindowsFwRule) : Str :=
  if data.appContainerSid = [] ∧ data.packageFamilyName ≠ [] then p.appContainerSidFromName data.packageFamilyName
  else data.appContainerSid

/-- The group is the one of rules that do not last. -/
def isTemporary (data : SWindowsFwRule) : Bool := (folded data.grouping).take 10 = folded (wide "#Temporary")

end SWindowsFwRule

namespace CFirewallRule

/-- `SetPrincipalSddl`, for the texts it sets. -/
def setPrincipalSddl (r : CFirewallRule) (principalSddl : Str) : CFirewallRule :=
  { r with principalSddl := principalSddl, fwRule := { r.fwRule with localUserAuthorizationList := principalSddl } }

/-- `Update` from a rule of Windows. -/
def setFwRule (r : CFirewallRule) (data : SWindowsFwRule) : CFirewallRule :=
  { { r with fwRule := data }.setPrincipalSddl data.localUserAuthorizationList with bTemporary := data.isTemporary }

/-- The constructor. -/
def ofFwRule (p : Platform) (data : SWindowsFwRule) : CFirewallRule :=
  { CFirewallRule.new.setFwRule data with
    binaryPath := data.programPath
    programID := .fromFw p data.programPath data.serviceTag (data.containerSid p) }

/-- `Update` from another rule: neither its program nor its template. -/
def update (r other : CFirewallRule) : CFirewallRule :=
  { r.setPrincipalSddl other.principalSddl with
    state := other.state, originalGuid := other.originalGuid, source := other.source
    bTemporary := other.bTemporary, uTimeOut := other.uTimeOut }

/-- `IsTemplate`. -/
def isTemplate (r : CFirewallRule) : Bool := r.programID.type = .eFilePattern

/-- `MatchProgramID`. -/
def matchProgramID (p : Platform) (data : SWindowsFwRule) (r : CFirewallRule) : Bool :=
  if p.normalizePath data.programPath ≠ r.programID.filePath then false
  else if p.mkLower data.serviceTag ≠ r.programID.serviceTag then false
  else if r.programID.type = .eAppPackage then wcsicmp (data.containerSid p) r.programID.auxValue
  else data.containerSid p = []

variable (p : Platform) (r other : CFirewallRule) (data : SWindowsFwRule)

@[simp] theorem fwRule_setFwRule : (r.setFwRule data).fwRule = data := rfl

@[simp] theorem fwRule_ofFwRule : (ofFwRule p data).fwRule = data := rfl

@[simp] theorem fwRule_update : (r.update other).fwRule = { r.fwRule with localUserAuthorizationList := other.principalSddl } := rfl

@[simp] theorem originalGuid_ofFwRule : (ofFwRule p data).originalGuid = [] := rfl

@[simp] theorem originalGuid_update : (r.update other).originalGuid = other.originalGuid := rfl

end CFirewallRule

/-! ## The map -/

/-- What a guid is ordered by. -/
def guidKey (guid : Str) : List Nat := (CFlexGuid.ofText (.wide guid)).key

/-- `m_FwRules`: every rule is under its guid, and no two have the same. -/
structure RuleMap where
  entries : List (List Nat × CFirewallRule)
  keyed : ∀ e ∈ entries, e.1 = guidKey e.2.fwRule.guid
  nodup : (entries.map (·.1)).Nodup

namespace RuleMap

def empty : RuleMap := ⟨[], by simp, List.nodup_nil⟩

/-- The rule under what a guid is ordered by. -/
def get (m : RuleMap) (key : List Nat) : Option CFirewallRule := Dict.find key m.entries

def find (m : RuleMap) (guid : Str) : Option CFirewallRule := m.get (guidKey guid)

/-- `insert`, which leaves a rule that is there. -/
def insert (m : RuleMap) (r : CFirewallRule) : RuleMap :=
  match m.find r.fwRule.guid with
  | some _ => m
  | none =>
    { entries := Dict.put (fun a b => decide (a < b)) (guidKey r.fwRule.guid) r m.entries
      keyed := fun e he => by
        rcases Dict.mem_put he with rfl | he
        · rfl
        · exact m.keyed e he
      nodup := Dict.nodup_put _ m.nodup }

/-- `erase`. -/
def erase (m : RuleMap) (guid : Str) : RuleMap :=
  { entries := Dict.erase (guidKey guid) m.entries
    keyed := fun e he => m.keyed e (Dict.erase_subset he)
    nodup := m.nodup.sublist ((Dict.erase_sublist m.entries).map _) }

/-- The object under its guid is as it is now. -/
def set (m : RuleMap) (r : CFirewallRule) : RuleMap :=
  { entries := Dict.modify (guidKey r.fwRule.guid) (fun _ => r) m.entries
    keyed := fun e he => by
      rcases Dict.mem_modify he with ⟨-, -, rfl⟩ | he
      · rfl
      · exact m.keyed e he
    nodup := by
      rw [Dict.map_fst_modify]
      exact m.nodup }

variable {m : RuleMap} {r : CFirewallRule} {guid other : Str} {key : List Nat}

theorem guidKey_of_get (h : m.get key = some r) : guidKey r.fwRule.guid = key := (m.keyed _ (Dict.mem_of_find h)).symm

theorem find_of_mem {e : List Nat × CFirewallRule} (h : e ∈ m.entries) : m.find e.2.fwRule.guid = some e.2 := by
  rw [find, ← m.keyed e h]
  exact Dict.find_of_mem m.nodup h

@[simp] theorem get_empty : empty.get key = none := rfl

/-! ### After each operation -/

theorem get_erase : (m.erase guid).get key = if guidKey guid = key then none else m.get key := by
  split
  · rename_i h
    rw [← h]
    exact Dict.find_erase_self m.nodup
  · rename_i h
    exact Dict.find_erase_of_ne h m.entries

theorem get_insert (h : m.find r.fwRule.guid = none) : (m.insert r).get key = if guidKey r.fwRule.guid = key then some r else m.get key := by
  have hentries : (m.insert r).entries = Dict.put (fun a b => decide (a < b)) (guidKey r.fwRule.guid) r m.entries := by
    unfold insert
    rw [h]
  rw [get, hentries]
  by_cases hkey : guidKey r.fwRule.guid = key
  · rw [if_pos hkey, ← hkey]
    exact Dict.find_put _ _ r m.entries
  · rw [if_neg hkey]
    exact Dict.find_put_of_ne hkey m.entries

theorem get_set {old : CFirewallRule} (h : m.find r.fwRule.guid = some old) :
    (m.set r).get key = if guidKey r.fwRule.guid = key then some r else m.get key := by
  split
  · rename_i hkey
    rw [← hkey]
    exact Dict.find_modify_self h
  · rename_i hkey
    exact Dict.find_modify_of_ne _ hkey m.entries

theorem find_congr (h : guidKey guid = guidKey other) : m.find guid = m.find other := by rw [find, h, find]

theorem guidKey_of_find (h : m.find guid = some r) : guidKey r.fwRule.guid = guidKey guid := guidKey_of_get h

@[simp] theorem find_erase_self : (m.erase guid).find guid = none := by rw [find, get_erase, if_pos rfl]

theorem find_erase_of_ne (h : guidKey other ≠ guidKey guid) : (m.erase other).find guid = m.find guid := by
  rw [find, get_erase, if_neg h, find]

theorem find_insert_of_ne (h : guidKey r.fwRule.guid ≠ guidKey guid) : (m.insert r).find guid = m.find guid := by
  unfold insert
  split
  · rfl
  · exact Dict.find_put_of_ne h m.entries

end RuleMap

end MajorPrivacy.Firewall

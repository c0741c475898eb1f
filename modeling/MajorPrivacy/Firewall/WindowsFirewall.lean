/-
`CWindowsFirewall`: the calls that write, read and remove a rule of Windows. How the functions of Windows answer is
given for each call; a call that is refused leaves Windows as it was, and a query shows what is held.
-/
import MajorPrivacy.Firewall.SameRule
import MajorPrivacy.Lib.Dict
import Mathlib.Logic.Function.Basic

namespace MajorPrivacy.Firewall

/-! ## The calls -/

inductive STATUS
  | ok | unsuccessful | internalError | entryPointNotFound | ruleDivergent
  deriving DecidableEq

/-- `ERROR_RULE_NOT_FOUND`. -/
def errorRuleNotFound : UInt32 := 2

/-- How the functions of Windows answer, and what an accepted write leaves under the id. -/
structure Answers where
  createGuid : Str
  saveRule : Bool
  setRule : UInt32
  addRule : UInt32
  kept : Option SWindowsFwRule
  /-- the functions of a query were found -/
  canQuery : Bool
  queryRules : UInt32
  loadRule : Bool
  canDelete : Bool
  deleteRule : UInt32

/-- What Windows holds under its ids, and the ids `CWindowsFirewall` knows with the positions of their rules. -/
structure WindowsFirewall where
  held : Str → Option SWindowsFwRule
  indices : List (Str × Int32)

/-- The rule with a position, which only the service gives it. -/
def SWindowsFwRule.placed (data : SWindowsFwRule) (index : Int32) : SWindowsFwRule := { data with index := index }

/-- `LoadRule` of what is held under an id. -/
def SWindowsFwRule.under (data : SWindowsFwRule) (id : Str) : SWindowsFwRule := { data with guid := id, index := 0 }

namespace WindowsFirewall

/-- The rule Windows holds under an id. -/
def rule (w : WindowsFirewall) (id : Str) : Option SWindowsFwRule := (w.held id).map (·.under id)

/-- Ids in the order of a map. -/
def idBefore (a b : Str) : Bool := decide (a < b)

/-- `RemoveRule`. -/
def removeRule (w : WindowsFirewall) (a : Answers) (id : Str) : STATUS × WindowsFirewall :=
  if ¬ a.canDelete then (.entryPointNotFound, w)
  else if (Dict.find id w.indices).isNone then (.ok, w)
  else if a.deleteRule ≠ errorRuleNotFound ∧ a.deleteRule ≠ 0 then (.unsuccessful, w)
  else (.ok, { held := Function.update w.held id none, indices := Dict.erase id w.indices })

end WindowsFirewall

/-! ## What the calls leave -/

namespace Answers

/-- The write goes through, for a rule that `CWindowsFirewall` knows or does not know. -/
def accepts (a : Answers) (known : Bool) : Prop :=
  a.saveRule = true ∧ (if known = false ∨ a.setRule = errorRuleNotFound then a.addRule else a.setRule) = 0

/-- A query succeeds and its rule can be loaded. -/
def shows (a : Answers) : Prop := a.queryRules = 0 ∧ a.loadRule = true

/-- The removal goes through. -/
def removes (a : Answers) : Prop := a.canDelete = true ∧ (a.deleteRule = errorRuleNotFound ∨ a.deleteRule = 0)

instance (a : Answers) (known : Bool) : Decidable (a.accepts known) := inferInstanceAs (Decidable (_ ∧ _))

instance (a : Answers) : Decidable a.shows := inferInstanceAs (Decidable (_ ∧ _))

end Answers

namespace WindowsFirewall

variable {w : WindowsFirewall} {a : Answers} {data : SWindowsFwRule} {id : Str}

/-- `CWindowsFirewall` has the rule in its cache. -/
def knows (w : WindowsFirewall) (id : Str) : Bool := (Dict.find id w.indices).isSome

/-- Windows after an accepted write. -/
def written (w : WindowsFirewall) (a : Answers) (id : Str) (index : Int32) : WindowsFirewall :=
  { held := Function.update w.held id a.kept, indices := Dict.put idBefore id index w.indices }

end WindowsFirewall

end MajorPrivacy.Firewall

/-
Who a rule is for. The list of a rule is kept as a table with one entry for each SID, so an entry that denies a
user is lost to a later one that allows it.
-/
import MajorPrivacy.Firewall.Keywords

namespace MajorPrivacy.Firewall

open MajorPrivacy.Variant

/-! ## Entry by entry -/

/-- The last entry for a SID. -/
def LastFor (entries : List (Str × ESidEntryType)) (sid : Str) (type : ESidEntryType) : Prop :=
  ∃ front back, entries = front ++ (sid, type) :: back ∧ ∀ entry ∈ back, entry.1 ≠ sid

theorem LastFor.mem {entries : List (Str × ESidEntryType)} {sid : Str} {type : ESidEntryType} (h : LastFor entries sid type) :
    (sid, type) ∈ entries := by
  rcases h with ⟨front, back, rfl, -⟩
  simp

end MajorPrivacy.Firewall

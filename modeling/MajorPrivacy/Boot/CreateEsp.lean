/-
`CreateEsp` as a whole: when it makes room for a boot partition and damages no other.
-/
import MajorPrivacy.Boot.Shrinking

namespace MajorPrivacy.Boot

open Tracked PARTITION_INFORMATION_EX

variable {w : Windows} {disk : Disk} {o : SCreateEspOptions} {i : Nat} {os : PARTITION_INFORMATION_EX}

theorem WriteSpec.congr {P Q : Prop} (hiff : P ↔ Q) {r : Outcome Int32} (h : WriteSpec P disk r) : WriteSpec Q disk r := by
  obtain rfl := propext hiff
  exact h

/-! ## Behind the resized partition -/

/-- The new partition has its place behind Windows, up to the end of the gap. -/
structure Placed (w : Windows) (disk : Disk) (size gapEnd : Nat) (os : PARTITION_INFORMATION_EX) : Prop where
  reads : w.readsResized = true
  room : upTo os.finish + size ≤ gapEnd
  creatable : Creatable w disk size (upTo os.finish)

/-- The run comes to the shrinking: there is no space behind all partitions, and not enough behind Windows. -/
structure ReachesShrink (w : Windows) (disk : Disk) (o : SCreateEspOptions) (i : Nat) (os : PARTITION_INFORMATION_EX) : Prop where
  resolves : w.resolvesDisk = true
  size : DCS_ESP_MIN_SIZE ≤ o.uSize
  gpt : w.isGptDisk = true
  space : w.opensForSpace = true ∧ w.readsForSpace = true ∧ disk.isGpt = true
  full : disk.usableEnd < upTo disk.lastFinish + o.uSize.toNat
  number : 0 < w.osPartition
  plan : w.opensForPlan = true ∧ w.readsForPlan = true
  index : osIndex w disk = some i
  entry : disk.PartitionEntry[i]? = some os
  gap : disk.gapEnd i os < upTo os.finish + o.uSize.toNat
  allowed : o.bAllowShrink = true

/-- The run ends without touching the file system, or comes to the shrinking. -/
inductive EspSpec (w : Windows) (disk : Disk) (o : SCreateEspOptions) : Tracked (Outcome Int32) → Prop
  | direct {P : Prop} {r : Outcome Int32} (hspec : WriteSpec P disk r) (h : ∀ i os, ¬ ReachesShrink w disk o i os) :
      EspSpec w disk o (pure r)
  | shrinking {i : Nat} {os : PARTITION_INFORMATION_EX} {uNextStart uGap : UInt64} (h : ReachesShrink w disk o i os)
      (hnext : uNextStart.toNat = disk.gapEnd i os) (hgap : uGap.toNat = disk.gapEnd i os - os.finish) :
      EspSpec w disk o (shrinkForGap w disk o os.StartingOffset uNextStart uGap)

theorem EspSpec.fail {failure : Failure} (hresult : rejects (.error failure : Except Failure Int32) = false)
    (h : ∀ i os, ¬ ReachesShrink w disk o i os) : EspSpec w disk o (Boot.fail disk failure) :=
  .direct (@WriteSpec.failed False disk _ disk hresult id rfl) h

end MajorPrivacy.Boot

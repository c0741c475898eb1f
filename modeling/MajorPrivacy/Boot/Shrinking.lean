/-
The shrink path: the two megabytes asked for beyond what is missing make up for both alignments, so the layout
fits as long as the missing bytes are computed without a wrap-around. Where Windows rounds the resized partition to is
never held against the file system.
-/
import MajorPrivacy.Boot.BootPartition

namespace MajorPrivacy.Boot

open Tracked PARTITION_INFORMATION_EX

/-! ## FindFreeSpace -/

variable {w : Windows} {disk : Disk}

/-- Where the gap behind a partition ends. -/
def Disk.gapEnd (disk : Disk) (i : Nat) (os : PARTITION_INFORMATION_EX) : Nat :=
  (disk.PartitionEntry.eraseIdx i).foldl (fun n e => if os.finish ≤ e.start ∧ e.start < n then e.start else n) disk.usableEnd

theorem foldl_gapEnd (osEnd : Nat) (entries : List PARTITION_INFORMATION_EX) (n : Nat) :
    entries.foldl (fun n e => if osEnd ≤ e.start ∧ e.start < n then e.start else n) n ≤ n ∧
      (∀ e ∈ entries, osEnd ≤ e.start →
        entries.foldl (fun n e => if osEnd ≤ e.start ∧ e.start < n then e.start else n) n ≤ e.start) ∧
      (osEnd ≤ n → osEnd ≤ entries.foldl (fun n e => if osEnd ≤ e.start ∧ e.start < n then e.start else n) n) := by
  induction entries generalizing n with
  | nil => exact ⟨Nat.le_refl n, by simp, id⟩
  | cons e entries ih =>
    rw [List.foldl_cons]
    obtain ⟨hle, hall, hge⟩ := ih (if osEnd ≤ e.start ∧ e.start < n then e.start else n)
    refine ⟨Nat.le_trans hle (by split <;> omega), fun e' he' hstart => ?_, fun hn => hge (by split <;> omega)⟩
    obtain rfl | he' := List.mem_cons.1 he'
    · exact Nat.le_trans hle (by split <;> omega)
    · exact hall e' he' hstart

/-- The Windows partition, by its place in the table. -/
structure IsWindows (w : Windows) (disk : Disk) (i : Nat) (os : PARTITION_INFORMATION_EX) : Prop where
  index : osIndex w disk = some i
  entry : disk.PartitionEntry[i]? = some os
  used : os.isUsed = true

namespace IsWindows

variable {i : Nat} {os : PARTITION_INFORMATION_EX}

theorem mem (h : IsWindows w disk i os) : os ∈ disk.PartitionEntry := List.mem_of_getElem? h.entry

/-- Every other partition is in front of Windows or behind the gap. -/
theorem apart (h : IsWindows w disk i os) (hdisk : disk.WellFormed) {e : PARTITION_INFORMATION_EX}
    (he : e ∈ disk.PartitionEntry.eraseIdx i) (hused : e.isUsed = true) : e.finish ≤ os.start ∨ disk.gapEnd i os ≤ e.start := by
  obtain ⟨j, hne, hj⟩ := List.mem_eraseIdx_iff_getElem?.1 he
  obtain ⟨hi, hos⟩ := List.getElem?_eq_some_iff.1 h.entry
  obtain ⟨hj', hej⟩ := List.getElem?_eq_some_iff.1 hj
  have hpairs := List.pairwise_iff_getElem.1 hdisk.disjoint
  have happart : os.Apart e ∨ e.Apart os := by
    obtain hlt | hlt := Nat.lt_or_gt_of_ne hne
    · right
      have := hpairs j i hj' hi hlt
      rw [hej, hos] at this
      exact this hused h.used
    · left
      have := hpairs i j hi hj' hlt
      rw [hej, hos] at this
      exact this h.used hused
  have hbehind : os.finish ≤ e.start → disk.gapEnd i os ≤ e.start := (foldl_gapEnd os.finish _ _).2.1 e he
  unfold Apart at happart
  obtain (hle | hle) | (hle | hle) := happart
  · exact .inr (hbehind hle)
  · exact .inl hle
  · exact .inl hle
  · exact .inr (hbehind hle)

end IsWindows

/-! ## The resized table -/

section

variable {i : Nat} {os : PARTITION_INFORMATION_EX}

end

/-! ## ShrinkFileSystem -/

/-- How many sectors that many bytes take. -/
def sectorsFor (bytes sector : Nat) : Nat := if bytes % sector ≠ 0 then bytes / sector + 1 else bytes / sector

section

variable {x b : UInt64}

end

/-- The sectors that a volume gives up for that many bytes. -/
def NTFS_VOLUME_DATA_BUFFER.givenUp (volume : NTFS_VOLUME_DATA_BUFFER) (bytes : Nat) : Nat :=
  sectorsFor (bytes + volume.BytesPerCluster.toNat) volume.BytesPerSector.toNat

/-- The bytes to give up, and the sectors they take, are counted in 64 bits. -/
structure NTFS_VOLUME_DATA_BUFFER.Counts (volume : NTFS_VOLUME_DATA_BUFFER) (bytes : Nat) : Prop where
  cluster : bytes + volume.BytesPerCluster.toNat < 2 ^ 64
  sectors : volume.BytesPerSector ≠ 0 → volume.givenUp bytes * volume.BytesPerSector.toNat < 2 ^ 64

end MajorPrivacy.Boot

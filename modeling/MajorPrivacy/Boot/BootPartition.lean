/-
Making room for a boot partition. What the code computes in 64 bits is what it would compute with
natural numbers, but for the bytes that the file system is asked to give up; the table it writes has the
new partition apart from all others.
-/
import Mathlib.Data.List.Forall2
import MajorPrivacy.Boot.GptDisk

namespace MajorPrivacy.Boot

open Tracked

/-! ## Layouts -/

namespace PARTITION_INFORMATION_EX

variable (e other : PARTITION_INFORMATION_EX)

def start : Nat := e.StartingOffset.toNat

def finish : Nat := e.StartingOffset.toNat + e.PartitionLength.toNat

def Apart : Prop := e.finish ≤ other.start ∨ other.finish ≤ e.start

/-- An entry but for what it asks Windows to do with it. -/
def kept : PARTITION_INFORMATION_EX := { e with RewritePartition := false }

end PARTITION_INFORMATION_EX

namespace Disk

variable (disk : Disk)

def sector : Nat := disk.BytesPerSector.toNat

def usableStart : Nat := 34 * disk.sector

def usableEnd : Nat := disk.DiskSize.toNat - 33 * disk.sector

/-- Disjoint partitions inside the usable area. -/
structure WellFormed : Prop where
  sector : disk.sector = 512 ∨ disk.sector = 4096
  front : 67 * disk.sector ≤ disk.DiskSize.toNat
  back : disk.DiskSize.toNat < 2 ^ 63
  inside : ∀ e ∈ disk.PartitionEntry, e.isUsed = true → disk.usableStart ≤ e.start ∧ e.finish ≤ disk.usableEnd
  disjoint : disk.PartitionEntry.Pairwise fun a b => a.isUsed = true → b.isUsed = true → a.Apart b

end Disk

/-! ## Alignment -/

def downTo (n : Nat) : Nat := n / 2 ^ 20 * 2 ^ 20

def upTo (n : Nat) : Nat := downTo (n + (2 ^ 20 - 1))

namespace Disk.WellFormed

variable {disk : Disk}

theorem usableEnd_lt (h : disk.WellFormed) : disk.usableEnd < 2 ^ 63 := by
  have := h.back
  unfold Disk.usableEnd
  omega

/-- The end of a partition inside the usable area. -/
theorem finish_eq (h : disk.WellFormed) {e : PARTITION_INFORMATION_EX} (he : e ∈ disk.PartitionEntry) (hused : e.isUsed = true) :
    ∃ c, add e.StartingOffset e.PartitionLength = pure c ∧ c.toNat = e.finish := by
  have hinside := (h.inside e he hused).2
  have hlt := h.usableEnd_lt
  exact add_eq (Nat.lt_of_le_of_lt hinside (by omega))

end Disk.WellFormed

/-- The end of everything on the disk. -/
def Disk.lastFinish (disk : Disk) : Nat :=
  disk.PartitionEntry.foldl (fun n e => if e.isUsed then max n e.finish else n) disk.usableStart

/-- Some partition is in the way of a new one. -/
def Disk.InTheWay (disk : Disk) (start finish : Nat) : Prop :=
  ∃ e ∈ disk.PartitionEntry, e.isUsed = true ∧ start < e.finish ∧ e.start < finish

namespace PARTITION_INFORMATION_EX

variable {e e' : PARTITION_INFORMATION_EX}

end PARTITION_INFORMATION_EX

open PARTITION_INFORMATION_EX

/-- An entry put into a table: the others are as they were, and the new one is apart from them. -/
structure Inserted (disk : Disk) (table : List PARTITION_INFORMATION_EX) (before : List PARTITION_INFORMATION_EX)
    (new : PARTITION_INFORMATION_EX) (after : List PARTITION_INFORMATION_EX) : Prop where
  table : table = before ++ new :: after
  others : (before ++ after).map kept = disk.PartitionEntry.map kept
  number : new.PartitionNumber = 0
  used : new.isUsed = true
  front : disk.usableStart ≤ new.start
  back : new.finish ≤ disk.usableEnd
  apart : ∀ other ∈ before ++ after, other.isUsed = true → new.Apart other

/-- The calls of `CreatePartition` go through. -/
structure Windows.Creates (w : Windows) : Prop where
  opens : w.opensForCreate = true
  reads : w.readsForCreate = true
  guid : w.newGuid.isSome = true
  sets : w.setsLayout = true

/-- The result rejects the layout when the file system is already smaller than its partition. -/
def rejects {α : Type} : Except Failure α → Bool
  | .error failure => failure = .layoutMakesNoSense ∨ failure = .smallerThanFileSystem
  | .ok _ => false

/-- A partition of a size can be created at an offset. -/
structure Creatable (w : Windows) (disk : Disk) (size start : Nat) : Prop where
  calls : w.Creates
  gpt : disk.isGpt = true
  count : disk.PartitionEntry.length < MAX_PARTITIONS
  room : start + size ≤ disk.usableEnd
  free : ¬ disk.InTheWay start (start + size)

/-- What is left by a call that writes a new partition into a table just under a condition. -/
inductive WriteSpec (P : Prop) (disk : Disk) : Outcome Int32 → Prop
  | failed {failure : Failure} {disk' : Disk} (hresult : rejects (.error failure : Except Failure Int32) = false) (h : ¬ P)
      (hwritten : disk'.written = disk.written) : WriteSpec P disk (.error failure, disk')
  | written {result : Except Failure Int32} {disk' : Disk} {table before after : List PARTITION_INFORMATION_EX}
      {new : PARTITION_INFORMATION_EX} (hresult : rejects result = false) (h : P) (hvolume : disk'.volume = disk.volume)
      (hwritten : disk'.written = some table) (hinserted : Inserted disk table before new after) :
      WriteSpec P disk (result, disk')

variable {w : Windows} {disk : Disk}

end MajorPrivacy.Boot

/-
Usage samples and buckets (UsageStats.h): what a program used, and the time it is booked under. A
record is the packed structure, little endian; one that is shorter leaves the fields behind it zero.
-/
import MajorPrivacy.Lib.LittleEndian
import Mathlib.Data.UInt

namespace MajorPrivacy.Usage

open LittleEndian

/-- `EUsageTier`. -/
inductive EUsageTier
  | seconds
  | minutes
  deriving DecidableEq

/-- `UsageTierInterval`. -/
def usageTierInterval : EUsageTier → UInt32
  | .seconds => 1
  | .minutes => 60

@[ext]
structure SUsageSample where
  cpuKernel : UInt32
  cpuUser : UInt32
  ioRead : UInt64
  ioWrite : UInt64
  ioOther : UInt64
  netUpload : UInt64
  netDownload : UInt64
  gpuTime : UInt32
  npuTime : UInt32
  lanUpload : UInt64
  lanDownload : UInt64
  connInbound : UInt32
  connOutbound : UInt32
  deriving DecidableEq

namespace SUsageSample

instance : Zero SUsageSample := ⟨⟨0, 0, 0, 0, 0, 0, 0, 0, 0, 0, 0, 0, 0⟩⟩

/-- `Add`. -/
instance : Add SUsageSample where
  add a b :=
    { cpuKernel := a.cpuKernel + b.cpuKernel
      cpuUser := a.cpuUser + b.cpuUser
      ioRead := a.ioRead + b.ioRead
      ioWrite := a.ioWrite + b.ioWrite
      ioOther := a.ioOther + b.ioOther
      netUpload := a.netUpload + b.netUpload
      netDownload := a.netDownload + b.netDownload
      gpuTime := a.gpuTime + b.gpuTime
      npuTime := a.npuTime + b.npuTime
      lanUpload := a.lanUpload + b.lanUpload
      lanDownload := a.lanDownload + b.lanDownload
      connInbound := a.connInbound + b.connInbound
      connOutbound := a.connOutbound + b.connOutbound }

/-- `IsZero`. -/
def isZero (s : SUsageSample) : Bool := s = 0

theorem add_def (a b : SUsageSample) : a + b = ⟨a.cpuKernel + b.cpuKernel, a.cpuUser + b.cpuUser, a.ioRead + b.ioRead,
    a.ioWrite + b.ioWrite, a.ioOther + b.ioOther, a.netUpload + b.netUpload, a.netDownload + b.netDownload, a.gpuTime + b.gpuTime,
    a.npuTime + b.npuTime, a.lanUpload + b.lanUpload, a.lanDownload + b.lanDownload, a.connInbound + b.connInbound,
    a.connOutbound + b.connOutbound⟩ := rfl

theorem zero_def : (0 : SUsageSample) = ⟨0, 0, 0, 0, 0, 0, 0, 0, 0, 0, 0, 0, 0⟩ := rfl

/-- Samples are added field by field, so their sums can be taken in any order. -/
instance : AddCommMonoid SUsageSample where
  add_assoc a b c := by
    simp only [add_def, add_assoc]
  add_comm a b := by
    simp only [add_def, add_comm]
  zero_add a := by
    simp only [add_def, zero_def, zero_add]
  add_zero a := by
    simp only [add_def, zero_def, add_zero]
  nsmul := nsmulRec

end SUsageSample

structure SUsageBucket where
  time : UInt32
  data : SUsageSample
  deriving DecidableEq

/-! ## Records -/

def write32 (n : UInt32) : Bytes := toLE 4 n.toNat

def write64 (n : UInt64) : Bytes := toLE 8 n.toNat

/-- `sizeof(SUsageBucket)`. -/
def bucketSize : Nat := 84

/-- The bytes of a bucket. -/
def SUsageBucket.toBytes (b : SUsageBucket) : Bytes :=
  write32 b.time ++ (write32 b.data.cpuKernel ++ (write32 b.data.cpuUser ++ (write64 b.data.ioRead ++ (write64 b.data.ioWrite ++
    (write64 b.data.ioOther ++ (write64 b.data.netUpload ++ (write64 b.data.netDownload ++ (write32 b.data.gpuTime ++
      (write32 b.data.npuTime ++ (write64 b.data.lanUpload ++ (write64 b.data.lanDownload ++ (write32 b.data.connInbound ++
        write32 b.data.connOutbound))))))))))))

def read32 (bytes : Bytes) : UInt32 × Bytes := (.ofNat (ofLE (bytes.take 4)), bytes.drop 4)

def read64 (bytes : Bytes) : UInt64 × Bytes := (.ofNat (ofLE (bytes.take 8)), bytes.drop 8)

/-- The bucket in the bytes of one. -/
def SUsageBucket.ofBytes (bytes : Bytes) : SUsageBucket :=
  let (time, bytes) := read32 bytes
  let (cpuKernel, bytes) := read32 bytes
  let (cpuUser, bytes) := read32 bytes
  let (ioRead, bytes) := read64 bytes
  let (ioWrite, bytes) := read64 bytes
  let (ioOther, bytes) := read64 bytes
  let (netUpload, bytes) := read64 bytes
  let (netDownload, bytes) := read64 bytes
  let (gpuTime, bytes) := read32 bytes
  let (npuTime, bytes) := read32 bytes
  let (lanUpload, bytes) := read64 bytes
  let (lanDownload, bytes) := read64 bytes
  let (connInbound, bytes) := read32 bytes
  let (connOutbound, _) := read32 bytes
  ⟨time, ⟨cpuKernel, cpuUser, ioRead, ioWrite, ioOther, netUpload, netDownload, gpuTime, npuTime, lanUpload, lanDownload, connInbound,
    connOutbound⟩⟩

/-- A bucket of zeros that a record is copied over, as far as both go. -/
def copyRecord (record : Bytes) : SUsageBucket :=
  let uCopy := if record.length < bucketSize then record.length else bucketSize
  .ofBytes (record.take uCopy ++ List.replicate (bucketSize - uCopy) 0)

/-- The records of a given size in the bytes, one after another; a rest that is shorter is left. -/
def records (recSize : Nat) : (rounds : Nat) → Bytes → List Bytes
  | 0, _ => []
  | rounds + 1, bytes => if recSize ≤ bytes.length then bytes.take recSize :: records recSize rounds (bytes.drop recSize) else []

/-- `API_V_USAGE_INTERVAL`, `API_V_USAGE_REC_SIZE` and `API_V_USAGE_DATA`. -/
structure UsageData where
  interval : UInt32
  recSize : UInt32
  data : Bytes
  deriving DecidableEq

/-- The loop over the records, which skips those without a time. -/
def UsageData.buckets (d : UsageData) : List SUsageBucket :=
  ((records d.recSize.toNat d.data.length d.data).map copyRecord).filter (·.time ≠ 0)

/-! ## What is read of what was written -/

@[simp] theorem length_toBytes (b : SUsageBucket) : b.toBytes.length = bucketSize := by
  simp [SUsageBucket.toBytes, write32, write64, bucketSize]

theorem read32_write32 (n : UInt32) (rest : Bytes) : read32 (write32 n ++ rest) = (n, rest) := by
  have hlen : (write32 n).length = 4 := length_toLE 4 _
  have hn : n.toNat < 256 ^ 4 := n.toNat_lt
  rw [read32, List.take_append_of_le_length (by omega), List.take_of_length_le (by omega), List.drop_append_of_le_length (by omega),
    List.drop_of_length_le (by omega), write32, ofLE_toLE_of_lt hn, UInt32.ofNat_toNat, List.nil_append]

theorem read64_write64 (n : UInt64) (rest : Bytes) : read64 (write64 n ++ rest) = (n, rest) := by
  have hlen : (write64 n).length = 8 := length_toLE 8 _
  have hn : n.toNat < 256 ^ 8 := n.toNat_lt
  rw [read64, List.take_append_of_le_length (by omega), List.take_of_length_le (by omega), List.drop_append_of_le_length (by omega),
    List.drop_of_length_le (by omega), write64, ofLE_toLE_of_lt hn, UInt64.ofNat_toNat, List.nil_append]

theorem ofBytes_toBytes (b : SUsageBucket) : SUsageBucket.ofBytes b.toBytes = b := by
  have hlast := read32_write32 b.data.connOutbound []
  rw [List.append_nil] at hlast
  simp only [SUsageBucket.ofBytes, SUsageBucket.toBytes, read32_write32, read64_write64, hlast]

/-- A record that is long enough holds the bucket, whatever is behind it. -/
theorem copyRecord_toBytes (b : SUsageBucket) (more : Bytes) : copyRecord (b.toBytes ++ more) = b := by
  have hlen : ¬ (b.toBytes ++ more).length < bucketSize := by
    rw [List.length_append, length_toBytes]
    omega
  unfold copyRecord
  simp only [if_neg hlen, Nat.sub_self, List.replicate_zero, List.append_nil]
  rw [List.take_append_of_le_length (length_toBytes b).ge, ← length_toBytes b, List.take_length, ofBytes_toBytes]

/-- The time is in every record that is long enough for it. -/
theorem copyRecord_time (b : SUsageBucket) {n : Nat} (hn : 4 ≤ n) : (copyRecord (b.toBytes.take n)).time = b.time := by
  have htime : ∀ bytes rest, (SUsageBucket.ofBytes (write32 b.time ++ bytes ++ rest)).time = b.time := by
    rintro bytes rest
    rw [List.append_assoc]
    simp only [SUsageBucket.ofBytes, read32_write32]
  have hlen : (write32 b.time).length = 4 := length_toLE 4 _
  unfold copyRecord
  dsimp only
  rw [List.take_take]
  generalize hk : min _ n = k
  have hk : 4 ≤ k := by
    rw [← hk, List.length_take, length_toBytes]
    unfold bucketSize
    split <;> omega
  rw [SUsageBucket.toBytes, List.take_append, List.take_of_length_le (by omega)]
  exact htime _ _

theorem records_append {recSize : Nat} (hpos : 0 < recSize) : ∀ {recs : List Bytes} (rounds : Nat), (∀ r ∈ recs, r.length = recSize) →
    recs.flatten.length ≤ rounds → records recSize rounds recs.flatten = recs
  | [], 0, _, _ => rfl
  | [], rounds + 1, _, _ => by
    rw [records, if_neg (by simp; omega)]
  | r :: recs, rounds, hall, hrounds => by
    rcases List.forall_mem_cons.1 hall with ⟨hr, hrecs⟩
    rw [List.flatten_cons, List.length_append] at hrounds
    cases rounds with
    | zero => omega
    | succ rounds =>
      rw [List.flatten_cons, records, if_pos (by rw [List.length_append]; omega), ← hr, List.take_left, List.drop_left, hr,
        records_append hpos rounds hrecs (by omega)]

end MajorPrivacy.Usage

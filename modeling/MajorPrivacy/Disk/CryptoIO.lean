/-
The disk behind a header (CryptoIO.cpp): what is written is encrypted under its offset and goes behind the
header of the container, what is read comes back from there. Seen from above it is a disk of its own.
-/
import MajorPrivacy.Disk.Xts
import Mathlib.Data.List.Forall2

namespace MajorPrivacy.Disk

open LittleEndian Memory BlockCipher

/-! ## A disk -/

/-- What becomes of a write: it is done, or it fails and leaves something in its place. -/
inductive Fate
  | done
  | failed (left : Bytes)

/-- What a disk is asked for; a read may fail as well. -/
inductive Request
  | write (buf : Bytes) (offset : Nat) (fate : Fate)
  | read (size offset : Nat) (done : Bool)

inductive Reply
  | wrote (ret : Bool)
  | got (buf : Option Bytes)
  deriving DecidableEq

/-- `DiskWrite` of a disk; what does not fit fails as a whole. -/
def diskWrite (disk buf : Bytes) (offset : Nat) : Fate → Bytes × Bool
  | .done => (overwrite disk offset buf, decide (offset + buf.length ≤ disk.length))
  | .failed left => (overwrite disk offset left, false)

/-- `DiskRead` of a disk. -/
def diskRead (disk : Bytes) (size offset : Nat) (done : Bool) : Option Bytes :=
  if done then readAt disk offset size else none

/-- A disk answers a request. -/
def diskStep (disk : Bytes) : Request → Bytes × Reply
  | .write buf offset fate => ((diskWrite disk buf offset fate).1, .wrote (diskWrite disk buf offset fate).2)
  | .read size offset done => (disk, .got (diskRead disk size offset done))

def diskRun (disk : Bytes) : List Request → Bytes × List Reply
  | [] => (disk, [])
  | request :: requests =>
    let (disk', reply) := diskStep disk request
    ((diskRun disk' requests).1, reply :: (diskRun disk' requests).2)

/-! ## The encrypted disk -/

/-- The parts of `SCryptoIO` that serve the disk. -/
structure SCryptoIO where
  hdrLen : Nat
  bencK : XtsKey
  cores : Cores

namespace SCryptoIO

variable (m : SCryptoIO)

def getDiskSize (raw : Bytes) : Nat := if raw.length < m.hdrLen then 0 else raw.length - m.hdrLen

/-- `DiskWrite`: the buffer is encrypted in place and goes to the disk below. -/
def cryptoWrite (raw buf : Bytes) (offset : Nat) (fate : Fate) : Option (Bytes × Bool) :=
  (xtsEncrypt m.cores m.bencK buf 0 0 buf.length (UInt64.ofNat offset)).map fun buf =>
    diskWrite raw buf (offset + m.hdrLen) fate

/-- `DiskRead`: what came from the disk below is decrypted in place. -/
def cryptoRead (raw : Bytes) (size offset : Nat) (done : Bool) : Option (Option Bytes) :=
  match diskRead raw size (offset + m.hdrLen) done with
  | none => some none
  | some buf => (xtsDecrypt m.cores m.bencK buf 0 0 size (UInt64.ofNat offset)).map some

def cryptoStep (raw : Bytes) : Request → Option (Bytes × Reply)
  | .write buf offset fate => (m.cryptoWrite raw buf offset fate).map fun (raw', ret) => (raw', .wrote ret)
  | .read size offset done => (m.cryptoRead raw size offset done).map fun buf => (raw, .got buf)

def cryptoRun (raw : Bytes) : List Request → Option (Bytes × List Reply)
  | [] => some (raw, [])
  | request :: requests =>
    (m.cryptoStep raw request).bind fun (raw', reply) =>
      (cryptoRun raw' requests).map fun (raw'', replies) => (raw'', reply :: replies)

end SCryptoIO

/-- Whole sectors, in the types of the call. -/
def Aligned (size offset : Nat) : Prop := 512 ∣ size ∧ 512 ∣ offset ∧ 0 < size ∧ size < 2 ^ 31 ∧ offset < 2 ^ 63

/-- A failed write leaves bytes in its place only. -/
def Fate.Fits (len : Nat) : Fate → Prop
  | .done => True
  | .failed left => left.length = len

def Request.Valid : Request → Prop
  | .write buf offset fate => Aligned buf.length offset ∧ fate.Fits buf.length
  | .read size offset _ => Aligned size offset

/-! ## The disk that is seen -/

/-- The disk under the encryption: whole sectors decrypted, the rest as it is. -/
def plainDisk (key : XtsKey) (data : Bytes) : Bytes :=
  mapBlocks 16 key.cipher.dec (32 * (data.length / 512)) 0 (data.take (512 * (data.length / 512))) ++
    data.drop (512 * (data.length / 512))

/-- The disk behind the header. -/
def SCryptoIO.view (m : SCryptoIO) (raw : Bytes) : Bytes := plainDisk m.bencK (raw.drop m.hdrLen)

/-- Sectors from `s` on, decrypted. -/
def sectorsDec (key : XtsKey) (n s : Nat) (data : Bytes) : Bytes := mapBlocks 16 key.cipher.dec (32 * n) (32 * s) data

theorem length_sectorsDec (key : XtsKey) {n s : Nat} {data : Bytes} (h : data.length = 512 * n) :
    (sectorsDec key n s data).length = 512 * n := by
  rw [sectorsDec, length_mapBlocks key.cipher.length_dec _ _ _ (by omega)]
  omega

/-- Parts of a disk at the bounds of sectors. -/
theorem plainDisk_append (key : XtsKey) {a b : Nat} {pre mid post : Bytes} (hpre : pre.length = 512 * a)
    (hmid : mid.length = 512 * b) :
    ∃ rest, plainDisk key (pre ++ mid ++ post) = sectorsDec key a 0 pre ++ sectorsDec key b a mid ++ rest ∧
      ∀ mid' : Bytes, mid'.length = 512 * b →
        plainDisk key (pre ++ mid' ++ post) = sectorsDec key a 0 pre ++ sectorsDec key b a mid' ++ rest := by
  suffices h : ∀ mid : Bytes, mid.length = 512 * b → plainDisk key (pre ++ mid ++ post) =
      sectorsDec key a 0 pre ++ sectorsDec key b a mid ++
        (mapBlocks 16 key.cipher.dec (32 * (post.length / 512)) (32 * (a + b)) (post.take (512 * (post.length / 512))) ++
          post.drop (512 * (post.length / 512))) from
    ⟨_, h mid hmid, fun mid' hmid' => h mid' hmid'⟩
  intro mid hmid
  have hlen : (pre ++ mid).length = 512 * (a + b) := by
    rw [List.length_append]
    omega
  have hcount : (pre ++ mid ++ post).length / 512 = a + b + post.length / 512 := by
    rw [List.length_append, hlen, Nat.mul_add_div (by decide)]
  have hfull : 512 * (a + b + post.length / 512) = (pre ++ mid).length + 512 * (post.length / 512) := by
    rw [hlen]
    omega
  have hblocks : 32 * (a + b + post.length / 512) = 32 * a + 32 * b + 32 * (post.length / 512) := by omega
  rw [plainDisk, hcount, hfull, List.take_length_add_append, List.drop_length_add_append, hblocks,
    mapBlocks_append (32 * a + 32 * b) _ 0 _ _ (by rw [hlen]; omega), mapBlocks_append (32 * a) (32 * b) 0 pre mid (by omega)]
  simp only [sectorsDec, List.append_assoc, Nat.mul_zero, Nat.zero_add, Nat.mul_add]

theorem length_plainDisk (key : XtsKey) (data : Bytes) : (plainDisk key data).length = data.length := by
  have htake : (data.take (512 * (data.length / 512))).length = 16 * (32 * (data.length / 512)) := by
    rw [List.length_take]
    omega
  rw [plainDisk, List.length_append, length_mapBlocks key.cipher.length_dec _ _ _ htake, List.length_drop]
  omega

section Sectors

variable (key : XtsKey) {data : Bytes} {a b : Nat} (hfit : 512 * a + 512 * b ≤ data.length)
include hfit

theorem plainDisk_parts : ∃ pre rest, pre.length = 512 * a ∧
    plainDisk key data = pre ++ sectorsDec key b a (slice data (512 * a) (512 * b)) ++ rest ∧
      ∀ w : Bytes, w.length = 512 * b → plainDisk key (overwrite data (512 * a) w) = pre ++ sectorsDec key b a w ++ rest := by
  have hpre : (data.take (512 * a)).length = 512 * a := by
    rw [List.length_take]
    omega
  have hmid := length_slice hfit
  have hparts : data = data.take (512 * a) ++ slice data (512 * a) (512 * b) ++ data.drop (512 * a + 512 * b) := by
    have hjoin := slice_add data 0 (512 * a) (512 * b)
    rw [slice_full, slice_full, Nat.zero_add] at hjoin
    rw [← hjoin, List.take_append_drop]
  obtain ⟨rest, hplain, hother⟩ := @plainDisk_append key a b _ _ (data.drop (512 * a + 512 * b)) hpre hmid
  rw [← hparts] at hplain
  refine ⟨sectorsDec key a 0 (data.take (512 * a)), rest, length_sectorsDec key hpre, hplain, fun w hw => ?_⟩
  rw [overwrite_eq (by omega), hw]
  exact hother w hw

theorem slice_plainDisk :
    slice (plainDisk key data) (512 * a) (512 * b) = sectorsDec key b a (slice data (512 * a) (512 * b)) := by
  obtain ⟨pre, rest, hpre, hplain, -⟩ := plainDisk_parts key hfit
  have hmid := @slice_append_mid _ _ (sectorsDec key b a (slice data (512 * a) (512 * b))) rest _ hpre
  rw [length_sectorsDec key (length_slice hfit)] at hmid
  rw [hplain, hmid]

theorem plainDisk_overwrite {w : Bytes} (hw : w.length = 512 * b) :
    plainDisk key (overwrite data (512 * a) w) = overwrite (plainDisk key data) (512 * a) (sectorsDec key b a w) := by
  obtain ⟨pre, rest, hpre, hplain, hother⟩ := plainDisk_parts key hfit
  have hmid := length_sectorsDec key (s := a) (length_slice hfit)
  rw [hother w hw, hplain, overwrite_append_mid hpre (by rw [length_sectorsDec key hw, hmid])]

end Sectors

namespace SCryptoIO

variable (m : SCryptoIO) {raw : Bytes}

theorem length_view (raw : Bytes) : (m.view raw).length = m.getDiskSize raw := by
  rw [view, length_plainDisk, List.length_drop, getDiskSize]
  split <;> omega

/-- What a failed write leaves, seen from above. -/
def seenFate (offset : Nat) : Fate → Fate
  | .done => .done
  | .failed left => .failed (sectorsDec m.bencK (left.length / 512) (offset / 512) left)

/-- A request as it is seen from above: the same but for what a failed write leaves. -/
def seen : Request → Request
  | .write buf offset fate => .write buf offset (m.seenFate offset fate)
  | .read size offset done => .read size offset done

/-- Bytes that go to the disk below, seen from above. -/
theorem view_overwrite {a b : Nat} {w : Bytes} (hw : w.length = 512 * b) :
    m.view (overwrite raw (512 * a + m.hdrLen) w) = overwrite (m.view raw) (512 * a) (sectorsDec m.bencK b a w) := by
  have hdec := length_sectorsDec m.bencK (s := a) hw
  rw [view, view, Nat.add_comm, drop_overwrite]
  by_cases hfit : 512 * a + 512 * b ≤ (raw.drop m.hdrLen).length
  · exact plainDisk_overwrite m.bencK hfit hw
  · rw [overwrite_of_lt (by omega), overwrite_of_lt (by rw [length_plainDisk]; omega)]

/-- An aligned offset and what the tweaks make of it. -/
theorem toNat_offset {a : Nat} (h : 512 * a < 2 ^ 63) : (UInt64.ofNat (512 * a)).toNat / 512 = a := by
  rw [UInt64.toNat_ofNat', Nat.mod_eq_of_lt (by omega), Nat.mul_div_cancel_left _ (by decide)]

/-- A buffer in place. -/
theorem places_self {buf : Bytes} {n : Nat} (h : buf.length = 512 * n) : Places buf 0 0 (512 * n) :=
  ⟨by omega, by omega, .inl rfl⟩

theorem crypted_self {f : Nat → Bytes → Bytes} (hf : ∀ n b, (f n b).length = b.length) {buf : Bytes} {n : Nat} (s : Nat)
    (h : buf.length = 512 * n) : crypted f buf 0 0 n s = some (mapBlocks 16 f (32 * n) (32 * s) buf) := by
  have hlen : (mapBlocks 16 f (32 * n) (32 * s) buf).length = 16 * (32 * n) := length_mapBlocks hf _ _ _ (by omega)
  have hall : slice buf 0 (512 * n) = buf := by
    rw [slice_full, ← h, List.take_length]
  rw [crypted, hall, writeAt, if_pos (by omega), List.take_zero, List.nil_append, List.drop_of_length_le (by omega),
    List.append_nil]

theorem cryptoStep_write {buf : Bytes} {offset : Nat} {fate : Fate} (h : (Request.write buf offset fate).Valid) :
    ∃ raw', m.cryptoStep raw (.write buf offset fate) = some (raw', (diskStep (m.view raw) (m.seen (.write buf offset fate))).2) ∧
      m.view raw' = (diskStep (m.view raw) (m.seen (.write buf offset fate))).1 ∧
      raw'.take m.hdrLen = raw.take m.hdrLen ∧ raw'.length = raw.length := by
  obtain ⟨⟨⟨b, hb⟩, ⟨a, rfl⟩, hpos, hsize, hoff⟩, hfate⟩ := h
  have hb0 : 0 < b := by omega
  have henc := xtsEncrypt_spec m.cores m.bencK (UInt64.ofNat (512 * a)) (places_self hb) hb0 (by omega)
  rw [toNat_offset hoff, crypted_self m.bencK.cipher.length_enc a hb] at henc
  have hlen : (mapBlocks 16 m.bencK.cipher.enc (32 * b) (32 * a) buf).length = 512 * b := by
    rw [length_mapBlocks m.bencK.cipher.length_enc _ _ _ (by omega)]
    omega
  have hback : sectorsDec m.bencK b a (mapBlocks 16 m.bencK.cipher.enc (32 * b) (32 * a) buf) = buf :=
    mapBlocks_dec_enc m.bencK.cipher (by decide) (32 * b) (32 * a) buf (by omega)
  have hrun : m.cryptoStep raw (.write buf (512 * a) fate) =
      some ((diskWrite raw (mapBlocks 16 m.bencK.cipher.enc (32 * b) (32 * a) buf) (512 * a + m.hdrLen) fate).1,
        .wrote (diskWrite raw (mapBlocks 16 m.bencK.cipher.enc (32 * b) (32 * a) buf) (512 * a + m.hdrLen) fate).2) := by
    rw [cryptoStep, cryptoWrite, hb, henc, Option.map_some, Option.map_some]
  have hview := m.length_view raw
  cases fate with
  | done =>
    refine ⟨overwrite raw (512 * a + m.hdrLen) (mapBlocks 16 m.bencK.cipher.enc (32 * b) (32 * a) buf), hrun.trans ?_, ?_, ?_,
      length_overwrite⟩
    · -- what fits below fits above
      have hfit : 512 * a + m.hdrLen + 512 * b ≤ raw.length ↔ 512 * a + 512 * b ≤ (m.view raw).length := by
        rw [hview, getDiskSize]
        split <;> omega
      simp only [diskWrite, seen, seenFate, diskStep, hlen, hb, hfit]
    · rw [m.view_overwrite hlen, hback]
      rfl
    · rw [Nat.add_comm, take_overwrite]
  | failed left =>
    have hleft : left.length = 512 * b := hfate.trans hb
    have hcount : left.length / 512 = b := by omega
    refine ⟨overwrite raw (512 * a + m.hdrLen) left, hrun.trans rfl, ?_, ?_, length_overwrite⟩
    · rw [m.view_overwrite hleft]
      simp only [seen, seenFate, diskStep, diskWrite, hcount, Nat.mul_div_cancel_left a (show 0 < 512 by decide)]
    · rw [Nat.add_comm, take_overwrite]

theorem cryptoStep_read {size offset : Nat} {done : Bool} (h : (Request.read size offset done).Valid) :
    m.cryptoStep raw (.read size offset done) = some (raw, (diskStep (m.view raw) (.read size offset done)).2) := by
  obtain ⟨⟨b, rfl⟩, ⟨a, rfl⟩, hpos, hsize, hoff⟩ := h
  have hb0 : 0 < b := by omega
  have hview := m.length_view raw
  have hfit : 512 * a + m.hdrLen + 512 * b ≤ raw.length ↔ 512 * a + 512 * b ≤ (m.view raw).length := by
    rw [hview, getDiskSize]
    split <;> omega
  unfold cryptoStep cryptoRead diskStep diskRead readAt
  cases done with
  | false => rfl
  | true =>
    by_cases hin : 512 * a + 512 * b ≤ (m.view raw).length
    · have hslice := length_slice (hfit.2 hin)
      have hdec := xtsDecrypt_spec m.cores m.bencK (UInt64.ofNat (512 * a)) (places_self hslice) hb0 (by omega)
      rw [toNat_offset hoff, crypted_self m.bencK.cipher.length_dec a hslice] at hdec
      have hseen : slice (m.view raw) (512 * a) (512 * b) = sectorsDec m.bencK b a (slice raw (512 * a + m.hdrLen) (512 * b)) := by
        rw [view, length_plainDisk] at hin
        rw [view, slice_plainDisk m.bencK hin, slice, List.drop_drop, Nat.add_comm m.hdrLen]
        rfl
      simp only [if_true, hfit, if_pos hin, hdec, hseen, Option.map_some]
      rfl
    · simp only [if_true, hfit, if_neg hin, Option.map_some]

/-- Whatever is asked of it, the encrypted disk answers as the disk that is seen, and keeps its header. -/
theorem cryptoRun_spec : ∀ (requests : List Request) (raw : Bytes), (∀ request ∈ requests, request.Valid) →
    ∃ raw', m.cryptoRun raw requests = some (raw', (diskRun (m.view raw) (requests.map m.seen)).2) ∧
      m.view raw' = (diskRun (m.view raw) (requests.map m.seen)).1 ∧
      raw'.take m.hdrLen = raw.take m.hdrLen ∧ raw'.length = raw.length
  | [], raw, _ => ⟨raw, rfl, rfl, rfl, rfl⟩
  | request :: requests, raw, hvalid => by
    obtain ⟨hfirst, hrest⟩ := List.forall_mem_cons.1 hvalid
    have hstep : ∃ raw', m.cryptoStep raw request = some (raw', (diskStep (m.view raw) (m.seen request)).2) ∧
        m.view raw' = (diskStep (m.view raw) (m.seen request)).1 ∧
        raw'.take m.hdrLen = raw.take m.hdrLen ∧ raw'.length = raw.length := by
      cases request with
      | write buf offset fate => exact m.cryptoStep_write hfirst
      | read size offset done => exact ⟨raw, m.cryptoStep_read hfirst, rfl, rfl, rfl⟩
    obtain ⟨raw₁, hrun₁, hview₁, hhead₁, hlen₁⟩ := hstep
    obtain ⟨raw', hrun, hview, hhead, hlen⟩ := cryptoRun_spec requests raw₁ hrest
    refine ⟨raw', ?_, ?_, hhead.trans hhead₁, hlen.trans hlen₁⟩
    · simp only [cryptoRun, hrun₁, Option.bind_some, hrun, Option.map_some, List.map_cons, diskRun, hview₁]
    · simp only [hview, List.map_cons, diskRun, hview₁]

end SCryptoIO

/-- No write fails on the way. -/
def Request.Done : Request → Prop
  | .write _ _ fate => fate = .done
  | .read _ _ _ => True

theorem SCryptoIO.seen_of_done (m : SCryptoIO) : ∀ {requests : List Request}, (∀ request ∈ requests, request.Done) →
    requests.map m.seen = requests
  | [], _ => rfl
  | request :: requests, h => by
    obtain ⟨hfirst, hrest⟩ := List.forall_mem_cons.1 h
    rw [List.map_cons, SCryptoIO.seen_of_done m hrest]
    cases request with
    | write buf offset fate =>
      obtain rfl : fate = .done := hfirst
      rfl
    | read size offset done => rfl

/-- Two requests that differ in what a failed write leaves only. -/
def Request.SameUpToLoss : Request → Request → Prop
  | .write buf offset .done, r => r = .write buf offset .done
  | .write buf offset (.failed left), r => ∃ left', left'.length = left.length ∧ r = .write buf offset (.failed left')
  | .read size offset done, r => r = .read size offset done

theorem SCryptoIO.sameUpToLoss_seen (m : SCryptoIO) : ∀ {request : Request}, request.Valid →
    request.SameUpToLoss (m.seen request)
  | .write _ _ .done, _ => rfl
  | .write buf offset (.failed left), h => by
    obtain ⟨⟨⟨b, hb⟩, -⟩, hleft⟩ := h
    have hlen : left.length = 512 * b := hleft.trans hb
    refine ⟨_, ?_, rfl⟩
    rw [length_sectorsDec m.bencK (by omega)]
    omega
  | .read _ _ _, _ => rfl

/-- Whatever the key, XTS goes back and forth, in place or not and in parts or not, and the disk behind the header
is a disk. -/
theorem xts_disk (cores : Cores) (key : XtsKey) (hdrLen : Nat) :
    Undoes (xtsDecrypt cores key) (xtsEncrypt cores key) ∧
    SameBytes (xtsEncrypt cores key) ∧ SameBytes (xtsDecrypt cores key) ∧
    Splits (xtsEncrypt cores key) ∧ Splits (xtsDecrypt cores key) ∧
    ∀ (raw : Bytes) (requests : List Request), (∀ request ∈ requests, request.Valid) →
      ( SCryptoIO.view ⟨hdrLen, key, cores⟩ raw).length = SCryptoIO.getDiskSize ⟨hdrLen, key, cores⟩ raw ∧
      ∃ raw' requests', ( SCryptoIO.mk hdrLen key cores).cryptoRun raw requests =
          some (raw', (diskRun ( SCryptoIO.view ⟨hdrLen, key, cores⟩ raw) requests').2) ∧
        SCryptoIO.view ⟨hdrLen, key, cores⟩ raw' = (diskRun ( SCryptoIO.view ⟨hdrLen, key, cores⟩ raw) requests').1 ∧
        List.Forall₂ Request.SameUpToLoss requests requests' ∧
        ((∀ request ∈ requests, request.Done) → requests' = requests) ∧
        raw'.take hdrLen = raw.take hdrLen ∧ raw'.length = raw.length := by
  have henc := fun {mem inp out n} (offset : UInt64) => @xtsEncrypt_spec cores key mem inp out n offset
  have hdec := fun {mem inp out n} (offset : UInt64) => @xtsDecrypt_spec cores key mem inp out n offset
  refine ⟨undoes_xtsDecrypt cores key, sameBytes_of_crypted key.cipher.length_enc henc,
    sameBytes_of_crypted key.cipher.length_dec hdec, splits_of_crypted key.cipher.length_enc henc,
    splits_of_crypted key.cipher.length_dec hdec, fun raw requests hvalid => ⟨ SCryptoIO.length_view _ raw, ?_⟩⟩
  obtain ⟨raw', hrun, hview, hhead, hlen⟩ := ( SCryptoIO.mk hdrLen key cores).cryptoRun_spec requests raw hvalid
  refine ⟨raw', _, hrun, hview, ?_, fun hdone => SCryptoIO.seen_of_done _ hdone, hhead, hlen⟩
  rw [List.forall₂_map_right_iff]
  exact List.forall₂_same.2 fun request hrequest => SCryptoIO.sameUpToLoss_seen _ (hvalid request hrequest)

/-- A block with a constant added, in both directions. -/
def addBlock (t : Block) : Equiv.Perm Block := ⟨(·.xor t), (·.xor t), (Block.xor_xor · t), (Block.xor_xor · t)⟩

/-- A cascade of three ciphers. -/
def cascadeKey : XtsKey :=
  ⟨⟨addBlock ⟨1, 2⟩, addBlock ⟨3, 4⟩, addBlock ⟨5, 6⟩⟩, ⟨addBlock ⟨7, 8⟩, addBlock ⟨9, 10⟩, addBlock ⟨11, 12⟩⟩,
    .aesTwofishSerpent⟩

/-- A sector behind the header is written and read again. -/
theorem xts_disk_sector : ∃ raw',
    ( SCryptoIO.mk 2048 cascadeKey ⟨.ahead 8 ⟨4, rfl⟩, .ahead 4 ⟨8, rfl⟩, .basic⟩).cryptoRun (List.replicate 4096 0)
      [.write (List.replicate 512 7) 512 .done, .read 512 512 true] =
        some (raw', [.wrote true, .got (some (List.replicate 512 7))]) ∧ raw'.take 2048 = List.replicate 2048 0 := by
  obtain ⟨hsize, raw', requests', hrun, -, -, hdone, hhead, -⟩ :=
    (xts_disk ⟨.ahead 8 ⟨4, rfl⟩, .ahead 4 ⟨8, rfl⟩, .basic⟩ cascadeKey 2048).2.2.2.2.2 (List.replicate 4096 0)
      [.write (List.replicate 512 7) 512 .done, .read 512 512 true] (by
        intro request hrequest
        obtain rfl | hrequest := List.mem_cons.1 hrequest
        · refine ⟨?_, trivial⟩
          rw [List.length_replicate]
          exact ⟨⟨1, rfl⟩, ⟨1, rfl⟩, by omega, by omega, by omega⟩
        · obtain rfl := List.mem_singleton.1 hrequest
          exact ⟨⟨1, rfl⟩, ⟨1, rfl⟩, by omega, by omega, by omega⟩)
  obtain rfl := hdone (by
    intro request hrequest
    obtain rfl | hrequest := List.mem_cons.1 hrequest
    · rfl
    · obtain rfl := List.mem_singleton.1 hrequest
      trivial)
  refine ⟨raw', ?_, ?_⟩
  · generalize SCryptoIO.view _ (List.replicate 4096 0) = disk at hrun hsize
    have hlen : disk.length = 2048 := by
      rw [hsize, SCryptoIO.getDiskSize, List.length_replicate]
      rfl
    have hbuf : (List.replicate 512 (7 : UInt8)).length = 512 := List.length_replicate
    have hself := @slice_overwrite_self _ disk 512 (List.replicate 512 7) (by rw [hbuf]; omega)
    rw [hbuf] at hself
    have hread : readAt (overwrite disk 512 (List.replicate 512 7)) 512 512 = some (List.replicate 512 7) := by
      rw [readAt_eq (by rw [length_overwrite]; omega), hself]
    rw [hrun]
    simp only [diskRun, diskStep, diskWrite, diskRead, hread, hlen, hbuf, if_true]
    rfl
  · rw [hhead, List.take_replicate]
    rfl

end MajorPrivacy.Disk

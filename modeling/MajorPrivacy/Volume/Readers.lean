/-
The readers of a volume header: `cp_decrypt_header_with_key`, `dc_decrypt_header` and
`io_read_header`, with the search of `cp_decrypt_header` for a key that opens the header. The ciphers
and the key derivation are parameters. As in the header, every function fails where it would touch a
byte outside its buffers.
-/
import MajorPrivacy.Lib.BlockCipher
import MajorPrivacy.Volume.Header

namespace MajorPrivacy.Volume

open LittleEndian Memory

abbrev xtsBlockSize : Nat := 16
abbrev cfCiphersNum : Nat := 7
abbrev pageSize : Nat := 4096
abbrev keySlotMax : Nat := 100

/-- A cipher under a key (`xts_key`): a map of blocks of 16 bytes, each under the tweak of its place. -/
abbrev Xts := BlockCipher UInt8

/-- The loop of an XTS call counts whole sectors down to zero: other lengths run away. -/
def xtsRun (crypt : Nat → Bytes → Bytes) (mem : Bytes) (offset : Nat) : Option Bytes :=
  if mem = [] ∨ mem.length % xtsSectorSize ≠ 0 then none
  else some (BlockCipher.mapBlocks xtsBlockSize crypt (mem.length / xtsBlockSize) (offset / xtsBlockSize) mem)

def xtsEncrypt (key : Xts) (mem : Bytes) (offset : Nat) : Option Bytes := xtsRun key.enc mem offset
def xtsDecrypt (key : Xts) (mem : Bytes) (offset : Nat) : Option Bytes := xtsRun key.dec mem offset

/-- A buffer of at least 2 KB taken for a header. -/
def DcHeader.ofBytes (mem : Bytes) : Option DcHeader := if h : dcAreaSize ≤ mem.length then some ⟨mem, h⟩ else none

theorem DcHeader.bytes_of_ofBytes {mem : Bytes} {h : DcHeader} (hm : DcHeader.ofBytes mem = some h) : h.bytes = mem := by
  unfold DcHeader.ofBytes at hm
  split at hm
  · cases hm
    rfl
  · cases hm

/-- `ROUND_TO_FULL_SECTORS`. -/
def roundToFullSectors (len bps : Nat) : Nat := (len + bps - 1) / bps * bps

theorem le_roundToFullSectors (len : Nat) {bps : Nat} (hb : 0 < bps) : len ≤ roundToFullSectors len bps := by
  have hlt : len + bps - 1 < ((len + bps - 1) / bps + 1) * bps := by
    rw [Nat.mul_comm]
    exact Nat.lt_mul_div_succ _ hb
  rw [Nat.succ_mul] at hlt
  unfold roundToFullSectors
  omega

/-- Memory as it comes from `dc_alloc`. -/
def dcAlloc (junk : Nat → UInt8) (size : Nat) : Bytes := dcRand junk size

/-! ## The parts of a reader -/

/-- The first 2 KB of `raw`, decrypted to the start of `mem`. -/
def openBase (key : Xts) (raw mem : Bytes) : Option DcHeader := do
  let base ← readAt raw 0 dcAreaSize
  let base ← xtsDecrypt key base 0
  let mem ← writeAt mem 0 base
  DcHeader.ofBytes mem

/-- `len` bytes of `raw` behind the first 2 KB, decrypted to their place in the header. -/
def xtsTail (key : Xts) (raw : Bytes) (h : DcHeader) (len : Nat) : Option DcHeader := do
  let tail ← readAt raw dcAreaSize len
  let tail ← xtsDecrypt key tail dcAreaSize
  let mem ← writeAt h.bytes dcAreaSize tail
  DcHeader.ofBytes mem

/-- The tail of a header of `hdrLen` bytes, if it has one. -/
def decryptTail (key : Xts) (raw : Bytes) (h : DcHeader) (hdrLen : Nat) : Option DcHeader :=
  if dcAreaSize < hdrLen then xtsTail key raw h (hdrLen - dcAreaSize) else some h

/-- The key slots carried over verbatim from `raw`. -/
def loadKeySlots (raw : Bytes) (h : DcHeader) : Option DcHeader :=
  if h.ffKeySlots then (h.copyKeySlots raw h.bytes).bind fun out => DcHeader.ofBytes out.1 else some h

/-! ## `cp_decrypt_header_with_key` -/

/-- The blob opened to `out`, a buffer of the same length; `none` where it does not open. -/
def decryptHeaderWithKey (key : Xts) (blob out : Bytes) : Option (Option DcHeader) :=
  if blob.length < dcAreaSize then some none
  else if blob.length % xtsSectorSize ≠ 0 then some none
  else do
    let h ← openBase key blob out
    let mem ← writeAt h.bytes 0 (slice blob 0 headerSaltSize)
    let h ← DcHeader.ofBytes mem
    let correct ← h.isVolumeHeaderCorrect
    if ¬ correct then some none
    else do
      let h ← decryptTail key blob h blob.length
      let h ← loadKeySlots blob h
      some (some h)

/-! ## The search for a key -/

/-- The parts of a password that take part in the search. -/
structure DcPass where
  pass : List UInt16
  kdf : Int
  slot : Int

/-- `dc_derive_key` and `xts_set_key`. -/
structure Crypto where
  deriveKey : List UInt16 → Int → Bytes → Option Bytes
  setKey : Bytes → Nat → Option Xts

/-- A key of the search, with where it comes from. -/
structure Candidate where
  kdf : Int
  slot : Nat
  dk : Bytes
  key : Xts

abbrev kdfNone : Int := -1
abbrev kdfDefault : Int := -2
abbrev kdfAll : Int := -3
def dcDefaultKdfs : List Int := [0, 5]
def dcAllKdfs : List Int := [0, 1, 2, 3, 4, 5, 6, 7, 8, 9, 10]

/-- The KDFs `cp_decrypt_header` goes through. -/
def kdfList (kdf : Int) : List Int :=
  if kdf < -1 then
    if kdf = kdfAll then dcAllKdfs else if kdf = kdfDefault then dcDefaultKdfs else []
  else [kdf]

/-- `try_decrypt_slot` and `cp_wrap_header_key`. -/
def xorKey (a b : Bytes) : Bytes := a.zipWith (· ^^^ ·) b

/-- The ciphers `try_decrypt_header` goes through, under one derived key. -/
def Crypto.algs (c : Crypto) (kdf : Int) (slot : Nat) (dk : Bytes) : List Candidate :=
  (List.range cfCiphersNum).filterMap fun alg => (c.setKey dk alg).map fun key => ⟨kdf, slot, dk, key⟩

/-- The slots a password names, as far as they have been read. -/
def searchedSlots (slot : Int) (hdrLen : Nat) : List Nat :=
  (if 0 < slot then [slot.toNat - 1] else List.range (-slot).toNat).takeWhile fun i =>
    dcBaseSize + pkcsDeriveMax * (i + 1) ≤ hdrLen

/-- The keys of `cp_decrypt_header_with_kdf`, in its order. -/
def Crypto.candidatesWithKdf (c : Crypto) (raw : Bytes) (password : DcPass) (kdf : Int) : List Candidate :=
  match c.deriveKey password.pass kdf (slice raw 0 headerSaltSize) with
  | none => []
  | some dk =>
    (if password.slot ≤ 0 then c.algs kdf 0 dk else []) ++
      (searchedSlots password.slot raw.length).flatMap fun i =>
        c.algs kdf (i + 1) (xorKey (slice raw (dcBaseSize + pkcsDeriveMax * i) pkcsDeriveMax) dk)

def Crypto.candidates (c : Crypto) (raw : Bytes) (password : DcPass) : List Candidate :=
  (kdfList password.kdf).flatMap (c.candidatesWithKdf raw password)

/-- Whether a key opens the header. It is tried on a scratch copy of 2 KB. -/
def tryDecryptHeader (key : Xts) (raw : Bytes) : Option (Option DcHeader) := do
  let hcopy ← openBase key raw (List.replicate dcAreaSize 0)
  let correct ← hcopy.isVolumeHeaderCorrect
  some (if correct then some hcopy else none)

/-- The first key that opens the header. -/
def findKey (raw : Bytes) : List Candidate → Option (Option (Candidate × DcHeader))
  | [] => some none
  | cand :: rest => do
    let hcopy ← tryDecryptHeader cand.key raw
    match hcopy with
    | some hcopy => some (some (cand, hcopy))
    | none => findKey raw rest

/-- `cp_decrypt_header`: the base is put into the header, without the salt. -/
def Crypto.decryptHeader (c : Crypto) (raw : Bytes) (password : DcPass) : Option (Option (Candidate × DcHeader)) := do
  let found ← findKey raw (c.candidates raw password)
  match found with
  | none => some none
  | some (cand, hcopy) => do
    let mem ← writeAt raw headerSaltSize (slice hcopy.bytes headerSaltSize (dcAreaSize - headerSaltSize))
    let h ← DcHeader.ofBytes mem
    some (some (cand, h))

/-! ## `dc_decrypt_header` -/

/-- How much of the tail is decrypted: the whole sectors of what was read. -/
def memTail (encLen headLen : Nat) : Nat := (min encLen headLen - dcAreaSize) / xtsSectorSize * xtsSectorSize

/-- A header that is open in a buffer of the length of `enc`. -/
def dcDecryptRest (key : Xts) (enc : Bytes) (h : DcHeader) : Option (Status × Option DcHeader) :=
  if ¬ h.isV2 then some (.ok, some h)
  else if h.headLen < dcAreaSize ∨ dcAreaMaxSize < h.headLen then some (.invVolume, none)
  else do
    let h ← decryptTail key enc h (dcAreaSize + memTail enc.length h.headLen)
    let h ← (if dcBaseSize + h.slotsLen ≤ enc.length then loadKeySlots enc h else some h)
    some (.ok, some h)

def dcDecryptHeader (c : Crypto) (enc : Bytes) (password : DcPass) : Option (Status × Option DcHeader) :=
  if enc.length < dcAreaSize then some (.invVolume, none)
  else do
    let found ← c.decryptHeader enc password
    match found with
    | none => some (.passErr, none)
    | some (cand, h) => dcDecryptRest cand.key enc h

/-! ## `io_read_header` -/

/-- A device over memory (`dc_dev_from_buffer`). -/
structure DcDev where
  disk : Bytes
  bps : Nat
  headLen : Nat

/-- `dc_buffer_rw`, reading. -/
def DcDev.read (dev : DcDev) (pos len : Nat) : Option Bytes := readAt dev.disk pos len

/-- `cp_get_min_header_len`. -/
def getMinHeaderLen (password : DcPass) : Nat :=
  if password.slot ≠ 0 then
    max (dcBaseSize + (pkcsDeriveMax + slotInfoBytes) * min password.slot.natAbs keySlotMax) dcAreaSize
  else dcAreaSize

/-- The length `io_read_header_full` allocates for a header of which `hdrLen` bytes are read; none where it
does not fit an `int`. -/
def fullLen (bps hdrLen headLen : Nat) : Option Nat :=
  if 2 ^ 31 ≤ headLen then none
  else if hdrLen < headLen then
    if 2 ^ 31 ≤ roundToFullSectors (max headLen pageSize) bps then none else some (roundToFullSectors headLen bps)
  else some hdrLen

/-- The part of `io_read_header_full` behind the reads: `raw` is what was read, the header is in its buffer. -/
def ioDecryptRest (key : Xts) (raw : Bytes) (h : DcHeader) (hdrLen : Nat) : Option (Status × Option DcHeader) := do
  let h ← decryptTail key raw h hdrLen
  let h ← loadKeySlots raw h
  some (.ok, some h)

/-- The second read of `io_read_header_full`, of what is behind the first `hdrLen` bytes. -/
def ioReadRest (dev : DcDev) (junk : Nat → UInt8) (pos : Nat) (key : Xts) (raw : Bytes) (h : DcHeader) (size : Nat) :
    Option (Status × Option DcHeader) :=
  match dev.read (pos + raw.length) (h.headLen - raw.length) with
  | none => some (.rwErr, none)
  | some rest => do
    let mem ← writeAt (dcAlloc junk size) 0 h.bytes
    let h ← DcHeader.ofBytes mem
    ioDecryptRest key (raw ++ rest) h h.headLen

/-- `io_read_header_full`, with the header open in a buffer of `hdrLen` bytes. -/
def ioReadHeaderFull (dev : DcDev) (junk : Nat → UInt8) (pos : Nat) (key : Xts) (h : DcHeader) (hdrLen : Nat) :
    Option (Status × Option DcHeader) :=
  if ¬ h.isV2 then some (.ok, some h)
  else match dev.read pos hdrLen with
    | none => some (.rwErr, none)
    | some raw => do
      let size ← fullLen dev.bps hdrLen h.headLen
      if hdrLen < h.headLen then ioReadRest dev junk pos key raw h size
      else ioDecryptRest key raw h hdrLen

/-- How much `io_read_header` reads before anything is known about the volume. -/
def firstLen (dev : DcDev) (password : DcPass) : Nat :=
  roundToFullSectors (max dev.headLen (getMinHeaderLen password)) dev.bps

def ioReadHeader (c : Crypto) (dev : DcDev) (junk : Nat → UInt8) (pos : Nat) (password : DcPass) :
    Option (Status × Option DcHeader) :=
  if 2 ^ 31 ≤ firstLen dev password then none
  else match dev.read pos (firstLen dev password) with
    | none => some (.rwErr, none)
    | some raw => do
      let found ← c.decryptHeader raw password
      match found with
      | none => some (.passErr, none)
      | some (cand, h) => ioReadHeaderFull dev junk pos cand.key h (firstLen dev password)

end MajorPrivacy.Volume

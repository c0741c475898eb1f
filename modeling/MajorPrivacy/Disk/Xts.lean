/-
XTS over sectors of a buffer (xts_fast.c): each block goes through its cipher between two additions of a
tweak, the tweak of a sector is its number under a second key, and a cascade runs several ciphers over the
buffer. A sector has 512 bytes, 32 blocks of 16 bytes. The block ciphers are permutations of blocks, one for
each key of 32 bytes.
-/
import MajorPrivacy.Lib.BlockCipher
import MajorPrivacy.Lib.LittleEndian
import Mathlib.Logic.Equiv.Defs
import Mathlib.Data.UInt

namespace MajorPrivacy.Disk

open LittleEndian Memory BlockCipher

/-- A block as the code reads it: two words. -/
@[ext]
structure Block where
  lo : UInt64
  hi : UInt64
  deriving DecidableEq

namespace Block

def ofBytes (b : Bytes) : Block := ⟨UInt64.ofNat (ofLE (b.take 8)), UInt64.ofNat (ofLE (b.drop 8))⟩

def toBytes (b : Block) : Bytes := toLE 8 b.lo.toNat ++ toLE 8 b.hi.toNat

def xor (a b : Block) : Block := ⟨a.lo ^^^ b.lo, a.hi ^^^ b.hi⟩

/-- `t <- t * alpha`. -/
def alpha (t : Block) : Block := ⟨(t.lo <<< 1) ^^^ ((t.hi >>> 63) * 135), (t.hi <<< 1) ||| (t.lo >>> 63)⟩

@[simp] theorem length_toBytes (b : Block) : b.toBytes.length = 16 := by
  rw [toBytes, List.length_append, length_toLE, length_toLE]

theorem ofBytes_toBytes (b : Block) : ofBytes b.toBytes = b := by
  have hword : ∀ x : UInt64, UInt64.ofNat (ofLE (toLE 8 x.toNat)) = x := fun x => by
    rw [ofLE_toLE_of_lt x.toNat_lt, UInt64.ofNat_toNat]
  rw [ofBytes, toBytes, List.take_left' (length_toLE _ _), List.drop_left' (length_toLE _ _), hword, hword]

theorem toBytes_ofBytes {b : Bytes} (h : b.length = 16) : (ofBytes b).toBytes = b := by
  have hword : ∀ x : Bytes, x.length = 8 → toLE 8 (UInt64.ofNat (ofLE x)).toNat = x := fun x hx => by
    have hlt := ofLE_lt x
    have hback := toLE_ofLE x
    rw [hx] at hlt hback
    rw [UInt64.toNat_ofNat_of_lt' hlt, hback]
  rw [ofBytes, toBytes, hword _ (by rw [List.length_take, h]; rfl), hword _ (by rw [List.length_drop, h]),
    List.take_append_drop]

theorem xor_xor (a t : Block) : (a.xor t).xor t = a := by
  simp only [xor, UInt64.xor_assoc, UInt64.xor_self, UInt64.xor_zero]

end Block

/-- A block between two additions of its tweak. -/
def xex (crypt : Block → Block) (t b : Block) : Block := (crypt (b.xor t)).xor t

/-- Blocks under a tweak that goes on from block to block. -/
def xexBlocks (crypt : Block → Block) : (count : Nat) → Block → Bytes → Bytes
  | 0, _, _ => []
  | count + 1, t, data =>
    (xex crypt t (.ofBytes (data.take 16))).toBytes ++ xexBlocks crypt count t.alpha (data.drop 16)

/-! ## The loops over a buffer -/

/-- Groups of `lanes` blocks, each is read before it is written. -/
def xtsGroups (crypt : Block → Block) (lanes : Nat) : (groups : Nat) → Block → Bytes → (inp out : Nat) → Option Bytes
  | 0, _, mem, _, _ => some mem
  | groups + 1, t, mem, inp, out =>
    (readAt mem inp (16 * lanes)).bind fun data =>
      (writeAt mem out (xexBlocks crypt lanes t data)).bind fun mem =>
        xtsGroups crypt lanes groups (Block.alpha^[lanes] t) mem (inp + 16 * lanes) (out + 16 * lanes)

/-- `size_t` subtraction of a sector. -/
def lessSector (len : Nat) : Nat := (len + (2 ^ 64 - 512)) % 2 ^ 64

/-- The loop of `DEF_XTS_PROC`. It leaves the buffer at last where no pass makes `len` zero, so a pass more
than the memory has bytes is never reached. -/
def xtsBasicLoop (crypt tweak : Block → Block) : (passes : Nat) → Bytes → (inp out len : Nat) → UInt64 → Option Bytes
  | 0, _, _, _, _, _ => none
  | passes + 1, mem, inp, out, len, sector =>
    (xtsGroups crypt 1 32 (tweak ⟨sector + 1, 0⟩) mem inp out).bind fun mem =>
      if lessSector len = 0 then some mem
      else xtsBasicLoop crypt tweak passes mem (inp + 512) (out + 512) (lessSector len) (sector + 1)

/-- The loop of the interleaved cores: several blocks at once, and the tweak of the next sector before this one. -/
def xtsAheadLoop (lanes : Nat) (crypt tweak : Block → Block) :
    (passes : Nat) → Bytes → (inp out len : Nat) → UInt64 → Block → Option Bytes
  | 0, _, _, _, _, _, _ => none
  | passes + 1, mem, inp, out, len, sector, t =>
    let more := lessSector len ≠ 0
    let next := if more then tweak ⟨sector + 1, 0⟩ else t
    (xtsGroups crypt lanes (32 / lanes) t mem inp out).bind fun mem =>
      if ¬ more then some mem
      else xtsAheadLoop lanes crypt tweak passes mem (inp + 512) (out + 512) (lessSector len)
        (sector + 1) next

/-- The loops a cipher has: `DEF_XTS_PROC`, or a core for several blocks. -/
inductive Core
  | basic
  | ahead (lanes : Nat) (h : lanes ∣ 32)

/-- One pass of a cipher over `len` bytes at `inp`, the result goes to `out`. -/
def Core.run (core : Core) (crypt tweak : Block → Block) (mem : Bytes) (inp out len : Nat) (offset : UInt64) : Option Bytes :=
  match core with
  | .basic => xtsBasicLoop crypt tweak (mem.length + 1) mem inp out len (offset / 512)
  | .ahead lanes _ =>
    xtsAheadLoop lanes crypt tweak (mem.length + 1) mem inp out len (offset / 512 + 1) (tweak ⟨offset / 512 + 1, 0⟩)

/-! ## Keys -/

/-- The keys of the three ciphers, ready for use. -/
structure CipherKeys where
  aes : Equiv.Perm Block
  twofish : Equiv.Perm Block
  serpent : Equiv.Perm Block

/-- The key schedules. -/
structure Ciphers where
  aes256SetKey : Bytes → Equiv.Perm Block
  twofish256SetKey : Bytes → Equiv.Perm Block
  serpent256SetKey : Bytes → Equiv.Perm Block

/-- The procedures a key has, as `CF_…` names them. -/
inductive CfAlg
  | aes
  | twofish
  | serpent
  | aesTwofish
  | twofishSerpent
  | serpentAes
  | aesTwofishSerpent

structure XtsKey where
  cryptK : CipherKeys
  tweakK : CipherKeys
  procs : CfAlg

/-- A part of a key; a cipher that is not named keeps the key that was there. -/
def xtsSetKey (c : Ciphers) (key : Bytes) (alg : Int) (skey : XtsKey) : Option XtsKey :=
  let part (i : Nat) : Bytes := slice key (32 * i) 32
  if alg = 0 then
    some ⟨{ skey.cryptK with aes := c.aes256SetKey (part 0) }, { skey.tweakK with aes := c.aes256SetKey (part 1) }, .aes⟩
  else if alg = 1 then
    some ⟨{ skey.cryptK with twofish := c.twofish256SetKey (part 0) },
      { skey.tweakK with twofish := c.twofish256SetKey (part 1) }, .twofish⟩
  else if alg = 2 then
    some ⟨{ skey.cryptK with serpent := c.serpent256SetKey (part 0) },
      { skey.tweakK with serpent := c.serpent256SetKey (part 1) }, .serpent⟩
  else if alg = 3 then
    some ⟨{ skey.cryptK with twofish := c.twofish256SetKey (part 0), aes := c.aes256SetKey (part 1) },
      { skey.tweakK with twofish := c.twofish256SetKey (part 2), aes := c.aes256SetKey (part 3) }, .aesTwofish⟩
  else if alg = 4 then
    some ⟨{ skey.cryptK with serpent := c.serpent256SetKey (part 0), twofish := c.twofish256SetKey (part 1) },
      { skey.tweakK with serpent := c.serpent256SetKey (part 2), twofish := c.twofish256SetKey (part 3) }, .twofishSerpent⟩
  else if alg = 5 then
    some ⟨{ skey.cryptK with aes := c.aes256SetKey (part 0), serpent := c.serpent256SetKey (part 1) },
      { skey.tweakK with aes := c.aes256SetKey (part 2), serpent := c.serpent256SetKey (part 3) }, .serpentAes⟩
  else if alg = 6 then
    some ⟨⟨c.aes256SetKey (part 2), c.twofish256SetKey (part 1), c.serpent256SetKey (part 0)⟩,
      ⟨c.aes256SetKey (part 5), c.twofish256SetKey (part 4), c.serpent256SetKey (part 3)⟩, .aesTwofishSerpent⟩
  else none

/-- The cores of this machine, as `xts_init` selects them. -/
structure Cores where
  aes : Core
  twofish : Core
  serpent : Core

section Procs

variable (cores : Cores) (key : XtsKey)

def xtsAesEncrypt : Bytes → (inp out len : Nat) → UInt64 → Option Bytes := cores.aes.run key.cryptK.aes key.tweakK.aes
def xtsAesDecrypt : Bytes → (inp out len : Nat) → UInt64 → Option Bytes := cores.aes.run key.cryptK.aes.symm key.tweakK.aes

def xtsTwofishEncrypt : Bytes → (inp out len : Nat) → UInt64 → Option Bytes :=
  cores.twofish.run key.cryptK.twofish key.tweakK.twofish
def xtsTwofishDecrypt : Bytes → (inp out len : Nat) → UInt64 → Option Bytes :=
  cores.twofish.run key.cryptK.twofish.symm key.tweakK.twofish

def xtsSerpentEncrypt : Bytes → (inp out len : Nat) → UInt64 → Option Bytes :=
  cores.serpent.run key.cryptK.serpent key.tweakK.serpent
def xtsSerpentDecrypt : Bytes → (inp out len : Nat) → UInt64 → Option Bytes :=
  cores.serpent.run key.cryptK.serpent.symm key.tweakK.serpent

/-- `xts_encrypt`, through the procedure of the key. A cascade goes on in place. -/
def xtsEncrypt (mem : Bytes) (inp out len : Nat) (offset : UInt64) : Option Bytes :=
  match key.procs with
  | .aes => xtsAesEncrypt cores key mem inp out len offset
  | .twofish => xtsTwofishEncrypt cores key mem inp out len offset
  | .serpent => xtsSerpentEncrypt cores key mem inp out len offset
  | .aesTwofish =>
    (xtsTwofishEncrypt cores key mem inp out len offset).bind fun mem => xtsAesEncrypt cores key mem out out len offset
  | .twofishSerpent =>
    (xtsSerpentEncrypt cores key mem inp out len offset).bind fun mem => xtsTwofishEncrypt cores key mem out out len offset
  | .serpentAes =>
    (xtsAesEncrypt cores key mem inp out len offset).bind fun mem => xtsSerpentEncrypt cores key mem out out len offset
  | .aesTwofishSerpent =>
    (xtsSerpentEncrypt cores key mem inp out len offset).bind fun mem =>
      (xtsTwofishEncrypt cores key mem out out len offset).bind fun mem => xtsAesEncrypt cores key mem out out len offset

/-- `xts_decrypt`, the ciphers the other way around. -/
def xtsDecrypt (mem : Bytes) (inp out len : Nat) (offset : UInt64) : Option Bytes :=
  match key.procs with
  | .aes => xtsAesDecrypt cores key mem inp out len offset
  | .twofish => xtsTwofishDecrypt cores key mem inp out len offset
  | .serpent => xtsSerpentDecrypt cores key mem inp out len offset
  | .aesTwofish =>
    (xtsAesDecrypt cores key mem inp out len offset).bind fun mem => xtsTwofishDecrypt cores key mem out out len offset
  | .twofishSerpent =>
    (xtsTwofishDecrypt cores key mem inp out len offset).bind fun mem => xtsSerpentDecrypt cores key mem out out len offset
  | .serpentAes =>
    (xtsSerpentDecrypt cores key mem inp out len offset).bind fun mem => xtsAesDecrypt cores key mem out out len offset
  | .aesTwofishSerpent =>
    (xtsAesDecrypt cores key mem inp out len offset).bind fun mem =>
      (xtsTwofishDecrypt cores key mem out out len offset).bind fun mem => xtsSerpentDecrypt cores key mem out out len offset

end Procs

/-! ## Blocks by their number -/

/-- The tweak of a block of the disk. -/
def tweakAt (tweak : Block → Block) (n : Nat) : Block :=
  Block.alpha^[n % 32] (tweak ⟨UInt64.ofNat (n / 32 + 1), 0⟩)

/-- A block of the disk under its tweak. -/
def xexAt (crypt tweak : Block → Block) (n : Nat) (b : Bytes) : Bytes :=
  if b.length = 16 then (xex crypt (tweakAt tweak n) (.ofBytes b)).toBytes else b

theorem length_xexAt (crypt tweak : Block → Block) (n : Nat) (b : Bytes) : (xexAt crypt tweak n b).length = b.length := by
  unfold xexAt
  split
  · rename_i h
    rw [Block.length_toBytes, h]
  · rfl

theorem xexAt_xexAt {crypt back : Block → Block} (h : ∀ b, back (crypt b) = b) (tweak : Block → Block) (n : Nat) (b : Bytes) :
    xexAt back tweak n (xexAt crypt tweak n b) = b := by
  by_cases hb : b.length = 16
  · rw [xexAt, if_pos ((length_xexAt _ _ _ _).trans hb), xexAt, if_pos hb, Block.ofBytes_toBytes, xex, xex, Block.xor_xor, h,
      Block.xor_xor, Block.toBytes_ofBytes hb]
  · rw [xexAt, if_neg (by rw [length_xexAt]; exact hb), xexAt, if_neg hb]

/-- One cipher of a key. -/
def xexCipher (crypt tweak : Equiv.Perm Block) : BlockCipher UInt8 where
  enc := xexAt crypt tweak
  dec := xexAt crypt.symm tweak
  length_enc := length_xexAt crypt tweak
  dec_enc := xexAt_xexAt crypt.symm_apply_apply tweak
  enc_dec := xexAt_xexAt crypt.apply_symm_apply tweak

/-- All that a key does to a block. -/
def XtsKey.cipher (key : XtsKey) : BlockCipher UInt8 :=
  let aes := xexCipher key.cryptK.aes key.tweakK.aes
  let twofish := xexCipher key.cryptK.twofish key.tweakK.twofish
  let serpent := xexCipher key.cryptK.serpent key.tweakK.serpent
  match key.procs with
  | .aes => aes
  | .twofish => twofish
  | .serpent => serpent
  | .aesTwofish => twofish.andThen aes
  | .twofishSerpent => serpent.andThen twofish
  | .serpentAes => aes.andThen serpent
  | .aesTwofishSerpent => serpent.andThen (twofish.andThen aes)

/-! ## The loops, block by block -/

theorem length_xexBlocks (crypt : Block → Block) : ∀ (count : Nat) (t : Block) (data : Bytes),
    (xexBlocks crypt count t data).length = 16 * count
  | 0, _, _ => rfl
  | count + 1, t, data => by
    rw [xexBlocks, List.length_append, Block.length_toBytes, length_xexBlocks, Nat.mul_succ, Nat.add_comm]

theorem xexBlocks_add (crypt : Block → Block) : ∀ (count count' : Nat) (t : Block) (data : Bytes),
    xexBlocks crypt (count + count') t data = xexBlocks crypt count t (data.take (16 * count)) ++
      xexBlocks crypt count' (Block.alpha^[count] t) (data.drop (16 * count))
  | 0, count', t, data => by rw [Nat.zero_add]; rfl
  | count + 1, count', t, data => by
    have hle : 16 ≤ 16 * (count + 1) := by omega
    have hrest : 16 * (count + 1) - 16 = 16 * count := by omega
    rw [Nat.succ_add, xexBlocks, xexBlocks, xexBlocks_add crypt count count', List.take_take, Nat.min_eq_left hle,
      List.drop_take, hrest, List.drop_drop, List.append_assoc, Function.iterate_succ_apply,
      show 16 + 16 * count = 16 * (count + 1) by omega]

/-- Within a sector the tweak goes on by `alpha`. -/
theorem alpha_tweakAt (tweak : Block → Block) {n : Nat} (h : n % 32 + 1 < 32) :
    (tweakAt tweak n).alpha = tweakAt tweak (n + 1) := by
  have hdiv : (n + 1) / 32 = n / 32 := by omega
  have hmod : (n + 1) % 32 = n % 32 + 1 := by omega
  rw [tweakAt, tweakAt, hdiv, hmod, Function.iterate_succ_apply']

theorem xexBlocks_eq_mapBlocks (crypt tweak : Block → Block) : ∀ (count n : Nat) (data : Bytes),
    n % 32 + count ≤ 32 → data.length = 16 * count →
      xexBlocks crypt count (tweakAt tweak n) data = mapBlocks 16 (xexAt crypt tweak) count n data
  | 0, _, _, _, _ => rfl
  | count + 1, n, data, hfit, hdata => by
    have htake : (data.take 16).length = 16 := by
      rw [List.length_take]
      omega
    have hdrop : (data.drop 16).length = 16 * count := by
      rw [List.length_drop]
      omega
    rw [xexBlocks, mapBlocks, xexAt, if_pos htake]
    congr 1
    obtain rfl | hcount := Nat.eq_zero_or_pos count
    · rfl
    · have hnext : n % 32 + 1 < 32 := by omega
      rw [alpha_tweakAt tweak hnext, xexBlocks_eq_mapBlocks crypt tweak count (n + 1) _ (by omega) hdrop]

/-- The places of a run: in the memory, and the same or apart. -/
structure Places (mem : Bytes) (inp out len : Nat) : Prop where
  read : inp + len ≤ mem.length
  write : out + len ≤ mem.length
  apart : inp = out ∨ inp + len ≤ out ∨ out + len ≤ inp

/-- Behind a first part that was written the rest can be run. -/
theorem Places.rest {mem mem' data : Bytes} {inp out len len' : Nat} (h : Places mem inp out (len + len'))
    (hdata : data.length = len) (hwrite : writeAt mem out data = some mem') :
    Places mem' (inp + len) (out + len) len' ∧ slice mem' (inp + len) len' = slice mem (inp + len) len' := by
  obtain ⟨hinp, hout, hapart⟩ := h
  have hlen := length_writeAt hwrite
  refine ⟨⟨by omega, by omega, by omega⟩, slice_writeAt hwrite ?_⟩
  rw [hdata]
  omega

theorem xtsGroups_spec (crypt : Block → Block) (lanes : Nat) : ∀ (groups : Nat) (t : Block) (mem : Bytes) (inp out : Nat),
    Places mem inp out (16 * (lanes * groups)) →
      xtsGroups crypt lanes groups t mem inp out =
        writeAt mem out (xexBlocks crypt (lanes * groups) t (slice mem inp (16 * (lanes * groups))))
  | 0, t, mem, inp, out, h => by
    have hout := h.write
    rw [xtsGroups, Nat.mul_zero, xexBlocks, writeAt_nil (by omega)]
  | groups + 1, t, mem, inp, out, h => by
    have hsplit : 16 * (lanes * (groups + 1)) = 16 * lanes + 16 * (lanes * groups) := by
      rw [Nat.mul_succ, Nat.mul_add, Nat.add_comm]
    rw [hsplit] at h
    have hlen := length_xexBlocks crypt lanes t (slice mem inp (16 * lanes))
    have hinp := h.read
    have hout := h.write
    obtain ⟨mem', hwrite⟩ := writeAt_eq mem out (xexBlocks crypt lanes t (slice mem inp (16 * lanes)))
      (by rw [hlen]; omega)
    obtain ⟨hrest, hsame⟩ := h.rest hlen hwrite
    rw [xtsGroups, readAt_eq (by omega), Option.bind_some, hwrite, Option.bind_some, xtsGroups_spec crypt lanes groups _ _ _ _ hrest,
      hsame, ← hlen, writeAt_append hwrite, hlen, hsplit, Nat.mul_succ, Nat.add_comm (lanes * groups), xexBlocks_add,
      take_slice (Nat.le_add_right _ _), drop_slice, Nat.add_sub_cancel_left]

/-- A sector through groups of blocks. -/
theorem xtsGroups_sector (crypt tweak : Block → Block) {lanes : Nat} (hlanes : lanes ∣ 32) (s : Nat) {mem : Bytes}
    {inp out : Nat} (h : Places mem inp out 512) :
    xtsGroups crypt lanes (32 / lanes) (tweak ⟨UInt64.ofNat s + 1, 0⟩) mem inp out =
      writeAt mem out (mapBlocks 16 (xexAt crypt tweak) 32 (32 * s)
        (slice mem inp 512)) := by
  have hblocks : lanes * (32 / lanes) = 32 := Nat.mul_div_cancel' hlanes
  have hsize : 16 * (lanes * (32 / lanes)) = 512 := by rw [hblocks]
  have htweak : tweakAt tweak (32 * s) = tweak ⟨UInt64.ofNat s + 1, 0⟩ := by
    rw [tweakAt, Nat.mul_mod_right, Nat.mul_div_cancel_left _ (by decide), UInt64.ofNat_add]
    rfl
  rw [xtsGroups_spec crypt lanes _ _ _ _ _ (by rw [hsize]; exact h), hsize, hblocks, ← htweak,
    xexBlocks_eq_mapBlocks crypt tweak _ _ _ (by rw [Nat.mul_mod_right, Nat.zero_add]) (length_slice h.read)]

theorem lessSector_eq {n m : Nat} (hn : n = m + 1) (h : 512 * n < 2 ^ 64) : lessSector (512 * n) = 512 * m := by
  unfold lessSector
  omega

/-- What a run over whole sectors leaves in memory. -/
def crypted (f : Nat → Bytes → Bytes) (mem : Bytes) (inp out sectors s : Nat) : Option Bytes :=
  writeAt mem out (mapBlocks 16 f (32 * sectors) (32 * s)
    (slice mem inp (512 * sectors)))

/-- A first part of the sectors and those behind it. -/
theorem crypted_add {f : Nat → Bytes → Bytes} (hf : ∀ n b, (f n b).length = b.length) {mem : Bytes} {inp out n a b : Nat}
    (hn : n = a + b) (s : Nat) (h : Places mem inp out (512 * n)) :
    ∃ mem', crypted f mem inp out a s = some mem' ∧ Places mem' (inp + 512 * a) (out + 512 * a) (512 * b) ∧
      crypted f mem' (inp + 512 * a) (out + 512 * a) b (s + a) = crypted f mem inp out n s := by
  have hinp := h.read
  have hout := h.write
  have hslice : (slice mem inp (512 * a)).length = 16 * (32 * a) := by
    rw [length_slice (by omega)]
    omega
  have hlen : (mapBlocks 16 f (32 * a) (32 * s) (slice mem inp (512 * a))).length = 512 * a := by
    rw [length_mapBlocks hf (32 * a) (32 * s) _ hslice]
    omega
  obtain ⟨mem', hwrite⟩ := writeAt_eq mem out (mapBlocks 16 f (32 * a) (32 * s) (slice mem inp (512 * a))) (by omega)
  have hbytes : 512 * n = 512 * a + 512 * b := by omega
  have hblocks : 32 * n = 32 * a + 32 * b := by omega
  rw [hbytes] at h
  obtain ⟨hrest, hsame⟩ := h.rest hlen hwrite
  refine ⟨mem', hwrite, hrest, ?_⟩
  have hjoin := writeAt_append hwrite (mapBlocks 16 f (32 * b) (32 * (s + a)) (slice mem (inp + 512 * a) (512 * b)))
  rw [hlen] at hjoin
  rw [crypted, crypted, hsame, hjoin, hbytes, hblocks, slice_add, mapBlocks_append (32 * a) (32 * b) (32 * s) _ _ hslice,
    Nat.mul_add]

/-- One sector and those behind it. -/
theorem crypted_succ {f : Nat → Bytes → Bytes} (hf : ∀ n b, (f n b).length = b.length) {mem : Bytes} {inp out n m : Nat}
    (hn : n = m + 1) (s : Nat) (h : Places mem inp out (512 * n)) :
    ∃ mem', writeAt mem out (mapBlocks 16 f 32 (32 * s) (slice mem inp 512)) = some mem' ∧
      Places mem' (inp + 512) (out + 512) (512 * m) ∧
      crypted f mem' (inp + 512) (out + 512) m (s + 1) = crypted f mem inp out n s := by
  have hadd := crypted_add hf (hn.trans (Nat.add_comm m 1)) s h
  rwa [Nat.mul_one, crypted, Nat.mul_one, Nat.mul_one] at hadd

theorem xtsBasicLoop_spec (crypt tweak : Block → Block) : ∀ (passes n s : Nat) (mem : Bytes) (inp out : Nat),
    Places mem inp out (512 * n) → 512 * n < 2 ^ 64 → 0 < n → n ≤ passes →
      xtsBasicLoop crypt tweak passes mem inp out (512 * n) (UInt64.ofNat s) = crypted (xexAt crypt tweak) mem inp out n s
  | 0, n, _, _, _, _, _, _, hn, hp => absurd hn (by omega)
  | passes + 1, n, s, mem, inp, out, h, hsize, hn, hp => by
    obtain ⟨m, hm⟩ := Nat.exists_eq_add_one_of_ne_zero (Nat.ne_of_gt hn)
    have hinp := h.read
    have hout := h.write
    have hapart := h.apart
    have hsector : Places mem inp out 512 := ⟨by omega, by omega, by omega⟩
    obtain ⟨mem', hwrite, hrest, hcrypted⟩ := crypted_succ (length_xexAt crypt tweak) hm s h
    have hfirst := xtsGroups_sector crypt tweak (one_dvd 32) s hsector
    rw [Nat.div_one] at hfirst
    rw [xtsBasicLoop, hfirst, hwrite, Option.bind_some, lessSector_eq hm hsize, ← hcrypted]
    obtain rfl | hpos := Nat.eq_zero_or_pos m
    · rw [if_pos rfl, crypted]
      exact (writeAt_nil hrest.write).symm
    · rw [if_neg (by omega), show UInt64.ofNat s + 1 = UInt64.ofNat (s + 1) from (UInt64.ofNat_add s 1).symm]
      exact xtsBasicLoop_spec crypt tweak passes m (s + 1) mem' _ _ hrest (by omega) hpos (by omega)

theorem xtsAheadLoop_spec {lanes : Nat} (hlanes : lanes ∣ 32) (crypt tweak : Block → Block) :
    ∀ (passes n s : Nat) (mem : Bytes) (inp out : Nat),
      Places mem inp out (512 * n) → 512 * n < 2 ^ 64 → 0 < n → n ≤ passes →
        xtsAheadLoop lanes crypt tweak passes mem inp out (512 * n) (UInt64.ofNat s + 1) (tweak ⟨UInt64.ofNat s + 1, 0⟩) =
          crypted (xexAt crypt tweak) mem inp out n s
  | 0, n, _, _, _, _, _, _, hn, hp => absurd hn (by omega)
  | passes + 1, n, s, mem, inp, out, h, hsize, hn, hp => by
    obtain ⟨m, hm⟩ := Nat.exists_eq_add_one_of_ne_zero (Nat.ne_of_gt hn)
    have hinp := h.read
    have hout := h.write
    have hapart := h.apart
    have hsector : Places mem inp out 512 := ⟨by omega, by omega, by omega⟩
    obtain ⟨mem', hwrite, hrest, hcrypted⟩ := crypted_succ (length_xexAt crypt tweak) hm s h
    rw [xtsAheadLoop, xtsGroups_sector crypt tweak hlanes s hsector, hwrite, ← hcrypted]
    simp only [Option.bind_some, lessSector_eq hm hsize]
    obtain rfl | hpos := Nat.eq_zero_or_pos m
    · rw [if_pos (by simp), crypted]
      exact (writeAt_nil hrest.write).symm
    · have hmore : 512 * m ≠ 0 := by omega
      rw [if_neg (not_not.2 hmore), if_pos hmore,
        show UInt64.ofNat s + 1 = UInt64.ofNat (s + 1) from (UInt64.ofNat_add s 1).symm]
      exact xtsAheadLoop_spec hlanes crypt tweak passes m (s + 1) mem' _ _ hrest (by omega) hpos (by omega)

/-- A core gives every block of the buffer its tweak, whichever way it goes about it. -/
theorem Core.run_spec (core : Core) (crypt tweak : Block → Block) {mem : Bytes} {inp out n : Nat} (offset : UInt64)
    (h : Places mem inp out (512 * n)) (hn : 0 < n) (hsize : 512 * n < 2 ^ 64) :
    core.run crypt tweak mem inp out (512 * n) offset =
      crypted (xexAt crypt tweak) mem inp out n (offset.toNat / 512) := by
  have hsector : offset / 512 = UInt64.ofNat (offset.toNat / 512) := by
    rw [← UInt64.toNat_inj, UInt64.toNat_div]
    exact (UInt64.toNat_ofNat_of_lt' (Nat.lt_of_le_of_lt (Nat.div_le_self _ _) offset.toNat_lt)).symm
  have hread := h.read
  cases core with
  | basic =>
    rw [Core.run, hsector]
    exact xtsBasicLoop_spec crypt tweak _ n _ mem inp out h hsize hn (by omega)
  | ahead lanes hlanes =>
    rw [Core.run, hsector]
    exact xtsAheadLoop_spec hlanes crypt tweak _ n _ mem inp out h hsize hn (by omega)

/-- A second pass in place. -/
theorem crypted_bind {f g : Nat → Bytes → Bytes} (hf : ∀ n b, (f n b).length = b.length) (hg : ∀ n b, (g n b).length = b.length)
    {mem : Bytes} {inp out n s : Nat} (h : Places mem inp out (512 * n)) {second : Bytes → Option Bytes}
    (hsecond : ∀ mem', Places mem' out out (512 * n) → second mem' = crypted g mem' out out n s) :
    (crypted f mem inp out n s).bind second = crypted (fun n b => g n (f n b)) mem inp out n s := by
  have hslice : (slice mem inp (512 * n)).length = 16 * (32 * n) := by
    rw [length_slice h.read]
    omega
  have hlen := length_mapBlocks hf (32 * n) (32 * s) _ hslice
  have hlen' := length_mapBlocks hg (32 * n) (32 * s) _ hlen
  have hout := h.write
  obtain ⟨mem', hwrite⟩ := writeAt_eq mem out (mapBlocks 16 f (32 * n) (32 * s) (slice mem inp (512 * n))) (by rw [hlen]; omega)
  have hself := slice_writeAt_self hwrite
  have hmem := length_writeAt hwrite
  rw [hlen, show 16 * (32 * n) = 512 * n by omega] at hself
  rw [crypted, hwrite, Option.bind_some, hsecond mem' ⟨by omega, by omega, .inl rfl⟩, crypted, hself, crypted,
    mapBlocks_mapBlocks (by decide) hf hg (32 * s) hslice]
  exact writeAt_writeAt hwrite (by rw [length_mapBlocks (fun n b => (hg n _).trans (hf n b)) _ _ _ hslice, hlen])

/-! ## Keys, block by block -/

section Cascade

variable {c d : BlockCipher UInt8} {mem : Bytes} {inp out n s : Nat} (h : Places mem inp out (512 * n))
  {first : Option Bytes} {second : Bytes → Option Bytes}
include h

theorem cascade_enc (hfirst : first = crypted c.enc mem inp out n s)
    (hsecond : ∀ mem', Places mem' out out (512 * n) → second mem' = crypted d.enc mem' out out n s) :
    first.bind second = crypted (c.andThen d).enc mem inp out n s := by
  rw [hfirst]
  exact crypted_bind c.length_enc d.length_enc h hsecond

theorem cascade_dec (hfirst : first = crypted d.dec mem inp out n s)
    (hsecond : ∀ mem', Places mem' out out (512 * n) → second mem' = crypted c.dec mem' out out n s) :
    first.bind second = crypted (c.andThen d).dec mem inp out n s := by
  rw [hfirst]
  exact crypted_bind d.length_dec c.length_dec h hsecond

end Cascade

section Key

variable (cores : Cores) (key : XtsKey) {mem : Bytes} {inp out n : Nat} (offset : UInt64)
  (h : Places mem inp out (512 * n)) (hn : 0 < n) (hsize : 512 * n < 2 ^ 64)
include h hn hsize

theorem xtsEncrypt_spec :
    xtsEncrypt cores key mem inp out (512 * n) offset = crypted key.cipher.enc mem inp out n (offset.toNat / 512) := by
  have hcore : ∀ (core : Core) (crypt tweak : Equiv.Perm Block) {mem : Bytes} {inp : Nat}, Places mem inp out (512 * n) →
      core.run crypt tweak mem inp out (512 * n) offset =
        crypted (xexCipher crypt tweak).enc mem inp out n (offset.toNat / 512) :=
    fun core crypt tweak _ _ h => core.run_spec crypt tweak offset h hn hsize
  obtain ⟨cryptK, tweakK, procs⟩ := key
  cases procs with
  | aes => exact hcore _ _ _ h
  | twofish => exact hcore _ _ _ h
  | serpent => exact hcore _ _ _ h
  | aesTwofish => exact cascade_enc h (hcore _ _ _ h) fun _ => hcore _ _ _
  | twofishSerpent => exact cascade_enc h (hcore _ _ _ h) fun _ => hcore _ _ _
  | serpentAes => exact cascade_enc h (hcore _ _ _ h) fun _ => hcore _ _ _
  | aesTwofishSerpent =>
    exact cascade_enc h (hcore _ _ _ h) fun _ h' => cascade_enc h' (hcore _ _ _ h') fun _ => hcore _ _ _

theorem xtsDecrypt_spec :
    xtsDecrypt cores key mem inp out (512 * n) offset = crypted key.cipher.dec mem inp out n (offset.toNat / 512) := by
  have hcore : ∀ (core : Core) (crypt tweak : Equiv.Perm Block) {mem : Bytes} {inp : Nat}, Places mem inp out (512 * n) →
      core.run crypt.symm tweak mem inp out (512 * n) offset =
        crypted (xexCipher crypt tweak).dec mem inp out n (offset.toNat / 512) :=
    fun core crypt tweak _ _ h => core.run_spec crypt.symm tweak offset h hn hsize
  obtain ⟨cryptK, tweakK, procs⟩ := key
  cases procs with
  | aes => exact hcore _ _ _ h
  | twofish => exact hcore _ _ _ h
  | serpent => exact hcore _ _ _ h
  | aesTwofish => exact cascade_dec h (hcore _ _ _ h) fun _ => hcore _ _ _
  | twofishSerpent => exact cascade_dec h (hcore _ _ _ h) fun _ => hcore _ _ _
  | serpentAes => exact cascade_dec h (hcore _ _ _ h) fun _ => hcore _ _ _
  | aesTwofishSerpent =>
    change _ = crypted (((xexCipher cryptK.serpent tweakK.serpent).andThen (xexCipher cryptK.twofish tweakK.twofish)).andThen
      (xexCipher cryptK.aes tweakK.aes)).dec mem inp out n _
    exact cascade_dec h (hcore _ _ _ h) fun _ h' => cascade_dec h' (hcore _ _ _ h') fun _ => hcore _ _ _

end Key

/-! ## Parts of a buffer -/

/-- A call for each part of a buffer, at the offset of the part. -/
def xtsPieces (run : Bytes → (inp out len : Nat) → UInt64 → Option Bytes) :
    List Nat → Bytes → (inp out : Nat) → UInt64 → Option Bytes
  | [], mem, _, _, _ => some mem
  | len :: lens, mem, inp, out, offset =>
    (run mem inp out len offset).bind fun mem =>
      xtsPieces run lens mem (inp + len) (out + len) (offset + UInt64.ofNat len)

theorem xtsPieces_spec {run : Bytes → (inp out len : Nat) → UInt64 → Option Bytes} {f : Nat → Bytes → Bytes}
    (hf : ∀ n b, (f n b).length = b.length)
    (hrun : ∀ {mem inp out n} (offset : UInt64), Places mem inp out (512 * n) → 0 < n → 512 * n < 2 ^ 64 →
      run mem inp out (512 * n) offset = crypted f mem inp out n (offset.toNat / 512)) :
    ∀ (ns : List Nat) (mem : Bytes) (inp out : Nat) (offset : UInt64), (∀ n ∈ ns, 0 < n) →
      512 ∣ offset.toNat → Places mem inp out (512 * ns.sum) → 512 * ns.sum < 2 ^ 64 → offset.toNat + 512 * ns.sum ≤ 2 ^ 64 →
        xtsPieces run (ns.map (512 * ·)) mem inp out offset = crypted f mem inp out ns.sum (offset.toNat / 512)
  | [], mem, inp, out, offset, _, _, h, _, _ => (writeAt_nil h.write).symm
  | n :: ns, mem, inp, out, offset, hpos, halign, h, hsize, hend => by
    obtain ⟨hn, hpos⟩ := List.forall_mem_cons.1 hpos
    obtain ⟨mem', hfirst, hrest, hcrypted⟩ := crypted_add hf List.sum_cons (offset.toNat / 512) h
    rw [List.sum_cons] at h hsize hend
    have hinp := h.read
    have hout := h.write
    have hapart := h.apart
    have hplaces : Places mem inp out (512 * n) := ⟨by omega, by omega, by omega⟩
    rw [List.map_cons, xtsPieces, hrun offset hplaces hn (by omega), hfirst, Option.bind_some, ← hcrypted]
    obtain _ | ⟨n', ns⟩ := ns
    · exact (writeAt_nil hrest.write).symm
    · -- the offset of a further part is still one of 64 bits
      obtain ⟨hn', -⟩ := List.forall_mem_cons.1 hpos
      have hsum : 0 < (n' :: ns).sum := by
        rw [List.sum_cons]
        omega
      have hoffset : (offset + UInt64.ofNat (512 * n)).toNat = offset.toNat + 512 * n := by
        rw [UInt64.toNat_add, UInt64.toNat_ofNat', Nat.mod_eq_of_lt (show 512 * n < 2 ^ 64 by omega), Nat.mod_eq_of_lt (by omega)]
      have hnext : (offset + UInt64.ofNat (512 * n)).toNat / 512 = offset.toNat / 512 + n := by
        rw [hoffset, Nat.add_mul_div_left _ _ (by decide)]
      rw [xtsPieces_spec hf hrun (n' :: ns) mem' _ _ _ hpos (by omega) hrest (by omega) (by omega), hnext]

/-- What one run left at its place another run takes back. -/
def Undoes (back run : Bytes → (inp out len : Nat) → UInt64 → Option Bytes) : Prop :=
  ∀ {mem : Bytes} {inp out n : Nat} (offset : UInt64), Places mem inp out (512 * n) → 0 < n → 512 * n < 2 ^ 64 →
    ∃ mem', run mem inp out (512 * n) offset = some mem' ∧ ∃ mem'', back mem' out out (512 * n) offset = some mem'' ∧
      slice mem'' out (512 * n) = slice mem inp (512 * n)

/-- What a run leaves depends on the bytes it reads, not on where they are and where it goes. -/
def SameBytes (run : Bytes → (inp out len : Nat) → UInt64 → Option Bytes) : Prop :=
  ∀ {mem mem₂ : Bytes} {inp out inp₂ out₂ n : Nat} (offset : UInt64), Places mem inp out (512 * n) →
    Places mem₂ inp₂ out₂ (512 * n) → 0 < n → 512 * n < 2 ^ 64 → slice mem inp (512 * n) = slice mem₂ inp₂ (512 * n) →
      ∃ data : Bytes, data.length = 512 * n ∧ run mem inp out (512 * n) offset = writeAt mem out data ∧
        run mem₂ inp₂ out₂ (512 * n) offset = writeAt mem₂ out₂ data

/-- Runs over the parts of a buffer are the run over the buffer. -/
def Splits (run : Bytes → (inp out len : Nat) → UInt64 → Option Bytes) : Prop :=
  ∀ (ns : List Nat) (mem : Bytes) (inp out : Nat) (offset : UInt64), ns ≠ [] → (∀ n ∈ ns, 0 < n) → 512 ∣ offset.toNat →
    Places mem inp out (512 * ns.sum) → 512 * ns.sum < 2 ^ 64 → offset.toNat + 512 * ns.sum ≤ 2 ^ 64 →
      xtsPieces run (ns.map (512 * ·)) mem inp out offset = run mem inp out (512 * ns.sum) offset

section Blocks

variable {run : Bytes → (inp out len : Nat) → UInt64 → Option Bytes} {f : Nat → Bytes → Bytes}
  (hf : ∀ n b, (f n b).length = b.length)
  (hrun : ∀ {mem inp out n} (offset : UInt64), Places mem inp out (512 * n) → 0 < n → 512 * n < 2 ^ 64 →
    run mem inp out (512 * n) offset = crypted f mem inp out n (offset.toNat / 512))
include hf hrun

theorem sameBytes_of_crypted : SameBytes run := by
  intro mem mem₂ inp out inp₂ out₂ n offset h h₂ hn hsize hsame
  refine ⟨mapBlocks 16 f (32 * n) (32 * (offset.toNat / 512)) (slice mem inp (512 * n)), ?_, hrun offset h hn hsize, ?_⟩
  · rw [length_mapBlocks hf _ _ _ (by rw [length_slice h.read]; omega)]
    omega
  · rw [hrun offset h₂ hn hsize, crypted, hsame]

theorem splits_of_crypted : Splits run := by
  intro ns mem inp out offset hne hpos halign h hsize hend
  have hsum : 0 < ns.sum := by
    obtain _ | ⟨n, ns⟩ := ns
    · exact absurd rfl hne
    · have hn := hpos n List.mem_cons_self
      rw [List.sum_cons]
      omega
  rw [xtsPieces_spec hf hrun ns mem inp out offset hpos halign h hsize hend, hrun offset h hsum hsize]

end Blocks

theorem undoes_xtsDecrypt (cores : Cores) (key : XtsKey) : Undoes (xtsDecrypt cores key) (xtsEncrypt cores key) := by
  intro mem inp out n offset h hn hsize
  have hslice : (slice mem inp (512 * n)).length = 16 * (32 * n) := by
    rw [length_slice h.read]
    omega
  have hlen := length_mapBlocks key.cipher.length_enc (32 * n) (32 * (offset.toNat / 512)) _ hslice
  have hout := h.write
  obtain ⟨mem', hwrite⟩ := writeAt_eq mem out
    (mapBlocks 16 key.cipher.enc (32 * n) (32 * (offset.toNat / 512)) (slice mem inp (512 * n))) (by rw [hlen]; omega)
  have hself := slice_writeAt_self hwrite
  have hmem := length_writeAt hwrite
  rw [hlen, show 16 * (32 * n) = 512 * n by omega] at hself
  have hback : crypted key.cipher.dec mem' out out n (offset.toNat / 512) = writeAt mem' out (slice mem inp (512 * n)) := by
    rw [crypted, hself, mapBlocks_dec_enc key.cipher (by decide) _ _ _ hslice]
  obtain ⟨mem'', hwrite'⟩ := writeAt_eq mem' out (slice mem inp (512 * n)) (by rw [hslice]; omega)
  refine ⟨mem', (xtsEncrypt_spec cores key offset h hn hsize).trans hwrite, mem'', ?_, ?_⟩
  · rw [xtsDecrypt_spec cores key offset ⟨by omega, by omega, .inl rfl⟩ hn hsize, hback, hwrite']
  · have hslice' := slice_writeAt_self hwrite'
    rwa [hslice, show 16 * (32 * n) = 512 * n by omega] at hslice'

end MajorPrivacy.Disk

/-
How keyfiles fold into a password (keyfile_mix.c). The mixer collects hashes in a growing array; at the end
they are sorted and made unique in place, so that what is hashed is the set. SHA-512 is a parameter.
-/
import MajorPrivacy.Lib.LittleEndian
import Mathlib.Data.Finset.Sort

namespace MajorPrivacy.Volume

open LittleEndian

/-- `DC_KF_HASH_SIZE`. -/
abbrev dcKfHashSize : Nat := 64

/-- The bytes of a hash. -/
@[ext]
structure KfHash where
  bytes : Bytes
  length : bytes.length = dcKfHashSize

/-- The loop of `kf_hash_cmp`. -/
def kfHashCmpLoop : Bytes → Bytes → Int
  | a :: as, b :: bs => if a ≠ b then (if a < b then -1 else 1) else kfHashCmpLoop as bs
  | _, _ => 0

def kfHashCmp (a b : KfHash) : Int := kfHashCmpLoop a.bytes b.bytes

/-! ## The order of the hashes -/

/-- The number with the bytes, the first one on top. -/
def bigEndian (bs : Bytes) : Nat := ofLE bs.reverse

theorem bigEndian_cons (b : UInt8) (bs : Bytes) : bigEndian (b :: bs) = bigEndian bs + 256 ^ bs.length * b.toNat := by
  rw [bigEndian, List.reverse_cons, ofLE_append, List.length_reverse]
  simp [bigEndian, ofLE]

theorem bigEndian_lt (bs : Bytes) : bigEndian bs < 256 ^ bs.length := by
  have := ofLE_lt bs.reverse
  rwa [List.length_reverse] at this

/-- A larger first byte decides. -/
theorem bigEndian_cons_lt {a b : UInt8} {as bs : Bytes} (hlen : as.length = bs.length) (h : a < b) :
    bigEndian (a :: as) < bigEndian (b :: bs) := by
  have hbytes : a.toNat + 1 ≤ b.toNat := UInt8.lt_iff_toNat_lt.1 h
  have hmul := Nat.mul_le_mul_left (256 ^ bs.length) hbytes
  have has := bigEndian_lt as
  rw [bigEndian_cons, bigEndian_cons, hlen]
  rw [hlen] at has
  rw [Nat.mul_succ] at hmul
  omega

theorem kfHashCmpLoop_spec : ∀ {as bs : Bytes}, as.length = bs.length →
    (0 < kfHashCmpLoop as bs ↔ bigEndian bs < bigEndian as) ∧ (kfHashCmpLoop as bs = 0 ↔ bigEndian as = bigEndian bs)
  | [], [], _ => by simp [kfHashCmpLoop]
  | a :: as, b :: bs, h => by
    have hlen : as.length = bs.length := Nat.succ.inj h
    unfold kfHashCmpLoop
    obtain hlt | heq | hgt := Nat.lt_trichotomy a.toNat b.toNat
    · have hab : a < b := UInt8.lt_iff_toNat_lt.2 hlt
      have hbig := bigEndian_cons_lt hlen hab
      rw [if_pos (by rintro rfl; omega), if_pos hab]
      omega
    · obtain rfl := UInt8.toNat_inj.1 heq
      have ih := kfHashCmpLoop_spec hlen
      rw [if_neg (fun hne => hne rfl), bigEndian_cons, bigEndian_cons, hlen]
      omega
    · have hba : b < a := UInt8.lt_iff_toNat_lt.2 hgt
      have hbig := bigEndian_cons_lt hlen.symm hba
      rw [if_pos (by rintro rfl; omega), if_neg (fun hab => by have := UInt8.lt_iff_toNat_lt.1 hab; omega)]
      omega

namespace KfHash

def rank (h : KfHash) : Nat := bigEndian h.bytes

theorem rank_injective : Function.Injective rank := by
  intro a b h
  have hrev : ofLE a.bytes.reverse = ofLE b.bytes.reverse := h
  have ha := toLE_ofLE a.bytes.reverse
  have hb := toLE_ofLE b.bytes.reverse
  rw [List.length_reverse, a.length] at ha
  rw [List.length_reverse, b.length] at hb
  exact KfHash.ext (List.reverse_inj.1 (ha.symm.trans (hrev ▸ hb)))

/-- The order that `kf_hash_cmp` decides. -/
instance : LinearOrder KfHash := LinearOrder.lift' rank rank_injective

end KfHash

theorem kfHashCmp_pos {a b : KfHash} : 0 < kfHashCmp a b ↔ b < a :=
  (kfHashCmpLoop_spec (a.length.trans b.length.symm)).1

theorem kfHashCmp_eq_zero {a b : KfHash} : kfHashCmp a b = 0 ↔ a = b :=
  (kfHashCmpLoop_spec (a.length.trans b.length.symm)).2.trans KfHash.rank_injective.eq_iff

/-! ## In place -/

/-- `memcpy` of one hash, `none` behind the end of the array. -/
def putHash (hashes : List KfHash) (i : Nat) (h : KfHash) : Option (List KfHash) :=
  if i < hashes.length then some (hashes.set i h) else none

/-- The inner loop of `kf_sort` with the write behind it; the index is one more than the source's. -/
def kfShift (held : KfHash) : (j : Nat) → List KfHash → Option (List KfHash)
  | 0, hashes => putHash hashes 0 held
  | j + 1, hashes =>
    hashes[j]?.bind fun h =>
      if 0 < kfHashCmp h held then (putHash hashes (j + 1) h).bind (kfShift held j) else putHash hashes (j + 1) held

/-- The passes of `kf_sort` from `i` on. -/
def kfSortLoop : (togo i : Nat) → List KfHash → Option (List KfHash)
  | 0, _, hashes => some hashes
  | togo + 1, i, hashes => hashes[i]?.bind fun held => (kfShift held i hashes).bind (kfSortLoop togo (i + 1))

def kfSort (hashes : List KfHash) (count : Nat) : Option (List KfHash) := kfSortLoop (count - 1) 1 hashes

/-- The passes of `kf_dedup` from `i` on. -/
def kfDedupLoop : (togo i out : Nat) → List KfHash → Option (List KfHash × Nat)
  | 0, _, out, hashes => some (hashes, out)
  | togo + 1, i, out, hashes =>
    hashes[i]?.bind fun cur => hashes[out - 1]?.bind fun kept =>
      if kfHashCmp kept cur = 0 then kfDedupLoop togo (i + 1) out hashes
      else (if out ≠ i then putHash hashes out cur else some hashes).bind (kfDedupLoop togo (i + 1) (out + 1))

def kfDedup (hashes : List KfHash) (count : Nat) : Option (List KfHash × Nat) :=
  if count < 2 then some (hashes, count) else kfDedupLoop (count - 1) 1 1 hashes

theorem putHash_append (p : List KfHash) (x h : KfHash) (rest : List KfHash) :
    putHash (p ++ x :: rest) p.length h = some (p ++ h :: rest) := by
  rw [putHash, if_pos (by simp), List.set_append_right _ _ (Nat.le_refl _), Nat.sub_self, List.set_cons_zero]

/-- The held hash goes into the sorted part, over the place behind it. -/
theorem kfShift_spec (held : KfHash) (p : List KfHash) : ∀ (x : KfHash) (rest : List KfHash),
    ∃ q, kfShift held p.length (p ++ x :: rest) = some (q ++ rest) ∧ q.Perm (held :: p) ∧
      (p.Pairwise (· ≤ ·) → q.Pairwise (· ≤ ·)) := by
  induction p using List.reverseRecOn with
  | nil => exact fun x rest => ⟨[held], putHash_append [] x held rest, .refl _, fun _ => List.pairwise_singleton _ _⟩
  | append_singleton p y ih =>
    intro x rest
    rw [List.length_append, List.length_singleton, kfShift, List.append_assoc, List.getElem?_append_right (Nat.le_refl _),
      Nat.sub_self]
    simp only [List.singleton_append, List.getElem?_cons_zero, Option.bind_some, kfHashCmp_pos]
    have hput : ∀ h, putHash (p ++ y :: x :: rest) (p.length + 1) h = some (p ++ y :: h :: rest) := by
      intro h
      have := putHash_append (p ++ [y]) x h rest
      simpa only [List.length_append, List.length_singleton, List.append_assoc, List.singleton_append] using this
    by_cases hlt : held < y
    · obtain ⟨q, hrun, hperm, hsorted⟩ := ih y (y :: rest)
      refine ⟨q ++ [y], ?_, ?_, fun hp => ?_⟩
      · rw [if_pos hlt, hput, Option.bind_some, hrun, List.append_assoc, List.singleton_append]
      · exact hperm.append_right [y]
      · obtain ⟨hp, -, hy⟩ := List.pairwise_append.1 hp
        refine List.pairwise_append.2 ⟨hsorted hp, List.pairwise_singleton _ _, fun a ha b hb => ?_⟩
        obtain rfl := List.mem_singleton.1 hb
        obtain rfl | ha := List.mem_cons.1 (hperm.mem_iff.1 ha)
        · exact le_of_lt hlt
        · exact hy a ha b (List.mem_singleton_self b)
    · refine ⟨p ++ [y, held], ?_, ?_, fun hp => ?_⟩
      · rw [if_neg hlt, hput, List.append_assoc, List.cons_append, List.cons_append, List.nil_append]
      · rw [show p ++ [y, held] = (p ++ [y]) ++ [held] from (List.append_assoc p [y] [held]).symm]
        exact List.perm_append_comm
      · rw [show p ++ [y, held] = (p ++ [y]) ++ [held] from (List.append_assoc p [y] [held]).symm]
        refine List.pairwise_append.2 ⟨hp, List.pairwise_singleton _ _, fun a ha b hb => ?_⟩
        obtain rfl := List.mem_singleton.1 hb
        obtain ha | ha := List.mem_append.1 ha
        · exact le_trans ((List.pairwise_append.1 hp).2.2 a ha y (List.mem_singleton_self y)) (le_of_not_gt hlt)
        · exact List.mem_singleton.1 ha ▸ le_of_not_gt hlt

theorem kfSortLoop_spec (spare : List KfHash) : ∀ (todo p : List KfHash), p.Pairwise (· ≤ ·) →
    ∃ q, kfSortLoop todo.length p.length (p ++ (todo ++ spare)) = some (q ++ spare) ∧ q.Perm (p ++ todo) ∧
      q.Pairwise (· ≤ ·)
  | [], p, hp => ⟨p, rfl, by rw [List.append_nil], hp⟩
  | held :: todo, p, hp => by
    obtain ⟨p', hshift, hperm, hsorted⟩ := kfShift_spec held p held (todo ++ spare)
    obtain ⟨q, hrun, hq, hqs⟩ := kfSortLoop_spec spare todo p' (hsorted hp)
    have hlen : p'.length = p.length + 1 := hperm.length_eq
    refine ⟨q, ?_, ?_, hqs⟩
    · rw [List.length_cons, kfSortLoop, List.getElem?_append_right (Nat.le_refl _), Nat.sub_self, List.cons_append,
        List.getElem?_cons_zero, Option.bind_some, hshift, Option.bind_some, ← hlen, hrun]
    · exact hq.trans ((hperm.append_right todo).trans List.perm_middle.symm)

/-- The hashes of an array are sorted, what is behind them stays. -/
theorem kfSort_spec (cells spare : List KfHash) : ∃ q, kfSort (cells ++ spare) cells.length = some (q ++ spare) ∧
    q.Perm cells ∧ q.Pairwise (· ≤ ·) := by
  obtain _ | ⟨first, todo⟩ := cells
  · exact ⟨[], rfl, .refl _, .nil⟩
  · exact kfSortLoop_spec spare todo [first] (List.pairwise_singleton _ _)

/-- `kept ++ [last]` is what has been kept, `gap` what was moved or dropped. -/
theorem kfDedupLoop_spec (spare : List KfHash) : ∀ (todo kept gap : List KfHash) (last : KfHash),
    (kept ++ [last]).Pairwise (· < ·) → (last :: todo).Pairwise (· ≤ ·) →
      ∃ q rest, kfDedupLoop todo.length (kept.length + 1 + gap.length) (kept.length + 1)
          (kept ++ last :: (gap ++ (todo ++ spare))) = some (q ++ rest, q.length) ∧
        q.Pairwise (· < ·) ∧ ∀ h, h ∈ q ↔ h ∈ kept ∨ h = last ∨ h ∈ todo
  | [], kept, gap, last, hkept, _ => by
    refine ⟨kept ++ [last], gap ++ spare, ?_, hkept, fun h => by simp⟩
    simp only [List.length_nil, kfDedupLoop, List.nil_append, List.append_assoc, List.cons_append, List.length_append,
      List.length_cons, Nat.zero_add]
  | cur :: todo, kept, gap, last, hkept, htodo => by
    obtain ⟨hlast, hrest⟩ := List.pairwise_cons.1 htodo
    have hcur : (kept ++ last :: (gap ++ (cur :: todo ++ spare)))[kept.length + 1 + gap.length]? = some cur := by
      rw [List.getElem?_append_right (by omega), show kept.length + 1 + gap.length - kept.length = gap.length + 1 by omega,
        List.getElem?_cons_succ, List.getElem?_append_right (Nat.le_refl _), Nat.sub_self]
      rfl
    have hprev : (kept ++ last :: (gap ++ (cur :: todo ++ spare)))[kept.length + 1 - 1]? = some last := by
      rw [Nat.add_sub_cancel, List.getElem?_append_right (Nat.le_refl _), Nat.sub_self]
      rfl
    rw [List.length_cons, kfDedupLoop, hcur, Option.bind_some, hprev, Option.bind_some]
    simp only [kfHashCmp_eq_zero]
    by_cases heq : last = cur
    · -- a repeat stays where it is, in the gap
      subst heq
      obtain ⟨q, rest, hrun, hq, hmem⟩ := kfDedupLoop_spec spare todo kept (gap ++ [last]) last hkept hrest
      refine ⟨q, rest, ?_, hq, fun h => ?_⟩
      · rw [if_pos rfl, ← hrun, List.length_append, List.length_singleton]
        simp only [List.append_assoc, List.cons_append, List.nil_append, Nat.add_assoc]
      · rw [hmem h, List.mem_cons]
        tauto
    · have hlt : last < cur := lt_of_le_of_ne (hlast cur List.mem_cons_self) heq
      have hkept' : (kept ++ [last] ++ [cur]).Pairwise (· < ·) := by
        refine List.pairwise_append.2 ⟨hkept, List.pairwise_singleton _ _, fun a ha b hb => ?_⟩
        obtain rfl := List.mem_singleton.1 hb
        obtain ha | ha := List.mem_append.1 ha
        · exact lt_trans ((List.pairwise_append.1 hkept).2.2 a ha last (List.mem_singleton_self last)) hlt
        · exact List.mem_singleton.1 ha ▸ hlt
      have hlen : (kept ++ [last]).length = kept.length + 1 := by rw [List.length_append, List.length_singleton]
      have hmem' : ∀ {q : List KfHash}, (∀ h, h ∈ q ↔ h ∈ kept ++ [last] ∨ h = cur ∨ h ∈ todo) →
          ∀ h, h ∈ q ↔ h ∈ kept ∨ h = last ∨ h ∈ cur :: todo := by
        intro q hmem h
        rw [hmem h, List.mem_append, List.mem_singleton, List.mem_cons, or_assoc]
      obtain _ | ⟨g, gap⟩ := gap
      · obtain ⟨q, rest, hrun, hq, hmem⟩ := kfDedupLoop_spec spare todo (kept ++ [last]) [] cur hkept' hrest
        refine ⟨q, rest, ?_, hq, hmem' hmem⟩
        rw [if_neg heq, if_neg (fun hne => hne rfl), Option.bind_some, ← hrun, hlen]
        simp only [List.nil_append, List.append_assoc, List.cons_append, List.length_nil, Nat.add_zero]
      · obtain ⟨q, rest, hrun, hq, hmem⟩ :=
          kfDedupLoop_spec spare todo (kept ++ [last]) (gap ++ [cur]) cur hkept' hrest
        refine ⟨q, rest, ?_, hq, hmem' hmem⟩
        have hput : putHash (kept ++ last :: (g :: gap ++ (cur :: todo ++ spare))) (kept.length + 1) cur =
            some (kept ++ last :: (cur :: gap ++ (cur :: todo ++ spare))) := by
          have := putHash_append (kept ++ [last]) g cur (gap ++ (cur :: todo ++ spare))
          rw [hlen] at this
          simpa only [List.append_assoc, List.cons_append, List.nil_append] using this
        have hnext : kept.length + 1 + (g :: gap).length + 1 = kept.length + 1 + 1 + (gap ++ [cur]).length := by
          rw [List.length_append, List.length_cons, List.length_singleton]
          omega
        rw [if_neg heq, if_pos (by rw [List.length_cons]; omega), hput, Option.bind_some, ← hrun, hlen, hnext]
        simp only [List.nil_append, List.append_assoc, List.cons_append]

/-- Of sorted hashes one copy each is kept. -/
theorem kfDedup_spec {cells : List KfHash} (spare : List KfHash) (h : cells.Pairwise (· ≤ ·)) :
    ∃ q rest, kfDedup (cells ++ spare) cells.length = some (q ++ rest, q.length) ∧ q.Pairwise (· < ·) ∧
      ∀ h, h ∈ q ↔ h ∈ cells := by
  unfold kfDedup
  obtain _ | ⟨first, _ | ⟨second, todo⟩⟩ := cells
  · exact ⟨[], spare, rfl, .nil, fun _ => Iff.rfl⟩
  · exact ⟨[first], spare, rfl, List.pairwise_singleton _ _, fun _ => Iff.rfl⟩
  · obtain ⟨q, rest, hrun, hq, hmem⟩ := kfDedupLoop_spec spare (second :: todo) [] [] first (List.pairwise_singleton _ _) h
    refine ⟨q, rest, ?_, hq, fun h => by rw [hmem h]; simp⟩
    rw [if_neg (by simp only [List.length_cons]; omega)]
    exact hrun

/-! ## The mixer -/

inductive KfStatus
  | ok
  | nomem
  | emptyKeyfiles
  deriving DecidableEq

/-- `dc_kf_mixer`; the capacity is the length of the array. -/
structure DcKfMixer where
  hashes : List KfHash
  count : Nat

/-- `dc_alloc` for arrays of hashes, with what is in the memory it gives. -/
structure KfAlloc where
  get : Nat → Option (List KfHash)
  length : ∀ n cells, get n = some cells → cells.length = n

/-- `DC_KF_MIXER_INITIAL_CAPACITY`. -/
abbrev dcKfMixerInitialCapacity : Nat := 16

def cpKfMixerInit : DcKfMixer := ⟨[], 0⟩

/-- A capacity that is not an `int` has no meaning. -/
def kfGrow (alloc : KfAlloc) (ctx : DcKfMixer) : Option (KfStatus × DcKfMixer) :=
  if ctx.count < ctx.hashes.length then some (.ok, ctx)
  else
    let want := if ctx.hashes.length ≠ 0 then ctx.hashes.length * 2 else dcKfMixerInitialCapacity
    if 2 ^ 31 ≤ want then none
    else
      match alloc.get want with
      | none => some (.nomem, ctx)
      | some bigger => some (.ok, ⟨ctx.hashes.take ctx.count ++ bigger.drop ctx.count, ctx.count⟩)

def cpKfMixerAddHash (alloc : KfAlloc) (ctx : DcKfMixer) (hash : KfHash) : Option (KfStatus × DcKfMixer) :=
  (kfGrow alloc ctx).bind fun (resl, ctx) =>
    if resl = .ok then (putHash ctx.hashes ctx.count hash).map fun hashes => (.ok, ⟨hashes, ctx.count + 1⟩)
    else some (resl, ctx)

/-- A mixer that took these hashes; a hash that found no memory was not taken. -/
inductive Mixed : List KfHash → DcKfMixer → Prop
  | init : Mixed [] cpKfMixerInit
  | add {hashes : List KfHash} {ctx ctx' : DcKfMixer} {alloc : KfAlloc} {hash : KfHash} :
      Mixed hashes ctx → cpKfMixerAddHash alloc ctx hash = some (.ok, ctx') → Mixed (hashes ++ [hash]) ctx'
  | refuse {hashes : List KfHash} {ctx ctx' : DcKfMixer} {alloc : KfAlloc} {hash : KfHash} {resl : KfStatus} :
      Mixed hashes ctx → cpKfMixerAddHash alloc ctx hash = some (resl, ctx') → resl ≠ .ok → Mixed hashes ctx'

/-- The mixer's array starts with the hashes. -/
structure Collects (hashes : List KfHash) (ctx : DcKfMixer) : Prop where
  count : ctx.count = hashes.length
  cells : ∃ spare, ctx.hashes = hashes ++ spare

theorem collects_kfGrow {alloc : KfAlloc} {hashes : List KfHash} {ctx ctx' : DcKfMixer} {resl : KfStatus}
    (hc : Collects hashes ctx) (h : kfGrow alloc ctx = some (resl, ctx')) :
    Collects hashes ctx' ∧ (resl = .ok → ctx'.count < ctx'.hashes.length) := by
  obtain ⟨hcount, spare, hcells⟩ := hc
  unfold kfGrow at h
  by_cases hroom : ctx.count < ctx.hashes.length
  · rw [if_pos hroom] at h
    obtain ⟨rfl, rfl⟩ := Prod.mk.inj (Option.some.inj h)
    exact ⟨⟨hcount, spare, hcells⟩, fun _ => hroom⟩
  rw [if_neg hroom] at h
  simp only at h
  generalize hwant : (if ctx.hashes.length ≠ 0 then ctx.hashes.length * 2 else dcKfMixerInitialCapacity) = want at h
  have hmore : ctx.hashes.length < want := by
    rw [← hwant]
    split
    · omega
    · rename_i h0
      rw [not_not.1 h0]
      decide
  by_cases hbig : 2 ^ 31 ≤ want
  · rw [if_pos hbig] at h
    cases h
  rw [if_neg hbig] at h
  have hfull : spare = [] := by
    have hlen : ctx.hashes.length = hashes.length + spare.length := by rw [hcells, List.length_append]
    exact List.length_eq_zero_iff.1 (by omega)
  cases hget : alloc.get want with
  | none =>
    rw [hget] at h
    obtain ⟨rfl, rfl⟩ := Prod.mk.inj (Option.some.inj h)
    exact ⟨⟨hcount, spare, hcells⟩, fun hok => by cases hok⟩
  | some bigger =>
    rw [hget] at h
    obtain ⟨rfl, rfl⟩ := Prod.mk.inj (Option.some.inj h)
    have hlen := alloc.length want bigger hget
    have htake : ctx.hashes.take ctx.count = hashes := by
      rw [hcells, hcount, List.take_left]
    have hroom' : ctx.hashes.length = hashes.length := by rw [hcells, hfull, List.append_nil]
    refine ⟨⟨hcount, bigger.drop ctx.count, by rw [htake]⟩, fun _ => ?_⟩
    simp only [htake, List.length_append, List.length_drop]
    omega

theorem Mixed.collects {hashes : List KfHash} {ctx : DcKfMixer} (h : Mixed hashes ctx) : Collects hashes ctx := by
  induction h with
  | init => exact ⟨rfl, [], rfl⟩
  | @add hashes ctx ctx' alloc hash _ hrun ih =>
    unfold cpKfMixerAddHash at hrun
    obtain ⟨⟨resl, ctx₁⟩, hgrow, hput⟩ := Option.bind_eq_some_iff.1 hrun
    obtain ⟨⟨hcount, spare, hcells⟩, hroom⟩ := collects_kfGrow ih hgrow
    by_cases hok : resl = .ok
    · have hlt := hroom hok
      simp only [if_pos hok] at hput
      obtain _ | ⟨x, spare⟩ := spare
      · rw [hcells, List.append_nil] at hlt
        omega
      · rw [hcells, hcount, putHash_append, Option.map_some] at hput
        obtain ⟨-, rfl⟩ := Prod.mk.inj (Option.some.inj hput)
        exact ⟨by simp, spare, by simp⟩
    · simp only [if_neg hok] at hput
      exact absurd (Prod.mk.inj (Option.some.inj hput)).1 hok
  | @refuse hashes ctx ctx' alloc hash resl _ hrun hresl ih =>
    unfold cpKfMixerAddHash at hrun
    obtain ⟨⟨resl', ctx₁⟩, hgrow, hput⟩ := Option.bind_eq_some_iff.1 hrun
    obtain ⟨hcollects, -⟩ := collects_kfGrow ih hgrow
    by_cases hok : resl' = .ok
    · simp only [if_pos hok] at hput
      obtain ⟨cells, -, hres⟩ := Option.map_eq_some_iff.1 hput
      exact absurd (Prod.mk.inj hres).1.symm hresl
    · simp only [if_neg hok] at hput
      obtain ⟨-, rfl⟩ := Prod.mk.inj (Option.some.inj hput)
      exact hcollects

/-! ## The password -/

/-- `size` and `pass` of `dc_pass`: 128 characters of two bytes, and how many bytes are in use. -/
@[ext]
structure PassBuffer where
  size : Nat
  pass : Bytes
  length : pass.length = 256
  fits : size ≤ 256

def kfDomainSet : Bytes := "DC2-KFSET-v1".toList.map fun c => UInt8.ofNat c.toNat

def kfDomainPass : Bytes := "DC2-PW-KF-v1".toList.map fun c => UInt8.ofNat c.toNat

/-- A hash over the start of the password. -/
def PassBuffer.putDigest (pass : PassBuffer) (digest : KfHash) : PassBuffer where
  size := dcKfHashSize
  pass := digest.bytes ++ pass.pass.drop dcKfHashSize
  length := by
    rw [List.length_append, List.length_drop, digest.length, pass.length]
    rfl
  fits := by decide

/-- What is hashed where there is a password. -/
def passText (pass : PassBuffer) (keyfilesHash : KfHash) : Bytes :=
  kfDomainPass ++ pass.pass.take pass.size ++ keyfilesHash.bytes

section Finish

variable (sha512 : Bytes → KfHash)

def cpKfMixerCombine (pass : PassBuffer) (keyfilesHash : KfHash) : PassBuffer :=
  if pass.size = 0 then pass.putDigest keyfilesHash else pass.putDigest (sha512 (passText pass keyfilesHash))

def cpKfMixerFinish (ctx : DcKfMixer) (pass : PassBuffer) : Option (KfStatus × PassBuffer) :=
  if ctx.count = 0 then some (.emptyKeyfiles, pass)
  else
    (kfSort ctx.hashes ctx.count).bind fun hashes => (kfDedup hashes ctx.count).map fun (hashes, count) =>
      (.ok, cpKfMixerCombine sha512 pass (sha512 (kfDomainSet ++ (hashes.take count).flatMap KfHash.bytes)))

/-- What is hashed for a set of keyfiles. -/
def setText (s : Finset KfHash) : Bytes := kfDomainSet ++ (s.sort (· ≤ ·)).flatMap KfHash.bytes

theorem eq_sort {q : List KfHash} {s : Finset KfHash} (hq : q.Pairwise (· < ·)) (hmem : ∀ h, h ∈ q ↔ h ∈ s) :
    q = s.sort (· ≤ ·) := by
  have hle : q.Pairwise (· ≤ ·) := hq.imp le_of_lt
  have hnodup : q.Nodup := hq.imp ne_of_lt
  refine List.Perm.eq_of_pairwise (fun a b _ _ => le_antisymm) hle (Finset.pairwise_sort s _) ?_
  refine (List.perm_ext_iff_of_nodup hnodup (Finset.sort_nodup s _)).2 fun h => ?_
  rw [hmem h, Finset.mem_sort]

/-- The password is a function of the set. -/
theorem Mixed.finish {hashes : List KfHash} {ctx : DcKfMixer} (h : Mixed hashes ctx) (pass : PassBuffer) :
    cpKfMixerFinish sha512 ctx pass = some (if hashes = [] then (.emptyKeyfiles, pass)
      else (.ok, cpKfMixerCombine sha512 pass (sha512 (setText hashes.toFinset)))) := by
  obtain ⟨hcount, spare, hcells⟩ := h.collects
  unfold cpKfMixerFinish
  by_cases hnil : hashes = []
  · rw [if_pos (by rw [hcount, hnil, List.length_nil]), if_pos hnil]
  · obtain ⟨q, hsort, hperm, hsorted⟩ := kfSort_spec hashes spare
    obtain ⟨q', rest, hdedup, hstrict, hmem⟩ := kfDedup_spec spare hsorted
    have hset : q' = hashes.toFinset.sort (· ≤ ·) :=
      eq_sort hstrict fun h => by rw [hmem h, hperm.mem_iff, List.mem_toFinset]
    rw [hperm.length_eq] at hdedup
    rw [if_neg (by rw [hcount]; exact fun h0 => hnil (List.length_eq_zero_iff.1 h0)), if_neg hnil, hcells, hcount, hsort,
      Option.bind_some, hdedup, Option.map_some]
    simp only [List.take_left', setText, hset]

/-- All that is hashed for a set of keyfiles and a password. -/
def hashedTexts (pass : PassBuffer) (s : Finset KfHash) : Set Bytes :=
  {text | text = setText s ∨ pass.size ≠ 0 ∧ text = passText pass (sha512 (setText s))}

theorem flatMap_bytes_inj : ∀ {q q' : List KfHash}, q.flatMap KfHash.bytes = q'.flatMap KfHash.bytes → q = q'
  | [], [], _ => rfl
  | [], h :: q, heq => by
    have hlen := congrArg List.length heq
    rw [List.flatMap_cons, List.length_append, h.length, List.flatMap_nil, List.length_nil, dcKfHashSize] at hlen
    omega
  | h :: q, [], heq => by
    have hlen := congrArg List.length heq
    rw [List.flatMap_cons, List.length_append, h.length, List.flatMap_nil, List.length_nil, dcKfHashSize] at hlen
    omega
  | h :: q, h' :: q', heq => by
    rw [List.flatMap_cons, List.flatMap_cons] at heq
    obtain ⟨hbytes, hrest⟩ := List.append_inj heq (h.length.trans h'.length.symm)
    rw [KfHash.ext hbytes, flatMap_bytes_inj hrest]

theorem setText_inj {s s' : Finset KfHash} (h : setText s = setText s') : s = s' := by
  have hsort := flatMap_bytes_inj (List.append_cancel_left h)
  ext a
  rw [← Finset.mem_sort (· ≤ ·), hsort, Finset.mem_sort]

theorem putDigest_inj {pass : PassBuffer} {d d' : KfHash} (h : pass.putDigest d = pass.putDigest d') : d = d' :=
  KfHash.ext (List.append_cancel_right (congrArg PassBuffer.pass h))

theorem combine_inj {pass : PassBuffer} {s s' : Finset KfHash}
    (hinj : Set.InjOn sha512 (hashedTexts sha512 pass s ∪ hashedTexts sha512 pass s'))
    (h : cpKfMixerCombine sha512 pass (sha512 (setText s)) = cpKfMixerCombine sha512 pass (sha512 (setText s'))) : s = s' := by
  have hset : sha512 (setText s) = sha512 (setText s') → s = s' := fun heq =>
    setText_inj (hinj (.inl (.inl rfl)) (.inr (.inl rfl)) heq)
  unfold cpKfMixerCombine at h
  by_cases h0 : pass.size = 0
  · rw [if_pos h0, if_pos h0] at h
    exact hset (putDigest_inj h)
  · rw [if_neg h0, if_neg h0] at h
    have htext := hinj (.inl (.inr ⟨h0, rfl⟩)) (.inr (.inr ⟨h0, rfl⟩)) (putDigest_inj h)
    exact hset (KfHash.ext (List.append_cancel_left htext))

end Finish

/-! ## Addition -/

/-- The loop of `cp_kf_mix_additive` over words of four bytes. -/
def addWords : (words : Nat) → (acc add : Bytes) → Bytes
  | 0, acc, _ => acc
  | words + 1, acc, add =>
    toLE 4 (ofLE (acc.take 4) + ofLE (add.take 4)) ++ addWords words (acc.drop 4) (add.drop 4)

theorem length_addWords : ∀ {words : Nat} {acc : Bytes} (add : Bytes), 4 * words ≤ acc.length →
    (addWords words acc add).length = acc.length
  | 0, _, _, _ => rfl
  | words + 1, acc, add, h => by
    rw [addWords, List.length_append, length_toLE, length_addWords _ (by rw [List.length_drop]; omega), List.length_drop]
    omega

theorem drop_addWords : ∀ {words : Nat} {acc : Bytes} (add : Bytes), 4 * words ≤ acc.length →
    (addWords words acc add).drop (4 * words) = acc.drop (4 * words)
  | 0, _, _, _ => rfl
  | words + 1, acc, add, h => by
    have hnext : 4 * (words + 1) = (toLE 4 (ofLE (acc.take 4) + ofLE (add.take 4))).length + 4 * words := by
      rw [length_toLE]
      omega
    rw [addWords, hnext, List.drop_length_add_append, drop_addWords _ (by rw [List.length_drop]; omega), List.drop_drop,
      length_toLE]

theorem addWords_comm : ∀ {words : Nat} {acc : Bytes} (a b : Bytes), 4 * words ≤ acc.length →
    addWords words (addWords words acc a) b = addWords words (addWords words acc b) a
  | 0, _, _, _, _ => rfl
  | words + 1, acc, a, b, h => by
    have hword : ∀ n rest, (toLE 4 n ++ rest).take 4 = toLE 4 n ∧ (toLE 4 n ++ rest).drop 4 = rest := fun n rest =>
      ⟨List.take_left' (length_toLE 4 n), List.drop_left' (length_toLE 4 n)⟩
    have hsum : ∀ x y z, toLE 4 (ofLE (toLE 4 (x + y)) + z) = toLE 4 (x + y + z) := by
      intro x y z
      rw [ofLE_toLE, ← toLE_mod 4 (x + y + z), ← toLE_mod 4 ((x + y) % 256 ^ 4 + z), Nat.mod_add_mod]
    simp only [addWords, (hword _ _).1, (hword _ _).2, hsum]
    rw [Nat.add_right_comm, addWords_comm _ _ (by rw [List.length_drop]; omega)]

/-- The bytes behind the password are zero first. -/
def PassBuffer.cleared (pass : PassBuffer) : Bytes := pass.pass.take pass.size ++ List.replicate (256 - pass.size) 0

theorem PassBuffer.length_cleared (pass : PassBuffer) : pass.cleared.length = 256 := by
  have := pass.length
  have := pass.fits
  rw [PassBuffer.cleared, List.length_append, List.length_take, List.length_replicate]
  omega

def cpKfMixAdditive (pass : PassBuffer) (hash : KfHash) : PassBuffer where
  size := if pass.size < dcKfHashSize then dcKfHashSize else pass.size
  pass := addWords (dcKfHashSize / 4) pass.cleared hash.bytes
  length := by rw [length_addWords _ (by rw [pass.length_cleared]; decide), pass.length_cleared]
  fits := by
    have := pass.fits
    split
    · decide
    · exact pass.fits

theorem size_cpKfMixAdditive (pass : PassBuffer) (hash : KfHash) :
    (cpKfMixAdditive pass hash).size = max pass.size dcKfHashSize := by
  unfold cpKfMixAdditive
  simp only
  split <;> omega

theorem pass_cpKfMixAdditive (pass : PassBuffer) (hash : KfHash) :
    (cpKfMixAdditive pass hash).pass = addWords (dcKfHashSize / 4) pass.cleared hash.bytes := rfl

/-- A sum is cleared as it is. -/
theorem cleared_cpKfMixAdditive (pass : PassBuffer) (hash : KfHash) :
    (cpKfMixAdditive pass hash).cleared = (cpKfMixAdditive pass hash).pass := by
  have hlen := (cpKfMixAdditive pass hash).length
  have hsize := size_cpKfMixAdditive pass hash
  have hwords : 4 * (dcKfHashSize / 4) = dcKfHashSize := rfl
  have htail : (cpKfMixAdditive pass hash).pass.drop (cpKfMixAdditive pass hash).size =
      List.replicate (256 - (cpKfMixAdditive pass hash).size) 0 := by
    obtain ⟨k, hk⟩ := Nat.exists_eq_add_of_le (show dcKfHashSize ≤ (cpKfMixAdditive pass hash).size by omega)
    have hdrop : (addWords (dcKfHashSize / 4) pass.cleared hash.bytes).drop dcKfHashSize = pass.cleared.drop dcKfHashSize := by
      have := drop_addWords hash.bytes (show 4 * (dcKfHashSize / 4) ≤ pass.cleared.length by rw [pass.length_cleared]; decide)
      rwa [hwords] at this
    have hfits := pass.fits
    rw [hk, ← List.drop_drop, pass_cpKfMixAdditive, hdrop, List.drop_drop, ← hk, PassBuffer.cleared, List.drop_append,
      List.drop_of_length_le (by rw [List.length_take]; omega), List.nil_append, List.drop_replicate, List.length_take,
      pass.length]
    exact congrArg (List.replicate · (0 : UInt8)) (by omega)
  rw [PassBuffer.cleared, ← htail, List.take_append_drop]

theorem cpKfMixAdditive_comm (pass : PassBuffer) (a b : KfHash) :
    cpKfMixAdditive (cpKfMixAdditive pass a) b = cpKfMixAdditive (cpKfMixAdditive pass b) a := by
  apply PassBuffer.ext
  · rw [size_cpKfMixAdditive, size_cpKfMixAdditive, size_cpKfMixAdditive, size_cpKfMixAdditive]
  · rw [pass_cpKfMixAdditive, pass_cpKfMixAdditive, cleared_cpKfMixAdditive, cleared_cpKfMixAdditive,
      pass_cpKfMixAdditive, pass_cpKfMixAdditive]
    exact addWords_comm _ _ (by rw [pass.length_cleared]; decide)

/-! ## Keyfiles as a set -/

/-- What the mixers promise: the second scheme is a function of the set and tells sets apart, its two steps
sort and make unique, and the first scheme does not see the order. -/
theorem keyfiles_set (sha512 : Bytes → KfHash) (pass : PassBuffer) :
    (∀ {a b : List KfHash} {ctxa ctxb : DcKfMixer}, Mixed a ctxa → Mixed b ctxb →
      ∃ ra rb, cpKfMixerFinish sha512 ctxa pass = some ra ∧ cpKfMixerFinish sha512 ctxb pass = some rb ∧
        ((∀ h, h ∈ a ↔ h ∈ b) → ra = rb) ∧
        (Set.InjOn sha512 (hashedTexts sha512 pass a.toFinset ∪ hashedTexts sha512 pass b.toFinset) →
          ra = rb → ∀ h, h ∈ a ↔ h ∈ b)) ∧
    (∀ cells spare : List KfHash, ∃ q, kfSort (cells ++ spare) cells.length = some (q ++ spare) ∧ q.Perm cells ∧
      q.Pairwise (· ≤ ·)) ∧
    (∀ cells spare : List KfHash, cells.Pairwise (· ≤ ·) → ∃ q rest,
      kfDedup (cells ++ spare) cells.length = some (q ++ rest, q.length) ∧ q.Nodup ∧ ∀ h, h ∈ q ↔ h ∈ cells) ∧
    ∀ a b : List KfHash, a.Perm b → a.foldl cpKfMixAdditive pass = b.foldl cpKfMixAdditive pass := by
  refine ⟨fun {a b ctxa ctxb} ha hb => ⟨_, _, ha.finish sha512 pass, hb.finish sha512 pass, fun hab => ?_, fun hinj h => ?_⟩,
    kfSort_spec, fun cells spare h => ?_, fun a b hab => ?_⟩
  · have hset : a.toFinset = b.toFinset := by
      ext h
      rw [List.mem_toFinset, List.mem_toFinset, hab h]
    have hnil : a = [] ↔ b = [] := by
      rw [← List.toFinset_eq_empty_iff, hset, List.toFinset_eq_empty_iff]
    simp only [hset, hnil]
  · by_cases hna : a = []
    · by_cases hnb : b = []
      · rw [hna, hnb]
        exact fun _ => Iff.rfl
      · rw [if_pos hna, if_neg hnb] at h
        cases (Prod.mk.inj h).1
    · by_cases hnb : b = []
      · rw [if_neg hna, if_pos hnb] at h
        cases (Prod.mk.inj h).1
      · rw [if_neg hna, if_neg hnb] at h
        have hset := combine_inj sha512 hinj (Prod.mk.inj h).2
        intro k
        rw [← List.mem_toFinset, hset, List.mem_toFinset]
  · obtain ⟨q, rest, hrun, hq, hmem⟩ := kfDedup_spec spare h
    exact ⟨q, rest, hrun, hq.imp ne_of_lt, hmem⟩
  · exact @List.Perm.foldl_eq _ _ cpKfMixAdditive a b ⟨cpKfMixAdditive_comm⟩ hab pass

/-- A hash of one byte all over. -/
def plainHash (b : UInt8) : KfHash := ⟨List.replicate 64 b, rfl⟩

/-- The digest of the set of the hash of zeros. -/
def digestZeros : KfHash where
  bytes := [173, 161, 212, 190, 185, 133, 116, 240, 8, 244, 246, 140, 114, 143, 254, 171, 64, 77, 112, 89, 130, 208, 170, 110, 151,
    109, 118, 84, 102, 102, 243, 222, 230, 243, 161, 162, 98, 173, 197, 232, 159, 19, 226, 197, 146, 5, 230, 253, 186, 34,
    149, 170, 84, 26, 69, 124, 109, 158, 114, 162, 78, 166, 87, 62]
  length := rfl

/-- The digest of the set of the hash of ones. -/
def digestOnes : KfHash where
  bytes := [93, 224, 157, 255, 0, 225, 185, 200, 97, 207, 82, 133, 58, 164, 255, 228, 154, 117, 247, 236, 130, 207, 49, 8, 188, 5,
    68, 57, 1, 21, 240, 163, 42, 61, 91, 28, 189, 49, 115, 44, 250, 108, 182, 229, 1, 145, 48, 185, 244, 195, 198, 14, 62,
    65, 149, 228, 206, 7, 52, 233, 10, 124, 206, 135]
  length := rfl

def grantedAlloc : KfAlloc := ⟨fun n => some (List.replicate n (plainHash 0)), fun n cells h => by
  rw [← Option.some.inj h, List.length_replicate]⟩

def emptyPass : PassBuffer := ⟨0, List.replicate 256 0, List.length_replicate, Nat.zero_le _⟩

/-- SHA-512 of the two sets. -/
def digestOf (text : Bytes) : KfHash := if text = setText {plainHash 0} then digestZeros else digestOnes

theorem keyfiles_set_twice : ∃ ctxa ctxb ra rb, Mixed [plainHash 0, plainHash 0] ctxa ∧ Mixed [plainHash 1] ctxb ∧
    cpKfMixerFinish digestOf ctxa emptyPass = some ra ∧ cpKfMixerFinish digestOf ctxb emptyPass = some rb ∧ ra ≠ rb := by
  have hone : Mixed [plainHash 0] ⟨List.replicate 16 (plainHash 0), 1⟩ :=
    @Mixed.add [] _ _ grantedAlloc (plainHash 0) .init rfl
  have ha : Mixed [plainHash 0, plainHash 0] ⟨List.replicate 16 (plainHash 0), 2⟩ :=
    @Mixed.add [plainHash 0] _ _ grantedAlloc (plainHash 0) hone rfl
  have hb : Mixed [plainHash 1] ⟨plainHash 1 :: List.replicate 15 (plainHash 0), 1⟩ :=
    @Mixed.add [] _ _ grantedAlloc (plainHash 1) .init rfl
  have hset : [plainHash 0, plainHash 0].toFinset = {plainHash 0} := by
    rw [List.toFinset_cons, List.toFinset_cons, List.toFinset_nil, Finset.insert_idem]
    rfl
  have hne : plainHash 0 ≠ plainHash 1 := by
    intro h
    exact absurd (congrArg KfHash.bytes h) (by decide)
  have hinj : Set.InjOn digestOf (hashedTexts digestOf emptyPass {plainHash 0} ∪ hashedTexts digestOf emptyPass {plainHash 1}) := by
    have hdigests : digestZeros ≠ digestOnes := by
      intro h
      exact absurd (congrArg KfHash.bytes h) (by decide)
    have htext : ∀ text ∈ hashedTexts digestOf emptyPass {plainHash 0} ∪ hashedTexts digestOf emptyPass {plainHash 1},
        text = setText {plainHash 0} ∨ text = setText {plainHash 1} := by
      rintro text ((h | ⟨h, -⟩) | (h | ⟨h, -⟩))
      · exact .inl h
      · exact absurd rfl h
      · exact .inr h
      · exact absurd rfl h
    have hdiff : setText {plainHash 1} ≠ setText {plainHash 0} := fun h => hne (Finset.singleton_inj.1 (setText_inj h)).symm
    intro x hx y hy hxy
    unfold digestOf at hxy
    obtain rfl | rfl := htext x hx <;> obtain rfl | rfl := htext y hy
    · rfl
    · rw [if_pos rfl, if_neg hdiff] at hxy
      exact absurd hxy hdigests
    · rw [if_pos rfl, if_neg hdiff] at hxy
      exact absurd hxy.symm hdigests
    · rfl
  obtain ⟨ra, rb, hra, hrb, -, hsame⟩ := (keyfiles_set digestOf emptyPass).1 ha hb
  refine ⟨_, _, ra, rb, ha, hb, hra, hrb, fun heq => ?_⟩
  rw [hset, show [plainHash 1].toFinset = {plainHash 1} from rfl] at hsame
  have hmem := (hsame hinj heq (plainHash 0)).1 List.mem_cons_self
  exact hne (List.mem_singleton.1 hmem)

end MajorPrivacy.Volume

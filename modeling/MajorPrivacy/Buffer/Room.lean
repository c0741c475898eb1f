/-
Room at the end of a buffer. A write there is refused, has the memory it needs, or is let through without it: the
result of a reallocation is not looked at.
-/
import MajorPrivacy.Buffer.Calls

namespace MajorPrivacy.Buffer

open Memory

/-- What is asked of the allocator by an insertion that outgrows the capacity. -/
def CBuffer.asks (x : CBuffer) (uLength : Nat) : Nat := x.uSize + uLength + preAlloc uLength x.uSize

/-- An insertion of `uLength` bytes that is refused: a read only buffer, or a fixed one without the room. -/
def CBuffer.Refuses (h : Heap) (x : CBuffer) (uLength : Nat) : Prop :=
  x.bReadOnly = true ∨
    x.bFixed = true ∧ (x.getCapacity h < sizeT (x.uSize + uLength) ∨ x.shared h = true)

/-- The memory for an insertion that outgrows the capacity: the allocator grants it, or what the buffer has is more than
its capacity says and is not moved. -/
def CBuffer.HasRoom (h : Heap) (x : CBuffer) (uLength : Nat) : Prop :=
  h.grants h.next = true ∧ (if x.bDetachable then 0 else sBufferSize) + x.asks uLength < 2 ^ 64 ∨
    x.uSize + uLength ≤ (x.data h).length ∧ (h.grants h.next = true → sizeT (x.asks uLength) ≤ x.getCapacity h)

/-- An insertion inside of the buffer, with the memory for it. -/
def CBuffer.Takes (h : Heap) (x : CBuffer) (uOffset uLength : Nat) : Prop :=
  uOffset ≤ x.uSize ∧ x.uSize + uLength < 2 ^ 64 ∧ (x.getCapacity h < x.uSize + uLength → x.HasRoom h uLength)

/-- An object whose memory is its own, in a memory that has no block yet to be given out. -/
structure Owned (h : Heap) (x : CBuffer) : Prop where
  obj : Obj h x
  header : x.isContainerized = true → sBufferSize + (x.data h).length < 2 ^ 64
  fresh : ∀ i, h.next ≤ i → h.blocks i = none

theorem Owned.apart {h : Heap} {x : CBuffer} (ho : Owned h x) : Apart h x .empty := by
  refine ⟨ho.obj, ⟨fun i hi => ?_, Nat.zero_le _, ?_, fun _ => rfl, fun hd => ?_, Nat.two_pow_pos 32⟩, fun i _ hi => ?_, ho.fresh⟩
  · cases hi
  · rw [data_null rfl]
    exact Nat.two_pow_pos 64
  · cases hd
  · cases hi

/-! ## Room for an insertion -/

/-- The object with another size. -/
def CBuffer.sized (x : CBuffer) (uSize uPreAllocated : Nat) : CBuffer :=
  { x with uSize, uPosition := min x.uPosition uSize, uPreAllocated }

/-- A step that keeps the bytes of the object, in place or in a new block. What it says about the preallocated rest may
be wrong. -/
structure Kept (h : Heap) (x : CBuffer) (h' : Heap) (x' : CBuffer) : Prop where
  apart : Apart h' { x' with uPreAllocated := 0 } .empty
  bytes : ∀ k < x.uSize, (x'.data h')[k]? = (x.data h)[k]?
  pointer : x.p.isSome = true → x'.p.isSome = true

theorem Owned.kept {h : Heap} {x : CBuffer} (ho : Owned h x) : Kept h x h x := by
  refine ⟨?_, fun _ _ => rfl, id⟩
  refine ho.apart.resize ?_ (.inl (Nat.zero_le _)) (Nat.two_pow_pos 32)
  have := ho.obj.lenLe
  split <;> omega

/-- The memory after a request that was not granted. -/
theorem Kept.refused {h h' : Heap} {x x' : CBuffer} (hk : Kept h x h' x') :
    Kept h x { h' with next := h'.next + 1 } x' := by
  refine ⟨⟨⟨fun i hi => ?_, hk.apart.left.room, hk.apart.left.lt, hk.apart.left.null, hk.apart.left.derived,
    hk.apart.left.uint32⟩, ⟨fun i hi => (by cases hi), hk.apart.right.room, hk.apart.right.lt, hk.apart.right.null,
      hk.apart.right.derived, hk.apart.right.uint32⟩, fun i _ hi => (by cases hi), fun i hi => hk.apart.fresh i (by
        simp only at hi
        omega)⟩, hk.bytes, hk.pointer⟩
  obtain ⟨hlt, hblk⟩ := hk.apart.left.live i hi
  exact ⟨Nat.lt_succ_of_lt hlt, hblk⟩

theorem Kept.sized {h h' : Heap} {x x' : CBuffer} (hk : Kept h x h' x') {uSize : Nat} (uPosition uPreAllocated : Nat)
    (hle : uSize ≤ (x'.data h').length) : Kept h x h' { x' with uSize, uPosition, uPreAllocated } := by
  refine ⟨?_, hk.bytes, hk.pointer⟩
  refine hk.apart.resize ?_ (.inl (Nat.le_refl _)) (Nat.two_pow_pos 32)
  change uSize + (if x'.isContainerized = true then 0 else 0) ≤ (x'.data h').length
  split <;> omega

section Grow

variable {h : Heap} {x : CBuffer} (ho : Owned h x) (hwrite : x.bReadOnly = false) (hfixed : x.bFixed = false)
include ho hwrite hfixed

/-- A reallocation: a block whose size wraps around, a block that is granted, or the object as it was. -/
theorem reAllocBuffer_cases {cap : Nat} (hcap : x.uSize ≤ cap) (hlt : cap < 2 ^ 64) :
    (reAllocBuffer (h, x) cap = none ∧ x.bDetachable = false ∧ 2 ^ 64 ≤ sBufferSize + cap) ∨
      ∃ h' x' r, reAllocBuffer (h, x) cap = some ((h', x'), r) ∧ Kept h x h' x' ∧ x'.uSize = x.uSize ∧
        (x.bDetachable = false → sBufferSize + cap < 2 ^ 64) ∧
          (x'.data h').length = if h.grants h.next = true then cap else (x.data h).length := by
  by_cases hhdr : x.bDetachable = false ∧ 2 ^ 64 ≤ sBufferSize + cap
  · refine .inl ⟨?_, hhdr⟩
    unfold reAllocBuffer reAllocShared Heap.makeData
    rw [hhdr.1, if_neg Bool.noConfusion, if_neg (by omega)]
  have hhdr' : x.bDetachable = false → sBufferSize + cap < 2 ^ 64 := fun hd => by
    by_contra hge
    exact hhdr ⟨hd, by omega⟩
  by_cases hgrant : h.grants h.next = true
  · obtain ⟨h', hrun, hm⟩ := reAllocBuffer_spec ho.apart hgrant hcap hlt hhdr' hfixed hwrite
    exact .inr ⟨h', _, true, hrun, ⟨hm.apart, hm.cells, fun _ => rfl⟩, rfl, hhdr', by rw [if_pos hgrant, hm.length]⟩
  · have hnone : h.memAlloc cap = (none, { h with next := h.next + 1 }) := if_neg hgrant
    refine .inr ⟨{ h with next := h.next + 1 }, x, false, ?_, ho.kept.refused, rfl, hhdr', by rw [if_neg hgrant]; rfl⟩
    unfold reAllocBuffer
    cases hd : x.bDetachable with
    | true =>
      rw [if_pos rfl]
      unfold reAllocDetachable
      rw [hnone]
    | false =>
      rw [if_neg Bool.noConfusion]
      unfold reAllocShared Heap.makeData
      rw [if_pos (hhdr' hd), hnone]

/-- The memory an insertion that outgrows the capacity writes to. -/
def CBuffer.growth (h : Heap) (x : CBuffer) (uLength : Nat) : Option (St × Bool) :=
  if x.getCapacity h < sizeT (x.asks uLength) then reAllocBuffer (h, x) (sizeT (x.asks uLength)) else some ((h, x), true)

end Grow

/-- Setting the size asks for no memory if not too much is left over, or if much was asked for. -/
theorem putSize_eq {h : Heap} {x : CBuffer} {uSize uPreAlloc uCapacity : Nat}
    (hrest : sizeSub uCapacity uSize ≤ bufferMaxPrealloc ∨ bufferMaxPrealloc ≤ uPreAlloc) :
    ∃ pre, putSize (h, x) uSize uPreAlloc uCapacity = some ((h, x.sized uSize pre), true) := by
  unfold putSize
  simp only
  rw [if_neg (by omega)]
  split
  · exact ⟨_, rfl⟩
  · exact ⟨x.uPreAllocated, rfl⟩

theorem sizeT_of_le {n : Nat} (h : 2 ^ 64 ≤ n) (hlt : n < 2 * 2 ^ 64) : sizeT n = n - 2 ^ 64 := by
  unfold sizeT
  omega

theorem preAlloc_lt (uLength : Nat) {uSize : Nat} (h : uSize < 2 ^ 64) : preAlloc uLength uSize < 2 ^ 64 := by
  have hmod : sizeT (uLength * 2) < 2 ^ 64 := by
    unfold sizeT
    exact Nat.mod_lt _ (Nat.two_pow_pos 64)
  rw [preAlloc]
  generalize sizeT (uLength * 2) = twice at hmod ⊢
  omega

/-- What is asked for is never taken for the -1. -/
theorem preAlloc_ne (uLength : Nat) {uSize uEnd : Nat} (h : uSize < uEnd) (hlt : uEnd < 2 ^ 64) :
    preAlloc uLength uSize ≠ npos := by
  have hmod : sizeT (uLength * 2) ≠ 2 ^ 64 - 1 := by
    unfold sizeT
    omega
  rw [preAlloc, npos]
  generalize sizeT (uLength * 2) = twice at hmod ⊢
  omega

/-- What wraps around was not asked for by a small write. -/
theorem preAlloc_ge {uLength uSize : Nat} (hlt : uSize + uLength < 2 ^ 64)
    (hwrap : 2 ^ 64 ≤ uSize + uLength + preAlloc uLength uSize) : bufferMaxPrealloc ≤ preAlloc uLength uSize := by
  unfold preAlloc sizeT bufferMaxPrealloc at *
  omega

/-- A size that fits asks for nothing. -/
theorem setSize_keeps {h : Heap} {x : CBuffer} {uSize uPreAlloc cap : Nat} (hcap : x.getCapacity h = cap)
    (hpre : uPreAlloc ≠ npos) (hask : ¬ cap < sizeT (uSize + uPreAlloc)) :
    setSize (h, x) uSize true uPreAlloc = putSize (h, x) uSize uPreAlloc cap := by
  unfold setSize
  rw [hcap]
  simp only
  rw [if_neg (not_or.2 ⟨hpre, hask⟩)]

theorem prepareWrite_growth {h : Heap} {x : CBuffer} {uLength : Nat} (hwrite : x.bReadOnly = false)
    (hfixed : x.bFixed = false) (hle : x.uSize ≤ x.getCapacity h) (hlt : x.uSize + uLength < 2 ^ 64)
    (hgrow : x.getCapacity h < x.uSize + uLength) :
    ∃ cap, (sizeSub cap (x.uSize + uLength) ≤ bufferMaxPrealloc ∨ bufferMaxPrealloc ≤ preAlloc uLength x.uSize) ∧
      prepareWrite (h, x) x.uSize uLength =
        (x.growth h uLength).bind fun r => putSize r.1 (x.uSize + uLength) (preAlloc uLength x.uSize) cap := by
  have hend : sizeT (x.uSize + uLength) = x.uSize + uLength := sizeT_eq hlt
  have hpre := preAlloc_ne uLength (Nat.lt_of_le_of_lt hle hgrow) hlt
  have hrun : prepareWrite (h, x) x.uSize uLength =
      setSize (h, x) (x.uSize + uLength) true (preAlloc uLength x.uSize) := by
    unfold prepareWrite
    simp only [hwrite, hfixed, hend, hgrow, Bool.false_eq_true, if_false, if_true, true_or]
  by_cases hask : x.getCapacity h < sizeT (x.asks uLength)
  · refine ⟨sizeT (x.asks uLength), ?_, ?_⟩
    · unfold CBuffer.asks
      by_cases hwrap : 2 ^ 64 ≤ x.uSize + uLength + preAlloc uLength x.uSize
      · exact .inr (preAlloc_ge hlt hwrap)
      · rw [sizeT_eq (by omega), sizeSub_eq (by omega) (by omega), Nat.add_sub_cancel_left]
        exact Nat.le_total _ _
    · rw [hrun]
      unfold setSize CBuffer.growth
      unfold CBuffer.asks at hask ⊢
      simp only [hask, hwrite, hpre, or_true, if_true, Bool.not_true, Bool.or_self, Bool.false_eq_true, if_false]
  · refine ⟨x.getCapacity h, .inr ?_, ?_⟩
    · apply preAlloc_ge hlt
      by_contra hnot
      unfold CBuffer.asks at hask
      rw [sizeT_eq (by omega)] at hask
      omega
    · have hkeep : setSize (h, x) (x.uSize + uLength) true (preAlloc uLength x.uSize) = _ := setSize_keeps rfl hpre hask
      unfold CBuffer.growth
      rw [hrun, hkeep, if_neg hask, Option.bind_some]

section Ready

variable {h : Heap} {x : CBuffer} {uLength : Nat} (ho : Owned h x)
include ho

/-- The memory for an insertion that outgrows the capacity, and what it is worth. -/
theorem growth_cases (hlt : x.uSize + uLength < 2 ^ 64) (hgrow : x.getCapacity h < x.uSize + uLength)
    (hwrite : x.bReadOnly = false) (hfixed : x.bFixed = false) :
    (x.growth h uLength = none ∧ ¬ x.HasRoom h uLength) ∨
      ∃ h' x' r, x.growth h uLength = some ((h', x'), r) ∧ Kept h x h' x' ∧ x'.uSize = x.uSize ∧
        (x.uSize + uLength ≤ (x'.data h').length ↔ x.HasRoom h uLength) := by
  have hle := ho.obj.size_le_capacity
  have hdata := ho.obj.capacity_le
  have hpre := preAlloc_lt uLength (show x.uSize < 2 ^ 64 by omega)
  -- memory without a count of its own has no more than its capacity
  have hraw : x.bDetachable = false → (x.data h).length < x.uSize + uLength := fun hd => by
    have hcap := ho.obj.capacity
    cases hp : x.p with
    | none =>
      rw [data_null hp]
      simp only [List.length_nil]
      omega
    | some i =>
      have hder : x.bDerived = false := by
        by_contra hne
        have := (ho.obj.derived (Bool.not_eq_false _ ▸ hne)).1
        rw [hfixed] at this
        cases this
      have hcont : x.isContainerized = true := by
        unfold CBuffer.isContainerized
        rw [hder, hd, hp]
        rfl
      rw [if_pos hcont] at hcap
      omega
  unfold CBuffer.growth
  by_cases hask : x.getCapacity h < sizeT (x.asks uLength)
  · rw [if_pos hask]
    have hasks : sizeT (x.asks uLength) < 2 ^ 64 := by
      unfold sizeT
      exact Nat.mod_lt _ (Nat.two_pow_pos 64)
    obtain ⟨hnone, hdet, hhdr⟩ | ⟨h', x', r, hrun, hk, hsize, hhdr, hlen⟩ :=
      reAllocBuffer_cases ho hwrite hfixed (show x.uSize ≤ sizeT (x.asks uLength) by omega) hasks
    · refine .inl ⟨hnone, ?_⟩
      have := hraw hdet
      intro hroom
      obtain ⟨-, hroom⟩ | ⟨hroom, -⟩ := hroom
      · rw [hdet, if_neg Bool.noConfusion] at hroom
        rw [sizeT_eq (by omega)] at hhdr
        omega
      · omega
    · refine .inr ⟨h', x', r, hrun, hk, hsize, ?_⟩
      rw [hlen]
      unfold CBuffer.HasRoom
      by_cases hgrant : h.grants h.next = true
      · rw [if_pos hgrant]
        constructor
        · intro hfit
          refine .inl ⟨hgrant, ?_⟩
          -- a block that wraps around ends before what it is for
          by_cases hwrap : 2 ^ 64 ≤ x.asks uLength
          · rw [sizeT_of_le hwrap (by unfold CBuffer.asks; omega)] at hfit
            unfold CBuffer.asks at hfit
            omega
          · rw [sizeT_eq (by omega)] at hhdr
            cases hd : x.bDetachable with
            | true =>
              rw [if_pos rfl]
              omega
            | false =>
              rw [if_neg Bool.noConfusion]
              exact hhdr hd
        · intro hroom
          obtain ⟨-, hroom⟩ | ⟨-, hroom⟩ := hroom
          · rw [sizeT_eq (Nat.lt_of_le_of_lt (Nat.le_add_left _ _) hroom)]
            unfold CBuffer.asks
            omega
          · exact absurd (hroom hgrant) (by omega)
      · rw [if_neg hgrant]
        constructor
        · intro hfit
          exact .inr ⟨hfit, fun hg => absurd hg hgrant⟩
        · intro hroom
          obtain ⟨hg, -⟩ | ⟨hfit, -⟩ := hroom
          · exact absurd hg hgrant
          · exact hfit
  · rw [if_neg hask]
    refine .inr ⟨h, x, true, rfl, ho.kept, rfl, ?_⟩
    constructor
    · intro hfit
      exact .inr ⟨hfit, fun _ => by omega⟩
    · intro hroom
      obtain ⟨-, hroom⟩ | ⟨hfit, -⟩ := hroom
      · rw [sizeT_eq (Nat.lt_of_le_of_lt (Nat.le_add_left _ _) hroom)] at hask
        unfold CBuffer.asks at hask
        omega
      · exact hfit

/-- A shared block keeps the object, or the object moves to a smaller one if too much is left over. -/
theorem setSize_shared {uEnd : Nat} (hwrite : x.bReadOnly = false) (hfixed : x.bFixed = false) (hsh : x.shared h = true)
    (hle : uEnd ≤ x.getCapacity h) : ∃ h' x', setSize (h, x) uEnd true 0 = some ((h', x'), true) ∧
      Kept h { x with uSize := uEnd, uPosition := min x.uPosition uEnd } h' x' ∧ x'.uSize = uEnd := by
  have hdata := ho.obj.capacity_le
  have hlt := ho.obj.lt
  have hcont : x.isContainerized = true := by
    unfold CBuffer.shared at hsh
    exact (Bool.and_eq_true_iff.1 hsh).1
  have hhdr := ho.header hcont
  have hown : Owned h { x with uSize := uEnd, uPosition := min x.uPosition uEnd } := by
    refine ⟨(ho.apart.resize ?_ (.inl (Nat.le_refl _)) ho.obj.uint32).left, ho.header, ho.fresh⟩
    rw [if_pos hcont]
    omega
  have hset : setSize (h, x) uEnd true 0 = putSize (h, x) uEnd 0 (x.getCapacity h) := by
    refine setSize_keeps rfl (fun h0 => ?_) ?_
    · unfold npos at h0
      omega
    · rw [Nat.add_zero, sizeT_eq (by omega)]
      exact Nat.not_lt.2 hle
  have hrest : sizeSub (x.getCapacity h) uEnd = x.getCapacity h - uEnd := sizeSub_eq hle (by omega)
  rw [hset]
  by_cases hspare : x.getCapacity h - uEnd ≤ bufferMaxPrealloc
  · obtain ⟨pre, hput⟩ := @putSize_eq h x uEnd 0 (x.getCapacity h) (.inl (by rw [hrest]; exact hspare))
    exact ⟨h, _, hput, hown.kept.sized _ pre (show uEnd ≤ (x.data h).length by omega), rfl⟩
  · have hcut : sizeT (bufferMaxPrealloc + uEnd) = bufferMaxPrealloc + uEnd := sizeT_eq (by omega)
    have hput : putSize (h, x) uEnd 0 (x.getCapacity h) =
        (reAllocBuffer (h, { x with uSize := uEnd, uPosition := min x.uPosition uEnd }) (bufferMaxPrealloc + uEnd)).map
          fun r => (r.1, true) := by
      unfold putSize
      simp only
      rw [if_pos ⟨by omega, by unfold bufferMaxPrealloc; omega⟩, hcut]
    obtain ⟨-, -, hbig⟩ | ⟨h', x', r, hrun, hk, hsize, -, -⟩ := reAllocBuffer_cases hown hwrite hfixed
      (show uEnd ≤ bufferMaxPrealloc + uEnd from Nat.le_add_left _ _) (by omega)
    · omega
    · rw [hput, hrun]
      exact ⟨h', x', rfl, hk, hsize⟩

/-- A write that is not refused and fits the capacity, from the end of the buffer on or wrapped around. -/
theorem prepareWrite_inside (hr : ¬ x.Refuses h uLength) (hle : sizeT (x.uSize + uLength) ≤ x.getCapacity h) :
    ∃ h' x', prepareWrite (h, x) x.uSize uLength = some ((h', x'), true) ∧ x'.uSize < 2 ^ 64 ∧
      (x.p.isSome = true → x'.p.isSome = true) ∧
        (x.uSize + uLength < 2 ^ 64 → Kept h x h' x' ∧ x'.uSize = x.uSize + uLength) := by
  have hdata := ho.obj.capacity_le
  have hsize := ho.obj.size_le_capacity
  have hlt := ho.obj.lt
  have hwrite : x.bReadOnly = false := by
    by_contra hne
    exact hr (.inl (Bool.not_eq_false _ ▸ hne))
  unfold prepareWrite
  simp only
  rw [if_neg (by rw [hwrite]; exact Bool.noConfusion)]
  by_cases hsh : x.shared h = true
  · have hfixed : x.bFixed = false := by
      by_contra hne
      exact hr (.inr ⟨Bool.not_eq_false _ ▸ hne, .inr hsh⟩)
    obtain ⟨h', x', hrun, hk, hsize'⟩ := setSize_shared ho hwrite hfixed hsh hle
    rw [if_pos (.inr hsh), if_neg (by rw [hfixed]; exact Bool.noConfusion), if_neg (Nat.not_lt.2 hle)]
    refine ⟨h', x', hrun, by omega, hk.pointer, fun hend => ?_⟩
    rw [sizeT_eq hend] at hk hsize'
    exact ⟨⟨hk.apart, fun k hk' => hk.bytes k (Nat.lt_add_right uLength hk'), hk.pointer⟩, hsize'⟩
  · rw [if_neg (by rintro (hgrow | hs); omega; exact hsh hs)]
    by_cases hmore : x.uSize < sizeT (x.uSize + uLength)
    · rw [if_pos hmore]
      refine ⟨h, _, rfl, by simp only; omega, id, fun hend => ?_⟩
      rw [sizeT_eq hend] at hle ⊢
      exact ⟨ho.kept.sized _ _ (by omega), rfl⟩
    · rw [if_neg hmore]
      refine ⟨h, x, rfl, by omega, id, fun hend => ?_⟩
      rw [sizeT_eq hend] at hmore
      exact ⟨ho.kept, by omega⟩

/-- A write at the end that is not refused: ready for it, or without the memory. -/
theorem prepareWrite_end (hr : ¬ x.Refuses h uLength) (hlen : uLength < 2 ^ 64) :
    (prepareWrite (h, x) x.uSize uLength = none ∧ x.uSize + uLength < 2 ^ 64 ∧
        x.getCapacity h < x.uSize + uLength ∧ ¬ x.HasRoom h uLength) ∨
      ∃ h' x', prepareWrite (h, x) x.uSize uLength = some ((h', x'), true) ∧ x'.uSize < 2 ^ 64 ∧
        (x.p.isSome = true → x'.p.isSome = true) ∧ (x.uSize + uLength < 2 ^ 64 → x'.uSize = x.uSize + uLength ∧
          ((x.uSize + uLength ≤ (x'.data h').length ↔ (x.getCapacity h < x.uSize + uLength → x.HasRoom h uLength)) ∧
            (x.uSize + uLength ≤ (x'.data h').length → Kept h x h' x'))) := by
  have hdata := ho.obj.capacity_le
  have hsize := ho.obj.size_le_capacity
  have hlt := ho.obj.lt
  have hwrite : x.bReadOnly = false := by
    by_contra hne
    exact hr (.inl (Bool.not_eq_false _ ▸ hne))
  by_cases hle : sizeT (x.uSize + uLength) ≤ x.getCapacity h
  · obtain ⟨h', x', hrun, hlt', hptr, hkept⟩ := prepareWrite_inside ho hr hle
    refine .inr ⟨h', x', hrun, hlt', hptr, fun hend => ?_⟩
    obtain ⟨hk, hsize'⟩ := hkept hend
    have hroom := hk.apart.left.lenLe
    rw [sizeT_eq hend] at hle
    exact ⟨hsize', ⟨fun _ hgrow => absurd hgrow (Nat.not_lt.2 hle), fun _ => hsize' ▸ hroom⟩, fun _ => hk⟩
  · have hend : x.uSize + uLength < 2 ^ 64 := by
      by_contra hwrap
      rw [sizeT_of_le (by omega) (by omega)] at hle
      omega
    have hgrow : x.getCapacity h < x.uSize + uLength := by
      rw [sizeT_eq hend] at hle
      omega
    have hfixed : x.bFixed = false := by
      by_contra hne
      exact hr (.inr ⟨Bool.not_eq_false _ ▸ hne, .inl (Nat.lt_of_not_le hle)⟩)
    obtain ⟨cap, hspare, hrun⟩ := prepareWrite_growth hwrite hfixed hsize hend hgrow
    obtain ⟨hnone, hroom⟩ | ⟨h', x', r, hgrown, hk, hsize', hroom⟩ := growth_cases ho hend hgrow hwrite hfixed
    · refine .inl ⟨?_, hend, hgrow, hroom⟩
      rw [hrun, hnone, Option.bind_none]
    · obtain ⟨pre, hput⟩ := putSize_eq (h := h') (x := x') hspare
      refine .inr ⟨h', x'.sized (x.uSize + uLength) pre, ?_, hend, hk.pointer, fun _ => ⟨rfl, ⟨fun hfit _ => hroom.1 hfit, fun hfit => hroom.2 (hfit hgrow)⟩,
        fun hfit => hk.sized _ pre hfit⟩⟩
      rw [hrun, hgrown, Option.bind_some]
      exact hput

end Ready

end MajorPrivacy.Buffer

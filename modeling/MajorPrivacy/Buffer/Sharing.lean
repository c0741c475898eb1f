/-
Two buffers over one memory: which blocks they may share, and what the steps of a write do to the memory.
Each lemma is about an object and another one beside it, whose view is the same afterwards.
-/
import MajorPrivacy.Buffer.Plain

namespace MajorPrivacy.Buffer

open Memory

theorem sizeT_eq {n : Nat} (h : n < 2 ^ 64) : sizeT n = n := by
  unfold sizeT
  exact Nat.mod_eq_of_lt h

theorem sizeSub_eq {m n : Nat} (h : n ≤ m) (hlt : m < 2 ^ 64) : sizeSub m n = m - n := by
  have hsum : m + 2 ^ 64 - n = m - n + 2 ^ 64 := by omega
  unfold sizeSub
  rw [hsum, Nat.add_mod_right]
  exact Nat.mod_eq_of_lt (by omega)

/-! ## Well-formed objects -/

/-- The object has the memory it counts on. -/
structure Obj (h : Heap) (x : CBuffer) : Prop where
  live : ∀ i, x.p = some i → i < h.next ∧ ∃ blk, h.blocks i = some blk ∧ (x.isContainerized = true → 0 < blk.refs)
  room : x.uSize + (if x.isContainerized then 0 else x.uPreAllocated) ≤ (x.data h).length
  lt : (x.data h).length < 2 ^ 64
  null : x.p = none → x.bDerived = false
  derived : x.bDerived = true → x.bFixed = true ∧ x.uPreAllocated = 0
  uint32 : x.uPreAllocated < 2 ^ 32

/-- Two objects share no memory but a block that counts both. -/
structure Apart (h : Heap) (x y : CBuffer) : Prop where
  left : Obj h x
  right : Obj h y
  counted : ∀ i, x.p = some i → y.p = some i →
    x.isContainerized = true ∧ y.isContainerized = true ∧ ∀ blk, h.blocks i = some blk → 2 ≤ blk.refs
  fresh : ∀ i, h.next ≤ i → h.blocks i = none

theorem Apart.symm {h : Heap} {x y : CBuffer} (ha : Apart h x y) : Apart h y x :=
  ⟨ha.right, ha.left, fun i hy hx =>
    let ⟨h₁, h₂, h₃⟩ := ha.counted i hx hy
    ⟨h₂, h₁, h₃⟩, ha.fresh⟩

section Object

variable {h : Heap} {x : CBuffer}

theorem block_eq {i : Nat} (hp : x.p = some i) : x.block h = h.blocks i := by
  unfold CBuffer.block
  rw [hp]
  rfl

theorem data_eq {i : Nat} {blk : SBuffer} (hp : x.p = some i) (hb : h.blocks i = some blk) : x.data h = blk.data := by
  unfold CBuffer.data
  rw [block_eq hp, hb]
  rfl

theorem data_null (hp : x.p = none) : x.data h = [] := by
  unfold CBuffer.data CBuffer.block
  rw [hp]
  rfl

/-- What is read through an object depends on its memory only. -/
theorem data_congr {h' : Heap} (hb : ∀ i, x.p = some i → (h'.blocks i).map (·.data) = (h.blocks i).map (·.data)) :
    x.data h' = x.data h := by
  cases hp : x.p with
  | none => rw [data_null hp, data_null hp]
  | some i =>
    unfold CBuffer.data
    rw [block_eq hp, block_eq hp, hb i hp]

theorem Obj.lenLe (ho : Obj h x) : x.uSize ≤ (x.data h).length := Nat.le_trans (Nat.le_add_right _ _) ho.room

theorem Obj.capacity (ho : Obj h x) : x.getCapacity h =
    if x.isContainerized then (x.data h).length else x.uSize + x.uPreAllocated := by
  unfold CBuffer.getCapacity
  split
  · rfl
  · rename_i hc
    have := ho.room
    rw [if_neg hc] at this
    exact sizeT_eq (by have := ho.lt; omega)

theorem Obj.capacity_le (ho : Obj h x) : x.getCapacity h ≤ (x.data h).length := by
  rw [ho.capacity]
  have := ho.room
  split
  · exact Nat.le_refl _
  · rename_i hc
    rwa [if_neg hc] at this

theorem Obj.size_le_capacity (ho : Obj h x) : x.uSize ≤ x.getCapacity h := by
  rw [ho.capacity]
  split
  · exact ho.lenLe
  · exact Nat.le_add_right _ _

theorem Obj.length_view (ho : Obj h x) : (x.view h).length = x.uSize :=
  length_slice (by have := ho.lenLe; omega)

theorem getElem?_view (k : Nat) : (x.view h)[k]? = if k < x.uSize then (x.data h)[k]? else none := by
  unfold CBuffer.view
  rw [getElem?_slice, Nat.zero_add]

theorem view_eq {h' : Heap} (hd : slice (x.data h') 0 x.uSize = slice (x.data h) 0 x.uSize) : x.view h' = x.view h := hd

theorem peek_eq (ho : Obj h x) {off len : Nat} (hle : off + len ≤ (x.data h).length) :
    x.peek h off len = some (slice (x.data h) off len) := by
  unfold CBuffer.peek
  by_cases hlen : len = 0
  · rw [if_pos hlen, hlen, slice_zero]
  · rw [if_neg hlen]
    cases hp : x.p with
    | none =>
      rw [data_null hp] at hle
      simp only [List.length_nil] at hle
      omega
    | some i =>
      obtain ⟨-, blk, hb, -⟩ := ho.live i hp
      rw [data_eq hp hb] at hle ⊢
      rw [block_eq hp, hb]
      exact readAt_eq hle

/-- Sizes and positions are no part of what an object shares. -/
theorem Apart.resize {y : CBuffer} (ha : Apart h x y) {uSize uPosition uPreAllocated : Nat}
    (hroom : uSize + (if x.isContainerized then 0 else uPreAllocated) ≤ (x.data h).length)
    (hpre : uPreAllocated ≤ x.uPreAllocated ∨ x.bDerived = false)
    (huint32 : uPreAllocated < 2 ^ 32) :
    Apart h { x with uSize, uPosition, uPreAllocated } y :=
  ⟨⟨ha.left.live, hroom, ha.left.lt, ha.left.null, fun hd =>
      ⟨(ha.left.derived hd).1, by
        have := (ha.left.derived hd).2
        rcases hpre with hpre | hpre
        · simp only
          omega
        · rw [hpre] at hd
          cases hd⟩, huint32⟩, ha.right, ha.counted, ha.fresh⟩

end Object

/-! ## Writing in place -/

/-- What another object sees of a change of the memory: nothing. -/
structure Unseen (h h' : Heap) (y : CBuffer) : Prop where
  view : y.view h' = y.view h
  length : (y.data h').length = (y.data h).length

theorem Unseen.refl (h : Heap) (y : CBuffer) : Unseen h h y := ⟨rfl, rfl⟩

theorem Unseen.trans {h₁ h₂ h₃ : Heap} {y : CBuffer} (h : Unseen h₁ h₂ y) (h' : Unseen h₂ h₃ y) : Unseen h₁ h₃ y :=
  ⟨h'.view.trans h.view, h'.length.trans h.length⟩

theorem Unseen.of_data {h h' : Heap} {y : CBuffer} (hd : y.data h' = y.data h) : Unseen h h' y := by
  refine ⟨?_, by rw [hd]⟩
  unfold CBuffer.view
  rw [hd]

/-- A block gets new data of the same length. -/
theorem Obj.set_data {h : Heap} {x : CBuffer} (ho : Obj h x) {i : Nat} {blk : SBuffer} {data : List UInt8}
    (hb : h.blocks i = some blk) (hlen : data.length = blk.data.length) :
    Obj (h.set i (some { blk with data })) x ∧
      (x.data (h.set i (some { blk with data }))).length = (x.data h).length ∧
      (x.p = some i → x.data (h.set i (some { blk with data })) = data) ∧
      (x.p ≠ some i → x.data (h.set i (some { blk with data })) = x.data h) := by
  have hself : x.p = some i → x.data (h.set i (some { blk with data })) = data := fun hp =>
    @data_eq _ _ _ { blk with data } hp (if_pos rfl)
  have hother : x.p ≠ some i → x.data (h.set i (some { blk with data })) = x.data h := fun hp =>
    data_congr fun j hj => by
      have hne : j ≠ i := fun hji => hp (hji ▸ hj)
      exact congrArg _ (if_neg hne)
  have hlength : (x.data (h.set i (some { blk with data }))).length = (x.data h).length := by
    by_cases hp : x.p = some i
    · rw [hself hp, data_eq hp hb, hlen]
    · rw [hother hp]
  refine ⟨⟨fun j hj => ?_, by rw [hlength]; exact ho.room, by rw [hlength]; exact ho.lt, ho.null, ho.derived, ho.uint32⟩,
    hlength, hself, hother⟩
  obtain ⟨hlt, blk', hb', hrefs⟩ := ho.live j hj
  refine ⟨hlt, ?_⟩
  by_cases hji : j = i
  · cases hji
    rw [hb] at hb'
    cases hb'
    exact ⟨_, if_pos rfl, hrefs⟩
  · exact ⟨blk', (if_neg hji).trans hb', hrefs⟩

/-- What a write in place leaves. -/
structure Poked (h h' : Heap) (x y : CBuffer) (off : Nat) (data : List UInt8) : Prop where
  apart : Apart h' x y
  unseen : Unseen h h' y
  length : (x.data h').length = (x.data h).length
  cells : ∀ k, (x.data h')[k]? = if off ≤ k ∧ k < off + data.length then data[k - off]? else (x.data h)[k]?

/-- A write that the other object does not see: there is none, it goes elsewhere, behind what is shown, or it
changes nothing. -/
def Spares (h : Heap) (x y : CBuffer) (off : Nat) (data : List UInt8) : Prop :=
  data = [] ∨ x.p ≠ y.p ∨ y.uSize ≤ off ∨ data = slice (x.data h) off data.length

theorem poke_spec {h : Heap} {x y : CBuffer} (ha : Apart h x y) {off : Nat} {data : List UInt8}
    (hle : off + data.length ≤ (x.data h).length) (hspares : Spares h x y off data) :
    ∃ h', x.poke h off data = some h' ∧ Poked h h' x y off data := by
  unfold CBuffer.poke
  by_cases hnil : data = []
  · rw [if_pos hnil, hnil]
    exact ⟨h, rfl, ha, .refl h y, rfl, fun k => (if_neg (by simp only [List.length_nil]; omega)).symm⟩
  rw [if_neg hnil]
  cases hp : x.p with
  | none =>
    have hpos := List.length_pos_iff.2 hnil
    rw [data_null hp] at hle
    simp only [List.length_nil] at hle
    omega
  | some i =>
    obtain ⟨-, blk, hb, -⟩ := ha.left.live i hp
    rw [data_eq hp hb] at hle
    obtain ⟨data', hw⟩ := writeAt_eq blk.data off data hle
    have hlen := length_writeAt hw
    obtain ⟨hx, hxlen, hxself, -⟩ := ha.left.set_data hb hlen
    obtain ⟨hy, hylen, hyself, hyother⟩ := ha.right.set_data hb hlen
    refine ⟨h.set i (some { blk with data := data' }), ?_, ⟨hx, hy, fun j hxj hyj => ?_, fun j hj => ?_⟩, ⟨?_, hylen⟩, hxlen,
      fun k => ?_⟩
    · rw [Option.bind_some]
      unfold Heap.write
      rw [hb]
      simp only
      rw [hw]
      rfl
    · obtain ⟨h₁, h₂, h₃⟩ := ha.counted j hxj hyj
      have hji : j = i := Option.some.inj (hxj.symm.trans hp)
      cases hji
      refine ⟨h₁, h₂, fun blk' hb' => ?_⟩
      cases Option.some.inj ((if_pos rfl).symm.trans hb')
      exact h₃ blk hb
    · have hne : j ≠ i := fun hji => by
        have hnone := ha.fresh i (hji ▸ hj)
        rw [hb] at hnone
        cases hnone
      exact (if_neg hne).trans (ha.fresh j hj)
    · -- the other object has another block, or the write is behind all that it shows
      by_cases hyi : y.p = some i
      · refine view_eq ?_
        rw [hyself hyi, data_eq hyi hb]
        rcases hspares with hs | hs | hs | hs
        · exact absurd hs hnil
        · exact absurd (hp.trans hyi.symm) hs
        · exact slice_writeAt hw (.inl (by omega))
        · rw [data_eq hp hb] at hs
          have hsame : data' = blk.data := by
            apply List.ext_getElem?
            intro k
            rw [getElem?_writeAt hw]
            split
            · rw [hs, getElem?_slice, if_pos (by omega)]
              congr 1
              omega
            · rfl
          rw [hsame]
      · exact (Unseen.of_data (hyother hyi)).view
    · rw [hxself hp, data_eq hp hb]
      exact getElem?_writeAt hw k

theorem memMove_spec {h : Heap} {x y : CBuffer} (ha : Apart h x y) {dst src len : Nat}
    (hsrc : src + len ≤ (x.data h).length) (hdst : dst + len ≤ (x.data h).length)
    (hspares : len = 0 ∨ x.p ≠ y.p ∨ y.uSize ≤ dst ∨ dst = src) :
    ∃ h', x.memMove h dst src len = some h' ∧ Poked h h' x y dst (slice (x.data h) src len) := by
  have hlen := length_slice hsrc
  have hs : Spares h x y dst (slice (x.data h) src len) := by
    rcases hspares with hs | hs | hs | hs
    · exact .inl (by rw [hs, slice_zero])
    · exact .inr (.inl hs)
    · exact .inr (.inr (.inl hs))
    · exact .inr (.inr (.inr (by rw [hlen, hs])))
  obtain ⟨h', hpoke, hpoked⟩ := poke_spec ha (by rw [hlen]; exact hdst) hs
  refine ⟨h', ?_, hpoked⟩
  unfold CBuffer.memMove
  rw [peek_eq ha.left hsrc, Option.bind_some, hpoke]

/-! ## Moving to a new block -/

theorem detachData_null {h : Heap} {x : CBuffer} (hp : x.p = none) : detachData (h, x) = some (h, x) := by
  unfold detachData
  simp only [hp]

theorem detachData_some {h : Heap} {x : CBuffer} {i : Nat} {blk : SBuffer} (hp : x.p = some i)
    (hb : h.blocks i = some blk) : detachData (h, x) = some
      (if x.isContainerized then h.set i (if blk.refs = 1 then none else some { blk with refs := blk.refs - 1 })
        else if x.bDetachable then h.set i none else h,
      ⟨false, false, false, false, 0, none, x.uSize, x.uPosition⟩) := by
  unfold detachData
  simp only [hp, hb]

theorem attachData_eq {st st' : St} {i : Nat} {blk : SBuffer} (hd : detachData st = some st')
    (hb : st'.1.blocks i = some blk) :
    attachData st i = some (st'.1.set i (some { blk with refs := blk.refs + 1 }), { st'.2 with p := some i }) := by
  unfold attachData
  rw [hd]
  simp only [hb]

/-- Fresh memory with a copy of the bytes of the object. -/
theorem copyTo_spec {h : Heap} {x : CBuffer} (ho : Obj h x) {cap : Nat} (hgrant : h.grants h.next = true)
    (hcap : x.uSize ≤ cap) : ∃ h₁ h₂ data, h.memAlloc cap = (some h.next, h₁) ∧ copyTo h₁ x h.next = some h₂ ∧
      (h₂.blocks = fun j => if j = h.next then some ⟨0, data⟩ else h.blocks j) ∧ h₂.next = h.next + 1 ∧
        data.length = cap ∧ ∀ k < x.uSize, data[k]? = (x.data h)[k]? := by
  have hjunk : ((List.range cap).map (h.junk h.next)).length = cap := by
    rw [List.length_map, List.length_range]
  have halloc : h.memAlloc cap = (some h.next, h.add ((List.range cap).map (h.junk h.next))) := if_pos hgrant
  cases hp : x.p with
  | none =>
    refine ⟨_, h.add ((List.range cap).map (h.junk h.next)), _, halloc, ?_, rfl, rfl, hjunk, fun k hk => ?_⟩
    · unfold copyTo
      rw [hp]
      rfl
    · have := ho.lenLe
      rw [data_null hp] at this
      simp only [List.length_nil] at this
      omega
  | some i =>
    obtain ⟨hlt, blk, hb, -⟩ := ho.live i hp
    have hroom := ho.lenLe
    rw [data_eq hp hb] at hroom
    have hlen : (slice blk.data 0 x.uSize).length = x.uSize := length_slice (by omega)
    obtain ⟨data, hw⟩ := writeAt_eq ((List.range cap).map (h.junk h.next)) 0 (slice blk.data 0 x.uSize)
      (by rw [hlen, hjunk]; omega)
    refine ⟨_, h.add data, data, halloc, ?_, rfl, rfl, ?_, fun k hk => ?_⟩
    · have hpeek : x.peek (h.add ((List.range cap).map (h.junk h.next))) 0 x.uSize = some (slice blk.data 0 x.uSize) := by
        unfold CBuffer.peek
        split
        · rename_i h0
          rw [h0, slice_zero]
        · have hblk : x.block (h.add ((List.range cap).map (h.junk h.next))) = some blk := by
            rw [block_eq hp]
            exact (if_neg (Nat.ne_of_lt hlt)).trans hb
          rw [hblk]
          exact readAt_eq (by omega)
      unfold copyTo
      rw [hp, Option.isSome_some, if_pos rfl, hpeek, Option.bind_some]
      unfold Heap.write Heap.add Heap.set
      simp only [if_true]
      rw [hw]
      simp only [Option.map_some, Option.some.injEq, Heap.mk.injEq, and_self, and_true]
      funext j
      split <;> rfl
    · rw [length_writeAt hw, hjunk]
    · rw [getElem?_writeAt hw, hlen, if_pos (by omega), Nat.sub_zero, getElem?_slice, if_pos hk, data_eq hp hb,
        Nat.zero_add]

/-- What a move to a new block leaves. -/
structure Moved (h h' : Heap) (x x' y : CBuffer) (cap : Nat) : Prop where
  apart : Apart h' x' y
  unseen : Unseen h h' y
  separate : x'.p ≠ y.p
  length : (x'.data h').length = cap
  cells : ∀ k < x.uSize, (x'.data h')[k]? = (x.data h)[k]?

/-- The object in a block of its own. -/
def CBuffer.moved (x : CBuffer) (i : Nat) : CBuffer := ⟨false, x.bDetachable, false, false, 0, some i, x.uSize, x.uPosition⟩

theorem moved_spec {h h' : Heap} {x y : CBuffer} (ha : Apart h x y) {cap r : Nat} {data : List UInt8}
    (hcap : x.uSize ≤ cap) (hlt : cap < 2 ^ 64) (hlen : data.length = cap)
    (hcells : ∀ k < x.uSize, data[k]? = (x.data h)[k]?) (hnext : h'.next = h.next + 1)
    (hnew : h'.blocks h.next = some ⟨r, data⟩) (hr : x.bDetachable = false → 0 < r)
    (hother : ∀ j ≠ h.next, x.p ≠ some j → h'.blocks j = h.blocks j)
    (hold : ∀ j blk, x.p = some j → y.p = some j → h.blocks j = some blk →
      h'.blocks j = some { blk with refs := blk.refs - 1 }) :
    Moved h h' x (x.moved h.next) y cap := by
  have hdata : (x.moved h.next).data h' = data := data_eq (x := x.moved h.next) rfl hnew
  have hsep : (x.moved h.next).p ≠ y.p := fun hp => by
    have := (ha.right.live h.next hp.symm).1
    omega
  -- the block of the other object: its own, or one reference less
  have hkeep : ∀ j, y.p = some j → ∃ blk blk', h.blocks j = some blk ∧ h'.blocks j = some blk' ∧ blk'.data = blk.data ∧
      (y.isContainerized = true → 0 < blk'.refs) := by
    intro j hy
    obtain ⟨hjlt, blk, hb, hrefs⟩ := ha.right.live j hy
    by_cases hx : x.p = some j
    · have := (ha.counted j hx hy).2.2 blk hb
      refine ⟨blk, _, hb, hold j blk hx hy hb, rfl, fun _ => ?_⟩
      simp only
      omega
    · exact ⟨blk, blk, hb, (hother j (Nat.ne_of_lt hjlt) hx).trans hb, rfl, hrefs⟩
  have hydata : y.data h' = y.data h := data_congr fun j hy => by
    obtain ⟨blk, blk', hb, hb', hd, -⟩ := hkeep j hy
    rw [hb, hb', Option.map_some, Option.map_some, hd]
  refine ⟨⟨⟨fun j hj => ?_, ?_, by rw [hdata, hlen]; exact hlt, fun hp => (by cases hp),
      fun hd => Bool.noConfusion hd, Nat.two_pow_pos 32⟩, ⟨fun j hj => ?_, by rw [hydata]; exact ha.right.room,
        by rw [hydata]; exact ha.right.lt, ha.right.null, ha.right.derived, ha.right.uint32⟩, fun j hj hy => absurd (hj.trans hy.symm) hsep, fun j hj => ?_⟩,
    .of_data hydata, hsep, by rw [hdata, hlen], fun k hk => by rw [hdata, hcells k hk]⟩
  · cases Option.some.inj hj
    refine ⟨by omega, _, hnew, fun hc => hr ?_⟩
    unfold CBuffer.isContainerized CBuffer.moved at hc
    cases hd : x.bDetachable with
    | false => rfl
    | true => simp [hd] at hc
  · rw [hdata, hlen]
    unfold CBuffer.moved
    simp only [ite_self, Nat.add_zero]
    exact hcap
  · obtain ⟨blk, blk', -, hb', -, hrefs⟩ := hkeep j hj
    exact ⟨by have := (ha.right.live j hj).1; omega, blk', hb', hrefs⟩
  · refine (hother j (by omega) fun hx => ?_).trans (ha.fresh j (by omega))
    have := (ha.left.live j hx).1
    omega

/-- A buffer that may grow moves to a block of its own, with its bytes. -/
theorem reAllocBuffer_spec {h : Heap} {x y : CBuffer} (ha : Apart h x y) {cap : Nat} (hgrant : h.grants h.next = true)
    (hcap : x.uSize ≤ cap) (hlt' : cap < 2 ^ 64) (hlt : x.bDetachable = false → sBufferSize + cap < 2 ^ 64)
    (hfixed : x.bFixed = false) (hwrite : x.bReadOnly = false) :
    ∃ h', reAllocBuffer (h, x) cap = some ((h', x.moved h.next), true) ∧ Moved h h' x (x.moved h.next) y cap := by
  have hderived : x.bDerived = false := by
    cases hd : x.bDerived with
    | false => rfl
    | true => exact absurd (ha.left.derived hd).1 (by rw [hfixed]; exact Bool.noConfusion)
  obtain ⟨h₁, h₂, data, halloc, hcopy, hblocks, hnext, hlen, hcells⟩ := copyTo_spec ha.left hgrant hcap
  have hnew : h₂.blocks h.next = some ⟨0, data⟩ := by rw [hblocks]; exact if_pos rfl
  have hkept : ∀ j ≠ h.next, h₂.blocks j = h.blocks j := fun j hj => by rw [hblocks]; exact if_neg hj
  unfold reAllocBuffer
  cases hdet : x.bDetachable with
  | true =>
    rw [if_pos rfl]
    unfold reAllocDetachable
    rw [halloc]
    simp only
    rw [hcopy, Option.bind_some]
    have hcont : x.isContainerized = false := by
      unfold CBuffer.isContainerized
      rw [hdet, Bool.not_true, Bool.and_false, Bool.false_and]
    cases hp : x.p with
    | none =>
      refine ⟨h₂, ?_, moved_spec ha hcap hlt' hlen hcells hnext hnew (fun hd => absurd hd (by rw [hdet]; exact Bool.noConfusion))
        (fun j hj _ => hkept j hj) fun j blk hx => by rw [hp] at hx; cases hx⟩
      have hpre : x.uPreAllocated = 0 := by
        have := ha.left.room
        rw [hcont, data_null hp] at this
        simp only [Bool.false_eq_true, if_false, List.length_nil] at this
        omega
      rw [detachData_null hp]
      unfold CBuffer.moved
      simp only [Option.map_some, hderived, hfixed, hwrite, hpre, hdet]
    | some i =>
      obtain ⟨hilt, blk, hb, -⟩ := ha.left.live i hp
      have hi : h₂.blocks i = some blk := (hkept i (Nat.ne_of_lt hilt)).trans hb
      refine ⟨h₂.set i none, ?_, moved_spec ha hcap hlt' hlen hcells hnext
        ((if_neg (Nat.ne_of_gt hilt)).trans hnew) (fun hd => absurd hd (by rw [hdet]; exact Bool.noConfusion))
        (fun j hj hx => (if_neg fun hji => hx (hp.trans (congrArg some hji.symm))).trans (hkept j hj))
        fun j blk' hx hy _ => ?_⟩
      · rw [detachData_some hp hi]
        unfold CBuffer.moved
        simp only [hcont, hdet, Bool.false_eq_true, if_false, if_true, Option.map_some]
      · rw [(ha.counted j hx hy).1] at hcont
        cases hcont
  | false =>
    rw [if_neg Bool.noConfusion]
    unfold reAllocShared Heap.makeData
    rw [if_pos (hlt hdet), halloc]
    simp only
    rw [hcopy, Option.bind_some]
    cases hp : x.p with
    | none =>
      refine ⟨h₂.set h.next (some ⟨1, data⟩), ?_, moved_spec ha hcap hlt' hlen hcells hnext (if_pos rfl)
        (fun _ => Nat.one_pos) (fun j hj _ => (if_neg hj).trans (hkept j hj)) fun j blk hx => by rw [hp] at hx; cases hx⟩
      have hpre : x.uPreAllocated = 0 := by
        have := ha.left.room
        unfold CBuffer.isContainerized at this
        rw [hp, data_null hp, Option.isSome_none, Bool.and_false] at this
        simp only [Bool.false_eq_true, if_false, List.length_nil] at this
        omega
      rw [attachData_eq (detachData_null hp) hnew]
      unfold CBuffer.moved
      simp only [Option.map_some, hderived, hfixed, hwrite, hpre, hdet]
    | some i =>
      have hcont : x.isContainerized = true := by
        unfold CBuffer.isContainerized
        rw [hderived, hdet, hp]
        rfl
      obtain ⟨hilt, blk, hb, -⟩ := ha.left.live i hp
      have hi : h₂.blocks i = some blk := (hkept i (Nat.ne_of_lt hilt)).trans hb
      have hnei : h.next ≠ i := Nat.ne_of_gt hilt
      refine ⟨(h₂.set i (if blk.refs = 1 then none else some { blk with refs := blk.refs - 1 })).set h.next
        (some ⟨1, data⟩), ?_, moved_spec ha hcap hlt' hlen hcells hnext (if_pos rfl) (fun _ => Nat.one_pos)
        (fun j hj hx => (if_neg hj).trans ((if_neg fun hji => hx (hp.trans (congrArg some hji.symm))).trans (hkept j hj)))
        fun j blk' hx hy hb' => ?_⟩
      · have hdetach := detachData_some hp hi
        rw [if_pos hcont] at hdetach
        rw [attachData_eq hdetach ((if_neg hnei).trans hnew)]
        unfold CBuffer.moved
        simp only [Option.map_some, hdet]
      · have hji : j = i := Option.some.inj (hx.symm.trans hp)
        subst hji
        have htwo := (ha.counted j hx hy).2.2 blk hb
        rw [hb] at hb'
        cases hb'
        refine (if_neg (Nat.ne_of_lt hilt)).trans ((if_pos rfl).trans ?_)
        exact if_neg (by omega)

end MajorPrivacy.Buffer

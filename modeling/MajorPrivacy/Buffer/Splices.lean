/-
The splices of a buffer: bytes put in, taken out or replaced in the middle of it. A splice that reports
success is one of the list of bytes, and one that reports failure has changed nothing, but for the cases
that are listed here.
-/
import MajorPrivacy.Buffer.Room

namespace MajorPrivacy.Buffer

open Memory

/-! ## Calls -/

/-- A call of a splice. -/
inductive Splice where
  | insertData (uOffset : Nat) (src : Src)
  | removeData (uOffset uLength : Nat)
  | replaceData (uOffset uOldLength : Nat) (src : Src)
  | shiftData (uOffset : Nat)
  deriving Repr, DecidableEq

namespace Splice

def run (st : St) : Splice → Option (St × Bool)
  | insertData uOffset src => Buffer.insertData st uOffset src
  | removeData uOffset uLength => Buffer.removeData st uOffset uLength
  | replaceData uOffset uOldLength src => Buffer.replaceData st uOffset uOldLength src
  | shiftData uOffset => Buffer.shiftData st uOffset

/-- The arguments are of type `size_t`. -/
def Sized : Splice → Prop
  | insertData uOffset src => uOffset < 2 ^ 64 ∧ src.uLength < 2 ^ 64
  | removeData uOffset uLength => uOffset < 2 ^ 64 ∧ uLength < 2 ^ 64
  | replaceData uOffset uOldLength src => uOffset < 2 ^ 64 ∧ uOldLength < 2 ^ 64 ∧ src.uLength < 2 ^ 64
  | shiftData uOffset => uOffset < 2 ^ 64

end Splice

/-- The bytes that a source puts in: any for a null pointer. -/
def Src.Gives (src : Src) (new : List UInt8) : Prop := new.length = src.uLength ∧ ∀ bytes, src = .data bytes → new = bytes

/-- `uLength` bytes from `uOffset` on, to the end for -1. -/
def spanOf (uSize uOffset uLength : Nat) : Nat := if uLength = npos then uSize - uOffset else uLength

/-- What a splice makes of a list of bytes. -/
def Splice.Spliced (old new : List UInt8) : Splice → Prop
  | insertData uOffset src => uOffset ≤ old.length ∧
      ∃ bytes, src.Gives bytes ∧ new = old.take uOffset ++ bytes ++ old.drop uOffset
  | removeData uOffset uLength =>
      let len := spanOf old.length uOffset uLength
      uOffset + len ≤ old.length ∧ new = old.take uOffset ++ old.drop (uOffset + len)
  | replaceData uOffset uOldLength src =>
      let len := spanOf old.length uOffset uOldLength
      uOffset + len ≤ old.length ∧
        ∃ bytes, src.Gives bytes ∧ new = old.take uOffset ++ bytes ++ old.drop (uOffset + len)
  | shiftData uOffset => uOffset ≤ old.length ∧ new = old.drop uOffset

/-- A call does what it reports: the splice of the content, or nothing. -/
def Splice.Honest (h : Heap) (x : CBuffer) (s : Splice) : Prop :=
  ∃ h' x' r, s.run (h, x) = some ((h', x'), r) ∧
    if r = true then s.Spliced (x.view h) (x'.view h') ∧ x'.uSize = (x'.view h').length
    else x'.view h' = x.view h ∧ x'.uSize = x.uSize ∧ x'.uPosition = x.uPosition

/-! ## The cases in which it does -/

/-- A removal that is refused. -/
def CBuffer.Keeps (x : CBuffer) (uOffset uLength : Nat) : Prop :=
  x.bReadOnly = true ∨ uLength ≠ npos ∧ x.uSize < sizeT (uOffset + uLength)

/-- A removal inside of the buffer. To the end is to the end only from the start. -/
def CBuffer.Drops (x : CBuffer) (uOffset uLength : Nat) : Prop :=
  if uLength = npos then uOffset = 0 else uOffset + uLength ≤ x.uSize

/-- The object after a removal. -/
def CBuffer.rest (x : CBuffer) (uLength : Nat) : CBuffer :=
  { x with uSize := x.uSize - if uLength = npos then x.uSize else uLength }

/-- The calls that do what they report. -/
def Splice.Fits (h : Heap) (x : CBuffer) : Splice → Prop
  | insertData uOffset src => x.Refuses h src.uLength ∨ x.Takes h uOffset src.uLength
  | removeData uOffset uLength => x.Keeps uOffset uLength ∨ x.Drops uOffset uLength
  | replaceData uOffset uOldLength src =>
    let y := x.rest uOldLength
    x.Keeps uOffset uOldLength ∨ x.Drops uOffset uOldLength ∧
      (y.Refuses h src.uLength ∧ y.uSize = x.uSize ∨ ¬ y.Refuses h src.uLength ∧ y.Takes h uOffset src.uLength)
  | shiftData _ => True

/-! ## Insertions -/

theorem length_poke {h h' : Heap} {x : CBuffer} (y : CBuffer) {off : Nat} {data : List UInt8}
    (hp : x.poke h off data = some h') : (y.data h').length = (y.data h).length := by
  unfold CBuffer.poke at hp
  split at hp
  · cases hp
    rfl
  · obtain ⟨i, -, hwrite⟩ := Option.bind_eq_some_iff.1 hp
    unfold Heap.write at hwrite
    split at hwrite
    · cases hwrite
    · rename_i blk hb
      obtain ⟨data', hw, rfl⟩ := Option.map_eq_some_iff.1 hwrite
      have hlen := length_writeAt hw
      cases hy : y.p with
      | none => rw [data_null hy, data_null hy]
      | some j =>
        unfold CBuffer.data
        rw [block_eq hy, block_eq hy]
        by_cases hji : j = i
        · rw [hji, hb, show (h.set i (some { blk with data := data' })).blocks i = _ from if_pos rfl]
          exact hlen
        · rw [show (h.set i (some { blk with data := data' })).blocks j = _ from if_neg hji]

theorem length_memMove {h h' : Heap} {x : CBuffer} (y : CBuffer) {dst src len : Nat} (hm : x.memMove h dst src len = some h') :
    (y.data h').length = (y.data h).length := by
  obtain ⟨data, -, hpoke⟩ := Option.bind_eq_some_iff.1 hm
  exact length_poke y hpoke

/-- What is behind the offset moves up, and the bytes go in between. -/
theorem put_spec {h : Heap} {x : CBuffer} (ha : Apart h x .empty) {uSize uOffset : Nat}
    {src : Src} (hoff : uOffset ≤ uSize) (hsize : x.uSize = uSize + src.uLength) :
    ∃ h₁ h₂ bytes, x.memMove h (uOffset + src.uLength) uOffset (uSize - uOffset) = some h₁ ∧
      x.poke h₁ uOffset src.bytes = some h₂ ∧ src.Gives bytes ∧
        x.view h₂ = slice (x.data h) 0 uOffset ++ bytes ++ slice (x.data h) uOffset (uSize - uOffset) := by
  have hroom : uSize + src.uLength ≤ (x.data h).length := hsize ▸ ha.left.lenLe
  have hsrc : src.bytes.length ≤ src.uLength := by
    cases src <;> simp [Src.bytes, Src.uLength]
  obtain ⟨h₁, hmove, hm⟩ := memMove_spec ha (show uOffset + (uSize - uOffset) ≤ _ by omega)
    (show uOffset + src.uLength + (uSize - uOffset) ≤ _ by omega) (.inr (.inr (.inl (Nat.zero_le _))))
  have hlen₁ := hm.length
  obtain ⟨h₂, hpoke, hp⟩ := poke_spec hm.apart
    (show uOffset + src.bytes.length ≤ _ by omega) (.inr (.inr (.inl (Nat.zero_le _))))
  have hlen₂ : (x.data h₂).length = (x.data h).length := hp.length.trans hm.length
  have hslice : (slice (x.data h) uOffset (uSize - uOffset)).length = uSize - uOffset := length_slice (by omega)
  have hcells₁ : ∀ k, (x.data h₁)[k]? = if uOffset + src.uLength ≤ k ∧ k < uOffset + src.uLength + (uSize - uOffset) then
      (slice (x.data h) uOffset (uSize - uOffset))[k - (uOffset + src.uLength)]? else (x.data h)[k]? := fun k => by
    rw [hm.cells, hslice]
  have hcells₂ : ∀ k, (x.data h₂)[k]? = if uOffset ≤ k ∧ k < uOffset + src.bytes.length then
      src.bytes[k - uOffset]? else (x.data h₁)[k]? := hp.cells
  refine ⟨h₁, h₂, slice (x.data h₂) uOffset src.uLength, hmove, hpoke, ⟨length_slice (by omega), fun bytes hb => ?_⟩, ?_⟩
  · cases hb
    apply List.ext_getElem?
    intro k
    change (slice (x.data h₂) uOffset bytes.length)[k]? = _
    rw [getElem?_slice, hcells₂]
    change (if k < bytes.length then if uOffset ≤ uOffset + k ∧ uOffset + k < uOffset + bytes.length then
      bytes[uOffset + k - uOffset]? else _ else none) = _
    by_cases hk : k < bytes.length
    · rw [if_pos hk, if_pos (by omega), Nat.add_sub_cancel_left]
    · rw [if_neg hk, List.getElem?_eq_none (by omega)]
  · -- the part before the offset and the part behind the new bytes are those of the memory before
    have hview : x.view h₂ = slice (x.data h₂) 0 uOffset ++ slice (x.data h₂) uOffset src.uLength ++
        slice (x.data h₂) (uOffset + src.uLength) (uSize - uOffset) := by
      unfold CBuffer.view
      rw [hsize, show uSize + src.uLength = uOffset + src.uLength + (uSize - uOffset) by omega, slice_add, slice_add,
        Nat.zero_add, Nat.zero_add]
    have hbefore : slice (x.data h₂) 0 uOffset = slice (x.data h) 0 uOffset := by
      apply List.ext_getElem?
      intro k
      rw [getElem?_slice, getElem?_slice]
      by_cases hk : k < uOffset
      · rw [if_pos hk, if_pos hk, hcells₂, if_neg (by omega), hcells₁, if_neg (by omega)]
      · rw [if_neg hk, if_neg hk]
    have hbehind : slice (x.data h₂) (uOffset + src.uLength) (uSize - uOffset) =
        slice (x.data h) uOffset (uSize - uOffset) := by
      apply List.ext_getElem?
      intro k
      rw [getElem?_slice]
      by_cases hk : k < uSize - uOffset
      · rw [if_pos hk, hcells₂, if_neg (by omega), hcells₁, if_pos (by omega), Nat.add_sub_cancel_left]
      · rw [if_neg hk, List.getElem?_eq_none (by omega)]
    rw [hview, hbefore, hbehind]

section Insert

variable {h : Heap} {x : CBuffer} {uOffset : Nat} {src : Src}

theorem insertData_refused (hr : x.Refuses h src.uLength) : insertData (h, x) uOffset src = some ((h, x), false) := by
  have hprep : prepareWrite (h, x) x.uSize src.uLength = some ((h, x), false) := by
    unfold prepareWrite
    simp only
    by_cases hwrite : x.bReadOnly = true
    · rw [if_pos hwrite]
    · rw [if_neg hwrite]
      obtain hread | ⟨hfixed, hcap⟩ := hr
      · exact absurd hread hwrite
      · rw [if_pos hcap, if_pos hfixed]
  unfold insertData
  simp only
  rw [hprep, Option.bind_some]

/-- The bytes of the object, before and behind an offset. -/
theorem slice_before (hle : uOffset ≤ x.uSize) : slice (x.data h) 0 uOffset = (x.view h).take uOffset := by
  unfold CBuffer.view
  rw [take_slice hle]

theorem slice_behind : slice (x.data h) uOffset (x.uSize - uOffset) = (x.view h).drop uOffset := by
  unfold CBuffer.view
  rw [drop_slice, Nat.zero_add]

variable (ho : Owned h x)
include ho

/-- Without memory and without bytes nothing is done, the pointer to the buffer is null. -/
theorem insertData_nothing (hp : x.p = none) (hlen : src.uLength = 0) :
    insertData (h, x) 0 src = some ((h, x), false) := by
  have hdata := data_null (h := h) hp
  have hroom := ho.obj.room
  have hcap := ho.obj.capacity_le
  rw [hdata, List.length_nil] at hroom hcap
  have hsize : x.uSize = 0 := by omega
  have hshared : x.shared h = false := by
    unfold CBuffer.shared CBuffer.isContainerized
    rw [hp, Option.isSome_none, Bool.and_false, Bool.false_and]
  have h0 : sizeT (0 + 0) = 0 := sizeT_eq (Nat.two_pow_pos 64)
  have hsub : sizeSub 0 0 = 0 := sizeSub_eq (Nat.le_refl 0) (Nat.two_pow_pos 64)
  have hbytes : src.bytes = [] := by
    cases src with
    | data bytes => exact List.length_eq_zero_iff.1 hlen
    | null uLength => rfl
  unfold insertData prepareWrite
  simp only [hsize, hlen, h0, hshared, Bool.false_eq_true, or_false]
  rw [if_neg (Nat.not_lt_zero _), if_neg (Nat.not_lt_zero _)]
  by_cases hread : x.bReadOnly = true
  · rw [if_pos hread, Option.bind_some]
  · rw [if_neg hread, Option.bind_some]
    simp only [hsub]
    unfold CBuffer.memMove CBuffer.peek CBuffer.poke putAt CBuffer.poke CBuffer.pointer
    simp only [hbytes, hp, if_true, Option.bind_some, Option.map_some, Option.isSome_none, bne_self_eq_false, Bool.or_self]

theorem insertData_takes (hr : ¬ x.Refuses h src.uLength) (ht : x.Takes h uOffset src.uLength) :
    ∃ h' x' r bytes, insertData (h, x) uOffset src = some ((h', x'), r) ∧ src.Gives bytes ∧
      x'.view h' = (x.view h).take uOffset ++ bytes ++ (x.view h).drop uOffset ∧ x'.uSize = x.uSize + src.uLength ∧
        (r = false → h' = h ∧ x' = x) := by
  obtain ⟨hoff, hend, hroom⟩ := ht
  obtain ⟨-, -, hgrow, hno⟩ | ⟨h₁, x₁, hprep, -, hptr, hready⟩ := prepareWrite_end ho hr (by omega)
  · exact absurd (hroom hgrow) hno
  obtain ⟨hsize, hfits, hkept⟩ := hready hend
  have hfit := hfits.2 hroom
  have hk := hkept hfit
  obtain ⟨h₂, h₃, bytes, hmove, hpoke, hgives, hview⟩ :=
    put_spec hk.apart hoff (show x₁.uSize = x.uSize + src.uLength from hsize)
  have hrun : insertData (h, x) uOffset src = some ((h₃, x₁), x₁.pointer uOffset) := by
    have hdst : sizeT (uOffset + src.uLength) = uOffset + src.uLength := sizeT_eq (by omega)
    have hcount : sizeSub x.uSize uOffset = x.uSize - uOffset := sizeSub_eq hoff (by omega)
    unfold insertData
    simp only
    rw [hprep, Option.bind_some]
    change (x₁.memMove h₁ (sizeT (uOffset + src.uLength)) uOffset (sizeSub x.uSize uOffset)).bind _ = _
    have hmove' : x₁.memMove h₁ (uOffset + src.uLength) uOffset (x.uSize - uOffset) = some h₂ := hmove
    have hpoke' : x₁.poke h₂ uOffset src.bytes = some h₃ := hpoke
    rw [hdst, hcount, hmove', Option.bind_some]
    unfold putAt
    simp only
    rw [hpoke', Option.map_some]
  refine ⟨h₃, x₁, x₁.pointer uOffset, bytes, hrun, hgives, ?_, hsize, fun hnull => ?_⟩
  · -- the bytes around the offset are those of the object before
    have hsame : ∀ off len, off + len ≤ x.uSize → slice (x₁.data h₁) off len = slice (x.data h) off len :=
      fun off len hle => by
        apply List.ext_getElem?
        intro k
        rw [getElem?_slice, getElem?_slice]
        split
        · exact hk.bytes _ (by omega)
        · rfl
    have hview' : x₁.view h₃ = slice (x₁.data h₁) 0 uOffset ++ bytes ++ slice (x₁.data h₁) uOffset (x.uSize - uOffset) :=
      hview
    rw [hview', hsame 0 uOffset (by omega), hsame uOffset _ (by omega), slice_before hoff, slice_behind]
  · unfold CBuffer.pointer at hnull
    obtain ⟨hp₁, h0⟩ := Bool.or_eq_false_iff.1 hnull
    have hp : x.p = none := by
      by_contra hne
      have := hptr (Option.isSome_iff_ne_none.2 hne)
      rw [hp₁] at this
      cases this
    have hlen : src.uLength = 0 := by
      rw [data_null (Option.not_isSome_iff_eq_none.1 (by rw [hp₁]; exact Bool.noConfusion)), List.length_nil] at hfit
      omega
    have hoff0 : uOffset = 0 := bne_eq_false_iff_eq.1 h0
    rw [hoff0, insertData_nothing ho hp hlen] at hrun
    have hst := congrArg Prod.fst (Option.some.inj hrun)
    exact ⟨(congrArg Prod.fst hst).symm, (congrArg Prod.snd hst).symm⟩

/-- What a call that was not refused leaves, whether it fits or not. -/
theorem insertData_reports (hr : ¬ x.Refuses h src.uLength) (hlen : src.uLength < 2 ^ 64) {h' : Heap} {x' : CBuffer} {r : Bool}
    (hrun : insertData (h, x) uOffset src = some ((h', x'), r)) :
    x'.uSize < 2 ^ 64 ∧ (r = false → x.p = none ∧ uOffset = 0) ∧ (x.uSize + src.uLength < 2 ^ 64 →
      x'.uSize = x.uSize + src.uLength ∧
        (x.uSize + src.uLength ≤ (x'.data h').length → x.getCapacity h < x.uSize + src.uLength → x.HasRoom h src.uLength)) := by
  unfold insertData at hrun
  simp only at hrun
  obtain ⟨hnone, -⟩ | ⟨h₁, x₁, hprep, hlt, hptr, hready⟩ := prepareWrite_end ho hr hlen
  · rw [hnone, Option.bind_none] at hrun
    cases hrun
  rw [hprep, Option.bind_some] at hrun
  obtain ⟨h₂, hmove, hput⟩ := Option.bind_eq_some_iff.1 hrun
  obtain ⟨h₃, hpoke, hres⟩ := Option.map_eq_some_iff.1 hput
  cases hres
  refine ⟨hlt, fun hnull => ?_, fun hend => ?_⟩
  · obtain ⟨hp₁, h0⟩ := Bool.or_eq_false_iff.1 hnull
    refine ⟨?_, bne_eq_false_iff_eq.1 h0⟩
    by_contra hne
    have := hptr (Option.isSome_iff_ne_none.2 hne)
    rw [hp₁] at this
    cases this
  · obtain ⟨hsize, hfits, -⟩ := hready hend
    refine ⟨hsize, fun hfit => hfits.1 ?_⟩
    rw [length_poke _ hpoke, length_memMove _ hmove] at hfit
    exact hfit

/-- A call that was not refused and leaves what an insertion leaves had the memory for it. -/
theorem takes_of_insertData (hr : ¬ x.Refuses h src.uLength) (hlen : src.uLength < 2 ^ 64) {h' : Heap} {x' : CBuffer}
    {r : Bool} (hrun : insertData (h, x) uOffset src = some ((h', x'), r))
    (hdone : r = true → uOffset ≤ x.uSize ∧ x'.uSize = x.uSize + src.uLength ∧ x'.uSize = (x'.view h').length)
    (hnot : r = false → x.p = none → x'.uSize = x.uSize) : x.Takes h uOffset src.uLength := by
  obtain ⟨hlt, hnull, hfits⟩ := insertData_reports ho hr hlen hrun
  cases r with
  | true =>
    obtain ⟨hoff, hend, hsize⟩ := hdone rfl
    refine ⟨hoff, by omega, (hfits (by omega)).2 ?_⟩
    rw [← hend, hsize]
    unfold CBuffer.view slice
    rw [List.drop_zero, List.length_take]
    exact Nat.min_le_right _ _
  | false =>
    obtain ⟨hp, h0⟩ := hnull rfl
    have hsame := hnot rfl hp
    have hroom := ho.obj.lenLe
    rw [data_null hp, List.length_nil] at hroom
    have hsize := (hfits (by omega)).1
    exact ⟨by omega, by omega, fun hgrow => absurd hgrow (by omega)⟩

theorem insertData_honest_iff (hlen : src.uLength < 2 ^ 64) :
    (Splice.insertData uOffset src).Honest h x ↔ x.Refuses h src.uLength ∨ x.Takes h uOffset src.uLength := by
  have hview := ho.obj.length_view
  constructor
  · rintro ⟨h', x', r, hrun, hdone⟩
    by_cases hr : x.Refuses h src.uLength
    · exact .inl hr
    refine .inr (takes_of_insertData ho hr hlen hrun (fun hr => ?_) fun hr _ => ?_)
    · rw [if_pos hr] at hdone
      obtain ⟨⟨hoff, bytes, ⟨hgives, -⟩, hnew⟩, hsize⟩ := hdone
      have hnewlen := congrArg List.length hnew
      rw [List.length_append, List.length_append, List.length_take, List.length_drop, ← hsize] at hnewlen
      exact ⟨by omega, by omega, hsize⟩
    · rw [hr, if_neg Bool.noConfusion] at hdone
      exact hdone.2.1
  · rintro (hr | ht)
    · exact ⟨h, x, false, insertData_refused hr, rfl, rfl, rfl⟩
    · by_cases hr : x.Refuses h src.uLength
      · exact ⟨h, x, false, insertData_refused hr, rfl, rfl, rfl⟩
      obtain ⟨h', x', r, bytes, hrun, hgives, hnew, hsize, hnull⟩ := insertData_takes ho hr ht
      refine ⟨h', x', r, hrun, ?_⟩
      cases r with
      | true =>
        refine ⟨⟨by rw [hview]; exact ht.1, bytes, hgives, hnew⟩, ?_⟩
        have hoff := ht.1
        rw [hnew, hsize, List.length_append, List.length_append, List.length_take, List.length_drop, hgives.1]
        omega
      | false =>
        obtain ⟨rfl, rfl⟩ := hnull rfl
        exact ⟨rfl, rfl, rfl⟩

end Insert

/-! ## Removals -/

theorem next_memMove {h h' : Heap} {x : CBuffer} {dst src len : Nat} (hm : x.memMove h dst src len = some h') :
    h'.next = h.next := by
  obtain ⟨data, -, hpoke⟩ := Option.bind_eq_some_iff.1 hm
  unfold CBuffer.poke at hpoke
  split at hpoke
  · cases hpoke
    rfl
  · obtain ⟨i, -, hwrite⟩ := Option.bind_eq_some_iff.1 hpoke
    unfold Heap.write at hwrite
    split at hwrite
    · cases hwrite
    · obtain ⟨data', -, rfl⟩ := Option.map_eq_some_iff.1 hwrite
      rfl

/-- What a removal leaves. -/
structure Removed (h : Heap) (x : CBuffer) (uOffset uLength : Nat) (h' : Heap) : Prop where
  run : removeData (h, x) uOffset uLength = some ((h', x.rest uLength), true)
  owned : Owned h' (x.rest uLength)
  view : (x.rest uLength).view h' =
    (x.view h).take uOffset ++ (x.view h).drop (uOffset + spanOf x.uSize uOffset uLength)
  span : uOffset + spanOf x.uSize uOffset uLength ≤ x.uSize
  size : (x.rest uLength).uSize + spanOf x.uSize uOffset uLength = x.uSize
  next : h'.next = h.next
  grants : h'.grants = h.grants
  length : ((x.rest uLength).data h').length = ((x.rest uLength).data h).length
  shared : (x.rest uLength).shared h' = (x.rest uLength).shared h

section Remove

variable {h : Heap} {x : CBuffer} {uOffset uLength : Nat}

theorem removeData_keeps (hk : x.Keeps uOffset uLength) : removeData (h, x) uOffset uLength = some ((h, x), false) := by
  unfold removeData
  simp only
  by_cases hread : x.bReadOnly = true
  · rw [if_pos hread]
  · rw [if_neg hread]
    obtain hread' | hbig := hk
    · exact absurd hread' hread
    · rw [if_pos hbig]

/-- What moves lands inside of the memory. -/
theorem memMove_le {dst src len : Nat} {h' : Heap} (hm : x.memMove h dst src len = some h') :
    len = 0 ∨ dst + len ≤ (x.data h).length := by
  obtain ⟨data, hpeek, hpoke⟩ := Option.bind_eq_some_iff.1 hm
  by_cases h0 : len = 0
  · exact .inl h0
  right
  unfold CBuffer.peek at hpeek
  rw [if_neg h0] at hpeek
  obtain ⟨blk, hblk, hread⟩ := Option.bind_eq_some_iff.1 hpeek
  have hlen : data.length = len := by
    have hle := isSome_readAt.1 (Option.isSome_of_eq_some hread)
    rw [readAt_eq hle] at hread
    cases hread
    exact length_slice hle
  unfold CBuffer.poke at hpoke
  rw [if_neg (fun hnil => h0 (by rw [← hlen, hnil, List.length_nil]))] at hpoke
  obtain ⟨i, hi, hwrite⟩ := Option.bind_eq_some_iff.1 hpoke
  have hb : h.blocks i = some blk := by
    rw [← block_eq hi]
    exact hblk
  unfold Heap.write at hwrite
  rw [hb] at hwrite
  obtain ⟨data', hw, -⟩ := Option.map_eq_some_iff.1 hwrite
  rw [data_eq hi hb, ← hlen]
  exact writeAt_le hw

variable (ho : Owned h x)
include ho

theorem removeData_drops (hk : ¬ x.Keeps uOffset uLength) (hd : x.Drops uOffset uLength) :
    ∃ h', Removed h x uOffset uLength h' := by
  have hlt := ho.obj.lt
  have hsz := ho.obj.lenLe
  -- the bytes that are taken out, and where they end
  obtain ⟨len, hlen, hspan, hle⟩ : ∃ len, len = (if uLength = npos then x.uSize else uLength) ∧
      len = spanOf x.uSize uOffset uLength ∧ uOffset + len ≤ x.uSize := by
    unfold CBuffer.Drops at hd
    unfold spanOf
    by_cases hn : uLength = npos
    · rw [if_pos hn] at hd ⊢
      rw [if_pos hn]
      exact ⟨x.uSize, rfl, by omega, by omega⟩
    · rw [if_neg hn] at hd ⊢
      rw [if_neg hn]
      exact ⟨uLength, rfl, rfl, hd⟩
  obtain ⟨h', hmove, hm⟩ := memMove_spec ho.apart (show uOffset + len + (x.uSize - uOffset - len) ≤ _ by omega)
    (show uOffset + (x.uSize - uOffset - len) ≤ _ by omega) (.inr (.inr (.inl (Nat.zero_le _))))
  have hrest : x.rest uLength = { x with uSize := x.uSize - len } := by
    unfold CBuffer.rest
    rw [hlen]
  have hfields : sizeT (uOffset + len) = uOffset + len ∧ sizeSub (sizeSub x.uSize uOffset) len = x.uSize - uOffset - len ∧
      sizeSub x.uSize len = x.uSize - len := by
    refine ⟨sizeT_eq (by omega), ?_, sizeSub_eq (by omega) (by omega)⟩
    rw [sizeSub_eq (show uOffset ≤ x.uSize by omega) (by omega), sizeSub_eq (by omega) (by omega)]
  obtain ⟨hgrants, hrefs⟩ := memMove_frame hmove
  have hlength := length_memMove (x.rest uLength) hmove
  refine ⟨h', ?_, ?_, ?_, hspan ▸ hle, ?_, next_memMove hmove, hgrants, hlength, ?_⟩
  · unfold removeData
    simp only
    rw [if_neg fun hread => hk (.inl hread), if_neg fun hbig => hk (.inr hbig), ← hlen, hfields.1, hfields.2.1, hmove,
      Option.map_some, hfields.2.2, hrest]
  · rw [hrest]
    refine ⟨(hm.apart.resize ?_ (.inl (Nat.le_refl _)) ho.obj.uint32).left, fun hc => ?_, hm.apart.fresh⟩
    · rw [hm.length]
      have := ho.obj.room
      omega
    · change sBufferSize + (x.data h').length < 2 ^ 64
      rw [hm.length]
      exact ho.header hc
  · have hslice : (slice (x.data h) (uOffset + len) (x.uSize - uOffset - len)).length = x.uSize - uOffset - len :=
      length_slice (by omega)
    rw [hrest]
    change slice (x.data h') 0 (x.uSize - len) = _
    rw [← hspan, show x.uSize - len = uOffset + (x.uSize - (uOffset + len)) by omega, slice_add, Nat.zero_add,
      ← slice_before (h := h) (show uOffset ≤ x.uSize by omega), ← slice_behind (h := h) (x := x)]
    congr 1
    · apply List.ext_getElem?
      intro k
      rw [getElem?_slice, getElem?_slice, hm.cells]
      by_cases hk : k < uOffset
      · rw [if_pos hk, if_pos hk, if_neg (by omega)]
      · rw [if_neg hk, if_neg hk]
    · apply List.ext_getElem?
      intro k
      rw [getElem?_slice, hm.cells, hslice]
      by_cases hk : k < x.uSize - (uOffset + len)
      · rw [if_pos hk, if_pos (by omega), Nat.add_sub_cancel_left, Nat.sub_sub]
      · rw [if_neg hk, getElem?_slice, if_neg hk]
  · rw [hrest, ← hspan]
    simp only
    omega
  · exact shared_congr rfl rfl hrefs

/-- A removal that is not refused and not inside of the buffer leaves a size that is wrong, or the memory. -/
theorem removeData_outside (hk : ¬ x.Keeps uOffset uLength) (hd : ¬ x.Drops uOffset uLength) (hoff : uOffset < 2 ^ 64)
    (hlen : uLength < 2 ^ 64) {h' : Heap} {x' : CBuffer} {r : Bool}
    (hrun : removeData (h, x) uOffset uLength = some ((h', x'), r)) :
    r = true ∧ uOffset ≠ 0 ∧ x.uSize < uOffset + spanOf x.uSize uOffset uLength ∧ x'.uSize ≠ x.uSize := by
  have hlt := ho.obj.lt
  have hsz := ho.obj.lenLe
  unfold removeData at hrun
  simp only at hrun
  rw [if_neg fun hread => hk (.inl hread), if_neg fun hbig => hk (.inr hbig)] at hrun
  obtain ⟨h₁, hmove, hres⟩ := Option.map_eq_some_iff.1 hrun
  unfold CBuffer.Drops at hd
  by_cases hn : uLength = npos
  · -- the count wraps around to what is left of the address space
    rw [if_pos hn] at hd hmove
    have hcount : sizeSub (sizeSub x.uSize uOffset) x.uSize = 2 ^ 64 - uOffset := by
      unfold sizeSub
      omega
    rw [hcount] at hmove
    have := memMove_le hmove
    omega
  · rw [if_neg hn] at hd hres
    have hwrap : 2 ^ 64 ≤ uOffset + uLength := by
      by_contra hno
      exact hk (.inr ⟨hn, by rw [sizeT_eq (by omega)]; omega⟩)
    have hsize : sizeSub x.uSize uLength ≠ x.uSize := by
      unfold sizeSub
      omega
    cases hres
    unfold spanOf
    rw [if_neg hn]
    exact ⟨rfl, by omega, by omega, hsize⟩

theorem removeData_honest_iff (hoff : uOffset < 2 ^ 64) (hlen : uLength < 2 ^ 64) :
    (Splice.removeData uOffset uLength).Honest h x ↔ x.Keeps uOffset uLength ∨ x.Drops uOffset uLength := by
  have hview := ho.obj.length_view
  constructor
  · rintro ⟨h', x', r, hrun, hdone⟩
    by_contra hno
    obtain ⟨hk, hd⟩ := not_or.1 hno
    obtain ⟨rfl, -, hout, -⟩ := removeData_outside ho hk hd hoff hlen hrun
    have hspan := hdone.1.1
    rw [hview] at hspan
    omega
  · intro hfit
    by_cases hk : x.Keeps uOffset uLength
    · exact ⟨h, x, false, removeData_keeps hk, rfl, rfl, rfl⟩
    · obtain ⟨h', hrem⟩ := removeData_drops ho hk (hfit.resolve_left hk)
      refine ⟨h', _, true, hrem.run, ⟨?_, ?_⟩, hrem.owned.obj.length_view.symm⟩
      · rw [hview]
        exact hrem.span
      · rw [hview]
        exact hrem.view

end Remove

/-! ## Replacements -/

theorem putSize_true {st st' : St} {uSize uPreAlloc uCapacity : Nat} {r : Bool}
    (hrun : putSize st uSize uPreAlloc uCapacity = some (st', r)) : r = true := by
  unfold putSize at hrun
  simp only at hrun
  split at hrun
  · obtain ⟨_, -, hres⟩ := Option.map_eq_some_iff.1 hrun
    cases hres
    rfl
  · split at hrun <;> cases hrun <;> rfl

/-- The size is set, whatever becomes of the memory. -/
theorem setSize_true {st st' : St} {uSize uPreAlloc : Nat} {r : Bool} (hwrite : st.2.bReadOnly = false)
    (hrun : setSize st uSize true uPreAlloc = some (st', r)) : r = true := by
  unfold setSize at hrun
  simp only at hrun
  split at hrun
  · rw [hwrite, if_neg (by decide)] at hrun
    obtain ⟨r', -, hput⟩ := Option.bind_eq_some_iff.1 hrun
    exact putSize_true hput
  · exact putSize_true hrun

/-- A write that is refused changes nothing. -/
theorem prepareWrite_false {st st' : St} {uOffset uLength : Nat}
    (hrun : prepareWrite st uOffset uLength = some (st', false)) : st' = st := by
  unfold prepareWrite at hrun
  simp only at hrun
  by_cases hread : st.2.bReadOnly = true
  · rw [if_pos hread] at hrun
    cases hrun
    rfl
  rw [if_neg hread] at hrun
  split at hrun
  · split at hrun
    · cases hrun
      rfl
    · cases setSize_true (Bool.eq_false_iff.2 hread) hrun
  · split at hrun <;> cases hrun

theorem insertData_false {st st' : St} {uOffset : Nat} {src : Src} (hoff : uOffset ≠ 0)
    (hrun : insertData st uOffset src = some (st', false)) : st' = st := by
  unfold insertData at hrun
  simp only at hrun
  obtain ⟨⟨st₁, r⟩, hprep, hrest⟩ := Option.bind_eq_some_iff.1 hrun
  cases r with
  | false =>
    cases hrest
    exact prepareWrite_false hprep
  | true =>
    obtain ⟨h₂, -, hput⟩ := Option.bind_eq_some_iff.1 hrest
    obtain ⟨h₃, -, hres⟩ := Option.map_eq_some_iff.1 hput
    have hnull := congrArg Prod.snd hres
    exact absurd (bne_eq_false_iff_eq.1 (Bool.or_eq_false_iff.1 hnull).2) hoff

theorem replaceData_eq {st st' : St} {uOffset uOldLength : Nat} {src : Src}
    (hrem : removeData st uOffset uOldLength = some (st', true)) :
    replaceData st uOffset uOldLength src = insertData st' uOffset src := by
  unfold replaceData
  rw [hrem, Option.bind_some]

section Replace

variable {h h' : Heap} {x : CBuffer} {uOffset uOldLength uLength : Nat} (hrem : Removed h x uOffset uOldLength h')
include hrem

theorem Removed.capacity : (x.rest uOldLength).getCapacity h' = (x.rest uOldLength).getCapacity h := by
  unfold CBuffer.getCapacity
  rw [hrem.length]

/-- What decides about an insertion is as it was before the removal. -/
theorem Removed.refuses_iff : (x.rest uOldLength).Refuses h' uLength ↔ (x.rest uOldLength).Refuses h uLength := by
  unfold CBuffer.Refuses
  rw [hrem.capacity, hrem.shared]

theorem Removed.takes_iff :
    (x.rest uOldLength).Takes h' uOffset uLength ↔ (x.rest uOldLength).Takes h uOffset uLength := by
  unfold CBuffer.Takes CBuffer.HasRoom
  rw [hrem.capacity, hrem.length, hrem.grants, hrem.next]

end Replace

section Replace

variable {h : Heap} {x : CBuffer} (ho : Owned h x) {uOffset uOldLength : Nat} {src : Src}
include ho

theorem replaceData_honest_iff (hoff : uOffset < 2 ^ 64) (hold : uOldLength < 2 ^ 64) (hlen : src.uLength < 2 ^ 64) :
    (Splice.replaceData uOffset uOldLength src).Honest h x ↔
      (Splice.replaceData uOffset uOldLength src).Fits h x := by
  have hview := ho.obj.length_view
  unfold Splice.Fits
  simp only
  by_cases hk : x.Keeps uOffset uOldLength
  · refine ⟨fun _ => .inl hk, fun _ => ⟨h, x, false, ?_, rfl, rfl, rfl⟩⟩
    simp only [Splice.run]
    unfold replaceData
    rw [removeData_keeps hk, Option.bind_some]
  by_cases hd : x.Drops uOffset uOldLength
  · obtain ⟨h₁, hrem⟩ := removeData_drops ho hk hd
    have hrun : ∀ {res}, (Splice.replaceData uOffset uOldLength src).run (h, x) = res ↔
        insertData (h₁, x.rest uOldLength) uOffset src = res := fun {res} => by
      simp only [Splice.run]
      rw [replaceData_eq hrem.run]
    have hspan := hrem.span
    have hsize := hrem.size
    have htakelen : ((x.view h).take uOffset).length = uOffset := by
      rw [List.length_take, hview]
      omega
    -- without memory there was nothing to take out
    have hnull : (x.rest uOldLength).p = none → spanOf x.uSize uOffset uOldLength = 0 ∧ (x.rest uOldLength).uSize = x.uSize :=
      fun hp => by
        have hroom := ho.obj.lenLe
        rw [data_null (show x.p = none from hp), List.length_nil] at hroom
        omega
    have hsame : spanOf x.uSize uOffset uOldLength = 0 → (x.rest uOldLength).view h₁ = x.view h := fun h0 => by
      rw [hrem.view, h0, Nat.add_zero, List.take_append_drop]
    by_cases hr : (x.rest uOldLength).Refuses h src.uLength
    · have hfalse := hrun.2 (insertData_refused (hrem.refuses_iff.2 hr))
      constructor
      · rintro ⟨h', x', r, hrun', hdone⟩
        rw [hfalse] at hrun'
        cases hrun'
        exact .inr ⟨hd, .inl ⟨hr, hdone.2.1⟩⟩
      · rintro (hk' | ⟨-, ⟨-, heq⟩ | ⟨hno, -⟩⟩)
        · exact absurd hk' hk
        · exact ⟨_, _, false, hfalse, hsame (by omega), heq, rfl⟩
        · exact absurd hr hno
    · have hr₁ := fun hre => hr (hrem.refuses_iff.1 hre)
      constructor
      · rintro ⟨h', x', r, hrun', hdone⟩
        refine .inr ⟨hd, .inr ⟨hr, hrem.takes_iff.1 (takes_of_insertData hrem.owned hr₁ hlen (hrun.1 hrun')
          (fun hr => ?_) fun hr hp => ?_)⟩⟩
        · rw [if_pos hr] at hdone
          obtain ⟨⟨-, bytes, ⟨hgives, -⟩, hnew⟩, hsize'⟩ := hdone
          have hnewlen := congrArg List.length hnew
          rw [List.length_append, List.length_append, htakelen, List.length_drop, ← hsize', hview] at hnewlen
          exact ⟨by omega, by omega, hsize'⟩
        · rw [hr, if_neg Bool.noConfusion] at hdone
          rw [hdone.2.1, (hnull hp).2]
      · rintro (hk' | ⟨-, ⟨hre, -⟩ | ⟨-, ht⟩⟩)
        · exact absurd hk' hk
        · exact absurd hre hr
        · obtain ⟨h', x', r, bytes, hins, hgives, hnew, hsize', hstay⟩ :=
            insertData_takes hrem.owned hr₁ (hrem.takes_iff.2 ht)
          refine ⟨h', x', r, hrun.2 hins, ?_⟩
          cases r with
          | true =>
            have hnew' : x'.view h' = (x.view h).take uOffset ++ bytes ++
                (x.view h).drop (uOffset + spanOf x.uSize uOffset uOldLength) := by
              rw [hnew, hrem.view, List.take_left' htakelen, List.drop_left' htakelen]
            refine ⟨⟨by rw [hview]; exact hspan, bytes, hgives, by rw [hview]; exact hnew'⟩, ?_⟩
            rw [hnew', hsize', List.length_append, List.length_append, htakelen, List.length_drop, hview, hgives.1]
            omega
          | false =>
            obtain ⟨rfl, rfl⟩ := hstay rfl
            obtain ⟨h0, heq⟩ := hnull ((insertData_reports hrem.owned hr₁ hlen hins).2.1 rfl).1
            exact ⟨hsame h0, heq, rfl⟩
  · constructor
    · rintro ⟨h', x', r, hrun', hdone⟩
      exfalso
      obtain ⟨⟨⟨h₁, x₁⟩, r₁⟩, hrem, hins⟩ := Option.bind_eq_some_iff.1 hrun'
      obtain ⟨rfl, hne, hout, hwrong⟩ := removeData_outside ho hk hd hoff hold hrem
      cases r with
      | true =>
        have hspan := hdone.1.1
        rw [hview] at hspan
        omega
      | false =>
        cases insertData_false hne hins
        exact hwrong hdone.2.1
    · rintro (hk' | ⟨hd', -⟩)
      · exact absurd hk' hk
      · exact absurd hd' hd

/-- A shift always does what it reports. -/
theorem shiftData_honest : (Splice.shiftData uOffset).Honest h x := by
  have hview := ho.obj.length_view
  have hsz := ho.obj.lenLe
  by_cases hno : x.p = none ∨ x.uSize < uOffset
  · exact ⟨h, x, false, if_pos hno, rfl, rfl, rfl⟩
  obtain ⟨h', hmove, hm⟩ := memMove_spec ho.apart (show uOffset + (x.uSize - uOffset) ≤ _ by omega)
    (show 0 + (x.uSize - uOffset) ≤ _ by omega)
    (.inr (.inr (.inl (Nat.zero_le _))))
  refine ⟨h', { x with
    uSize := x.uSize - uOffset, uPosition := if uOffset < x.uPosition then x.uPosition - uOffset else 0 }, true, ?_, ?_⟩
  · change shiftData (h, x) uOffset = _
    unfold shiftData
    rw [if_neg hno]
    have hmove' : CBuffer.memMove h { x with uSize := x.uSize - uOffset } 0 uOffset (x.uSize - uOffset) = some h' := hmove
    simp only
    rw [hmove', Option.map_some]
  · have hslice : (slice (x.data h) uOffset (x.uSize - uOffset)).length = x.uSize - uOffset := length_slice (by omega)
    have hdrop : slice (x.data h') 0 (x.uSize - uOffset) = (x.view h).drop uOffset := by
      rw [← slice_behind]
      apply List.ext_getElem?
      intro k
      rw [getElem?_slice, hm.cells, hslice]
      by_cases hk : k < x.uSize - uOffset
      · rw [if_pos hk, if_pos (by omega), Nat.zero_add, Nat.sub_zero]
      · rw [if_neg hk, List.getElem?_eq_none (by omega)]
    refine ⟨⟨by omega, hdrop⟩, ?_⟩
    change x.uSize - uOffset = (slice (x.data h') 0 (x.uSize - uOffset)).length
    rw [hdrop, List.length_drop, hview]

end Replace

/-- A splice does what it reports just in the listed cases. -/
theorem splice_honest_iff {h : Heap} {x : CBuffer} {s : Splice} (ho : Owned h x) (hs : s.Sized) :
    s.Honest h x ↔ s.Fits h x := by
  cases s with
  | insertData uOffset src => exact insertData_honest_iff ho hs.2
  | removeData uOffset uLength => exact removeData_honest_iff ho hs.1 hs.2
  | replaceData uOffset uOldLength src => exact replaceData_honest_iff ho hs.1 hs.2.1 hs.2.2
  | shiftData uOffset => exact ⟨fun _ => trivial, fun _ => shiftData_honest ho⟩

/-- Memory with the bytes `abcd` in it. -/
def lentHeap : Heap := ⟨fun i => if i = 0 then some ⟨0, [97, 98, 99, 100]⟩ else none, 1, fun _ => true, fun _ _ => 0⟩

/-- A buffer over borrowed memory, it cannot grow. -/
def lent : CBuffer := ⟨true, false, true, false, 0, some 0, 4, 0⟩

theorem owned_lent : Owned lentHeap lent := by
  have hdata : lent.data lentHeap = [97, 98, 99, 100] := rfl
  refine ⟨⟨fun i hi => ?_, ?_, ?_, fun hp => ?_, fun _ => ⟨rfl, rfl⟩, Nat.two_pow_pos 32⟩, fun hc => ?_, fun i hi => ?_⟩
  · cases hi
    exact ⟨Nat.one_pos, _, rfl, fun hc => Bool.noConfusion hc⟩
  · rw [hdata]
    exact Nat.le_refl 4
  · rw [hdata]
    exact Nat.lt_trans (by decide) (Nat.lt_two_pow_self (n := 64))
  · cases hp
  · cases hc
  · exact if_neg (Nat.ne_of_gt hi)

/-- Two bytes can be taken out of the borrowed memory. -/
theorem lent_removed : (Splice.removeData 1 2).Honest lentHeap lent := by
  have hfits : (Splice.removeData 1 2).Fits lentHeap lent := by
    refine .inr ?_
    unfold CBuffer.Drops
    rw [if_neg (by unfold npos; omega)]
    exact Nat.le_of_ble_eq_true rfl
  exact (splice_honest_iff (s := .removeData 1 2) owned_lent ⟨by omega, by omega⟩).2 hfits

theorem rest_lent : lent.rest 2 = { lent with uSize := 2 } := by
  unfold CBuffer.rest npos
  rfl

/-- Three bytes do not go where two were: the two are gone, and the call reports failure. -/
theorem not_honest_lent : ¬ (Splice.replaceData 0 2 (.data [120, 121, 122])).Honest lentHeap lent := by
  have hcap : (lent.rest 2).getCapacity lentHeap = 2 := by
    rw [rest_lent]
    exact sizeT_eq (n := 2) (by omega)
  have hrefuses : (lent.rest 2).Refuses lentHeap 3 := by
    refine .inr ⟨rfl, .inl ?_⟩
    rw [hcap, rest_lent, sizeT_eq (show 2 + 3 < 2 ^ 64 by omega)]
    omega
  have hlen : (Src.data [120, 121, 122]).uLength < 2 ^ 64 := show 3 < 2 ^ 64 by omega
  rw [replaceData_honest_iff owned_lent (by omega) (by omega) hlen]
  rintro ((hread | ⟨-, hbig⟩) | ⟨-, ⟨-, hsize⟩ | ⟨hno, -⟩⟩)
  · cases hread
  · rw [sizeT_eq (by omega)] at hbig
    exact absurd hbig (by decide)
  · rw [rest_lent] at hsize
    cases hsize
  · exact hno hrefuses

end MajorPrivacy.Buffer

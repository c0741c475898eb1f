/-
`WriteString` and `ReadString` on a buffer. A buffer that is not shared stays so when it is written to; what was
written is read from where it was written, and the string read is what the texts make of the bytes.
-/
import MajorPrivacy.Buffer.Calls
import MajorPrivacy.Buffer.Texts

namespace MajorPrivacy.Buffer

open Memory LittleEndian Variant

/-! ## The functions -/

/-- `RawString.ConstData()` with its length. -/
def StringA.src : StringA → Src
  | none => .null 0
  | some data => .data data

def writeString (st : St) (str : List UInt16) (set : EStrSet) (len : EStrLen) : Option (St × Bool) :=
  (rawString str set).bind fun raw =>
    (writeData st (.data (toLE len.width (raw.getD []).length))).bind fun
      | (st, false) => some (st, false)
      | (st, true) => writeData st raw.src

/-- `ReadData`, the bytes behind the pointer it returns. -/
def readData (h : Heap) (x : CBuffer) (uLength : Nat) : Option (StringA × CBuffer) :=
  let uLength := if uLength = npos then sizeSub x.uSize x.uPosition else uLength
  if x.uSize < sizeT (x.uPosition + uLength) then some (none, x)
  else
    (x.peek h x.uPosition uLength).map fun bytes =>
      (if x.pointer x.uPosition then some bytes else none, { x with uPosition := sizeT (x.uPosition + uLength) })

/-- `ReadValue`, zero if there are not as many bytes. -/
def readValue (h : Heap) (x : CBuffer) (size : Nat) : Option (Nat × CBuffer) :=
  (readData h x size).map fun r => (ofLE (r.1.getD []), r.2)

/-- `ReadString` of so many bytes. -/
def readStringOf (behind : Nat → UInt8) (h : Heap) (x : CBuffer) (set : EStrSet) (uRawLength : Nat) : Option (List UInt16 × CBuffer) :=
  let uRawLength := if uRawLength = npos then sizeSub x.uSize x.uPosition else uRawLength
  (readData h x uRawLength).map fun r => (textOf behind set r.1, r.2)

def readString (behind : Nat → UInt8) (h : Heap) (x : CBuffer) (set : EStrSet) (len : EStrLen) : Option (List UInt16 × CBuffer) :=
  (readValue h x len.width).bind fun r => readStringOf behind h r.2 set r.1

/-! ## A buffer that is not shared -/

structure Single (h : Heap) (x : CBuffer) : Prop where
  fresh : ∀ i, h.next ≤ i → h.blocks i = none
  live : ∀ i, x.p = some i → i < h.next
  single : x.shared h = false

/-- What a step leaves of such a buffer, and of the memory that can be had. -/
def StaysSingle (h : Heap) (st : St) : Prop := st.1.grants = h.grants ∧ Single st.1 st.2

theorem Single.sized {h : Heap} {x : CBuffer} (hs : Single h x) (uSize uPosition uPreAllocated : Nat) :
    Single h { x with uSize, uPosition, uPreAllocated } := ⟨hs.fresh, hs.live, hs.single⟩

theorem Heap.grants_write {h h' : Heap} {i off : Nat} {data : List UInt8} (hw : h.write i off data = some h') :
    h'.grants = h.grants ∧ h'.next = h.next ∧
      ∀ j blk', h'.blocks j = some blk' → ∃ blk, h.blocks j = some blk ∧ blk'.refs = blk.refs := by
  unfold Heap.write at hw
  cases hb : h.blocks i with
  | none =>
    rw [hb] at hw
    cases hw
  | some blk =>
    rw [hb] at hw
    obtain ⟨data', -, rfl⟩ := Option.map_eq_some_iff.1 hw
    refine ⟨rfl, rfl, ?_⟩
    intro j blk' hj
    by_cases hji : j = i
    · subst hji
      cases Option.some.inj ((if_pos rfl).symm.trans hj)
      exact ⟨blk, hb, rfl⟩
    · exact ⟨blk', (if_neg hji).symm.trans hj, rfl⟩

theorem copyTo_single {h h' : Heap} {x : CBuffer} {i : Nat} (hc : copyTo h x i = some h') :
    h'.grants = h.grants ∧ h'.next = h.next ∧
      ∀ j blk', h'.blocks j = some blk' → ∃ blk, h.blocks j = some blk ∧ blk'.refs = blk.refs := by
  unfold copyTo at hc
  split_ifs at hc
  · obtain ⟨data, -, hw⟩ := Option.bind_eq_some_iff.1 hc
    exact Heap.grants_write hw
  · cases hc
    exact ⟨rfl, rfl, fun j blk' hj => ⟨blk', hj, rfl⟩⟩

/-- Letting go of the memory changes nothing but the block the object had. -/
theorem detachData_single {h : Heap} {x : CBuffer} {st : St} (hd : detachData (h, x) = some st) :
    st.1.grants = h.grants ∧ st.1.next = h.next ∧ (∀ j, x.p ≠ some j → st.1.blocks j = h.blocks j) ∧
      ∀ j, h.blocks j = none → st.1.blocks j = none := by
  cases hp : x.p with
  | none =>
    rw [detachData_null hp] at hd
    cases hd
    exact ⟨rfl, rfl, fun _ _ => rfl, fun _ hj => hj⟩
  | some i =>
    cases hb : h.blocks i with
    | none =>
      unfold detachData at hd
      simp only [hp, hb] at hd
      cases hd
    | some blk =>
      rw [detachData_some hp hb] at hd
      cases hd
      have hset : ∀ blk', (h.set i blk').grants = h.grants ∧ (h.set i blk').next = h.next ∧
          (∀ j, some i ≠ some j → (h.set i blk').blocks j = h.blocks j) ∧
            ∀ j, h.blocks j = none → (h.set i blk').blocks j = none := by
        intro blk'
        refine ⟨rfl, rfl, ?_, ?_⟩
        · intro j hj
          exact if_neg fun h => hj (congrArg some h.symm)
        · intro j hj
          exact (if_neg fun h => by rw [h, hb] at hj; cases hj).trans hj
      split_ifs
      · exact hset _
      · exact hset _
      · exact hset _
      · exact ⟨rfl, rfl, fun _ _ => rfl, fun _ hj => hj⟩

theorem memAlloc_grants (h : Heap) (size : Nat) : (h.memAlloc size).2.grants = h.grants := by
  unfold Heap.memAlloc
  split_ifs <;> rfl

/-- Fresh memory with the bytes of the object, before the object has it. -/
theorem copied_single {h h₁ h₂ : Heap} {x : CBuffer} (hs : Single h x) {cap i : Nat} {st : St}
    (halloc : h.memAlloc cap = (some i, h₁)) (hcopy : copyTo h₁ x i = some h₂) (hd : detachData (h₂, x) = some st) :
    i = h.next ∧ st.1.grants = h.grants ∧ st.1.next = h.next + 1 ∧ (∀ j, h.next + 1 ≤ j → st.1.blocks j = none) ∧
      ∀ blk, st.1.blocks i = some blk → blk.refs = 0 := by
  obtain ⟨hg, hn, hblocks⟩ := copyTo_single hcopy
  obtain ⟨hg', hn', hother, hnone⟩ := detachData_single hd
  have hgrants := memAlloc_grants h cap
  unfold Heap.memAlloc at halloc hgrants
  split_ifs at halloc hgrants
  · cases halloc
    refine ⟨rfl, hg'.trans (hg.trans hgrants), hn'.trans hn, ?_, ?_⟩
    · intro j hj
      apply hnone
      cases hb : h₂.blocks j with
      | none => rfl
      | some blk' =>
        obtain ⟨blk, hblk, -⟩ := hblocks j blk' hb
        have hj' : h.blocks j = some blk := (if_neg (show j ≠ h.next by omega)).symm.trans hblk
        rw [hs.fresh j (by omega)] at hj'
        cases hj'
    · intro blk' hb
      rw [hother h.next fun hp => Nat.lt_irrefl _ (hs.live _ hp)] at hb
      obtain ⟨blk, hblk, hrefs⟩ := hblocks _ _ hb
      cases Option.some.inj ((if_pos rfl).symm.trans hblk)
      exact hrefs
  · cases halloc

/-- A request that is not granted. -/
theorem refused_single {h h₁ : Heap} {x : CBuffer} (hs : Single h x) {cap : Nat} (halloc : h.memAlloc cap = (none, h₁)) :
    StaysSingle h (h₁, x) := by
  unfold Heap.memAlloc at halloc
  split_ifs at halloc
  · cases halloc
  · cases halloc
    exact ⟨rfl, fun j hj => hs.fresh j (Nat.le_of_succ_le hj), fun j hj => Nat.lt_succ_of_lt (hs.live j hj), hs.single⟩

theorem reAllocDetachable_single {h : Heap} {x : CBuffer} (hs : Single h x) {cap : Nat} {st : St} {r : Bool}
    (hrun : reAllocDetachable (h, x) cap = some (st, r)) : StaysSingle h st := by
  unfold reAllocDetachable at hrun
  simp only at hrun
  cases halloc : h.memAlloc cap with
  | mk o h₁ =>
    rw [halloc] at hrun
    cases o with
    | none =>
      cases hrun
      exact refused_single hs halloc
    | some i =>
      obtain ⟨h₂, hcopy, hrun⟩ := Option.bind_eq_some_iff.1 hrun
      obtain ⟨st', hd, hrun⟩ := Option.map_eq_some_iff.1 hrun
      cases hrun
      obtain ⟨rfl, hg, hn, hnone, -⟩ := copied_single hs halloc hcopy hd
      refine ⟨hg, ?_, ?_, ?_⟩
      · intro j hj
        exact hnone j (hn ▸ hj)
      · rintro j ⟨⟩
        exact Nat.lt_of_lt_of_eq (Nat.lt_succ_self _) hn.symm
      · unfold CBuffer.shared CBuffer.isContainerized
        simp only [Bool.not_true, Bool.and_false, Bool.false_and]

theorem reAllocShared_single {h : Heap} {x : CBuffer} (hs : Single h x) {cap : Nat} {st : St} {r : Bool}
    (hrun : reAllocShared (h, x) cap = some (st, r)) : StaysSingle h st := by
  unfold reAllocShared Heap.makeData at hrun
  simp only at hrun
  split_ifs at hrun
  cases halloc : h.memAlloc cap with
  | mk o h₁ =>
    rw [halloc] at hrun
    cases o with
    | none =>
      cases hrun
      exact refused_single hs halloc
    | some i =>
      obtain ⟨h₂, hcopy, hrun⟩ := Option.bind_eq_some_iff.1 hrun
      obtain ⟨st', hattach, hrun⟩ := Option.map_eq_some_iff.1 hrun
      cases hrun
      unfold attachData at hattach
      cases hd : detachData (h₂, x) with
      | none =>
        rw [hd] at hattach
        cases hattach
      | some st₀ =>
        obtain ⟨rfl, hg, hn, hnone, hrefs⟩ := copied_single hs halloc hcopy hd
        rw [hd] at hattach
        simp only at hattach
        cases hb : st₀.1.blocks h.next with
        | none =>
          rw [hb] at hattach
          cases hattach
        | some blk =>
          rw [hb] at hattach
          cases hattach
          refine ⟨hg, ?_, ?_, ?_⟩
          · intro j hj
            have hj' : h.next + 1 ≤ j := hn ▸ hj
            exact (if_neg (show j ≠ h.next by omega)).trans (hnone j hj')
          · rintro j ⟨⟩
            exact Nat.lt_of_lt_of_eq (Nat.lt_succ_self _) hn.symm
          · -- the new block counts one reference
            have hblk : CBuffer.block (st₀.1.set h.next (some { blk with refs := blk.refs + 1 })) { st₀.2 with p := some h.next } =
                some { blk with refs := blk.refs + 1 } := if_pos rfl
            unfold CBuffer.shared
            rw [hblk, Option.any_some, hrefs blk hb]
            exact Bool.and_false _

theorem reAllocBuffer_single {h : Heap} {x : CBuffer} (hs : Single h x) {cap : Nat} {st : St} {r : Bool}
    (hrun : reAllocBuffer (h, x) cap = some (st, r)) : StaysSingle h st := by
  unfold reAllocBuffer at hrun
  split_ifs at hrun
  · exact reAllocDetachable_single hs hrun
  · exact reAllocShared_single hs hrun

theorem putSize_single {h : Heap} {x : CBuffer} (hs : Single h x) {uSize uPreAlloc uCapacity : Nat} {st : St} {r : Bool}
    (hrun : putSize (h, x) uSize uPreAlloc uCapacity = some (st, r)) : StaysSingle h st := by
  unfold putSize at hrun
  simp only at hrun
  split_ifs at hrun
  · obtain ⟨r', hre, hrun⟩ := Option.map_eq_some_iff.1 hrun
    cases hrun
    exact reAllocBuffer_single (hs.sized uSize _ _) hre
  · cases hrun
    exact ⟨rfl, hs.sized _ _ _⟩
  · cases hrun
    exact ⟨rfl, hs.sized _ _ _⟩

theorem setSize_single {h : Heap} {x : CBuffer} (hs : Single h x) {uSize uPreAlloc : Nat} {bExpend : Bool} {st : St} {r : Bool}
    (hrun : setSize (h, x) uSize bExpend uPreAlloc = some (st, r)) : StaysSingle h st := by
  unfold setSize at hrun
  simp only at hrun
  split_ifs at hrun
  · cases hrun
    exact ⟨rfl, hs⟩
  · obtain ⟨r', hre, hrun⟩ := Option.bind_eq_some_iff.1 hrun
    obtain ⟨hg, hs'⟩ := reAllocBuffer_single hs hre
    obtain ⟨hg', hs''⟩ := putSize_single hs' hrun
    exact ⟨hg'.trans hg, hs''⟩
  · obtain ⟨r', hre, hrun⟩ := Option.bind_eq_some_iff.1 hrun
    obtain ⟨hg, hs'⟩ := reAllocBuffer_single hs hre
    obtain ⟨hg', hs''⟩ := putSize_single hs' hrun
    exact ⟨hg'.trans hg, hs''⟩
  · exact putSize_single hs hrun

theorem prepareWrite_single {h : Heap} {x : CBuffer} (hs : Single h x) {uOffset uLength : Nat} {st : St} {r : Bool}
    (hrun : prepareWrite (h, x) uOffset uLength = some (st, r)) : StaysSingle h st := by
  unfold prepareWrite at hrun
  simp only at hrun
  split_ifs at hrun
  all_goals first
    | exact setSize_single hs hrun
    | (cases hrun; exact ⟨rfl, hs⟩)
    | (cases hrun; exact ⟨rfl, hs.sized _ _ _⟩)

/-- A buffer of one owner that can be written to and finds the memory to grow. -/
structure Alone (h : Heap) (x : CBuffer) : Prop where
  apart : Apart h x .empty
  single : x.shared h = false
  granted : ∀ i, h.grants i = true
  writable : x.bReadOnly = false
  grows : x.bFixed = false

theorem Alone.toSingle {h : Heap} {x : CBuffer} (ha : Alone h x) : Single h x :=
  ⟨ha.apart.fresh, fun i hi => (ha.apart.left.live i hi).1, ha.single⟩

theorem poke_single {h h' : Heap} {x : CBuffer} (hs : Single h x) {off : Nat} {data : Bytes} (hp : x.poke h off data = some h') :
    StaysSingle h (h', x) := by
  unfold CBuffer.poke at hp
  split_ifs at hp
  · cases hp
    exact ⟨rfl, hs⟩
  · obtain ⟨i, -, hw⟩ := Option.bind_eq_some_iff.1 hp
    obtain ⟨hg, hn, hblocks⟩ := Heap.grants_write hw
    refine ⟨hg, ?_, ?_, ?_⟩
    · intro j hj
      cases hb : h'.blocks j with
      | none => rfl
      | some blk' =>
        obtain ⟨blk, hblk, -⟩ := hblocks j blk' hb
        rw [hs.fresh j (hn ▸ hj)] at hblk
        cases hblk
    · intro j hj
      exact Nat.lt_of_lt_of_eq (hs.live j hj) hn.symm
    · have hsingle := hs.single
      unfold CBuffer.shared at hsingle ⊢
      cases hp : x.p with
      | none =>
        unfold CBuffer.isContainerized
        rw [hp, Option.isSome_none, Bool.and_false, Bool.false_and]
      | some k =>
        rw [block_eq hp] at hsingle ⊢
        cases hb : h'.blocks k with
        | none => exact Bool.and_false _
        | some blk' =>
          obtain ⟨blk, hblk, hrefs⟩ := hblocks k blk' hb
          rw [hblk, Option.any_some] at hsingle
          rw [Option.any_some, hrefs]
          exact hsingle

theorem Plain.prepareWrite_flags {p q : Plain} {uOffset uLength : Nat} (h : p.prepareWrite uOffset uLength = some q) :
    q.bFixed = p.bFixed ∧ q.bReadOnly = p.bReadOnly := by
  unfold Plain.prepareWrite at h
  split_ifs at h <;> cases h <;> exact ⟨rfl, rfl⟩

/-- A write at the position of such a buffer. -/
structure Written (h : Heap) (x : CBuffer) (bytes : Bytes) (uLength : Nat) (h' : Heap) (x' : CBuffer) : Prop where
  alone : Alone h' x'
  position : x'.uPosition = x.uPosition + uLength
  size : x'.uSize = max x.uSize (x.uPosition + uLength)
  before : ∀ k < x.uPosition, (x'.data h')[k]? = (x.data h)[k]?
  bytes : slice (x'.data h') x.uPosition bytes.length = bytes

theorem writeData_alone {h : Heap} {x : CBuffer} (ha : Alone h x) (hpos : x.uPosition ≤ x.uSize) (src : Src)
    (hlen : src.bytes.length ≤ src.uLength) (hc : (plain h x).Counts x.uPosition src.uLength)
    (hptr : src.bytes = [] → 0 < x.uPosition) :
    ∃ h' x', writeData (h, x) src = some ((h', x'), true) ∧ Written h x src.bytes src.uLength h' x' := by
  have hr := refines_plain ha.apart.left
  have hs : WriteSafe h x .empty x.uPosition src.uLength (Src.first x.uPosition src.bytes) :=
    ⟨fun _ _ _ => ha.granted _, fun _ hsh => absurd hsh (by rw [ha.single]; exact Bool.noConfusion), fun _ _ _ _ _ => Nat.zero_le _⟩
  obtain ⟨-, hnone⟩ | ⟨h₁, x₁, q, hprep⟩ := prepareWrite_spec ha.apart hr hc hs
  · unfold Plain.prepareWrite at hnone
    rw [hr.readOnly, hr.fixed, ha.writable, ha.grows] at hnone
    simp only [Bool.false_eq_true, if_false] at hnone
    split_ifs at hnone
  · obtain ⟨hg, hs₁⟩ := prepareWrite_single ha.toSingle hprep.run
    have hpos₁ := hprep.position (by omega)
    have hroom := hprep.stepped.apart.left.lenLe
    have hsize := hprep.size
    obtain ⟨h₂, hpoke, hpoked⟩ : ∃ h₂, x₁.poke h₁ x.uPosition src.bytes = some h₂ ∧ Poked h₁ h₂ x₁ .empty x.uPosition src.bytes :=
      poke_spec hprep.stepped.apart (by omega) (.inr (.inr (.inl (Nat.zero_le _))))
    obtain ⟨hg₂, hs₂⟩ := poke_single hs₁ hpoke
    obtain ⟨hfixed, hread⟩ := Plain.prepareWrite_flags hprep.plain
    have hsum : sizeT (x₁.uPosition + src.uLength) = x.uPosition + src.uLength := by
      rw [hpos₁]
      exact sizeT_eq hc.1
    have hptr₁ : x₁.pointer x.uPosition = true := by
      unfold CBuffer.pointer
      by_cases hnil : src.bytes = []
      · exact Bool.or_eq_true_iff.2 (.inr (bne_iff_ne.2 (Nat.ne_of_gt (hptr hnil))))
      · unfold CBuffer.poke at hpoke
        rw [if_neg hnil] at hpoke
        obtain ⟨i, hi, -⟩ := Option.bind_eq_some_iff.1 hpoke
        rw [hi]
        rfl
    refine ⟨h₂, { x₁ with uPosition := x.uPosition + src.uLength }, ?_, ?_, rfl, hsize, ?_, ?_⟩
    · unfold writeData putAt
      rw [hprep.run]
      simp only [Option.bind_some]
      rw [hpos₁, hpoke]
      simp only [Option.map_some]
      rw [hsum, hptr₁]
    · refine ⟨hpoked.apart.resize hpoked.apart.left.room (.inl (Nat.le_refl _)) hpoked.apart.left.uint32, hs₂.single, ?_, ?_, ?_⟩
      · intro i
        rw [hg₂, hg]
        exact ha.granted i
      · change x₁.bReadOnly = false
        rw [← hprep.stepped.refines.readOnly, hread]
        exact ha.writable
      · change x₁.bFixed = false
        rw [← hprep.stepped.refines.fixed, hfixed]
        exact ha.grows
    · intro k hk
      change (x₁.data h₂)[k]? = _
      rw [hpoked.cells, if_neg (by omega)]
      exact hprep.bytes k (by omega)
    · change slice (x₁.data h₂) x.uPosition src.bytes.length = src.bytes
      apply List.ext_getElem?
      intro k
      rw [getElem?_slice]
      split
      · rw [hpoked.cells, if_pos (by omega)]
        congr 1
        omega
      · exact (List.getElem?_eq_none (by omega)).symm

/-! ## Reading what was written -/

theorem npos_eq : npos = 2 ^ 64 - 1 := by
  unfold npos
  rfl

theorem counts_of_small {h : Heap} {x : CBuffer} (ho : Obj h x) {uOffset uLength : Nat} (hoff : uOffset < 2 ^ 61) (hlen : uLength < 2 ^ 61)
    (hsize : x.uSize < 2 ^ 61) : (plain h x).Counts uOffset uLength := by
  have hpre : preAlloc uLength (plain h x).size < 2 ^ 62 := by
    have hmod : sizeT (uLength * 2) ≤ uLength * 2 := by
      unfold sizeT
      exact Nat.mod_le _ _
    rw [(refines_plain ho).size]
    unfold preAlloc
    omega
  unfold Plain.Counts sBufferSize
  exact ⟨by omega, fun _ => by omega⟩

theorem readData_alone {h : Heap} {x : CBuffer} (ho : Obj h x) (uLength : Nat) (hle : x.uPosition + uLength ≤ x.uSize)
    (hpos : 0 < x.uPosition + uLength) (hsize : x.uSize < 2 ^ 62) :
    readData h x uLength = some (some (slice (x.data h) x.uPosition uLength), { x with uPosition := x.uPosition + uLength }) := by
  have hroom := ho.lenLe
  have hptr : x.pointer x.uPosition = true := by
    unfold CBuffer.pointer
    cases hp : x.p with
    | none =>
      rw [data_null hp] at hroom
      simp only [List.length_nil] at hroom
      omega
    | some i => rfl
  unfold readData
  simp only
  rw [if_neg (show uLength ≠ npos by rw [npos_eq]; omega), sizeT_eq (show x.uPosition + uLength < 2 ^ 64 by omega), if_neg (by omega),
    peek_eq ho (by omega), Option.map_some, hptr]
  rfl

/-- The text that is read where a text was written. -/
theorem readString_writeString (behind : Nat → UInt8) {h : Heap} {x : CBuffer} (ha : Alone h x) (hpos : x.uPosition ≤ x.uSize)
    (hsize : x.uSize < 2 ^ 60) {str : List UInt16} {set : EStrSet} (len : EStrLen) {raw : StringA} (hraw : rawString str set = some raw)
    (hlen : (raw.getD []).length < 2 ^ 60) :
    ∃ h' x' x'', writeString (h, x) str set len = some ((h', x'), true) ∧
      setPosition (h', x') x.uPosition = some ((h', { x' with uPosition := x.uPosition }), true) ∧
        readString behind h' { x' with uPosition := x.uPosition } set len = some (readBack behind set len.width raw, x'') := by
  have hw : 1 ≤ len.width ∧ len.width ≤ 4 := by
    cases len <;> decide
  have hsrc : (StringA.src raw).bytes = raw.getD [] ∧ (StringA.src raw).uLength = (raw.getD []).length := by
    cases raw <;> exact ⟨rfl, rfl⟩
  have hbegins : (toLE len.width (raw.getD []).length).length = len.width := length_toLE _ _
  have hnil : toLE len.width (raw.getD []).length ≠ [] := fun h => by
    rw [h] at hbegins
    simp only [List.length_nil] at hbegins
    omega
  -- the length in front
  obtain ⟨h₁, x₁, hrun₁, hw₁⟩ := writeData_alone ha hpos (.data (toLE len.width (raw.getD []).length)) (Nat.le_refl _)
    (counts_of_small ha.apart.left (by omega) (by change (toLE _ _).length < _; omega) (by omega)) fun h => absurd h hnil
  have hpos₁ : x₁.uPosition = x.uPosition + len.width := hw₁.position.trans (congrArg _ hbegins)
  have hsize₁ : x₁.uSize = max x.uSize (x.uPosition + len.width) := by
    rw [hw₁.size]
    exact congrArg _ (congrArg _ hbegins)
  -- the text behind it
  obtain ⟨h₂, x₂, hrun₂, hw₂⟩ := writeData_alone hw₁.alone (by omega) raw.src (Nat.le_of_eq (by rw [hsrc.1, hsrc.2]))
    (counts_of_small hw₁.alone.apart.left (by omega) (by omega) (by omega)) fun _ => by omega
  have hbytes := hw₂.bytes
  have hsize₂ := hw₂.size
  rw [hsrc.1] at hbytes
  rw [hsrc.2] at hsize₂
  have hmoved : ∀ uPosition, Obj h₂ { x₂ with uPosition } := by
    intro uPosition
    have hap : Apart h₂ { x₂ with uPosition } .empty :=
      hw₂.alone.apart.resize hw₂.alone.apart.left.room (.inl (Nat.le_refl _)) hw₂.alone.apart.left.uint32
    exact hap.left
  have hfront : slice (x₂.data h₂) x.uPosition len.width = toLE len.width (raw.getD []).length := by
    have hfirst := hw₁.bytes
    change slice _ _ (toLE len.width (raw.getD []).length).length = toLE len.width (raw.getD []).length at hfirst
    rw [hbegins] at hfirst
    rw [← hfirst]
    apply List.ext_getElem?
    intro k
    rw [getElem?_slice, getElem?_slice]
    split
    · exact hw₂.before _ (by omega)
    · rfl
  have hread₁ := readData_alone (hmoved x.uPosition) len.width (by change x.uPosition + len.width ≤ x₂.uSize; omega)
    (by change 0 < x.uPosition + len.width; omega) (by change x₂.uSize < _; omega)
  have hcut : (raw.getD []).length % 256 ^ len.width ≤ (raw.getD []).length := Nat.mod_le _ _
  have hread₂ := readData_alone (hmoved (x.uPosition + len.width)) ((raw.getD []).length % 256 ^ len.width)
    (by change x.uPosition + len.width + _ ≤ x₂.uSize; omega) (by change 0 < x.uPosition + len.width + _; omega)
    (by change x₂.uSize < _; omega)
  refine ⟨h₂, x₂, { x₂ with uPosition := x.uPosition + len.width + (raw.getD []).length % 256 ^ len.width }, ?_, ?_, ?_⟩
  · unfold writeString
    rw [hraw, Option.bind_some, hrun₁, Option.bind_some]
    exact hrun₂
  · unfold setPosition
    rw [if_neg (by rw [npos_eq]; omega), if_neg (by change ¬ x₂.uSize < x.uPosition; omega)]
  · have hvalue : readValue h₂ { x₂ with uPosition := x.uPosition } len.width =
        some ((raw.getD []).length % 256 ^ len.width, { x₂ with uPosition := x.uPosition + len.width }) := by
      unfold readValue
      rw [hread₁, Option.map_some, Option.getD_some]
      change some (ofLE (slice (x₂.data h₂) x.uPosition len.width), _) = _
      rw [hfront, ofLE_toLE]
    have htext : slice (x₂.data h₂) (x.uPosition + len.width) ((raw.getD []).length % 256 ^ len.width) =
        (raw.getD []).take ((raw.getD []).length % 256 ^ len.width) := by
      rw [← take_slice hcut, ← hpos₁, hbytes]
    unfold readString
    rw [hvalue, Option.bind_some]
    unfold readStringOf
    simp only
    rw [if_neg (by rw [npos_eq]; omega), hread₂, Option.map_some]
    change some (textOf behind set (some (slice (x₂.data h₂) (x.uPosition + len.width) _)), _) = _
    rw [htext]
    rfl

/-! ## Round trips -/

/-- The string is written, the buffer set back, and the same string read. -/
def RoundTrips (behind : Nat → UInt8) (h : Heap) (x : CBuffer) (str : List UInt16) (set : EStrSet) (len : EStrLen) : Prop :=
  ∃ st st' x'', writeString (h, x) str set len = some (st, true) ∧ setPosition st x.uPosition = some (st', true) ∧
    readString behind st'.1 st'.2 set len = some (str, x'')

theorem roundTrips_iff (behind : Nat → UInt8) {h : Heap} {x : CBuffer} (ha : Alone h x) (hpos : x.uPosition ≤ x.uSize)
    (hsize : x.uSize < 2 ^ 60) {str : List UInt16} (hstr : ∀ c ∈ str, c ≠ 0) (hlen : str.length < 2 ^ 58) (set : EStrSet) (len : EStrLen) :
    RoundTrips behind h x str set len ↔ TextReturns str set len.width := by
  have hshort : ∀ raw, rawString str set = some raw → (raw.getD []).length < 2 ^ 60 := by
    have hutf8 := Nat.le_trans (length_toUtf8_le str) (weights_le str)
    intro raw hraw
    cases set with
    | eAscii =>
      cases hraw
      rw [getD_toAscii, List.length_map]
      omega
    | eUtf8 =>
      cases hraw
      rw [getD_toUtf8A]
      omega
    | eUtf8_BOM =>
      unfold rawString toUtf8A at hraw
      simp only at hraw
      split_ifs at hraw
      · cases hraw
      · cases hraw
        have hmark : bom.length = 3 := rfl
        rw [Option.getD_some, List.length_append]
        omega
  have hiff : RoundTrips behind h x str set len ↔ ∃ raw, rawString str set = some raw ∧ readBack behind set len.width raw = str := by
    constructor
    · rintro ⟨st, st', x₃, hwrite, hset, hread⟩
      cases hraw : rawString str set with
      | none =>
        unfold writeString at hwrite
        rw [hraw] at hwrite
        cases hwrite
      | some raw =>
        obtain ⟨h', x', x'', hwrite', hset', hread'⟩ := readString_writeString behind ha hpos hsize len hraw (hshort raw hraw)
        cases hwrite.symm.trans hwrite'
        cases hset.symm.trans hset'
        exact ⟨raw, rfl, congrArg Prod.fst (Option.some.inj (hread'.symm.trans hread))⟩
    · rintro ⟨raw, hraw, hback⟩
      obtain ⟨h', x', x'', hwrite, hset, hread⟩ := readString_writeString behind ha hpos hsize len hraw (hshort raw hraw)
      rw [hback] at hread
      exact ⟨_, _, _, hwrite, hset, hread⟩
  rw [hiff]
  cases set with
  | eAscii =>
    rw [← readBack_ascii behind]
    exact ⟨fun ⟨raw, hraw, h⟩ => Option.some.inj hraw ▸ h, fun h => ⟨_, rfl, h⟩⟩
  | eUtf8 =>
    rw [← readBack_utf8 behind hstr]
    exact ⟨fun ⟨raw, hraw, h⟩ => Option.some.inj hraw ▸ h, fun h => ⟨_, rfl, h⟩⟩
  | eUtf8_BOM =>
    refine ⟨?_, False.elim⟩
    rintro ⟨raw, hraw, h⟩
    unfold rawString toUtf8A at hraw
    simp only at hraw
    by_cases hnil : str = []
    · rw [if_pos hnil] at hraw
      cases hraw
    · rw [if_neg hnil] at hraw
      cases hraw
      exact readBack_bom behind hstr hnil (by cases len <;> decide) h

/-- Text comes back from a buffer, and the byte order mark is skipped where it is, just so often. -/
theorem texts_iff (behind : Nat → UInt8) {h : Heap} {x : CBuffer} (ha : Alone h x) (hpos : x.uPosition ≤ x.uSize)
    (hsize : x.uSize < 2 ^ 60) {str : List UInt16} (hstr : ∀ c ∈ str, c ≠ 0) (hlen : str.length < 2 ^ 58) (set : EStrSet) (len : EStrLen) :
    (RoundTrips behind h x str set len ↔ TextReturns str set len.width) ∧
      ∀ data : Bytes, (∀ c ∈ data, c ≠ 0) →
        ((skipsBom behind (some data) = true ↔ bom <+: data) ↔ (bom <+: data → data.length = 3)) :=
  ⟨roundTrips_iff behind ha hpos hsize hstr hlen set len, fun _ hdata => skipsBom_iff_isPrefix behind hdata⟩

/-- A memory without a block that grants every request. -/
def freshHeap : Heap := ⟨fun _ => none, 0, fun _ => true, fun _ _ => 0⟩

theorem alone_empty : Alone freshHeap .empty :=
  have ho : Obj freshHeap .empty :=
    ⟨fun _ h => (by cases h), Nat.le_refl _, Nat.two_pow_pos 64, fun _ => rfl, fun h => (by cases h), Nat.two_pow_pos 32⟩
  ⟨⟨ho, ho, fun _ h => (by cases h), fun _ _ => rfl⟩, rfl, fun _ => rfl, rfl, rfl⟩

theorem letter_ne_zero : ∀ c ∈ ([0x61] : List UInt16), c ≠ 0 := by
  intro c hc
  rw [List.mem_singleton.1 hc]
  decide

theorem texts_iff_letter :
    (RoundTrips (fun _ => 0) freshHeap .empty [0x61] .eUtf8 .e8Bit ↔ TextReturns [0x61] .eUtf8 1) ∧
      ∀ data : Bytes, (∀ c ∈ data, c ≠ 0) →
        ((skipsBom (fun _ => 0) (some data) = true ↔ bom <+: data) ↔ (bom <+: data → data.length = 3)) :=
  texts_iff (fun _ => 0) alone_empty (Nat.le_refl _) (Nat.two_pow_pos 60) letter_ne_zero (Nat.one_lt_two_pow (by decide)) .eUtf8 .e8Bit

/-- A letter behind the byte order mark does not come back, and the mark is not skipped. -/
theorem not_roundTrips_letter : ¬ RoundTrips (fun _ => 0) freshHeap .empty [0x61] .eUtf8_BOM .e8Bit ∧
    ¬ (skipsBom (fun _ => 0) (some (bom ++ [0x61])) = true ↔ bom <+: bom ++ [0x61]) := by
  constructor
  · intro h
    exact (roundTrips_iff (fun _ => 0) alone_empty (Nat.le_refl _) (Nat.two_pow_pos 60) letter_ne_zero (Nat.one_lt_two_pow (by decide)) .eUtf8_BOM .e8Bit).1 h
  · intro h
    exact absurd (h.2 (List.prefix_append _ _)) (by decide)

end MajorPrivacy.Buffer

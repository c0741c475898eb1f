/-
The mutators, one by one. A call that does not write to what another object shows of a shared block does to
the buffer what it does to a plain one, and the other object sees nothing of it.
-/
import MajorPrivacy.Buffer.Writes

namespace MajorPrivacy.Buffer

open Memory

/-! ## Writes that are safe -/

/-- A write of a range, `lo` is the first byte it changes: there is memory if it grows, and inside the capacity of a
shared block it works out in place and spares what the other object shows. -/
structure WriteSafe (h : Heap) (x y : CBuffer) (uOffset uLength : Nat) (lo : Option Nat) : Prop where
  granted : x.bReadOnly = false → x.bFixed = false → x.getCapacity h < uOffset + uLength → h.grants h.next = true
  inPlace : x.bReadOnly = false → x.shared h = true → uOffset + uLength ≤ x.getCapacity h → InPlace h x uOffset uLength
  spares : x.bReadOnly = false → x.p = y.p → uOffset + uLength ≤ x.getCapacity h → ∀ l, lo = some l → y.uSize ≤ l

/-- The first byte that is copied. -/
def Src.first (uOffset : Nat) (bytes : List UInt8) : Option Nat := if bytes = [] then none else some uOffset

/-- The first byte that an insertion changes. -/
def insertFirst (uSize uOffset : Nat) (src : Src) : Option Nat :=
  if src.uLength = 0 then none
  else
    match src with
    | .data _ => some uOffset
    | .null uLength => if uOffset = uSize then none else some (uOffset + uLength)

/-- The first byte that moves when a range is taken out. -/
def removeFirst (uSize uOffset uLength : Nat) : Option Nat :=
  if uLength = npos ∨ uLength = 0 ∨ uSize ≤ uOffset + uLength then none else some uOffset

/-- A call that does not write to what the other object shows of a shared block. -/
def Safe (h : Heap) (x y : CBuffer) : Op → Prop
  | .writeData src => WriteSafe h x y x.uPosition src.uLength (Src.first x.uPosition src.bytes)
  | .setDataAt uOffset src =>
    let uOffset := if uOffset = npos then x.uSize else uOffset
    WriteSafe h x y uOffset src.uLength (Src.first uOffset src.bytesOrZero)
  | .insertData uOffset src => WriteSafe h x y x.uSize src.uLength (insertFirst x.uSize uOffset src)
  | .appendData data => WriteSafe h x y x.uSize data.length (Src.first x.uSize data)
  | .removeData uOffset uLength =>
    x.bReadOnly = false → x.p = y.p → ∀ l, removeFirst x.uSize uOffset uLength = some l → y.uSize ≤ l
  | .replaceData uOffset uOldLength src =>
    (x.bReadOnly = false → x.p = y.p → ∀ l, removeFirst x.uSize uOffset uOldLength = some l → y.uSize ≤ l) ∧
      ∀ h' x', removeData (h, x) uOffset uOldLength = some ((h', x'), true) →
        WriteSafe h' x' y x'.uSize src.uLength (insertFirst x'.uSize uOffset src)
  | .shiftData uOffset => x.p = y.p → ∀ l, removeFirst x.uSize 0 uOffset = some l → y.uSize ≤ l
  | .setPosition _ => True

/-! ## One call -/

/-- An object that is ready for a write. -/
structure Prepared (h : Heap) (x y : CBuffer) (p : Plain) (uOffset uLength : Nat) (h' : Heap) (x' : CBuffer)
    (q : Plain) : Prop where
  run : prepareWrite (h, x) uOffset uLength = some ((h', x'), true)
  plain : p.prepareWrite uOffset uLength = some q
  stepped : Stepped h y h' x' q
  size : x'.uSize = max x.uSize (uOffset + uLength)
  position : x.uPosition ≤ uOffset + uLength → x'.uPosition = x.uPosition
  bytes : ∀ k < x.uSize, (x'.data h')[k]? = (x.data h)[k]?
  shares : x'.p = y.p → x.p = y.p ∧ x.bReadOnly = false ∧ uOffset + uLength ≤ x.getCapacity h

section Call

variable {h : Heap} {x y : CBuffer} {p : Plain} (ha : Apart h x y) (hr : Refines h x p)
include ha hr

theorem prepareWrite_spec {uOffset uLength : Nat} {lo : Option Nat} (hc : p.Counts uOffset uLength)
    (hs : WriteSafe h x y uOffset uLength lo) :
    (prepareWrite (h, x) uOffset uLength = some ((h, x), false) ∧ p.prepareWrite uOffset uLength = none) ∨
      ∃ h' x' q, Prepared h x y p uOffset uLength h' x' q := by
  by_cases hread : x.bReadOnly = true
  · refine .inl ⟨?_, ?_⟩
    · unfold prepareWrite
      exact if_pos hread
    · unfold Plain.prepareWrite
      rw [hr.readOnly]
      exact if_pos hread
  have hread := Bool.eq_false_iff.2 hread
  by_cases hgrow : x.getCapacity h < uOffset + uLength
  · by_cases hfixed : x.bFixed = true
    · refine .inl ⟨?_, ?_⟩
      · unfold prepareWrite
        simp only
        rw [hread, if_neg Bool.noConfusion, sizeT_eq hc.1,
          if_pos (.inl hgrow), if_pos hfixed]
      · unfold Plain.prepareWrite
        rw [hr.readOnly, hread, if_neg Bool.noConfusion, hr.capacity, if_pos hgrow, hr.fixed, if_pos hfixed]
    · have hfixed := Bool.eq_false_iff.2 hfixed
      obtain ⟨h', x', q, hrun, hplain, hstep, hsize, hpos, hsep, hbytes⟩ :=
        grow_spec ha hr hc hgrow hfixed hread (hs.granted hread hfixed hgrow)
      have := ha.left.size_le_capacity
      exact .inr ⟨h', x', q, hrun, hplain, hstep, by omega, fun hle => by omega, hbytes, fun hp => absurd hp hsep⟩
  · obtain ⟨x', q, hrun, hplain, hstep, hsize, hpos, hp, hdata⟩ :=
      stay_spec ha hr hc (by omega) hread fun hsh => hs.inPlace hread hsh (by omega)
    exact .inr ⟨h, x', q, hrun, hplain, hstep, hsize, fun _ => hpos, fun k _ => by rw [hdata],
      fun hy => ⟨hp ▸ hy, hread, by omega⟩⟩

theorem putAt_spec {uOffset : Nat} {bytes : List UInt8} (hle : uOffset + bytes.length ≤ x.uSize)
    (hspares : Spares h x y uOffset bytes) :
    ∃ h' r, putAt (h, x) uOffset bytes = some ((h', x), r) ∧ Stepped h y h' x (p.put uOffset bytes) := by
  obtain ⟨h', hpoke, hpoked⟩ := poke_spec ha (by have := ha.left.lenLe; omega) hspares
  have hlen : p.cells.length = x.uSize := hr.size
  refine ⟨h', x.pointer uOffset, ?_, hpoked.apart, ⟨?_, hr.position, ?_, hr.fixed, hr.readOnly, hr.raw, ?_⟩, hpoked.unseen⟩
  · unfold putAt
    simp only
    rw [hpoke, Option.map_some]
  · change (overwrite p.cells uOffset bytes).length = _
    rw [length_overwrite (by omega), hlen]
  · change p.capacity = _
    rw [hr.capacity]
    unfold CBuffer.getCapacity
    rw [hpoked.length]
  · refine shows_of (by change (overwrite p.cells uOffset bytes).length = _; rw [length_overwrite (by omega), hlen])
      fun k b hk => ?_
    change (overwrite p.cells uOffset bytes)[k]? = _ at hk
    rw [getElem?_overwrite (by omega)] at hk
    rw [hpoked.cells]
    split
    · rename_i hin
      rw [if_pos hin, List.getElem?_map] at hk
      cases hb : bytes[k - uOffset]? with
      | none =>
        rw [hb] at hk
        cases hk
      | some b' =>
        rw [hb, Option.map_some] at hk
        rw [Option.some.inj (Option.some.inj hk)]
    · rename_i hin
      rw [if_neg hin] at hk
      exact hr.byte hk

end Call

/-- A write to an object that is ready for it is one of the whole. -/
theorem Stepped.trans {h h₁ h₂ : Heap} {x₁ x₂ y : CBuffer} {q₁ q₂ : Plain} (h₁' : Stepped h y h₁ x₁ q₁)
    (h₂' : Stepped h₁ y h₂ x₂ q₂) : Stepped h y h₂ x₂ q₂ :=
  ⟨h₂'.apart, h₂'.refines, h₁'.unseen.trans h₂'.unseen⟩

theorem Stepped.refl {h : Heap} {x y : CBuffer} {p : Plain} (ha : Apart h x y) (hr : Refines h x p) :
    Stepped h y h x p := ⟨ha, hr, .refl h y⟩

/-- The position moves. -/
theorem Stepped.seek {h h' : Heap} {x' y : CBuffer} {q : Plain} (hs : Stepped h y h' x' q) (uPosition : Nat) :
    Stepped h y h' { x' with uPosition } { q with uPosition } :=
  ⟨hs.apart.resize hs.apart.left.room (.inl (Nat.le_refl _)) hs.apart.left.uint32,
    ⟨hs.refines.size, rfl, hs.refines.capacity, hs.refines.fixed, hs.refines.readOnly, hs.refines.raw, hs.refines.cells⟩,
    hs.unseen⟩

/-- What does not move spares what the other object shows. -/
theorem spares_of_removeFirst {x y : CBuffer} {uOffset uLength : Nat} (hn : uLength ≠ npos)
    (hs : x.p = y.p → ∀ l, removeFirst x.uSize uOffset uLength = some l → y.uSize ≤ l) :
    x.uSize - uOffset - uLength = 0 ∨ x.p ≠ y.p ∨ y.uSize ≤ uOffset ∨ uLength = 0 := by
  by_cases hp : x.p = y.p
  · by_cases hnone : uLength = npos ∨ uLength = 0 ∨ x.uSize ≤ uOffset + uLength
    · rcases hnone with h | h | h
      · exact absurd h hn
      · exact .inr (.inr (.inr h))
      · exact .inl (by omega)
    · exact .inr (.inr (.inl (hs hp uOffset (if_neg hnone))))
  · exact .inr (.inl hp)

/-- Bytes that move inside the object. -/
theorem moved_cells {h h' : Heap} {x y : CBuffer} {p : Plain} (hr : Refines h x p) {dst : Nat} {data : List UInt8} (hpoked : Poked h h' x y dst data)
    {cells : List (Option UInt8)} (hlen : cells.length = x.uSize)
    (hcells : ∀ (k : Nat) (b : UInt8), cells[k]? = some (some b) → (x.data h')[k]? = some b) :
    Stepped h y h' x { p with cells } := by
  refine ⟨hpoked.apart, ⟨hlen, hr.position, ?_, hr.fixed, hr.readOnly, hr.raw, shows_of hlen hcells⟩, hpoked.unseen⟩
  change p.capacity = _
  rw [hr.capacity]
  unfold CBuffer.getCapacity
  rw [hpoked.length]

/-- A prepared write of `bytes`. -/
theorem Prepared.putAt {h : Heap} {x y : CBuffer} {p : Plain} {uOffset uLength : Nat} {h' : Heap} {x' : CBuffer} {q : Plain} {bytes : List UInt8}
    (hp : Prepared h x y p uOffset uLength h' x' q) (hlen : bytes.length ≤ uLength)
    (hs : WriteSafe h x y uOffset uLength (Src.first uOffset bytes)) :
    ∃ h₂ r, Buffer.putAt (h', x') uOffset bytes = some ((h₂, x'), r) ∧ Stepped h y h₂ x' (q.put uOffset bytes) := by
  have hspares : Spares h' x' y uOffset bytes := by
    by_cases hnil : bytes = []
    · exact .inl hnil
    · by_cases hshares : x'.p = y.p
      · obtain ⟨hxy, hread, hcap⟩ := hp.shares hshares
        exact .inr (.inr (.inl (hs.spares hread hxy hcap uOffset (if_neg hnil))))
      · exact .inr (.inl hshares)
  obtain ⟨h₂, r, hput, hstep⟩ := putAt_spec hp.stepped.apart hp.stepped.refines (by rw [hp.size]; omega) hspares
  exact ⟨h₂, r, hput, hp.stepped.trans hstep⟩

section Calls

variable {h : Heap} {x y : CBuffer} {p : Plain} (ha : Apart h x y) (hr : Refines h x p)
include ha hr

theorem setPosition_spec (uPosition : Nat) : ∃ x' r, setPosition (h, x) uPosition = some ((h, x'), r) ∧
    Stepped h y h x' (p.setPosition uPosition) := by
  unfold setPosition Plain.setPosition
  by_cases hn : uPosition = npos
  · rw [if_pos hn, if_pos hn, hr.size]
    exact ⟨_, _, rfl, (Stepped.refl ha hr).seek _⟩
  · rw [if_neg hn, if_neg hn, hr.size]
    by_cases hlt : x.uSize < uPosition
    · rw [if_pos hlt, if_pos hlt]
      exact ⟨_, _, rfl, .refl ha hr⟩
    · rw [if_neg hlt, if_neg hlt]
      exact ⟨_, _, rfl, (Stepped.refl ha hr).seek _⟩

theorem writeData_spec {src : Src} (hc : p.Callable (.writeData src)) (hs : Safe h x y (.writeData src)) :
    ∃ h' x' r, writeData (h, x) src = some ((h', x'), r) ∧ Stepped h y h' x' (p.writeData src) := by
  have hc : p.Counts x.uPosition src.uLength := hr.position ▸ hc
  unfold writeData Plain.writeData
  rw [hr.position]
  rcases prepareWrite_spec ha hr hc hs with ⟨hrun, hplain⟩ | ⟨h', x', q, hprep⟩
  · rw [hrun, hplain]
    exact ⟨h, x, false, rfl, .refl ha hr⟩
  · have hpos := hprep.position (by omega)
    obtain ⟨h₂, r, hput, hstep⟩ := hprep.putAt (by cases src <;> simp [Src.bytes, Src.uLength]) hs
    have hadd : sizeT (x.uPosition + src.uLength) = x.uPosition + src.uLength := sizeT_eq hc.1
    rw [hprep.run, hprep.plain]
    simp only [Option.bind_some]
    rw [hpos, hput]
    simp only [Option.map_some]
    rw [hpos, hadd]
    exact ⟨_, _, _, rfl, hstep.seek _⟩

theorem setDataAt_spec {uOffset : Nat} {src : Src} (hc : p.Callable (.setDataAt uOffset src))
    (hs : Safe h x y (.setDataAt uOffset src)) :
    ∃ h' x' r, setDataAt (h, x) uOffset src = some ((h', x'), r) ∧ Stepped h y h' x' (p.setDataAt uOffset src) := by
  unfold setDataAt Plain.setDataAt
  unfold Plain.Callable at hc
  unfold Safe at hs
  simp only at hc hs ⊢
  rw [hr.size] at hc ⊢
  rcases prepareWrite_spec ha hr hc hs with ⟨hrun, hplain⟩ | ⟨h', x', q, hprep⟩
  · rw [hrun, hplain]
    exact ⟨h, x, false, rfl, .refl ha hr⟩
  · obtain ⟨h₂, r, hput, hstep⟩ :=
      hprep.putAt (by cases src <;> simp [Src.bytesOrZero, Src.uLength]) hs
    rw [hprep.run, hprep.plain]
    exact ⟨h₂, x', r, hput, hstep⟩

theorem appendData_spec {data : List UInt8} (hc : p.Callable (.appendData data)) (hs : Safe h x y (.appendData data)) :
    ∃ h' x' r, appendData (h, x) data = some ((h', x'), r) ∧ Stepped h y h' x' (p.appendData data) := by
  unfold appendData Plain.appendData
  unfold Plain.Callable at hc
  rw [hr.size] at hc ⊢
  simp only
  rcases prepareWrite_spec ha hr hc hs with ⟨hrun, hplain⟩ | ⟨h', x', q, hprep⟩
  · rw [hrun, hplain]
    exact ⟨h, x, false, rfl, .refl ha hr⟩
  · obtain ⟨h₂, r, hput, hstep⟩ := hprep.putAt (Nat.le_refl _) hs
    rw [hprep.run, hprep.plain]
    simp only [Option.bind_some]
    rw [hput]
    exact ⟨h₂, x', true, rfl, hstep⟩

theorem insertData_spec {uOffset : Nat} {src : Src} (hc : p.Callable (.insertData uOffset src))
    (hs : Safe h x y (.insertData uOffset src)) :
    ∃ h' x' r, insertData (h, x) uOffset src = some ((h', x'), r) ∧ Stepped h y h' x' (p.insertData uOffset src) := by
  obtain ⟨hoff, hc⟩ := hc
  unfold insertData Plain.insertData
  rw [hr.size] at hc hoff ⊢
  simp only
  rcases prepareWrite_spec ha hr hc hs with ⟨hrun, hplain⟩ | ⟨h', x', q, hprep⟩
  · rw [hrun, hplain]
    exact ⟨h, x, false, rfl, .refl ha hr⟩
  have hlt := hc.1
  have hsz := ha.left.lenLe
  have hsize := hprep.size
  have hsz' := hprep.stepped.apart.left.lenLe
  have hdst : sizeT (uOffset + src.uLength) = uOffset + src.uLength := sizeT_eq (by omega)
  have hcount : sizeSub x.uSize uOffset = x.uSize - uOffset := sizeSub_eq hoff (by omega)
  -- what the other object shows begins behind the first byte that changes
  have hfirst : x'.p = y.p → ∀ l, insertFirst x.uSize uOffset src = some l → y.uSize ≤ l := fun hp => by
    obtain ⟨hxy, hread, hcap⟩ := hprep.shares hp
    exact hs.spares hread hxy hcap
  have hlen : p.cells.length = x.uSize := hr.size
  obtain ⟨h₂, hmove, hpoked⟩ := memMove_spec
      hprep.stepped.apart (show uOffset + (x.uSize - uOffset) ≤ _ by omega) (show uOffset + src.uLength + _ ≤ _ by omega) (by
    by_cases hp : x'.p = y.p
    · have hfirst := hfirst hp
      unfold insertFirst at hfirst
      by_cases h0 : src.uLength = 0
      · exact .inr (.inr (.inr (by omega)))
      rw [if_neg h0] at hfirst
      cases src with
      | data bytes =>
        have := hfirst uOffset rfl
        exact .inr (.inr (.inl (by omega)))
      | null uLength =>
        by_cases hend : uOffset = x.uSize
        · exact .inl (by omega)
        · exact .inr (.inr (.inl (hfirst _ (if_neg hend))))
    · exact .inr (.inl hp))
  have hslice : (slice (x'.data h') uOffset (x.uSize - uOffset)).length = x.uSize - uOffset := length_slice (by omega)
  have hgap : Stepped h' y h₂ x' { q with cells := openGap p.cells uOffset src.uLength } := by
    refine moved_cells hprep.stepped.refines hpoked (by rw [length_openGap (by omega)]; omega)
      fun k b hk => ?_
    rw [getElem?_openGap (by omega)] at hk
    rw [hpoked.cells, hslice]
    split at hk
    · rename_i hlt
      have hk := getElem?_padTo hk
      rw [if_neg (by omega), hprep.bytes k (hr.lt_size hk)]
      exact hr.byte hk
    · rename_i hge
      have hlt := hr.lt_size hk
      rw [if_pos (by omega), getElem?_slice, if_pos (by omega),
        show uOffset + (k - (uOffset + src.uLength)) = k - src.uLength by omega, hprep.bytes _ hlt]
      exact hr.byte hk
  have hbytes : src.bytes.length ≤ src.uLength := by cases src <;> simp [Src.bytes, Src.uLength]
  have hspares : Spares h₂ x' y uOffset src.bytes := by
    by_cases hnil : src.bytes = []
    · exact .inl hnil
    by_cases hp : x'.p = y.p
    · have hfirst := hfirst hp
      unfold insertFirst at hfirst
      cases src with
      | null uLength => exact absurd rfl hnil
      | data bytes =>
        have hpos := List.length_pos_iff.2 hnil
        rw [if_neg (by change bytes.length ≠ 0; change 0 < bytes.length at hpos; omega)] at hfirst
        exact .inr (.inr (.inl (hfirst uOffset rfl)))
    · exact .inr (.inl hp)
  obtain ⟨h₃, r, hput, hstep⟩ := putAt_spec hgap.apart hgap.refines (by omega) hspares
  rw [hprep.plain]
  refine ⟨h₃, x', r, ?_, (hprep.stepped.trans hgap).trans hstep⟩
  rw [hprep.run, Option.bind_some]
  change (x'.memMove h' (sizeT (uOffset + src.uLength)) uOffset (sizeSub x.uSize uOffset)).bind _ = _
  rw [hdst, hcount, hmove, Option.bind_some]
  exact hput

/-- A range taken out, the bytes behind it move down. -/
theorem take_spec {uOffset uLength : Nat} (hle : uOffset + uLength ≤ x.uSize)
    (hs : x.uSize - uOffset - uLength = 0 ∨ x.p ≠ y.p ∨ y.uSize ≤ uOffset ∨ uLength = 0) :
    ∃ h', x.memMove h uOffset (uOffset + uLength) (x.uSize - uOffset - uLength) = some h' ∧
      Stepped h y h' { x with uSize := x.uSize - uLength } (p.take uOffset uLength) := by
  have hsz := ha.left.lenLe
  obtain ⟨h', hmove, hpoked⟩ := memMove_spec
    ha (show uOffset + uLength + (x.uSize - uOffset - uLength) ≤ _ by omega) (by omega) (hs.imp_right (Or.imp_right (Or.imp_right fun h0 => by omega)))
  have hlen : p.cells.length = x.uSize := hr.size
  have hcut : (cut p.cells uOffset uLength).length = x.uSize - uLength := by rw [length_cut (by omega), hlen]
  have hslice : (slice (x.data h) (uOffset + uLength) (x.uSize - uOffset - uLength)).length = x.uSize - uOffset - uLength :=
    length_slice (by omega)
  have hap : Apart h' { x with uSize := x.uSize - uLength, uPosition := x.uPosition, uPreAllocated := x.uPreAllocated } y :=
    hpoked.apart.resize (by have := hpoked.apart.left.room; omega) (.inl (Nat.le_refl _)) ha.left.uint32
  refine ⟨h', hmove, hap, ⟨hcut, hr.position, ?_, hr.fixed, hr.readOnly, hr.raw, ?_⟩, hpoked.unseen⟩
  · rw [hap.left.capacity]
    change (if p.raw then p.capacity - uLength else p.capacity) =
      if x.isContainerized then (x.data h').length else x.uSize - uLength + x.uPreAllocated
    rw [hr.raw, hr.capacity, ha.left.capacity, hpoked.length]
    unfold CBuffer.isContainerized
    cases hd : x.bDerived <;> cases hdet : x.bDetachable
    · cases hp : x.p with
      | none =>
        rw [data_null hp] at hsz
        have hroom := ha.left.room
        unfold CBuffer.isContainerized at hroom
        rw [data_null hp, hp, Option.isSome_none, Bool.and_false] at hroom
        simp only [List.length_nil, Bool.false_eq_true, if_false] at hroom hsz
        simp only [Option.isSome_none, Bool.and_false, Bool.or_self, Bool.false_eq_true, if_false]
        omega
      | some i => simp
    all_goals
      simp only [Bool.or_true, Bool.true_or, Bool.not_true, Bool.not_false, Bool.and_false, Bool.false_and,
        Bool.false_eq_true, if_false, if_true]
      omega
  · refine shows_of (x := { x with uSize := x.uSize - uLength }) hcut fun k b hk => ?_
    change (cut p.cells uOffset uLength)[k]? = _ at hk
    change (x.data h')[k]? = _
    rw [getElem?_cut (by omega)] at hk
    rw [hpoked.cells, hslice]
    split at hk
    · rw [if_neg (by omega)]
      exact hr.byte hk
    · have hlt := hr.lt_size hk
      rw [if_pos (by omega), getElem?_slice, if_pos (by omega),
        show uOffset + uLength + (k - uOffset) = k + uLength by omega]
      exact hr.byte hk

theorem removeData_cases {uOffset uLength : Nat} (hc : p.bReadOnly = true ∨ Plain.Removes uOffset uLength)
    (hs : x.bReadOnly = false → x.p = y.p → ∀ l, removeFirst x.uSize uOffset uLength = some l → y.uSize ≤ l) :
    (removeData (h, x) uOffset uLength = some ((h, x), false) ∧ p.removes uOffset uLength = none) ∨
      ∃ h' len, removeData (h, x) uOffset uLength = some ((h', { x with uSize := x.uSize - len }), true) ∧
        p.removes uOffset uLength = some len ∧
          Stepped h y h' { x with uSize := x.uSize - len } (p.take uOffset len) := by
  have hlt := ha.left.lt
  have hsz := ha.left.lenLe
  unfold removeData Plain.removes
  rw [hr.readOnly] at hc ⊢
  simp only
  by_cases hread : x.bReadOnly = true
  · exact .inl ⟨if_pos hread, if_pos hread⟩
  · rw [if_neg hread, if_neg hread, hr.size]
    have hrem : Plain.Removes uOffset uLength := by
      rcases hc with hc | hc
      · exact absurd hc hread
      · exact hc
    unfold Plain.Removes at hrem
    -- the result for a range inside of the object
    have htake : ∀ {len : Nat}, uOffset + len ≤ x.uSize →
        (x.uSize - uOffset - len = 0 ∨ x.p ≠ y.p ∨ y.uSize ≤ uOffset ∨ len = 0) →
          ∃ h', (x.memMove h uOffset (sizeT (uOffset + len)) (sizeSub (sizeSub x.uSize uOffset) len)).map
              (fun h => ((h, { x with uSize := sizeSub x.uSize len }), true)) =
                some ((h', { x with uSize := x.uSize - len }), true) ∧
            Stepped h y h' { x with uSize := x.uSize - len } (p.take uOffset len) := fun {len} hle hsp => by
      obtain ⟨h', hmove, hstep⟩ := take_spec ha hr hle hsp
      have h₁ : sizeT (uOffset + len) = uOffset + len := sizeT_eq (by omega)
      have h₂ : sizeSub (sizeSub x.uSize uOffset) len = x.uSize - uOffset - len := by
        rw [sizeSub_eq (m := x.uSize) (by omega) (by omega), sizeSub_eq (by omega) (by omega)]
      have h₃ : sizeSub x.uSize len = x.uSize - len := sizeSub_eq (by omega) (by omega)
      refine ⟨h', ?_, hstep⟩
      rw [h₁, h₂, h₃, hmove]
      rfl
    by_cases hn : uLength = npos
    · rw [if_pos hn] at hrem
      rw [if_neg (fun hne => hne.1 hn), if_pos hn, if_pos hn]
      obtain ⟨h', hrun, hstep⟩ := htake (show uOffset + x.uSize ≤ x.uSize by omega) (.inl (by omega))
      exact .inr ⟨h', x.uSize, hrun, rfl, hstep⟩
    · rw [if_neg hn] at hrem
      rw [sizeT_eq hrem, if_neg hn, if_neg hn]
      by_cases hbig : x.uSize < uOffset + uLength
      · rw [if_pos ⟨hn, hbig⟩, if_pos hbig]
        exact .inl ⟨rfl, rfl⟩
      · rw [if_neg (fun hne => hbig hne.2), if_neg hbig]
        obtain ⟨h', hrun, hstep⟩ := htake (by omega) (spares_of_removeFirst hn (hs (Bool.eq_false_iff.2 hread)))
        exact .inr ⟨h', uLength, hrun, rfl, hstep⟩

theorem removeData_spec {uOffset uLength : Nat} (hc : p.Callable (.removeData uOffset uLength))
    (hs : Safe h x y (.removeData uOffset uLength)) :
    ∃ h' x' r, removeData (h, x) uOffset uLength = some ((h', x'), r) ∧ Stepped h y h' x' (p.removeData uOffset uLength) := by
  unfold Plain.removeData
  rcases removeData_cases ha hr hc hs with ⟨hrun, hplain⟩ | ⟨h', len, hrun, hplain, hstep⟩
  · rw [hplain]
    exact ⟨h, x, false, hrun, .refl ha hr⟩
  · rw [hplain]
    exact ⟨h', _, true, hrun, hstep⟩

theorem replaceData_spec {uOffset uOldLength : Nat} {src : Src} (hc : p.Callable (.replaceData uOffset uOldLength src))
    (hs : Safe h x y (.replaceData uOffset uOldLength src)) :
    ∃ h' x' r, replaceData (h, x) uOffset uOldLength src = some ((h', x'), r) ∧
      Stepped h y h' x' (p.replaceData uOffset uOldLength src) := by
  unfold replaceData Plain.replaceData
  rcases removeData_cases ha hr (hc.imp_right And.left) hs.1 with ⟨hrun, hplain⟩ | ⟨h', len, hrun, hplain, hstep⟩
  · rw [hrun, hplain]
    exact ⟨h, x, false, rfl, .refl ha hr⟩
  · rcases hc with hread | ⟨-, hins⟩
    · unfold Plain.removes at hplain
      rw [if_pos hread] at hplain
      cases hplain
    · obtain ⟨h₂, x₂, r, hrun₂, hstep₂⟩ := insertData_spec hstep.apart hstep.refines (hins len hplain) (hs.2 h' _ hrun)
      rw [hplain]
      refine ⟨h₂, x₂, r, ?_, hstep.trans hstep₂⟩
      rw [hrun, Option.bind_some]
      exact hrun₂

theorem shiftData_spec {uOffset : Nat} (hs : Safe h x y (.shiftData uOffset)) :
    ∃ h' x' r, shiftData (h, x) uOffset = some ((h', x'), r) ∧ Stepped h y h' x' (p.shiftData uOffset) := by
  have hlt := ha.left.lt
  have hsz := ha.left.lenLe
  unfold shiftData Plain.shiftData
  rw [hr.size, hr.position]
  simp only
  by_cases hbig : x.uSize < uOffset
  · rw [if_pos (.inr hbig), if_pos hbig]
    exact ⟨h, x, false, rfl, .refl ha hr⟩
  rw [if_neg hbig]
  by_cases hnull : x.p = none
  · -- nothing to shift
    have h0 : uOffset = 0 := by
      rw [data_null hnull] at hsz
      simp only [List.length_nil] at hsz
      omega
    rw [if_pos (.inl hnull), h0]
    have hsame : { p.take 0 0 with uPosition := if 0 < x.uPosition then x.uPosition - 0 else 0 } = p := by
      have hpos : (if 0 < x.uPosition then x.uPosition - 0 else 0) = p.uPosition := by
        rw [hr.position]
        split <;> omega
      rw [hpos]
      unfold Plain.take cut
      simp only [List.take_zero, List.nil_append, Nat.add_zero, List.drop_zero, Nat.sub_zero, ite_self]
    rw [hsame]
    exact ⟨h, x, false, rfl, .refl ha hr⟩
  · rw [if_neg (fun hor => hor.elim hnull hbig)]
    have hspares : x.uSize - 0 - uOffset = 0 ∨ x.p ≠ y.p ∨ y.uSize ≤ 0 ∨ uOffset = 0 := by
      by_cases hn : uOffset = npos
      · unfold npos at hn
        exact .inl (by omega)
      · exact spares_of_removeFirst hn hs
    have hle : 0 + uOffset ≤ x.uSize := by omega
    obtain ⟨h', hmove, hstep⟩ := take_spec ha hr hle hspares
    rw [Nat.zero_add, Nat.sub_zero] at hmove
    have hmove' : CBuffer.memMove h { x with uSize := x.uSize - uOffset } 0 uOffset (x.uSize - uOffset) = some h' := hmove
    rw [hmove']
    exact ⟨h', _, true, rfl, hstep.seek _⟩

/-- A call does to the object what it does to its plain buffer. -/
theorem call_spec {op : Op} (hc : p.Callable op) (hs : Safe h x y op) :
    ∃ h' x' r, op.run (h, x) = some ((h', x'), r) ∧ Stepped h y h' x' (p.run op) := by
  cases op with
  | writeData src => exact writeData_spec ha hr hc hs
  | setDataAt uOffset src => exact setDataAt_spec ha hr hc hs
  | insertData uOffset src => exact insertData_spec ha hr hc hs
  | appendData data => exact appendData_spec ha hr hc hs
  | removeData uOffset uLength => exact removeData_spec ha hr hc hs
  | replaceData uOffset uOldLength src => exact replaceData_spec ha hr hc hs
  | shiftData uOffset => exact shiftData_spec ha hr hs
  | setPosition uPosition =>
    obtain ⟨x', r, hrun, hstep⟩ := setPosition_spec ha hr uPosition
    exact ⟨h, x', r, hrun, hstep⟩

end Calls

/-! ## Buffers that are not shared -/

/-- A write in place counts no reference and asks for no memory. -/
theorem memMove_frame {h h' : Heap} {x : CBuffer} {dst src len : Nat} (hm : x.memMove h dst src len = some h') :
    h'.grants = h.grants ∧ ∀ i, (h'.blocks i).map (·.refs) = (h.blocks i).map (·.refs) := by
  obtain ⟨data, -, hpoke⟩ := Option.bind_eq_some_iff.1 hm
  unfold CBuffer.poke at hpoke
  split at hpoke
  · cases hpoke
    exact ⟨rfl, fun _ => rfl⟩
  · obtain ⟨i, -, hwrite⟩ := Option.bind_eq_some_iff.1 hpoke
    unfold Heap.write at hwrite
    split at hwrite
    · cases hwrite
    · rename_i blk hb
      obtain ⟨data', -, rfl⟩ := Option.map_eq_some_iff.1 hwrite
      refine ⟨rfl, fun j => ?_⟩
      by_cases hji : j = i
      · rw [hji, hb, show (h.set i (some { blk with data := data' })).blocks i = _ from if_pos rfl]
        rfl
      · exact congrArg _ (if_neg hji)

theorem isContainerized_congr {x x' : CBuffer} (hd : x'.bDerived = x.bDerived) (ht : x'.bDetachable = x.bDetachable)
    (hp : x'.p = x.p) : x'.isContainerized = x.isContainerized := by
  unfold CBuffer.isContainerized
  rw [hd, ht, hp]

theorem removeData_frame {h h' : Heap} {x x' : CBuffer} {uOffset uLength : Nat} {r : Bool}
    (hrun : removeData (h, x) uOffset uLength = some ((h', x'), r)) :
    x'.p = x.p ∧ x'.isContainerized = x.isContainerized ∧ h'.grants = h.grants ∧
      ∀ i, (h'.blocks i).map (·.refs) = (h.blocks i).map (·.refs) := by
  unfold removeData at hrun
  simp only at hrun
  by_cases hr : x.bReadOnly = true
  · rw [if_pos hr] at hrun
    cases hrun
    exact ⟨rfl, rfl, rfl, fun _ => rfl⟩
  · rw [if_neg hr] at hrun
    by_cases hbig : uLength ≠ npos ∧ x.uSize < sizeT (uOffset + uLength)
    · rw [if_pos hbig] at hrun
      cases hrun
      exact ⟨rfl, rfl, rfl, fun _ => rfl⟩
    · rw [if_neg hbig] at hrun
      obtain ⟨h₁, hmove, hres⟩ := Option.map_eq_some_iff.1 hrun
      obtain ⟨hg, hrefs⟩ := memMove_frame hmove
      cases hres
      exact ⟨rfl, isContainerized_congr rfl rfl rfl, hg, hrefs⟩

theorem shared_congr {h h' : Heap} {x x' : CBuffer} (hp : x'.p = x.p) (hc : x'.isContainerized = x.isContainerized)
    (hrefs : ∀ i, (h'.blocks i).map (·.refs) = (h.blocks i).map (·.refs)) : x'.shared h' = x.shared h := by
  unfold CBuffer.shared CBuffer.block
  rw [hc, hp]
  cases x.p with
  | none => rfl
  | some i =>
    have := hrefs i
    simp only [Option.bind_some]
    cases hb : h.blocks i <;> cases hb' : h'.blocks i <;> rw [hb, hb'] at this
    · cases this
    · cases this
    · simp only [Option.map_some, Option.some.injEq] at this
      simp only [Option.any_some, this]

theorem writeSafe_of_unshared {h : Heap} {x y : CBuffer} (hsep : x.p = y.p → y.uSize = 0) (hun : x.shared h = false)
    (hgrants : ∀ i, h.grants i = true) (uOffset uLength : Nat) (lo : Option Nat) : WriteSafe h x y uOffset uLength lo :=
  ⟨fun _ _ _ => hgrants _, fun _ hsh => absurd hsh (by rw [hun]; exact Bool.noConfusion), fun _ hp _ l _ => by
    rw [hsep hp]
    exact Nat.zero_le l⟩

/-- Every call on a buffer that is not shared is safe. -/
theorem safe_of_unshared {h : Heap} {x y : CBuffer} (ha : Apart h x y) (hun : x.shared h = false)
    (hgrants : ∀ i, h.grants i = true) (op : Op) : Safe h x y op := by
  have hsep : x.p = y.p → y.uSize = 0 := fun hp => by
    cases hy : y.p with
    | none =>
      have := ha.right.lenLe
      rw [data_null hy] at this
      exact Nat.le_zero.1 this
    | some i =>
      obtain ⟨hc, -, hrefs⟩ := ha.counted i (hp.trans hy) hy
      obtain ⟨-, blk, hb, -⟩ := ha.right.live i hy
      have := hrefs blk hb
      unfold CBuffer.shared at hun
      rw [hc, block_eq (hp.trans hy), hb] at hun
      simp only [Bool.true_and, Option.any_some, decide_eq_false_iff_not] at hun
      exact absurd this hun
  cases op with
  | writeData src => exact writeSafe_of_unshared hsep hun hgrants _ _ _
  | setDataAt uOffset src => exact writeSafe_of_unshared hsep hun hgrants _ _ _
  | insertData uOffset src => exact writeSafe_of_unshared hsep hun hgrants _ _ _
  | appendData data => exact writeSafe_of_unshared hsep hun hgrants _ _ _
  | removeData uOffset uLength => exact fun _ hp l _ => by rw [hsep hp]; exact Nat.zero_le l
  | replaceData uOffset uOldLength src =>
    refine ⟨fun _ hp l _ => by rw [hsep hp]; exact Nat.zero_le l, fun h' x' hrun => ?_⟩
    obtain ⟨hp, hc, hg, hrefs⟩ := removeData_frame hrun
    exact writeSafe_of_unshared (fun hy => hsep (hp.symm.trans hy)) ((shared_congr hp hc hrefs).trans hun)
      (fun i => by rw [hg]; exact hgrants i) _ _ _
  | shiftData uOffset => exact fun hp l _ => by rw [hsep hp]; exact Nat.zero_le l
  | setPosition uPosition => trivial

/-- A buffer that is not shared is the plain buffer, call by call. -/
theorem unshared_call {h : Heap} {x y : CBuffer} {p : Plain} (ha : Apart h x y) (hr : Refines h x p)
    (hun : x.shared h = false) (hgrants : ∀ i, h.grants i = true) {op : Op} (hc : p.Callable op) :
    ∃ h' x' r, op.run (h, x) = some ((h', x'), r) ∧ Stepped h y h' x' (p.run op) :=
  call_spec ha hr hc (safe_of_unshared ha hun hgrants op)

end MajorPrivacy.Buffer

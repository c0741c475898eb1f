/-
A mutator on one of two buffers does to its bytes what it does to a buffer that nobody shares, and the
other buffer does not see it: if the write moves to a block of its own, or spares what the other shows.
-/
import MajorPrivacy.Buffer.Sharing

namespace MajorPrivacy.Buffer

open Memory

/-! ## What a buffer shows -/

/-- The bytes have the cells that are set. -/
def Shows (cells : List (Option UInt8)) (bytes : List UInt8) : Prop :=
  ∀ (k : Nat) (b : UInt8), cells[k]? = some (some b) → bytes[k]? = some b

/-- The object is the plain buffer, with some bytes in place of the unset ones. -/
structure Refines (h : Heap) (x : CBuffer) (p : Plain) : Prop where
  size : p.size = x.uSize
  position : p.uPosition = x.uPosition
  capacity : p.capacity = x.getCapacity h
  fixed : p.bFixed = x.bFixed
  readOnly : p.bReadOnly = x.bReadOnly
  raw : p.raw = (x.bDerived || x.bDetachable)
  cells : Shows p.cells (x.view h)

/-- The plain buffer of an object. -/
def plain (h : Heap) (x : CBuffer) : Plain :=
  ⟨(x.view h).map some, x.uPosition, x.getCapacity h, x.bFixed, x.bReadOnly, x.bDerived || x.bDetachable⟩

theorem refines_plain {h : Heap} {x : CBuffer} (ho : Obj h x) : Refines h x (plain h x) := by
  refine ⟨?_, rfl, rfl, rfl, rfl, rfl, fun k b hk => ?_⟩
  · unfold Plain.size plain
    rw [List.length_map, ho.length_view]
  · unfold plain at hk
    rw [List.getElem?_map] at hk
    cases hv : (x.view h)[k]? with
    | none =>
      rw [hv] at hk
      cases hk
    | some b' =>
      rw [hv, Option.map_some] at hk
      rw [Option.some.inj (Option.some.inj hk)]

/-- What the other object shows stays. -/
theorem Refines.unseen {h h' : Heap} {y : CBuffer} {q : Plain} (hr : Refines h y q) (hu : Unseen h h' y) :
    Refines h' y q := by
  refine ⟨hr.size, hr.position, hr.capacity.trans ?_, hr.fixed, hr.readOnly, hr.raw, by rw [hu.view]; exact hr.cells⟩
  unfold CBuffer.getCapacity
  rw [hu.length]

section Cells

variable {h : Heap} {x : CBuffer} {p : Plain}

/-- A cell that is set is a byte of the memory. -/
theorem Refines.byte (hr : Refines h x p) {k : Nat} {b : UInt8} (hk : p.cells[k]? = some (some b)) :
    (x.data h)[k]? = some b := by
  have := hr.cells k b hk
  rw [getElem?_view] at this
  split at this
  · exact this
  · cases this

theorem Refines.lt_size (hr : Refines h x p) {k : Nat} {c : Option UInt8} (hk : p.cells[k]? = some c) : k < x.uSize := by
  have hlt : k < p.cells.length := by
    by_contra hge
    rw [List.getElem?_eq_none (by omega)] at hk
    cases hk
  have := hr.size
  unfold Plain.size at this
  omega

theorem shows_of {cells : List (Option UInt8)} (hlen : cells.length = x.uSize)
    (hb : ∀ (k : Nat) (b : UInt8), cells[k]? = some (some b) → (x.data h)[k]? = some b) : Shows cells (x.view h) := by
  intro k b hk
  have hlt : k < cells.length := by
    by_contra hge
    rw [List.getElem?_eq_none (by omega)] at hk
    cases hk
  rw [getElem?_view, if_pos (by omega)]
  exact hb k b hk

end Cells

/-! ## Room for a write -/

/-- What a step of a write on `x` leaves: `y` sees nothing of it. -/
structure Stepped (h : Heap) (y : CBuffer) (h' : Heap) (x' : CBuffer) (q : Plain) : Prop where
  apart : Apart h' x' y
  refines : Refines h' x' q
  unseen : Unseen h h' y

/-- A write inside the capacity of a shared block works out if the block is not fixed, does not end before the size or
the position, and leaves no more room than may stay allocated. -/
structure InPlace (h : Heap) (x : CBuffer) (uOffset uLength : Nat) : Prop where
  fixed : x.bFixed = false
  size : x.uSize ≤ uOffset + uLength
  position : x.uPosition ≤ uOffset + uLength
  spare : x.getCapacity h ≤ uOffset + uLength + bufferMaxPrealloc

section Prepare

variable {h : Heap} {x y : CBuffer} {p : Plain} (ha : Apart h x y) (hr : Refines h x p) {uOffset uLength : Nat}
include ha hr

/-- A write that outgrows the capacity moves the bytes to a new block. -/
theorem grow_spec (hc : p.Counts uOffset uLength) (hgrow : x.getCapacity h < uOffset + uLength)
    (hfixed : x.bFixed = false) (hwrite : x.bReadOnly = false) (hgrant : h.grants h.next = true) :
    ∃ h' x' q, prepareWrite (h, x) uOffset uLength = some ((h', x'), true) ∧
      p.prepareWrite uOffset uLength = some q ∧ Stepped h y h' x' q ∧ x'.uSize = uOffset + uLength ∧
        x'.uPosition = min x.uPosition (uOffset + uLength) ∧ x'.p ≠ y.p ∧
          ∀ k < x.uSize, (x'.data h')[k]? = (x.data h)[k]? := by
  obtain ⟨hlt, hask⟩ := hc
  have hask := hask (by rw [hr.capacity]; exact hgrow)
  rw [hr.size] at hask
  have hsize := ha.left.size_le_capacity
  have hend : sizeT (uOffset + uLength) = uOffset + uLength := sizeT_eq hlt
  have hsum : sizeT (uOffset + uLength + preAlloc uLength x.uSize) = uOffset + uLength + preAlloc uLength x.uSize :=
    sizeT_eq (by omega)
  have hspare : sizeSub (uOffset + uLength + preAlloc uLength x.uSize) (uOffset + uLength) = preAlloc uLength x.uSize := by
    rw [sizeSub_eq (by omega) (by omega)]
    omega
  obtain ⟨h', halloc, hm⟩ := reAllocBuffer_spec ha hgrant
    (show x.uSize ≤ uOffset + uLength + preAlloc uLength x.uSize by omega) (by omega) (fun _ => by omega) hfixed hwrite
  have hnpos : preAlloc uLength x.uSize ≠ npos := by
    unfold npos
    unfold sBufferSize at hask
    omega
  let pre := if x.bDetachable then preAlloc uLength x.uSize % 2 ^ 32 else 0
  have hmoved : Apart h' { x.moved h.next with
      uSize := uOffset + uLength, uPosition := min x.uPosition (uOffset + uLength), uPreAllocated := pre } y := by
    refine hm.apart.resize ?_ (.inr rfl) ?_
    · rw [hm.length]
      have hmod := Nat.mod_le (preAlloc uLength x.uSize) (2 ^ 32)
      change uOffset + uLength + (if (x.moved h.next).isContainerized then 0 else pre) ≤ _
      split
      · omega
      · change uOffset + uLength + (if x.bDetachable then _ else 0) ≤ _
        split <;> omega
    · change (if x.bDetachable then _ else 0) < _
      split
      · exact Nat.mod_lt _ (Nat.two_pow_pos 32)
      · exact Nat.two_pow_pos 32
  refine ⟨h', _, { p with
      cells := padTo p.cells (uOffset + uLength), uPosition := min p.uPosition (uOffset + uLength),
      capacity := p.grown uOffset uLength }, ?_, ?_, ⟨hmoved, ⟨?_, ?_, ?_, hr.fixed.trans hfixed, hr.readOnly.trans hwrite, ?_, ?_⟩, hm.unseen⟩, rfl, rfl,
    hm.separate, hm.cells⟩
  · unfold prepareWrite setSize putSize
    simp only [hwrite, hfixed, hend, hgrow, hnpos, hsum, halloc, Option.bind_some, Bool.false_eq_true, if_false, if_true,
      true_or, false_or, Bool.not_true, Bool.or_false, hspare]
    rw [if_pos (by omega), if_neg (by omega)]
    by_cases hd : x.bDetachable = true
    · rw [if_pos (show (x.moved h.next).bDetachable = true from hd), show pre = _ from if_pos hd]
      rfl
    · rw [if_neg (show (x.moved h.next).bDetachable ≠ true from hd), show pre = _ from if_neg hd]
      rfl
  · unfold Plain.prepareWrite
    rw [hr.readOnly, hwrite, if_neg Bool.noConfusion, hr.capacity, if_pos hgrow, hr.fixed, hfixed,
      if_neg Bool.noConfusion, ← hfixed, ← hr.fixed]
  · change (padTo p.cells _).length = _
    rw [length_padTo]
    have := hr.size
    unfold Plain.size at this
    simp only
    omega
  · change min p.uPosition _ = min x.uPosition _
    rw [hr.position]
  · rw [hmoved.left.capacity]
    change p.grown uOffset uLength = if (x.moved h.next).isContainerized then ((x.moved h.next).data h').length else
      uOffset + uLength + (if x.bDetachable then _ else 0)
    unfold Plain.grown
    have hraw : p.raw = x.bDetachable := by
      rw [hr.raw]
      cases hd : x.bDerived with
      | false => rfl
      | true =>
        have := (ha.left.derived hd).1
        rw [hfixed] at this
        cases this
    rw [hraw, hr.size, hm.length]
    unfold CBuffer.moved CBuffer.isContainerized
    cases x.bDetachable <;> simp
  · change p.raw = (false || x.bDetachable)
    rw [hr.raw]
    cases hd : x.bDerived with
    | false => rfl
    | true =>
      have := (ha.left.derived hd).1
      rw [hfixed] at this
      cases this
  · refine shows_of ?_ fun k b hk => ?_
    · change (padTo p.cells _).length = _
      rw [length_padTo]
      have := hr.size
      unfold Plain.size at this
      simp only
      omega
    · have hk := getElem?_padTo hk
      exact (hm.cells k (hr.lt_size hk)).trans (hr.byte hk)

/-- A write inside the capacity leaves the bytes where they are. -/
theorem stay_spec (hc : p.Counts uOffset uLength) (hle : uOffset + uLength ≤ x.getCapacity h)
    (hwrite : x.bReadOnly = false) (hin : x.shared h = true → InPlace h x uOffset uLength) :
    ∃ x' q, prepareWrite (h, x) uOffset uLength = some ((h, x'), true) ∧ p.prepareWrite uOffset uLength = some q ∧
      Stepped h y h x' q ∧ x'.uSize = max x.uSize (uOffset + uLength) ∧ x'.uPosition = x.uPosition ∧ x'.p = x.p ∧
        x'.data h = x.data h := by
  have hend : sizeT (uOffset + uLength) = uOffset + uLength := sizeT_eq hc.1
  have hlen := hr.size
  unfold Plain.size at hlen
  have hplain : p.prepareWrite uOffset uLength = some { p with cells := padTo p.cells (uOffset + uLength) } := by
    unfold Plain.prepareWrite
    rw [hr.readOnly, hwrite, if_neg Bool.noConfusion, hr.capacity, if_neg (by omega)]
  -- the object after it, with the preallocated rest it has
  suffices hpre : ∃ pre, prepareWrite (h, x) uOffset uLength = some ((h, { x with
      uSize := max x.uSize (uOffset + uLength), uPosition := x.uPosition, uPreAllocated := pre }), true) ∧
        (x.isContainerized = false → max x.uSize (uOffset + uLength) + pre = x.uSize + x.uPreAllocated) ∧
          pre ≤ x.uPreAllocated by
    obtain ⟨pre, hrun, hroom, hpre⟩ := hpre
    have hcap := ha.left.capacity_le
    have hap : Apart h { x with
        uSize := max x.uSize (uOffset + uLength), uPosition := x.uPosition, uPreAllocated := pre } y := by
      refine ha.resize ?_ (.inl hpre) (by have := ha.left.uint32; omega)
      have hroom' := ha.left.room
      have := ha.left.size_le_capacity
      split
      · omega
      · rename_i hcont
        rw [hroom (Bool.eq_false_iff.2 hcont)]
        rwa [if_neg hcont] at hroom'
    refine ⟨_, _, hrun, hplain, ⟨hap, ⟨?_, hr.position, ?_, hr.fixed, hr.readOnly, hr.raw, ?_⟩, .refl h y⟩, rfl, rfl, rfl, rfl⟩
    · change (padTo p.cells _).length = _
      rw [length_padTo]
      simp only
      omega
    · change p.capacity = _
      rw [hr.capacity, hap.left.capacity, ha.left.capacity]
      change _ = if x.isContainerized then (x.data h).length else max x.uSize (uOffset + uLength) + pre
      cases hcont : x.isContainerized with
      | true => rfl
      | false => rw [if_neg Bool.noConfusion, if_neg Bool.noConfusion, hroom hcont]
    · refine shows_of (x := { x with
          uSize := max x.uSize (uOffset + uLength), uPosition := x.uPosition, uPreAllocated := pre }) ?_ fun k b hk => ?_
      · change (padTo p.cells _).length = _
        rw [length_padTo]
        simp only
        omega
      · exact hr.byte (getElem?_padTo hk)
  unfold prepareWrite
  simp only
  rw [if_neg (by rw [hwrite]; exact Bool.noConfusion), hend]
  cases hshared : x.shared h with
  | true =>
    obtain ⟨hfixed, hsize, hpos, hspare⟩ := hin hshared
    have hcont : x.isContainerized = true := by
      unfold CBuffer.shared at hshared
      exact (Bool.and_eq_true_iff.1 hshared).1
    have hdet : x.bDetachable = false := by
      unfold CBuffer.isContainerized at hcont
      cases hd : x.bDetachable with
      | false => rfl
      | true => simp [hd] at hcont
    refine ⟨x.uPreAllocated, ?_, fun hc => absurd hcont (by rw [hc]; exact Bool.noConfusion), Nat.le_refl _⟩
    have hlt := ha.left.lt
    have hcap := ha.left.capacity_le
    have hrest : sizeSub (x.getCapacity h) (uOffset + uLength) = x.getCapacity h - (uOffset + uLength) :=
      sizeSub_eq hle (by omega)
    rw [if_pos (.inr rfl), hfixed, if_neg Bool.noConfusion, if_neg (by omega)]
    unfold setSize putSize
    simp only [Nat.add_zero]
    rw [hend, if_neg (by unfold npos; omega), hrest, if_neg (by omega), hdet,
      if_neg Bool.noConfusion, Nat.max_eq_right hsize, Nat.min_eq_left hpos]
    simp only [hfixed]
  | false =>
    rw [if_neg (by simp only [Bool.false_eq_true, or_false]; omega)]
    by_cases hgrow : x.uSize < uOffset + uLength
    · rw [if_pos hgrow, Nat.max_eq_right (by omega)]
      have hcap := ha.left.capacity
      by_cases hdet : x.bDetachable = true
      · have hcont : x.isContainerized = false := by
          unfold CBuffer.isContainerized
          rw [hdet, Bool.not_true, Bool.and_false, Bool.false_and]
        rw [hcont, if_neg Bool.noConfusion] at hcap
        have huint32 := ha.left.uint32
        refine ⟨x.uPreAllocated - (uOffset + uLength - x.uSize), ?_, fun _ => by omega, Nat.sub_le _ _⟩
        have hrest : (x.uPreAllocated + 2 ^ 32 - (uOffset + uLength - x.uSize) % 2 ^ 32) % 2 ^ 32 =
            x.uPreAllocated - (uOffset + uLength - x.uSize) := by omega
        rw [if_pos hdet, hrest]
      · refine ⟨x.uPreAllocated, by rw [if_neg hdet], fun hcont => ?_, Nat.le_refl _⟩
        -- neither a block nor memory of its own: borrowed memory or none, without room to spare
        rw [hcont, if_neg Bool.noConfusion] at hcap
        exfalso
        cases hd : x.bDerived with
        | true =>
          have := (ha.left.derived hd).2
          omega
        | false =>
          have hp : x.p = none := by
            unfold CBuffer.isContainerized at hcont
            rw [hd, Bool.eq_false_iff.2 hdet] at hcont
            cases hp : x.p with
            | none => rfl
            | some i => simp [hp] at hcont
          have := ha.left.capacity_le
          rw [data_null hp] at this
          simp only [List.length_nil] at this
          omega
    · rw [if_neg hgrow, Nat.max_eq_left (by omega)]
      exact ⟨x.uPreAllocated, rfl, fun _ => rfl, Nat.le_refl _⟩

end Prepare

end MajorPrivacy.Buffer

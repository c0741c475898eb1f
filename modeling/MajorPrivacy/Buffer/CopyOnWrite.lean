/-
Copy-on-write. Two buffers made equal by a copy keep to themselves in every run whose calls do not write
to shown bytes of a shared block; a write inside the capacity of a shared block is not copied.
-/
import MajorPrivacy.Buffer.Calls

namespace MajorPrivacy.Buffer

open Memory

/-! ## Two buffers -/

/-- Two buffers over one memory. -/
structure Pair where
  heap : Heap
  a : CBuffer
  b : CBuffer

/-- The buffer of a pair that a call is made on. -/
inductive Side where
  | a
  | b
  deriving Repr, DecidableEq

def Side.other : Side → Side
  | a => b
  | b => a

namespace Pair

def buffer (s : Pair) : Side → CBuffer
  | .a => s.a
  | .b => s.b

/-- The bytes seen through one of them. -/
def view (s : Pair) (side : Side) : List UInt8 := (s.buffer side).view s.heap

def step (s : Pair) : Side × Op → Option (Pair × Bool)
  | (.a, op) => (op.run (s.heap, s.a)).map fun r => (⟨r.1.1, r.1.2, s.b⟩, r.2)
  | (.b, op) => (op.run (s.heap, s.b)).map fun r => (⟨r.1.1, s.a, r.1.2⟩, r.2)

def run (s : Pair) : List (Side × Op) → Option Pair
  | [] => some s
  | c :: cs => (s.step c).bind fun r => run r.1 cs

/-- Each call of the run leaves what is seen through the other buffer, bytes and size. -/
def Unseen (s : Pair) : List (Side × Op) → Prop
  | [] => True
  | c :: cs => ∃ s' r, s.step c = some (s', r) ∧ s'.view c.1.other = s.view c.1.other ∧
      (s'.buffer c.1.other).uSize = (s.buffer c.1.other).uSize ∧ Unseen s' cs

/-- The calls on one of the buffers. -/
def callsOn (side : Side) (cs : List (Side × Op)) : List Op := (cs.filter (·.1 = side)).map (·.2)

/-- At the end each buffer holds what its own calls make of a buffer that nobody shares. -/
def AsUnshared (s : Pair) (cs : List (Side × Op)) : Prop :=
  ∃ s', s.run cs = some s' ∧ ∀ side,
    Refines s'.heap (s'.buffer side) ((callsOn side cs).foldl Plain.run (plain s.heap (s.buffer side)))

/-- Copy-on-write, in a run. -/
def CopyOnWrite (s : Pair) (cs : List (Side × Op)) : Prop := s.Unseen cs ∧ s.AsUnshared cs

/-- Each call of the run stays inside the memory of its buffer and is safe. -/
def Meets (s : Pair) : List (Side × Op) → Prop
  | [] => True
  | (side, op) :: cs =>
    (plain s.heap (s.buffer side)).Callable op ∧ Safe s.heap (s.buffer side) (s.buffer side.other) op ∧
      ∀ s' r, s.step (side, op) = some (s', r) → Meets s' cs

end Pair

/-! ## Runs -/

/-- What decides whether a call can be made: all but the bytes. -/
structure SameShape (p q : Plain) : Prop where
  size : p.cells.length = q.cells.length
  position : p.uPosition = q.uPosition
  capacity : p.capacity = q.capacity
  readOnly : p.bReadOnly = q.bReadOnly
  raw : p.raw = q.raw

namespace SameShape

variable {p q : Plain} (hs : SameShape p q)
include hs

theorem counts (uOffset uLength : Nat) : p.Counts uOffset uLength ↔ q.Counts uOffset uLength := by
  unfold Plain.Counts Plain.size
  rw [hs.size, hs.capacity]

theorem removes (uOffset uLength : Nat) : p.removes uOffset uLength = q.removes uOffset uLength := by
  unfold Plain.removes Plain.size
  rw [hs.size, hs.readOnly]

theorem take (uOffset uLength : Nat) : SameShape (p.take uOffset uLength) (q.take uOffset uLength) := by
  refine ⟨?_, hs.position, ?_, hs.readOnly, hs.raw⟩
  · change (cut p.cells uOffset uLength).length = (cut q.cells uOffset uLength).length
    unfold cut
    rw [List.length_append, List.length_append, List.length_take, List.length_take, List.length_drop, List.length_drop,
      hs.size]
  · change (if p.raw then p.capacity - uLength else p.capacity) = if q.raw then q.capacity - uLength else q.capacity
    rw [hs.raw, hs.capacity]

theorem callable (op : Op) : p.Callable op ↔ q.Callable op := by
  have hsize : p.size = q.size := hs.size
  unfold Plain.Callable
  cases op with
  | writeData src =>
    simp only
    rw [hs.counts, hs.position]
  | setDataAt uOffset src =>
    simp only
    rw [hs.counts, hsize]
  | insertData uOffset src =>
    simp only
    rw [hs.counts, hsize]
  | appendData data =>
    simp only
    rw [hs.counts, hsize]
  | removeData uOffset uLength =>
    simp only
    rw [hs.readOnly]
  | replaceData uOffset uOldLength src =>
    have htake : ∀ len, (uOffset ≤ (p.take uOffset len).size ∧
        (p.take uOffset len).Counts (p.take uOffset len).size src.uLength) ↔ (uOffset ≤ (q.take uOffset len).size ∧
          (q.take uOffset len).Counts (q.take uOffset len).size src.uLength) := fun len => by
      have hsize : (p.take uOffset len).size = (q.take uOffset len).size := (hs.take uOffset len).size
      rw [(hs.take uOffset len).counts, hsize]
    simp only [hs.readOnly, hs.removes, htake]
  | shiftData uOffset => exact Iff.rfl
  | setPosition uPosition => exact Iff.rfl

end SameShape

theorem sameShape_of_refines {h : Heap} {x : CBuffer} {p : Plain} (ho : Obj h x) (hr : Refines h x p) :
    SameShape (plain h x) p := by
  refine ⟨?_, hr.position.symm, hr.capacity.symm, hr.readOnly.symm, hr.raw.symm⟩
  have hsize : p.cells.length = x.uSize := hr.size
  unfold plain
  rw [List.length_map, ho.length_view, hsize]

/-- Two buffers apart from each other, each as a plain one. -/
structure Inv (s : Pair) (q : Side → Plain) : Prop where
  apart : Apart s.heap s.a s.b
  refines : ∀ side, Refines s.heap (s.buffer side) (q side)

theorem Inv.sides {s : Pair} {q : Side → Plain} (hi : Inv s q) (side : Side) :
    Apart s.heap (s.buffer side) (s.buffer side.other) := by
  cases side with
  | a => exact hi.apart
  | b => exact hi.apart.symm

/-- One call keeps the two apart and does to its own plain buffer what it does. -/
theorem step_inv {s : Pair} {q : Side → Plain} (hi : Inv s q) {side : Side} {op : Op} (hc : (q side).Callable op)
    (hs : Safe s.heap (s.buffer side) (s.buffer side.other) op) :
    ∃ s' r, s.step (side, op) = some (s', r) ∧ s'.view side.other = s.view side.other ∧
      s'.buffer side.other = s.buffer side.other ∧ Inv s' fun t => if t = side then (q side).run op else q t := by
  obtain ⟨h', x', r, hrun, hstep⟩ := call_spec (hi.sides side) (hi.refines side) hc hs
  have hother := (hi.refines side.other).unseen hstep.unseen
  cases side with
  | a =>
    refine ⟨⟨h', x', s.b⟩, r, ?_, hstep.unseen.view, rfl, hstep.apart, fun t => ?_⟩
    · change (op.run (s.heap, s.a)).map _ = _
      change op.run (s.heap, s.a) = _ at hrun
      rw [hrun]
      rfl
    · cases t with
      | a => exact hstep.refines
      | b => exact hother
  | b =>
    refine ⟨⟨h', s.a, x'⟩, r, ?_, hstep.unseen.view, rfl, hstep.apart.symm, fun t => ?_⟩
    · change (op.run (s.heap, s.b)).map _ = _
      change op.run (s.heap, s.b) = _ at hrun
      rw [hrun]
      rfl
    · cases t with
      | a => exact hother
      | b => exact hstep.refines

theorem callsOn_cons (side : Side) (c : Side × Op) (cs : List (Side × Op)) :
    Pair.callsOn side (c :: cs) = if c.1 = side then c.2 :: Pair.callsOn side cs else Pair.callsOn side cs := by
  unfold Pair.callsOn
  rw [List.filter_cons]
  by_cases hc : c.1 = side
  · rw [if_pos (decide_eq_true hc), if_pos hc, List.map_cons]
  · rw [if_neg (by simpa using hc), if_neg hc]

/-- A run of calls that are safe. -/
theorem run_inv : ∀ {cs : List (Side × Op)} {s : Pair} {q : Side → Plain}, Inv s q → s.Meets cs →
    s.Unseen cs ∧ ∃ s', s.run cs = some s' ∧ Inv s' fun side => (Pair.callsOn side cs).foldl Plain.run (q side)
  | [], s, q, hi, _ => ⟨trivial, s, rfl, hi⟩
  | (side, op) :: cs, s, q, hi, hm => by
    obtain ⟨hc, hs, hrest⟩ := hm
    have hc := ((sameShape_of_refines (hi.sides side).left (hi.refines side)).callable op).1 hc
    obtain ⟨s', r, hstep, hview, hbuf, hi'⟩ := step_inv hi hc hs
    obtain ⟨hunseen, s'', hrun, hi''⟩ := run_inv hi' (hrest s' r hstep)
    refine ⟨⟨s', r, hstep, hview, by rw [hbuf], hunseen⟩, s'', ?_, ?_⟩
    · unfold Pair.run
      rw [hstep]
      exact hrun
    · have hq : (fun t => (Pair.callsOn t cs).foldl Plain.run (if t = side then (q side).run op else q t)) =
          fun t => (Pair.callsOn t ((side, op) :: cs)).foldl Plain.run (q t) := by
        funext t
        rw [callsOn_cons]
        by_cases ht : t = side
        · rw [if_pos ht, if_pos ht.symm, List.foldl_cons, ht]
        · rw [if_neg ht, if_neg fun h => ht h.symm]
      rw [← hq]
      exact hi''

/-! ## Copies -/

/-- An object gives up its memory, another one keeps what it has. -/
theorem detachData_spec {h : Heap} {x y : CBuffer} (ha : Apart h x y) :
    ∃ h₁ x₁, detachData (h, x) = some (h₁, x₁) ∧ Obj h₁ y ∧ y.data h₁ = y.data h ∧ h₁.next = h.next ∧
      (∀ i, h.next ≤ i → h₁.blocks i = none) ∧ h₁.grants = h.grants ∧ x₁.p = none ∧ x₁.bDerived = false ∧
        x₁.uPreAllocated = 0 := by
  cases hp : x.p with
  | none =>
    have hroom := ha.left.room
    rw [data_null hp] at hroom
    unfold CBuffer.isContainerized at hroom
    rw [hp] at hroom
    simp only [Option.isSome_none, Bool.and_false, Bool.false_eq_true, if_false, List.length_nil] at hroom
    exact ⟨h, x, detachData_null hp, ha.right, rfl, rfl, ha.fresh, rfl, hp, ha.left.null hp, by omega⟩
  | some i =>
    obtain ⟨hlt, blk, hb, -⟩ := ha.left.live i hp
    refine ⟨_, _, detachData_some hp hb, ?_⟩
    generalize hh : (if x.isContainerized then
        h.set i (if blk.refs = 1 then none else some { blk with refs := blk.refs - 1 })
      else if x.bDetachable then h.set i none else h) = h₁
    have hnext : h₁.next = h.next := by
      rw [← hh]
      split
      · rfl
      · split <;> rfl
    have hgrants : h₁.grants = h.grants := by
      rw [← hh]
      split
      · rfl
      · split <;> rfl
    have hother : ∀ j ≠ i, h₁.blocks j = h.blocks j := fun j hj => by
      rw [← hh]
      split
      · exact if_neg hj
      · split
        · exact if_neg hj
        · rfl
    -- the block that both have counts one reference less
    have hkeep : ∀ j, y.p = some j → ∃ blk blk', h.blocks j = some blk ∧ h₁.blocks j = some blk' ∧ blk'.data = blk.data ∧
        (y.isContainerized = true → 0 < blk'.refs) := by
      intro j hy
      obtain ⟨-, blk', hb', hrefs⟩ := ha.right.live j hy
      by_cases hji : j = i
      · subst hji
        obtain ⟨hc, -, htwo⟩ := ha.counted j hp hy
        have htwo := htwo blk hb
        refine ⟨blk, { blk with refs := blk.refs - 1 }, hb, ?_, rfl, fun _ => ?_⟩
        · rw [← hh, if_pos hc]
          refine (if_pos rfl).trans ?_
          exact if_neg (by omega)
        · simp only
          omega
      · exact ⟨blk', blk', hb', (hother j hji).trans hb', rfl, hrefs⟩
    have hdata : y.data h₁ = y.data h := data_congr fun j hy => by
      obtain ⟨blk, blk', hb, hb', hd, -⟩ := hkeep j hy
      rw [hb, hb', Option.map_some, Option.map_some, hd]
    refine ⟨⟨fun j hy => ?_, by rw [hdata]; exact ha.right.room, by rw [hdata]; exact ha.right.lt, ha.right.null,
      ha.right.derived, ha.right.uint32⟩, hdata, hnext, fun j hj => ?_, hgrants, rfl, rfl, rfl⟩
    · obtain ⟨blk, blk', -, hb', -, hrefs⟩ := hkeep j hy
      exact ⟨by rw [hnext]; exact (ha.right.live j hy).1, blk', hb', hrefs⟩
    · exact (hother j (by omega)).trans (ha.fresh j hj)

/-- A block counts one reference more. -/
theorem Obj.set_refs {h : Heap} {y : CBuffer} (ho : Obj h y) {i : Nat} {blk : SBuffer} (hb : h.blocks i = some blk) :
    Obj (h.set i (some { blk with refs := blk.refs + 1 })) y ∧
      y.data (h.set i (some { blk with refs := blk.refs + 1 })) = y.data h := by
  have hdata : y.data (h.set i (some { blk with refs := blk.refs + 1 })) = y.data h := data_congr fun j _ => by
    by_cases hji : j = i
    · rw [hji, hb, show (h.set i (some { blk with refs := blk.refs + 1 })).blocks i = _ from if_pos rfl]
      rfl
    · exact congrArg _ (if_neg hji)
  refine ⟨⟨fun j hj => ?_, by rw [hdata]; exact ho.room, by rw [hdata]; exact ho.lt, ho.null, ho.derived, ho.uint32⟩, hdata⟩
  obtain ⟨hlt, blk', hb', hrefs⟩ := ho.live j hj
  refine ⟨hlt, ?_⟩
  by_cases hji : j = i
  · subst hji
    exact ⟨_, if_pos rfl, fun _ => Nat.succ_pos _⟩
  · exact ⟨blk', (if_neg hji).trans hb', hrefs⟩

/-- A copy of an object in memory of its own. -/
theorem copyBuffer_spec {h : Heap} {x y : CBuffer} (ha : Apart h x y) {h' : Heap} {x' : CBuffer}
    (hrun : copyBuffer (h, x) y = some (h', x')) :
    Apart h' x' y ∧ x'.view h' = y.view h ∧ y.view h' = y.view h ∧ x'.uSize = y.uSize ∧ x'.bDerived = false := by
  obtain ⟨h₁, x₁, hdetach, hy, hydata, hnext, hfresh, -, hp, hderived, hpre⟩ := detachData_spec ha
  have hlenLe := hy.lenLe
  have hylt := hy.lt
  obtain ⟨⟨h₂, x₂⟩, halloc, hrun⟩ := Option.bind_eq_some_iff.1 hrun
  obtain ⟨data, hpeek, hrun⟩ := Option.bind_eq_some_iff.1 hrun
  obtain ⟨h₃, hpoke, hres⟩ := Option.map_eq_some_iff.1 hrun
  obtain ⟨rfl, rfl⟩ : h₃ = h' ∧ x₂ = x' := by
    cases hres
    exact ⟨rfl, rfl⟩
  unfold allocUsed at halloc
  rw [hdetach, Option.map_some] at halloc
  unfold Heap.memAlloc at halloc
  simp only at halloc
  by_cases hgrant : h₁.grants h₁.next = true
  · rw [if_pos hgrant] at halloc
    cases halloc
    have hlen : ((List.range y.uSize).map (h₁.junk h₁.next)).length = y.uSize := by
      rw [List.length_map, List.length_range]
    generalize hjunk : (List.range y.uSize).map (h₁.junk h₁.next) = junk at *
    let x₂ : CBuffer := { x₁ with
      p := some h₁.next, bDetachable := true, uSize := y.uSize, bFixed := false, uPosition := 0 }
    have hkept : ∀ j, y.p = some j → (h₁.add junk).blocks j = h₁.blocks j := fun j hj =>
      if_neg (Nat.ne_of_lt (hy.live j hj).1)
    have hydata₂ : y.data (h₁.add junk) = y.data h₁ := data_congr fun j hj => by rw [hkept j hj]
    have hxdata : x₂.data (h₁.add junk) = junk := @data_eq _ x₂ _ ⟨0, junk⟩ rfl (if_pos rfl)
    have hcont : x₂.isContainerized = false := by
      unfold CBuffer.isContainerized
      change (!x₁.bDerived && !true && _) = false
      rw [Bool.not_true, Bool.and_false, Bool.false_and]
    have hy₂ : Obj (h₁.add junk) y :=
      ⟨fun j hj => ⟨Nat.lt_succ_of_lt (hy.live j hj).1, by rw [hkept j hj]; exact (hy.live j hj).2⟩,
        by rw [hydata₂]; exact hy.room, by rw [hydata₂]; exact hy.lt, hy.null, hy.derived, hy.uint32⟩
    have hx₂ : Obj (h₁.add junk) x₂ := by
      refine ⟨fun j hj => ?_, ?_, by rw [hxdata, hlen]; omega, fun hn => (by cases hn), fun hd => ?_, ?_⟩
      · cases hj
        exact ⟨Nat.lt_succ_self _, ⟨0, junk⟩, if_pos rfl, fun hc => absurd hc (by rw [hcont]; exact Bool.noConfusion)⟩
      · rw [hxdata, hlen, hcont, if_neg Bool.noConfusion]
        change y.uSize + x₁.uPreAllocated ≤ _
        omega
      · change x₁.bDerived = true at hd
        rw [hderived] at hd
        cases hd
      · change x₁.uPreAllocated < _
        omega
    have hsep : x₂.p ≠ y.p := fun he => by
      have := (hy.live h₁.next he.symm).1
      omega
    have hap : Apart (h₁.add junk) x₂ y := ⟨hx₂, hy₂, fun j hj hj' => absurd (hj.trans hj'.symm) hsep, fun j hj => by
      have hj : h₁.next + 1 ≤ j := hj
      exact (if_neg (by omega)).trans (hfresh j (by omega))⟩
    have hdata : data = slice (y.data h) 0 y.uSize := by
      rw [peek_eq hy₂ (by rw [hydata₂]; omega), hydata₂, hydata] at hpeek
      exact (Option.some.inj hpeek).symm
    have hdlen : data.length = y.uSize := by
      rw [hdata]
      exact length_slice (by rw [← hydata]; omega)
    obtain ⟨h₄, hpoke', hpoked⟩ := poke_spec hap (show 0 + data.length ≤ _ by rw [hxdata, hlen]; omega) (.inr (.inl hsep))
    obtain rfl : h₄ = h₃ := Option.some.inj (hpoke'.symm.trans hpoke)
    refine ⟨hpoked.apart, ?_, ?_, rfl, hderived⟩
    · apply List.ext_getElem?
      intro k
      rw [getElem?_view]
      change (if k < y.uSize then _ else _) = _
      have hv : y.view h = data := hdata.symm
      rw [hv]
      split
      · rw [hpoked.cells, if_pos (by omega), Nat.sub_zero]
      · exact (List.getElem?_eq_none (by omega)).symm
    · rw [hpoked.unseen.view]
      unfold CBuffer.view
      rw [hydata₂, hydata]
  · rw [if_neg hgrant] at halloc
    cases halloc
    -- no memory: fine for no bytes only
    have hnil : data = [] := by
      by_contra hne
      unfold CBuffer.poke at hpoke
      rw [if_neg hne] at hpoke
      cases hpoke
    have hy₂ : Obj { h₁ with next := h₁.next + 1 } y :=
      ⟨fun j hj => ⟨Nat.lt_succ_of_lt (hy.live j hj).1, (hy.live j hj).2⟩, hy.room, hy.lt, hy.null, hy.derived, hy.uint32⟩
    have hdata : data = slice (y.data h₁) 0 y.uSize := (Option.some.inj ((peek_eq hy₂ (by
      change 0 + y.uSize ≤ (y.data h₁).length
      omega)).symm.trans hpeek)).symm
    have hzero : y.uSize = 0 := by
      have hlen : (slice (y.data h₁) 0 y.uSize).length = y.uSize := length_slice (by omega)
      rw [← hdata, hnil] at hlen
      exact hlen.symm
    unfold CBuffer.poke at hpoke
    rw [if_pos hnil] at hpoke
    cases hpoke
    refine ⟨⟨⟨fun j hj => (by cases hj), ?_, ?_, fun _ => hderived, fun hd => ?_, ?_⟩, hy₂, fun j hj => (by cases hj),
      fun j hj => ?_⟩,
      ?_, ?_, rfl, hderived⟩
    · rw [data_null rfl]
      change y.uSize + (if _ then 0 else x₁.uPreAllocated) ≤ 0
      simp only [hpre, hzero, ite_self, Nat.add_zero, Nat.le_refl]
    · rw [data_null rfl]
      exact Nat.two_pow_pos 64
    · change x₁.bDerived = true at hd
      rw [hderived] at hd
      cases hd
    · change x₁.uPreAllocated < _
      omega
    · have hj : h₁.next + 1 ≤ j := hj
      exact hfresh j (by omega)
    · unfold CBuffer.view
      change slice _ 0 y.uSize = _
      rw [hzero, slice_zero, slice_zero]
    · unfold CBuffer.view
      rw [hzero, slice_zero, slice_zero]

/-- A copy shows what the original shows. -/
theorem assign_spec {samePool : Bool} {h : Heap} {x y : CBuffer} (ha : Apart h x y) {h' : Heap} {x' : CBuffer}
    (hrun : assign samePool (h, x) y = some (h', x')) :
    Apart h' x' y ∧ x'.view h' = y.view h' ∧ y.view h' = y.view h ∧ x'.uPosition = y.uPosition := by
  unfold assign at hrun
  by_cases hcopy : (!samePool || !y.isContainerized) = true
  · rw [if_pos hcopy] at hrun
    obtain ⟨⟨h₁, x₁⟩, hcb, hres⟩ := Option.map_eq_some_iff.1 hrun
    obtain ⟨hap, hview, hyview, hsize, hderived⟩ := copyBuffer_spec ha hcb
    cases hres
    refine ⟨⟨⟨hap.left.live, hap.left.room, hap.left.lt, hap.left.null, fun hd => ?_, hap.left.uint32⟩, hap.right,
      hap.counted, hap.fresh⟩, ?_, hyview, rfl⟩
    · change x₁.bDerived = true at hd
      rw [hderived] at hd
      cases hd
    · rw [hyview]
      exact hview
  · rw [if_neg hcopy] at hrun
    have hcont : y.isContainerized = true := by
      cases hc : y.isContainerized with
      | true => rfl
      | false => simp [hc] at hcopy
    cases hyp : y.p with
    | none =>
      rw [hyp] at hrun
      cases hrun
    | some i =>
      rw [hyp] at hrun
      obtain ⟨⟨h₂, x₂⟩, hattach, hres⟩ := Option.map_eq_some_iff.1 hrun
      obtain ⟨h₁, x₁, hdetach, hy, hydata, hnext, hfresh, -, hp, hderived, hpre⟩ := detachData_spec ha
      obtain ⟨hlt, blk, hb, hrefs⟩ := hy.live i hyp
      have hpos := hrefs hcont
      rw [attachData_eq hdetach hb] at hattach
      cases hattach
      cases hres
      obtain ⟨hy₂, hydata₂⟩ := hy.set_refs hb
      let x₃ : CBuffer := ⟨y.bDerived, y.bDetachable, y.bFixed, y.bReadOnly, x₁.uPreAllocated, some i, y.uSize, y.uPosition⟩
      have hcongr : x₃.isContainerized = y.isContainerized := isContainerized_congr rfl rfl hyp.symm
      have hcont₃ : x₃.isContainerized = true := hcongr.trans hcont
      have hx₃ : x₃.data (h₁.set i (some { blk with refs := blk.refs + 1 })) = y.data h₁ := by
        rw [← hydata₂, data_eq (x := x₃) rfl (if_pos rfl),
          data_eq hyp (if_pos rfl)]
      refine ⟨⟨⟨fun j hj => ?_, ?_, by rw [hx₃]; exact hy.lt, fun hn => (by cases hn), fun hd => ?_, ?_⟩, hy₂,
        fun j hj hj' => ⟨hcont₃, hcont, fun blk' hb' => ?_⟩, fun j hj => ?_⟩, ?_, ?_, rfl⟩
      · cases hj
        exact ⟨hlt, _, if_pos rfl, fun _ => Nat.succ_pos _⟩
      · rw [hx₃, hcont₃, if_pos rfl]
        exact hy.lenLe
      · exact ⟨(hy.derived hd).1, hpre⟩
      · change x₁.uPreAllocated < _
        omega
      · cases hj
        obtain rfl := Option.some.inj ((if_pos rfl).symm.trans hb')
        change 2 ≤ blk.refs + 1
        omega
      · have hj : h₁.next ≤ j := hj
        exact (if_neg (by omega)).trans (hfresh j (by omega))
      · change slice (x₃.data _) 0 y.uSize = slice (y.data _) 0 y.uSize
        rw [hx₃, hydata₂]
      · change slice (y.data _) 0 y.uSize = slice (y.data h) 0 y.uSize
        rw [hydata₂, hydata]

/-- A copy and its original show the same, and keep to themselves in every run of safe calls. -/
theorem copyOnWrite_of_meets {samePool : Bool} {h h' : Heap} {x x' y : CBuffer} (ha : Apart h x y)
    (hcopy : assign samePool (h, x) y = some (h', x')) {cs : List (Side × Op)} (hm : Pair.Meets ⟨h', x', y⟩ cs) :
    x'.view h' = y.view h' ∧ Pair.CopyOnWrite ⟨h', x', y⟩ cs := by
  obtain ⟨hap, hview, -, -⟩ := assign_spec ha hcopy
  have hinv : Inv ⟨h', x', y⟩ fun side => plain h' (Pair.buffer ⟨h', x', y⟩ side) := by
    refine ⟨hap, fun side => ?_⟩
    cases side with
    | a => exact refines_plain hap.left
    | b => exact refines_plain hap.right
  obtain ⟨hunseen, s', hrun, hi⟩ := run_inv hinv hm
  exact ⟨hview, hunseen, s', hrun, hi.refines⟩

/-! ## A shared block with room to spare -/

/-- Memory that is all free. -/
def bare : Heap := ⟨fun _ => none, 0, fun _ => true, fun _ _ => 0⟩

theorem apart_bare : Apart bare .empty .empty := by
  have hobj : Obj bare .empty :=
    ⟨fun i hi => (by cases hi), Nat.le_refl 0, Nat.two_pow_pos 64, fun _ => rfl, fun hd => (by cases hd), Nat.two_pow_pos 32⟩
  exact ⟨hobj, hobj, fun i hi => (by cases hi), fun _ _ => rfl⟩

/-- A buffer with four letters in it. -/
def letters : St := ((writeData (bare, .empty) (.data [97, 98, 99, 100])).map (·.1)).getD (bare, .empty)

theorem apart_letters : Apart letters.1 .empty letters.2 := by
  have hc : (plain bare .empty).Callable (.writeData (.data [97, 98, 99, 100])) :=
    ⟨by decide, fun _ => by decide +kernel⟩
  obtain ⟨h', x', r, hrun, hstep⟩ := unshared_call apart_bare (refines_plain apart_bare.left) rfl (fun _ => rfl) hc
  have hletters : letters = (h', x') := by
    change writeData (bare, .empty) (.data [97, 98, 99, 100]) = _ at hrun
    unfold letters
    rw [hrun]
    rfl
  rw [hletters]
  exact hstep.apart.symm

/-- The buffer and its copy: the size, the capacity and the next block of the one, and what each shows
before and after a byte of the buffer is written. -/
theorem letters_copied : letters.2.uSize = 4 ∧
    (assign true (letters.1, .empty) letters.2).map (fun st => (letters.2.getCapacity st.1, st.1.grants st.1.next)) = some (20, true) ∧
    (assign true (letters.1, .empty) letters.2).map (fun st => (letters.2.view st.1, st.2.view st.1)) =
      some ([97, 98, 99, 100], [97, 98, 99, 100]) ∧
    (assign true (letters.1, .empty) letters.2).bind (fun st =>
      (Pair.step ⟨st.1, st.2, letters.2⟩ (.b, .setDataAt 0 (.data [88]))).map fun r => r.1.view .a) = some [88, 98, 99, 100] := by
  decide +kernel

theorem assign_letters : ∃ st, assign true (letters.1, .empty) letters.2 = some st := by
  rcases hcopy : assign true (letters.1, .empty) letters.2 with _ | st
  · have hsome := letters_copied.2.1
    rw [hcopy] at hsome
    cases hsome
  · exact ⟨st, rfl⟩

/-- A write that outgrows the shared block. -/
theorem copyOnWrite_append : ∃ h' x', assign true (letters.1, .empty) letters.2 = some (h', x') ∧
    x'.view h' = letters.2.view h' ∧
      Pair.CopyOnWrite ⟨h', x', letters.2⟩ [(.b, .appendData (List.replicate 30 88))] := by
  obtain ⟨⟨h', x'⟩, hcopy⟩ := assign_letters
  obtain ⟨hsize, hblock, hviews, -⟩ := letters_copied
  rw [hcopy] at hblock hviews
  have hcap : letters.2.getCapacity h' = 20 := (Prod.mk.inj (Option.some.inj hblock)).1
  have hgrant : h'.grants h'.next = true := (Prod.mk.inj (Option.some.inj hblock)).2
  have hview : letters.2.view h' = [97, 98, 99, 100] := (Prod.mk.inj (Option.some.inj hviews)).1
  refine ⟨h', x', hcopy, copyOnWrite_of_meets apart_letters hcopy ⟨?_, ⟨fun _ _ _ => hgrant, fun _ _ hle => ?_,
    fun _ _ hle => ?_⟩, fun _ _ _ => trivial⟩⟩
  · have hplain : (plain h' letters.2).size = 4 := by
      unfold Plain.size plain
      rw [List.length_map, hview]
      rfl
    change (plain h' letters.2).Counts (plain h' letters.2).size 30
    refine ⟨by rw [hplain]; decide, fun _ => ?_⟩
    rw [hplain]
    decide +kernel
  · change letters.2.uSize + 30 ≤ letters.2.getCapacity h' at hle
    omega
  · change letters.2.uSize + 30 ≤ letters.2.getCapacity h' at hle
    omega

/-- An overwrite inside the shared block is seen through the copy. -/
theorem not_copyOnWrite_overwrite : ∃ h' x', assign true (letters.1, .empty) letters.2 = some (h', x') ∧
    ¬ Pair.CopyOnWrite ⟨h', x', letters.2⟩ [(.b, .setDataAt 0 (.data [88]))] := by
  obtain ⟨⟨h', x'⟩, hcopy⟩ := assign_letters
  refine ⟨h', x', hcopy, fun hcow => ?_⟩
  obtain ⟨⟨s', r, hstep, hview, -, -⟩, -⟩ := hcow
  obtain ⟨-, -, hviews, hwritten⟩ := letters_copied
  rw [hcopy] at hviews
  have hbefore : x'.view h' = [97, 98, 99, 100] := (Prod.mk.inj (Option.some.inj hviews)).2
  have hafter : s'.view .a = [88, 98, 99, 100] := by
    rw [hcopy, Option.bind_some] at hwritten
    change (Pair.step ⟨h', x', letters.2⟩ (.b, .setDataAt 0 (.data [88]))).map (fun r => r.1.view .a) = _ at hwritten
    rw [hstep] at hwritten
    exact Option.some.inj hwritten
  have hsame : s'.view .a = x'.view h' := hview
  rw [hafter, hbefore] at hsame
  exact absurd hsame (by decide)

end MajorPrivacy.Buffer

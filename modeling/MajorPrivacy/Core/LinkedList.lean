/-
`FW::List` (List.h): entries with links both ways, copied on a write to data that are shared. Any history of changes
leaves the links in order and the entries as in a list of values.
-/
import MajorPrivacy.Core.Map
import MajorPrivacy.Lib.LinkedEntries

namespace MajorPrivacy.Core

open LinkedEntries

/-- `SListData` with the memory of its entries, which are allocated from `top` on. -/
structure SListData (V : Type) where
  entries : Heap V
  top : Nat
  Count : Nat
  Head : Option Nat
  Tail : Option Nat

/-- A list, which may have no data yet. -/
abbrev FwList (V : Type) := Option (SListData V)

section Calls

variable {V : Type} [Inhabited V]

/-! ## Entries

`none` is a write to a null pointer, or a loop that runs out of steps. -/

namespace SListData

def empty : SListData V := ⟨fun _ => ⟨default, none, none⟩, 0, 0, none, none⟩

omit [Inhabited V] in
/-- A new `SListEntry`. -/
def alloc (d : SListData V) (Value : V) : SListData V :=
  { d with entries := write d.entries d.top ⟨Value, none, none⟩, top := d.top + 1 }

/-- `InsertBefore`. -/
def insertBefore (d : SListData V) (Before : Option Nat) (Entry : Nat) : Option (SListData V) :=
  if Before = d.Head ∨ Before = none then
    let entries := setNext (setPrev d.entries Entry none) Entry d.Head
    match d.Head with
    | none => some { d with entries := entries, Head := some Entry, Tail := some Entry, Count := d.Count + 1 }
    | some Next => some { d with entries := setPrev entries Next (some Entry), Head := some Entry, Count := d.Count + 1 }
  else
    Before.bind fun Before => (d.entries Before).Prev.map fun Prev =>
      let entries := setPrev (setNext d.entries Prev (some Entry)) Entry (some Prev)
      { d with entries := setNext (setPrev entries Before (some Entry)) Entry (some Before), Count := d.Count + 1 }

/-- `InsertAfter`. -/
def insertAfter (d : SListData V) (After : Option Nat) (Entry : Nat) : Option (SListData V) :=
  if After = d.Tail ∨ After = none then
    let entries := setNext (setPrev d.entries Entry d.Tail) Entry none
    match d.Tail with
    | none => some { d with entries := entries, Tail := some Entry, Head := some Entry, Count := d.Count + 1 }
    | some Prev => some { d with entries := setNext entries Prev (some Entry), Tail := some Entry, Count := d.Count + 1 }
  else
    After.bind fun After => (d.entries After).Next.map fun Next =>
      let entries := setNext (setPrev d.entries Next (some Entry)) Entry (some Next)
      { d with entries := setPrev (setNext entries After (some Entry)) Entry (some After), Count := d.Count + 1 }

/-- `RemoveEntry`. -/
def removeEntry (d : SListData V) (Entry : Nat) : SListData V :=
  match (d.entries Entry).Prev, (d.entries Entry).Next with
  | none, none => { d with Tail := none, Head := none, Count := d.Count - 1 }
  | none, some Next => { d with Head := some Next, entries := setPrev d.entries Next none, Count := d.Count - 1 }
  | some Prev, none => { d with Tail := some Prev, entries := setNext d.entries Prev none, Count := d.Count - 1 }
  | some Prev, some Next =>
    { d with entries := setPrev (setNext d.entries Prev (some Next)) Next (some Prev), Count := d.Count - 1 }

/-- `operator++` of an iterator. -/
def increment (d : SListData V) (bReverse : Bool) (pEntry : Option Nat) : Option Nat :=
  pEntry.bind fun a => if bReverse then (d.entries a).Prev else (d.entries a).Next

/-- The copy in `MakeExclusive`, from an entry on; an iterator that is still to be found moves to the new entry. -/
def copyFrom (d : SListData V) : Nat → Option Nat → SListData V → Bool → Option Nat → Option (SListData V × Option Nat)
  | _, none, ptr, _, pI => some (ptr, pI)
  | 0, some _, _, _, _ => none
  | steps + 1, some Curr, ptr, pending, pI =>
    let New := ptr.top
    ((ptr.alloc (d.entries Curr).Data).insertAfter ptr.Tail New).bind fun ptr =>
      if pending ∧ pI = some Curr then copyFrom d steps (d.entries Curr).Next ptr false (some New)
      else copyFrom d steps (d.entries Curr).Next ptr pending pI

/-- The values an iterator passes. -/
def iterate (d : SListData V) (bReverse : Bool) : Nat → Option Nat → Option (List V)
  | _, none => some []
  | 0, some _ => none
  | steps + 1, some a => (iterate d bReverse steps (d.increment bReverse (some a))).map ((d.entries a).Data :: ·)

end SListData

/-! ## Calls -/

namespace FwList

/-- `MakeExclusive`: the data to change with the iterator in it, if there is memory for it. -/
def makeExclusive (g : Grants) (m : FwList V) (pI : Option Nat) : Option (Option (SListData V × Option Nat)) :=
  match m with
  | none => some (if g.exclusive then some (.empty, pI) else none)
  | some d =>
    if g.shared then (if g.exclusive then (d.copyFrom d.Count d.Head .empty true pI).map some else some none)
    else some (some (d, pI))

/-- `Append` and `Prepand` of a value; whether there is memory. -/
def put (insert : SListData V → Option Nat → Nat → Option (SListData V)) (g : Grants) (m : FwList V) (Value : V) :
    Option (Bool × FwList V) :=
  (makeExclusive g m none).bind fun
    | none => some (false, m)
    | some (d, _) => if g.node then (insert (d.alloc Value) none d.top).map fun d => (true, some d) else some (false, some d)

def append (g : Grants) (m : FwList V) (Value : V) : Option (Bool × FwList V) := put SListData.insertAfter g m Value

def prepand (g : Grants) (m : FwList V) (Value : V) : Option (Bool × FwList V) := put SListData.insertBefore g m Value

/-- `insert`; the iterator that is returned. -/
def insert (g : Grants) (m : FwList V) (I : Option Nat) (Value : V) : Option (Option Nat × FwList V) :=
  (makeExclusive g m I).bind fun
    | none => some (none, m)
    | some (d, I) =>
      if g.node then
        match I with
        | none => ((d.alloc Value).insertAfter none d.top).map fun d' => (some d.top, some d')
        | some pEntry => ((d.alloc Value).insertBefore (some pEntry) d.top).map fun d => (some pEntry, some d)
      else some (none, some d)

/-- `erase`. -/
def erase (g : Grants) (m : FwList V) (bReverse : Bool) (I : Option Nat) : Option (Option Nat × FwList V) :=
  if I = none then some (none, m)
  else
    (makeExclusive g m I).bind fun
      | none => some (none, m)
      | some (d, I) => I.map fun ptr => (d.increment bReverse (some ptr), some (d.removeEntry ptr))

/-- The iterator after some steps. -/
def iterator (m : FwList V) (n : Nat) : Option Nat :=
  m.bind fun d => (d.increment false)^[n] d.Head

end FwList

/-! ## Links -/

/-- The entries of a list, linked in order, and its counter. -/
structure SListData.Valid (d : SListData V) (l : List Nat) : Prop where
  linked : Linked d.entries none l none
  head : d.Head = l.head?
  tail : d.Tail = l.getLast?
  count : d.Count = l.length
  nodup : l.Nodup
  below : ∀ a ∈ l, a < d.top

namespace SListData

/-- The values of some entries. -/
abbrev values (d : SListData V) (l : List Nat) : List V := l.map fun a => (d.entries a).Data

variable {d : SListData V} {l : List Nat}

omit [Inhabited V] in
theorem values_congr {d' : SListData V} (h : ∀ a, (d'.entries a).Data = (d.entries a).Data) : d'.values l = d.values l := by
  simp only [values, h]

theorem valid_empty : (empty : SListData V).Valid [] := ⟨trivial, rfl, rfl, rfl, List.nodup_nil, fun _ ha => by cases ha⟩

namespace Valid

omit [Inhabited V] in
theorem top_not_mem (h : d.Valid l) : d.top ∉ l := fun hmem => lt_irrefl _ (h.below _ hmem)

omit [Inhabited V] in
theorem alloc (h : d.Valid l) (Value : V) : (d.alloc Value).Valid l ∧ (d.alloc Value).values l = d.values l ∧
    ((d.alloc Value).entries d.top).Data = Value := by
  refine ⟨⟨(linked_write _ h.top_not_mem).2 h.linked, h.head, h.tail, h.count, h.nodup, ?_⟩, ?_, ?_⟩
  · exact fun a ha => Nat.lt_succ_of_lt (h.below a ha)
  · refine List.map_congr_left fun a ha => ?_
    have hne : a ≠ d.top := ne_of_lt (h.below a ha)
    exact congrArg Entry.Data (write_ne _ _ hne)
  · exact congrArg Entry.Data (write_same _ _ _)

omit [Inhabited V] in
/-- An entry in front of all others. -/
theorem insertBefore_front (h : d.Valid l) {Entry : Nat} (hnew : Entry ∉ l) (hlt : Entry < d.top) {Before : Option Nat}
    (hb : Before = d.Head ∨ Before = none) :
    ∃ d', d.insertBefore Before Entry = some d' ∧ d'.Valid (Entry :: l) ∧ d'.top = d.top ∧
      ∀ a, (d'.entries a).Data = (d.entries a).Data := by
  unfold insertBefore
  rw [if_pos hb]
  have hbelow : ∀ a ∈ Entry :: l, a < d.top := by
    intro a ha
    obtain rfl | ha := List.mem_cons.1 ha
    · exact hlt
    · exact h.below a ha
  cases l with
  | nil =>
    rw [h.head]
    refine ⟨_, rfl, ⟨?_, rfl, rfl, congrArg (· + 1) h.count, List.nodup_singleton _, hbelow⟩, rfl, fun a => by simp⟩
    simp [Linked, setNext, setPrev]
  | cons next l =>
    obtain ⟨hnext, hnew⟩ := not_or.1 fun hor => hnew (List.mem_cons.2 hor)
    rw [h.head]
    refine ⟨_, rfl, ⟨?_, rfl, ?_, congrArg (· + 1) h.count, List.nodup_cons.2 ⟨?_, h.nodup⟩, hbelow⟩, rfl, fun a => by simp⟩
    · have hrest : Linked (setNext (setPrev d.entries Entry none) Entry (some next)) none (next :: l) none := by
        refine (linked_write _ ?_).2 ((linked_write _ ?_).2 h.linked)
        · simp [hnext, hnew]
        · simp [hnext, hnew]
      refine ⟨?_, ?_, linked_setPrev hrest (List.nodup_cons.1 h.nodup).1 _⟩
      · simp [setPrev, setNext, write_ne, hnext]
      · simp [setPrev, setNext, write_ne, hnext]
    · rw [List.getLast?_cons_cons]
      exact h.tail
    · simp [hnext, hnew]

omit [Inhabited V] in
/-- An entry behind all others. -/
theorem insertAfter_back (h : d.Valid l) {Entry : Nat} (hnew : Entry ∉ l) (hlt : Entry < d.top) {After : Option Nat}
    (ha : After = d.Tail ∨ After = none) :
    ∃ d', d.insertAfter After Entry = some d' ∧ d'.Valid (l ++ [Entry]) ∧ d'.top = d.top ∧
      ∀ a, (d'.entries a).Data = (d.entries a).Data := by
  unfold insertAfter
  rw [if_pos ha]
  have hbelow : ∀ a ∈ l ++ [Entry], a < d.top := by
    intro a ha
    obtain ha | ha := List.mem_append.1 ha
    · exact h.below a ha
    · rw [List.mem_singleton.1 ha]
      exact hlt
  obtain rfl | ⟨f, prev, rfl⟩ := List.eq_nil_or_concat l
  · rw [h.tail]
    refine ⟨_, rfl, ⟨?_, rfl, rfl, congrArg (· + 1) h.count, List.nodup_singleton _, hbelow⟩, rfl, fun a => by simp⟩
    simp [Linked, setNext, setPrev]
  · rw [List.concat_eq_append] at *
    have hprev : Entry ≠ prev := by
      rintro rfl
      exact hnew (List.mem_append_right _ (List.mem_singleton_self _))
    have htail : d.Tail = some prev := by rw [h.tail, List.getLast?_concat]
    have hnodup := List.nodup_append.1 h.nodup
    have hfresh : prev ∉ f := fun hmem => hnodup.2.2 prev hmem prev (List.mem_singleton_self _) rfl
    rw [htail]
    refine ⟨_, rfl, ⟨?_, ?_, ?_, ?_, ?_, hbelow⟩, rfl, fun a => by simp⟩
    · have hrest : Linked (setNext (setPrev d.entries Entry (some prev)) Entry none) none (f ++ [prev]) none :=
        (linked_write _ hnew).2 ((linked_write _ hnew).2 h.linked)
      refine linked_append.2 ⟨linked_setNext hrest hfresh (some Entry), ?_, ?_, trivial⟩
      · simp [setPrev, setNext, write_ne, hprev]
      · simp [setPrev, setNext, write_ne, hprev]
    · rw [List.head?_append, ← h.head]
      cases hh : d.Head with
      | none =>
        rw [h.head, List.head?_eq_none_iff] at hh
        cases f <;> cases hh
      | some a => rfl
    · rw [List.getLast?_concat]
    · rw [List.length_append, ← h.count]
      rfl
    · refine List.nodup_append.2 ⟨h.nodup, List.nodup_singleton _, ?_⟩
      rintro a ha b hb rfl
      exact hnew (List.mem_singleton.1 hb ▸ ha)

omit [Inhabited V] in
/-- An entry between two others. -/
theorem insertBefore_middle {f r : List Nat} {prev before : Nat} (h : d.Valid (f ++ [prev] ++ before :: r)) {Entry : Nat}
    (hnew : Entry ∉ f ++ [prev] ++ before :: r) (hlt : Entry < d.top) :
    ∃ d', d.insertBefore (some before) Entry = some d' ∧ d'.Valid (f ++ [prev] ++ Entry :: before :: r) ∧ d'.top = d.top ∧
      ∀ a, (d'.entries a).Data = (d.entries a).Data := by
  obtain ⟨hfront, hback⟩ := linked_append.1 h.linked
  obtain ⟨hnf, hnb, hdis⟩ := List.nodup_append.1 h.nodup
  have hpb : prev ∉ before :: r := fun hmem => hdis prev (List.mem_append_right _ (List.mem_singleton_self _)) prev hmem rfl
  have hpf : prev ∉ f := fun hmem => (List.nodup_append.1 hnf).2.2 prev hmem prev (List.mem_singleton_self _) rfl
  have hbf : before ∉ f ++ [prev] := fun hmem => hdis before hmem before List.mem_cons_self rfl
  have hnewf : Entry ∉ f ++ [prev] := fun hmem => hnew (List.mem_append_left _ hmem)
  have hnewb : Entry ∉ before :: r := fun hmem => hnew (List.mem_append_right _ hmem)
  have hep : Entry ≠ prev := by
    rintro rfl
    exact hnewf (List.mem_append_right _ (List.mem_singleton_self _))
  have heb : Entry ≠ before := by
    rintro rfl
    exact hnewb List.mem_cons_self
  have hhead : ¬ (some before = d.Head ∨ some before = none) := by
    rw [h.head]
    rintro (heq | heq)
    · rw [List.append_assoc] at heq
      cases f with
      | nil => exact hbf (by rw [Option.some.inj heq]; exact List.mem_append_right _ (List.mem_singleton_self _))
      | cons a f => exact hbf (by rw [Option.some.inj heq]; exact List.mem_append_left _ List.mem_cons_self)
    · cases heq
  have hprev : (d.entries before).Prev = some prev := by
    rw [h.linked.middle.1, List.getLast?_concat]
    rfl
  unfold insertBefore
  rw [if_neg hhead, Option.bind_some, hprev]
  refine ⟨_, rfl, ⟨?_, ?_, ?_, ?_, ?_, ?_⟩, rfl, fun a => by simp⟩
  · rw [List.head?_cons] at hfront
    refine linked_append.2 ⟨?_, ?_⟩
    · -- the writes at the new entry and behind it leave the front alone
      refine (linked_write _ hnewf).2 ((linked_write _ hbf).2 ((linked_write _ hnewf).2 ?_))
      exact linked_setNext hfront hpf (some Entry)
    · rw [List.getLast?_concat]
      refine ⟨by simp [setNext, setPrev, write_ne, heb], by simp [setNext], ?_⟩
      rw [List.getLast?_concat] at hback
      have hrest : Linked (setPrev (setNext d.entries prev (some Entry)) Entry (some prev)) (some prev) (before :: r) none :=
        (linked_write _ hnewb).2 ((linked_write _ hpb).2 hback)
      exact (linked_write _ hnewb).2 (linked_setPrev hrest (List.nodup_cons.1 hnb).1 (some Entry))
  · rw [h.head, List.append_assoc, List.append_assoc]
    cases f <;> rfl
  · rw [h.tail]
    simp only [List.getLast?_append, List.getLast?_cons_cons]
  · rw [h.count]
    simp only [List.length_append, List.length_cons]
    omega
  · refine List.nodup_append.2 ⟨hnf, List.nodup_cons.2 ⟨hnewb, hnb⟩, ?_⟩
    rintro a ha b hb rfl
    obtain rfl | hb := List.mem_cons.1 hb
    · exact hnewf ha
    · exact hdis a ha a hb rfl
  · intro a ha
    obtain ha | ha := List.mem_append.1 ha
    · exact h.below a (List.mem_append_left _ ha)
    obtain rfl | ha := List.mem_cons.1 ha
    · exact hlt
    · exact h.below a (List.mem_append_right _ ha)

omit [Inhabited V] in
/-- An entry taken out. -/
theorem removeEntry {f r : List Nat} {Entry : Nat} (h : d.Valid (f ++ Entry :: r)) :
    (d.removeEntry Entry).Valid (f ++ r) ∧ ∀ a, ((d.removeEntry Entry).entries a).Data = (d.entries a).Data := by
  obtain ⟨hfront, hself, hnext, hback⟩ := linked_append.1 h.linked
  obtain ⟨hnf, hnb, hdis⟩ := List.nodup_append.1 h.nodup
  obtain ⟨hfresh, hnr⟩ := List.nodup_cons.1 hnb
  have hnodup : (f ++ r).Nodup :=
    List.nodup_append.2 ⟨hnf, hnr, fun a ha b hb => hdis a ha b (List.mem_cons_of_mem _ hb)⟩
  have hbelow : ∀ a ∈ f ++ r, a < d.top := by
    intro a ha
    obtain ha | ha := List.mem_append.1 ha
    · exact h.below a (List.mem_append_left _ ha)
    · exact h.below a (List.mem_append_right _ (List.mem_cons_of_mem _ ha))
  have hcount : d.Count - 1 = (f ++ r).length := by
    rw [h.count]
    simp only [List.length_append, List.length_cons]
    omega
  have hhead := h.head
  have htail := h.tail
  rw [Option.or_none] at hself hnext
  unfold SListData.removeEntry
  rw [hself, hnext]
  obtain rfl | ⟨f, prev, rfl⟩ := List.eq_nil_or_concat f
  · cases r with
    | nil => exact ⟨⟨trivial, rfl, rfl, hcount, hnodup, hbelow⟩, fun a => rfl⟩
    | cons next r =>
      refine ⟨⟨linked_setPrev hback (List.nodup_cons.1 hnr).1 none, rfl, ?_, hcount, hnodup, hbelow⟩, fun a => by simp⟩
      rw [List.nil_append, List.getLast?_cons_cons] at htail
      exact htail
  · rw [List.concat_eq_append] at *
    have hpf : prev ∉ f := fun hmem => (List.nodup_append.1 hnf).2.2 prev hmem prev (List.mem_singleton_self _) rfl
    rw [List.getLast?_concat]
    have hstart : ∀ l : List Nat, (f ++ [prev] ++ l).head? = (f ++ [prev]).head? := by
      intro l
      cases f <;> rfl
    cases r with
    | nil =>
      rw [List.append_nil] at *
      refine ⟨⟨linked_setNext hfront hpf none, ?_, ?_, hcount, hnodup, hbelow⟩, fun a => by simp⟩
      · exact hhead.trans (hstart _)
      · exact List.getLast?_concat.symm
    | cons next r =>
      have hnf' : next ∉ f ++ [prev] := fun hmem => hdis next hmem next (List.mem_cons_of_mem _ List.mem_cons_self) rfl
      have hpr : prev ∉ next :: r := fun hmem =>
        hdis prev (List.mem_append_right _ (List.mem_singleton_self _)) prev (List.mem_cons_of_mem _ hmem) rfl
      refine ⟨⟨?_, ?_, ?_, hcount, hnodup, hbelow⟩, fun a => by simp⟩
      · refine linked_append.2 ⟨(linked_write _ hnf').2 (linked_setNext hfront hpf (some next)), ?_⟩
        rw [List.getLast?_concat]
        have hrest : Linked (setNext d.entries prev (some next)) (some Entry) (next :: r) none := (linked_write _ hpr).2 hback
        exact linked_setPrev hrest (List.nodup_cons.1 hnr).1 (some prev)
      · exact hhead.trans ((hstart _).trans (hstart _).symm)
      · refine htail.trans ?_
        simp only [List.getLast?_append, List.getLast?_cons_cons]

end Valid

end SListData

/-! ## Copies and iterators -/

namespace SListData

variable {d : SListData V} {l : List Nat}

omit [Inhabited V] in
/-- The copy from an entry on, behind the copies of those in front of it. -/
theorem copyFrom_spec (i : Nat) : ∀ (rest done : List Nat) {ptr : SListData V} {l' : List Nat} {pending : Bool} {pI : Option Nat}
    {steps : Nat}, d.Valid (done ++ rest) → ptr.Valid l' → ptr.values l' = d.values done → rest.length ≤ steps →
      (if pending then done.length ≤ i ∧ pI = (done ++ rest)[i]? else i < done.length ∧ pI = l'[i]?) →
        ∃ ptr' l'', d.copyFrom steps rest.head? ptr pending pI = some (ptr', l''[i]?) ∧ ptr'.Valid l'' ∧
          ptr'.values l'' = d.values (done ++ rest)
  | [], done, ptr, l', pending, pI, steps, h, hptr, hvalues, _, hI => by
    have hlen : l'.length = done.length := by simpa using congrArg List.length hvalues
    refine ⟨ptr, l', ?_, hptr, by rw [List.append_nil, hvalues]⟩
    have hpI : pI = l'[i]? := by
      cases pending with
      | false => exact hI.2
      | true =>
        obtain ⟨hle, rfl⟩ := hI
        rw [List.append_nil, List.getElem?_eq_none hle, List.getElem?_eq_none (by omega)]
    rw [hpI]
    cases steps <;> rfl
  | Curr :: rest, done, ptr, l', pending, pI, 0, _, _, _, hsteps, _ => absurd hsteps (Nat.not_succ_le_zero _)
  | Curr :: rest, done, ptr, l', pending, pI, steps + 1, h, hptr, hvalues, hsteps, hI => by
    have hlen : l'.length = done.length := by simpa using congrArg List.length hvalues
    have hnext : (d.entries Curr).Next = rest.head? := by
      rw [h.linked.middle.2, Option.or_none]
    obtain ⟨halloc, hkept, hnew⟩ := hptr.alloc (d.entries Curr).Data
    obtain ⟨ptr₁, hinsert, hvalid, -, hdata⟩ := halloc.insertAfter_back hptr.top_not_mem (Nat.lt_succ_self _) (.inl rfl)
    have hvalues₁ : ptr₁.values (l' ++ [ptr.top]) = d.values (done ++ [Curr]) := by
      calc ptr₁.values (l' ++ [ptr.top])
          = (ptr.alloc (d.entries Curr).Data).values l' ++ [((ptr.alloc (d.entries Curr).Data).entries ptr.top).Data] := by
            rw [values_congr hdata]
            exact List.map_append
        _ = d.values done ++ [(d.entries Curr).Data] := by rw [hkept, hvalues, hnew]
        _ = d.values (done ++ [Curr]) := by
            rw [← List.map_singleton (f := fun a => (d.entries a).Data), ← List.map_append]
    have hrest : d.Valid (done ++ [Curr] ++ rest) := by
      rw [List.append_assoc]
      exact h
    have hlen₁ : (done ++ [Curr]).length = done.length + 1 := List.length_append
    have hlast : (l' ++ [ptr.top])[done.length]? = some ptr.top := by
      rw [← hlen]
      exact List.getElem?_concat_length
    have hrun : d.copyFrom (steps + 1) (Curr :: rest).head? ptr pending pI =
        if pending ∧ pI = some Curr then d.copyFrom steps rest.head? ptr₁ false (some ptr.top)
        else d.copyFrom steps rest.head? ptr₁ pending pI := by
      rw [List.head?_cons, copyFrom]
      change ((ptr.alloc (d.entries Curr).Data).insertAfter (ptr.alloc (d.entries Curr).Data).Tail ptr.top).bind _ = _
      rw [hinsert, Option.bind_some, hnext]
    rw [hrun, ← List.singleton_append, ← List.append_assoc]
    split
    · rename_i hfound
      refine copyFrom_spec i rest (done ++ [Curr]) hrest hvalid hvalues₁ (Nat.le_of_succ_le_succ hsteps) ?_
      -- the entry of the iterator: an address stands in one place only
      rw [if_pos hfound.1] at hI
      have hi : i = done.length := by
        have hat : (done ++ Curr :: rest)[done.length]? = some Curr := by simp
        have hsame : (done ++ Curr :: rest)[i]? = (done ++ Curr :: rest)[done.length]? := by rw [hat, ← hI.2, hfound.2]
        have hbound : i < (done ++ Curr :: rest).length := by
          by_contra hge
          rw [hat, List.getElem?_eq_none (by omega)] at hsame
          cases hsame
        exact (List.getElem?_inj hbound h.nodup).1 hsame
      rw [if_neg Bool.false_ne_true, hlen₁, hi, hlast]
      exact ⟨Nat.lt_succ_self _, rfl⟩
    · rename_i hother
      refine copyFrom_spec i rest (done ++ [Curr]) hrest hvalid hvalues₁ (Nat.le_of_succ_le_succ hsteps) ?_
      rw [hlen₁]
      cases pending with
      | true =>
        rw [if_pos rfl] at hI ⊢
        obtain ⟨hle, hpI⟩ := hI
        have hne : i ≠ done.length := by
          rintro rfl
          exact hother ⟨rfl, by rw [hpI]; simp⟩
        rw [List.append_assoc]
        exact ⟨by omega, hpI⟩
      | false =>
        rw [if_neg Bool.false_ne_true] at hI ⊢
        obtain ⟨hlt, hpI⟩ := hI
        rw [List.getElem?_append_left (by omega)]
        exact ⟨by omega, hpI⟩

omit [Inhabited V] in
theorem increment_iterate : ∀ (n : Nat) {l : List Nat} {prev : Option Nat}, Linked d.entries prev l none →
    (d.increment false)^[n] l.head? = l[n]?
  | 0, l, _, _ => List.head?_eq_getElem?
  | n + 1, [], _, _ => by
    rw [Function.iterate_succ_apply]
    exact @increment_iterate n [] none trivial
  | n + 1, a :: l, _, h => by
    obtain ⟨-, hnext, hrest⟩ := h
    rw [Function.iterate_succ_apply, List.getElem?_cons_succ, ← increment_iterate n hrest, List.head?_cons]
    refine congrArg _ ?_
    rw [increment, Option.bind_some, if_neg Bool.false_ne_true, hnext, Option.or_none]

omit [Inhabited V] in
theorem iterate_forward : ∀ {l : List Nat} {prev : Option Nat} {steps : Nat}, Linked d.entries prev l none → l.length ≤ steps →
    d.iterate false steps l.head? = some (d.values l)
  | [], _, steps, _, _ => by cases steps <;> rfl
  | a :: l, _, 0, _, hsteps => absurd hsteps (Nat.not_succ_le_zero _)
  | a :: l, _, steps + 1, h, hsteps => by
    obtain ⟨-, hnext, hrest⟩ := h
    have hrun := iterate_forward hrest (Nat.le_of_succ_le_succ hsteps)
    rw [List.head?_cons, iterate, increment, Option.bind_some, if_neg Bool.false_ne_true, hnext, Option.or_none, hrun]
    rfl

omit [Inhabited V] in
/-- An iteration passes the same values, however many steps it may take. -/
theorem iterate_unique {bReverse : Bool} : ∀ {steps steps' : Nat} {I : Option Nat} {vs vs' : List V},
    d.iterate bReverse steps I = some vs → d.iterate bReverse steps' I = some vs' → vs = vs'
  | steps, steps', none, vs, vs', h, h' => by
    have hnil : ∀ {n : Nat} {us : List V}, d.iterate bReverse n none = some us → us = [] := by
      intro n us hus
      cases n <;> exact (Option.some.inj hus).symm
    rw [hnil h, hnil h']
  | 0, _, some I, _, _, h, _ => by cases h
  | _, 0, some I, _, _, _, h' => by cases h'
  | steps + 1, steps' + 1, some I, vs, vs', h, h' => by
    obtain ⟨us, hus, rfl⟩ := Option.map_eq_some_iff.1 h
    obtain ⟨us', hus', rfl⟩ := Option.map_eq_some_iff.1 h'
    rw [iterate_unique hus hus']

omit [Inhabited V] in
/-- In front of the head there is no entry. -/
theorem iterate_reverse (h : d.Valid l) (steps : Nat) : d.iterate true steps d.Head = some ((d.values l).take 1) ∨
    steps = 0 ∧ l ≠ [] ∧ d.iterate true steps d.Head = none := by
  rw [h.head]
  cases l with
  | nil => exact .inl (by cases steps <;> rfl)
  | cons a l =>
    cases steps with
    | zero => exact .inr ⟨rfl, List.cons_ne_nil _ _, rfl⟩
    | succ steps =>
      left
      rw [List.head?_cons, iterate, increment, Option.bind_some, if_pos rfl, h.linked.1]
      cases steps <;> rfl

omit [Inhabited V] in
theorem Valid.unique {l' : List Nat} (h : d.Valid l) (h' : d.Valid l') : l = l' := by
  refine List.ext_getElem? fun n => ?_
  rw [← increment_iterate n h.linked, ← increment_iterate n h'.linked, ← h.head, ← h'.head]

/-- The list of values that a list stands for. -/
def Holds (d : SListData V) (vs : List V) : Prop := ∃ l, d.Valid l ∧ d.values l = vs

end SListData

/-! ## Histories -/

/-- The memory that `MakeExclusive` needs is there. -/
def Grants.ready (g : Grants) (fresh : Bool) : Bool := !(fresh || g.shared) || g.exclusive

/-- A list stands for a list of values, or has no data. -/
def FwList.Rep : FwList V → Option (List V) → Prop
  | none, none => True
  | some d, some vs => d.Holds vs
  | _, _ => False

/-- A call that changes a list; an iterator is the beginning after some steps. -/
inductive ListCall (V : Type)
  | append (g : Grants) (Value : V)
  | prepand (g : Grants) (Value : V)
  | insert (g : Grants) (n : Nat) (Value : V)
  | erase (g : Grants) (n : Nat)
  | clear

def FwList.run (m : FwList V) : ListCall V → Option (FwList V)
  | .append g Value => (m.append g Value).map (·.2)
  | .prepand g Value => (m.prepand g Value).map (·.2)
  | .insert g n Value => (m.insert g (m.iterator n) Value).map (·.2)
  | .erase g n => (m.erase g false (m.iterator n)).map (·.2)
  | .clear => some none

/-- What a history of calls leaves of a new list. -/
def listAfter (calls : List (ListCall V)) : Option (FwList V) := calls.foldlM FwList.run none

/-- A change of the values, if there is memory for data of its own. -/
def change (g : Grants) (s : Option (List V)) (f : List V → List V) : Option (List V) :=
  if g.ready s.isNone then some (f (s.getD [])) else s

/-- The calls on a list of values. -/
def ListCall.apply (s : Option (List V)) : ListCall V → Option (List V)
  | append g Value => change g s fun vs => if g.node then vs ++ [Value] else vs
  | prepand g Value => change g s fun vs => if g.node then Value :: vs else vs
  | insert g n Value => change g s fun vs => if g.node then vs.take n ++ Value :: vs.drop n else vs
  | erase g n => if n < (s.getD []).length then change g s fun vs => vs.eraseIdx n else s
  | clear => none

def valuesAfter (calls : List (ListCall V)) : Option (List V) := calls.foldl ListCall.apply none

namespace FwList

variable {m : FwList V} {s : Option (List V)}

omit [Inhabited V] in
theorem rep_unique {s' : Option (List V)} (h : Rep m s) (h' : Rep m s') : s = s' := by
  cases m with
  | none =>
    cases s with
    | some vs => exact absurd h id
    | none =>
      cases s' with
      | some vs => exact absurd h' id
      | none => rfl
  | some d =>
    cases s with
    | none => exact absurd h id
    | some vs =>
      cases s' with
      | none => exact absurd h' id
      | some vs' =>
        obtain ⟨l, hl, rfl⟩ := h
        obtain ⟨l', hl', rfl⟩ := h'
        rw [hl.unique hl']

omit [Inhabited V] in
theorem rep_some {d : SListData V} {l : List Nat} (h : d.Valid l) : Rep (some d) (some (d.values l)) := ⟨l, h, rfl⟩

/-- The data to change hold the same values, and the iterator stands at the same place. -/
theorem makeExclusive_spec (h : Rep m s) (g : Grants) (n : Nat) {pI : Option Nat} (hnone : m = none → pI = none)
    (hI : ∀ d l, m = some d → d.Valid l → pI = l[n]?) :
    (g.ready s.isNone = false ∧ makeExclusive g m pI = some none) ∨
      g.ready s.isNone = true ∧ ∃ d l, makeExclusive g m pI = some (some (d, l[n]?)) ∧ d.Valid l ∧ d.values l = s.getD [] := by
  cases m with
  | none =>
    cases s with
    | some vs => exact absurd h id
    | none =>
      rw [hnone rfl]
      cases hg : g.exclusive with
      | false => exact .inl ⟨by simp [Grants.ready, hg], by simp [makeExclusive, hg]⟩
      | true => exact .inr ⟨by simp [Grants.ready, hg], .empty, [], by simp [makeExclusive, hg], SListData.valid_empty, rfl⟩
  | some d =>
    cases s with
    | none => exact absurd h id
    | some vs =>
      obtain ⟨l, hl, rfl⟩ := h
      have hpI := hI d l rfl hl
      cases hs : g.shared with
      | false => exact .inr ⟨by simp [Grants.ready, hs], d, l, by simp [makeExclusive, hs, hpI], hl, rfl⟩
      | true =>
        cases hg : g.exclusive with
        | false => exact .inl ⟨by simp [Grants.ready, hs, hg], by simp [makeExclusive, hs, hg]⟩
        | true =>
          obtain ⟨d', l', hcopy, hvalid, hvalues⟩ := @SListData.copyFrom_spec V d n l [] .empty [] true pI _ hl
            SListData.valid_empty rfl (le_of_eq hl.count.symm) ⟨Nat.zero_le _, hpI⟩
          refine .inr ⟨by simp [Grants.ready, hg], d', l', ?_, hvalid, hvalues⟩
          simp only [makeExclusive, hs, hg, if_true]
          rw [hl.head, hcopy]
          rfl

/-- A place for a value among others, and how the entries are put in. -/
structure Puts (place : SListData V → Option Nat → Nat → Option (SListData V)) (join : List V → V → List V) : Prop where
  place : ∀ {d : SListData V} {l : List Nat} (Value : V), d.Valid l → ∃ d' l', place (d.alloc Value) none d.top = some d' ∧
    d'.Valid l' ∧ d'.values l' = join (d.values l) Value

omit [Inhabited V] in
theorem puts_insertAfter : Puts (V := V) SListData.insertAfter fun vs Value => vs ++ [Value] := by
  refine ⟨fun {d l} Value h => ?_⟩
  obtain ⟨halloc, hkept, hnew⟩ := h.alloc Value
  obtain ⟨d', hd', hvalid, -, hdata⟩ := halloc.insertAfter_back h.top_not_mem (Nat.lt_succ_self _) (.inr rfl)
  refine ⟨d', _, hd', hvalid, ?_⟩
  rw [SListData.values_congr hdata, ← hkept]
  exact List.map_append.trans (congrArg (_ ++ ·) (congrArg ([·]) hnew))

omit [Inhabited V] in
theorem puts_insertBefore : Puts (V := V) SListData.insertBefore fun vs Value => Value :: vs := by
  refine ⟨fun {d l} Value h => ?_⟩
  obtain ⟨halloc, hkept, hnew⟩ := h.alloc Value
  obtain ⟨d', hd', hvalid, -, hdata⟩ := halloc.insertBefore_front h.top_not_mem (Nat.lt_succ_self _) (.inr rfl)
  refine ⟨d', _, hd', hvalid, ?_⟩
  rw [SListData.values_congr hdata, ← hkept]
  exact congrArg (· :: _) hnew

/-- A value is put in, if there is memory. -/
theorem put_spec {place : SListData V → Option Nat → Nat → Option (SListData V)} {join : List V → V → List V}
    (hputs : Puts place join) (h : Rep m s) (g : Grants) (Value : V) :
    ∃ m', put place g m Value = some (g.ready s.isNone && g.node, m') ∧
      Rep m' (change g s fun vs => if g.node then join vs Value else vs) := by
  unfold change
  obtain ⟨hready, hrun⟩ | ⟨hready, d, l, hrun, hvalid, hvalues⟩ := @makeExclusive_spec _ _ m s h g (m.elim 0 (·.Count)) none
    (fun _ => rfl) (by
      rintro d l rfl hl
      rw [Option.elim, hl.count, List.getElem?_eq_none (le_refl _)])
  · refine ⟨m, by rw [put, hrun, hready]; rfl, ?_⟩
    rw [hready]
    exact h
  · rw [hready, if_pos rfl, ← hvalues, put, hrun, Option.bind_some]
    dsimp only
    cases hnode : g.node with
    | false => exact ⟨_, rfl, rep_some hvalid⟩
    | true =>
      obtain ⟨d', l', hd', hvalid', hvalues'⟩ := hputs.place Value hvalid
      refine ⟨some d', by rw [if_pos rfl, hd']; rfl, l', hvalid', hvalues'⟩

omit [Inhabited V] in
/-- Where an iterator of some steps stands. -/
theorem iterator_eq (n : Nat) : (m = none → iterator m n = none) ∧ ∀ d l, m = some d → d.Valid l → iterator m n = l[n]? := by
  constructor
  · rintro rfl
    rfl
  · rintro d l rfl hl
    rw [iterator, Option.bind_some, hl.head, SListData.increment_iterate n hl.linked]

omit [Inhabited V] in
/-- A list around one of its places. -/
theorem exists_split {n : Nat} {l : List Nat} (h : n < l.length) : ∃ f b r, l = f ++ b :: r ∧ f.length = n := by
  refine ⟨l.take n, l[n], l.drop (n + 1), ?_, List.length_take_of_le (le_of_lt h)⟩
  rw [← List.drop_eq_getElem_cons h, List.take_append_drop]

omit [Inhabited V] in
theorem getElem?_middle (f : List Nat) (b : Nat) (r : List Nat) : (f ++ b :: r)[f.length]? = some b := by simp

theorem insert_spec (h : Rep m s) (g : Grants) (n : Nat) (Value : V) : ∃ r, m.insert g (m.iterator n) Value = some r ∧
    Rep r.2 (change g s fun vs => if g.node then vs.take n ++ Value :: vs.drop n else vs) := by
  unfold change
  obtain ⟨hnone, hI⟩ := @iterator_eq _ m n
  obtain ⟨hready, hrun⟩ | ⟨hready, d, l, hrun, hvalid, hvalues⟩ := makeExclusive_spec h g n hnone hI
  · rw [insert, hrun, hready]
    exact ⟨_, rfl, h⟩
  rw [hready, if_pos rfl, ← hvalues, insert, hrun, Option.bind_some]
  dsimp only
  cases hnode : g.node with
  | false => exact ⟨_, rfl, rep_some hvalid⟩
  | true =>
    rw [if_pos rfl, if_pos rfl]
    obtain ⟨halloc, hkept, hnew⟩ := hvalid.alloc Value
    -- the values of the entries around the new one
    have hsplit : ∀ {d' : SListData V}, (∀ a, (d'.entries a).Data = ((d.alloc Value).entries a).Data) →
        d'.values (l.take n ++ d.top :: l.drop n) = (d.values l).take n ++ Value :: (d.values l).drop n := by
      intro d' hdata
      rw [SListData.values_congr hdata, ← hkept, SListData.values, ← List.map_take, ← List.map_drop, List.map_append,
        List.map_cons, hnew]
    by_cases hlt : n < l.length
    · obtain ⟨f, b, r, rfl, rfl⟩ := exists_split hlt
      rw [getElem?_middle]
      dsimp only
      rw [List.take_left, List.drop_left] at hsplit
      obtain rfl | ⟨f, prev, rfl⟩ := List.eq_nil_or_concat f
      · obtain ⟨d', hd', hvalid', -, hdata⟩ := halloc.insertBefore_front hvalid.top_not_mem (Nat.lt_succ_self _)
          (.inl hvalid.head.symm)
        have hd' : (d.alloc Value).insertBefore (some b) d.top = some d' := hd'
        rw [hd']
        exact ⟨_, rfl, _, hvalid', hsplit hdata⟩
      · rw [List.concat_eq_append] at *
        obtain ⟨d', hd', hvalid', -, hdata⟩ := halloc.insertBefore_middle hvalid.top_not_mem (Nat.lt_succ_self _)
        rw [hd']
        exact ⟨_, rfl, _, hvalid', hsplit hdata⟩
    · rw [List.getElem?_eq_none (by omega)]
      dsimp only
      obtain ⟨d', hd', hvalid', -, hdata⟩ := halloc.insertAfter_back hvalid.top_not_mem (Nat.lt_succ_self _) (.inr rfl)
      have hsplit := hsplit hdata
      rw [List.take_of_length_le (by omega), List.drop_eq_nil_of_le (by omega)] at hsplit
      rw [hd']
      exact ⟨_, rfl, _, hvalid', hsplit⟩

theorem erase_spec (h : Rep m s) (g : Grants) (bReverse : Bool) (n : Nat) : ∃ r, m.erase g bReverse (m.iterator n) = some r ∧
    Rep r.2 (if n < (s.getD []).length then change g s fun vs => vs.eraseIdx n else s) := by
  have hlength : ∀ d l, m = some d → d.Valid l → (s.getD []).length = l.length := by
    rintro d l rfl hl
    cases s with
    | none => exact absurd h id
    | some vs =>
      obtain ⟨l', hl', rfl⟩ := h
      rw [Option.getD_some, List.length_map, ← hl'.count, hl.count]
  obtain ⟨hnone, hI⟩ := @iterator_eq _ m n
  by_cases hend : m.iterator n = none
  · have hge : ¬ n < (s.getD []).length := by
      cases m with
      | none =>
        cases s with
        | some vs => exact absurd h id
        | none => exact Nat.not_lt_zero _
      | some d =>
        cases s with
        | none => exact absurd h id
        | some vs =>
          obtain ⟨l, hl, rfl⟩ := id h
          have hat := hI d l rfl hl
          rw [hend] at hat
          rw [Option.getD_some, List.length_map]
          exact Nat.not_lt.2 (List.getElem?_eq_none_iff.1 hat.symm)
    rw [erase, if_pos hend, if_neg hge]
    exact ⟨_, rfl, h⟩
  rw [erase, if_neg hend]
  obtain ⟨hready, hrun⟩ | ⟨hready, d, l, hrun, hvalid, hvalues⟩ := makeExclusive_spec h g n hnone hI
  · rw [hrun, change, hready]
    refine ⟨_, rfl, ?_⟩
    rw [if_neg Bool.false_ne_true, ite_self]
    exact h
  · have hlt : n < l.length := by
      by_contra hge
      refine hend ?_
      cases m with
      | none => exact hnone rfl
      | some d₀ =>
        cases s with
        | none => exact absurd h id
        | some vs =>
          obtain ⟨l₀, hl₀, hv₀⟩ := id h
          have hsame := congrArg List.length hvalues
          rw [Option.getD_some, ← hv₀, List.length_map, List.length_map] at hsame
          rw [hI d₀ l₀ rfl hl₀, List.getElem?_eq_none (by omega)]
    have hsize : (s.getD []).length = l.length := by rw [← hvalues, List.length_map]
    rw [hsize, if_pos hlt, change, hready, if_pos rfl, ← hvalues, hrun, Option.bind_some]
    obtain ⟨f, b, r, rfl, rfl⟩ := exists_split hlt
    obtain ⟨hremoved, hdata⟩ := hvalid.removeEntry
    rw [getElem?_middle]
    refine ⟨_, rfl, _, hremoved, ?_⟩
    rw [SListData.values_congr hdata]
    simp [SListData.values, List.eraseIdx_append_of_length_le]

theorem run_rep (h : Rep m s) (call : ListCall V) : ∃ m', m.run call = some m' ∧ Rep m' (call.apply s) := by
  cases call with
  | append g Value =>
    obtain ⟨m', hm', hrep⟩ := put_spec puts_insertAfter h g Value
    exact ⟨m', by rw [run, append, hm']; rfl, hrep⟩
  | prepand g Value =>
    obtain ⟨m', hm', hrep⟩ := put_spec puts_insertBefore h g Value
    exact ⟨m', by rw [run, prepand, hm']; rfl, hrep⟩
  | insert g n Value =>
    obtain ⟨r, hr, hrep⟩ := insert_spec h g n Value
    exact ⟨r.2, by rw [run, hr]; rfl, hrep⟩
  | erase g n =>
    obtain ⟨r, hr, hrep⟩ := erase_spec h g false n
    exact ⟨r.2, by rw [run, hr]; rfl, hrep⟩
  | clear => exact ⟨none, rfl, trivial⟩

/-- The calls do to a list what they do to its values. -/
theorem rep_listAfter (calls : List (ListCall V)) : ∃ m, listAfter calls = some m ∧ Rep m (valuesAfter calls) := by
  have hrun : ∀ (calls : List (ListCall V)) (m : FwList V) (s : Option (List V)), Rep m s →
      ∃ m', calls.foldlM run m = some m' ∧ Rep m' (calls.foldl ListCall.apply s) := by
    intro calls
    induction calls with
    | nil => exact fun m s h => ⟨m, rfl, h⟩
    | cons call calls ih =>
      intro m s h
      obtain ⟨m', hm', hrep⟩ := run_rep h call
      rw [List.foldlM_cons, hm']
      exact ih m' _ hrep
  exact hrun calls none none trivial

end FwList

end Calls

end MajorPrivacy.Core

/-
List variants as sequences (Variant.cpp). A program makes list variants, parses and clones them,
appends, removes and reads; what it sees is what it would see of sequences, and its elements are all
accounted for, just as long as no append meets a full list that does not grow, no removal meets an
element, and no list that is read-only is written that lost its payload when it was parsed.
-/
import MajorPrivacy.Variant.Find
import MajorPrivacy.Variant.ListBlock

namespace MajorPrivacy.Variant.ListBlock

open ObjectArray

/-! ## List variants -/

/-- A payload that is read as a list, with the elements it is read as. -/
structure Payload where
  bytes : Bytes
  entries : List (EType × Bytes)
  reads : readRawList bytes = (entries, none)

def Payload.elements (p : Payload) : List Content := p.entries.map fun e => Content.ofBytes e.1 e.2

/-- A `CVariant` of type list, with a payload that was not parsed yet or with a container. -/
inductive ListVariant
  | raw (bReadOnly : Bool) (payload : Payload)
  | container (parsed : Parsed) (pList : SList)

namespace ListVariant

def bReadOnly : ListVariant → Bool
  | raw bReadOnly _ => bReadOnly
  | container parsed _ => parsed.bReadOnly

/-- What a program is told: nothing or that it was done, an error, a count, an element if there is
one, or the payload of a packet if all its bytes were set. -/
inductive Answer
  | done
  | error (e : EResult)
  | count (n : Nat)
  | element (v : Option Content)
  | payload (b : Option Bytes)

/-- `GetList`; `none` stands for `eErrIsEmpty`. -/
def getList (v : ListVariant) (bCanInit : Bool) (m : Ledger) : Except Misuse (Option (Parsed × SList) × Ledger) :=
  match v with
  | container parsed pList => .ok (some (parsed, pList), m)
  | raw bReadOnly payload =>
    if payload.bytes = [] ∧ bCanInit = false then .ok (none, m)
    else do
      let (pList, m) ← appendAll payload.elements (allocList 4) m
      .ok (some (Content.parsedFrom bReadOnly payload.bytes, pList), m)

/-- What a call leaves: the variant if it still is there, the ledger, and the answer. -/
abbrev Result := Option ListVariant × Ledger × Answer

/-- `Count`. -/
def count (v : ListVariant) (m : Ledger) : Except Misuse Result := do
  match ← v.getList false m with
  | (none, m) => .ok (some v, m, .count 0)
  | (some (parsed, pList), m) => .ok (some (container parsed pList), m, .count pList.count)

/-- `PtrAt` of a list. -/
def ptrAt (i : UInt32) (v : ListVariant) (m : Ledger) : Except Misuse Result := do
  match ← v.getList false m with
  | (none, m) => .ok (some v, m, .element none)
  | (some (parsed, pList), m) =>
    if i.toNat ≥ pList.count then .ok (some (container parsed pList), m, .element none)
    else do
      let o ← objectAt pList.data i.toNat
      .ok (some (container parsed pList), m, .element (some o.value))

/-- `Append`. -/
def append (pVariant : Source) (v : ListVariant) (m : Ledger) : Except Misuse Result :=
  if v.bReadOnly then .ok (some v, m, .error .eErrNotWritable)
  else do
    match ← v.getList true m with
    | (none, m) => .ok (some v, m, .error .eErrIsEmpty)
    | (some (parsed, pList), m) =>
      let (pList, m) ← listAppend pList pVariant m
      .ok (some (container parsed pList), m, .done)

/-- `Append` of the variant to itself: the new element has the container it stands in. -/
def appendSelf (v : ListVariant) (m : Ledger) : Except Misuse Result :=
  if v.bReadOnly then .ok (some v, m, .error .eErrNotWritable) else .error .cyclic

/-- `Remove` of a list. -/
def remove (i : UInt32) (v : ListVariant) (m : Ledger) : Except Misuse Result :=
  if v.bReadOnly then .ok (some v, m, .error .eErrNotWritable)
  else do
    match ← v.getList false m with
    | (none, m) => .ok (some v, m, .error .eErrIsEmpty)
    | (some (parsed, pList), m) =>
      let (pList, m) ← listRemove pList i.toNat m
      .ok (some (container parsed pList), m, .done)

/-- `MkPayload` of a list, which `ToPacket` writes behind a header for it. -/
def mkPayload (v : ListVariant) (m : Ledger) : Except Misuse Result :=
  match v with
  | raw _ payload => .ok (some v, m, .payload (some payload.bytes))
  | container parsed pList =>
    if parsed.bReadOnly then .ok (some v, m, .payload parsed.payload)
    else do
      let os ← (List.range pList.count).mapM (objectAt pList.data)
      .ok (some v, m, .payload (Content.writeAll (os.map fun o => o.value.toPacket)))

/-- `Clone` of a list. -/
def clone (full : Bool) (v : ListVariant) (m : Ledger) : Except Misuse (ListVariant × Ledger) :=
  match v with
  | raw _ payload => .ok (raw false payload, m)
  | container _ pList => do
    let (pList, m) ← cloneList pList full m
    .ok (container Content.unparsed pList, m)

/-- `Unfreeze` of a variant with a payload of its own. -/
def unfreeze (v : ListVariant) (m : Ledger) : Except Misuse Result :=
  match v with
  | raw _ payload => .ok (some (raw false payload), m, .done)
  | container parsed pList => .ok (some (container { parsed with bReadOnly := false } pList), m, .done)

/-- The destructor. -/
def destroy (v : ListVariant) (m : Ledger) : Except Misuse Result :=
  match v with
  | raw _ _ => .ok (none, m, .done)
  | container _ pList => do
    let m ← freeList pList m
    .ok (none, m, .done)

end ListVariant

open ListVariant (Answer Result)

/-! ## Programs -/

/-- The list variants a program has made, by their numbers, with the elements they had and have. -/
structure World where
  lists : List (Option ListVariant)
  m : Ledger

inductive Op
  | create
  | parse (payload : Payload)
  | append (k : Nat) (v : Content)
  | appendElement (k j : Nat) (i : UInt32) -- `Append(*PtrAt(i))`, the element of the list `j`
  | appendSelf (k : Nat)
  | remove (k : Nat) (i : UInt32)
  | ptrAt (k : Nat) (i : UInt32)
  | count (k : Nat)
  | clone (k : Nat) (full : Bool)
  | mkPayload (k : Nat)
  | unfreeze (k : Nat)
  | destroy (k : Nat)

/-- The variant with the number, if it was made and is still there. -/
def at? {α : Type} (lists : List (Option α)) (k : Nat) : Option α := lists[k]?.join

namespace World

def empty : World := ⟨[], ⟨0, []⟩⟩

def new (w : World) (v : ListVariant) (m : Ledger) : World × Answer := (⟨w.lists ++ [some v], m⟩, .done)

/-- A call on one of the variants. -/
def onList (w : World) (k : Nat) (call : ListVariant → Ledger → Except Misuse Result) : Except Misuse (World × Answer) :=
  match at? w.lists k with
  | none => .ok (w, .done)
  | some v => do
    let (v, m, a) ← call v w.m
    .ok (⟨w.lists.set k v, m⟩, a)

def step (w : World) : Op → Except Misuse (World × Answer)
  | .create => .ok (w.new (.raw false ⟨[], [], rfl⟩) w.m)
  | .parse payload => .ok (w.new (.raw true payload) w.m)
  | .append k v => w.onList k (ListVariant.append (.outside v))
  | .appendElement k j i => do
    let (w, a) ← w.onList j (ListVariant.ptrAt i)
    match a with
    | .element (some v) => w.onList k (ListVariant.append (if j = k then .inside i.toNat else .outside v))
    | _ => .ok (w, .done)
  | .appendSelf k => w.onList k ListVariant.appendSelf
  | .remove k i => w.onList k (ListVariant.remove i)
  | .ptrAt k i => w.onList k (ListVariant.ptrAt i)
  | .count k => w.onList k ListVariant.count
  | .clone k full =>
    match at? w.lists k with
    | none => .ok (w, .done)
    | some v => do
      let (v, m) ← v.clone full w.m
      .ok (w.new v m)
  | .mkPayload k => w.onList k ListVariant.mkPayload
  | .unfreeze k => w.onList k ListVariant.unfreeze
  | .destroy k => w.onList k ListVariant.destroy

def run (w : World) : List Op → Except Misuse (World × List Answer)
  | [] => .ok (w, [])
  | op :: ops => do
    let (w, a) ← w.step op
    let (w, answers) ← run w ops
    .ok (w, a :: answers)

end World

/-! ## Sequences -/

/-- What a list variant stands for: a sequence, whether it may be written, and the payload it came in,
for as long as it has just these elements. -/
structure Seq where
  bReadOnly : Bool
  items : List Content
  source : Option Bytes

namespace Seq

def append (v : Content) (s : Seq) : Seq := if s.bReadOnly then s else ⟨false, s.items ++ [v.shared], none⟩

def remove (i : UInt32) (s : Seq) : Seq :=
  if s.bReadOnly ∨ s.items.length ≤ i.toNat then s else ⟨false, s.items.eraseIdx i.toNat, none⟩

/-- What a sequence may be written as: the packets of its elements one after the other, or the payload
it came in. -/
def Writes (s : Seq) (b : Option Bytes) : Prop :=
  b = Content.writeAll (s.items.map Content.toPacket) ∨ b.isSome ∧ b = s.source

end Seq

abbrev Seqs := List (Option Seq)

def Seqs.update (ss : Seqs) (k : Nat) (f : Seq → Seq) : Seqs := ss.set k ((at? ss k).map f)

/-- What an operation makes of the sequences. -/
def Seqs.step (ss : Seqs) : Op → Seqs
  | .create => ss ++ [some ⟨false, [], none⟩]
  | .parse payload => ss ++ [some ⟨true, payload.elements, some payload.bytes⟩]
  | .append k v => ss.update k (.append v)
  | .appendElement k j i =>
    match (at? ss j).bind (·.items[i.toNat]?) with
    | none => ss
    | some v => ss.update k (.append v)
  | .appendSelf k => ss.update k fun s => s.append (.list Content.unparsed s.items)
  | .remove k i => ss.update k (.remove i)
  | .clone k full =>
    match at? ss k with
    | none => ss
    | some s => ss ++ [some ⟨false, s.items.map (cloned full), s.source⟩]
  | .unfreeze k => ss.update k fun s => { s with bReadOnly := false }
  | .destroy k => ss.set k none
  | .ptrAt _ _ | .count _ | .mkPayload _ => ss

/-- A change is refused to a sequence that is read-only, and to it alone. -/
def Seq.Changed (s : Seq) (a : Answer) : Prop := a = if s.bReadOnly then .error .eErrNotWritable else .done

/-- The answers that are right for the sequences. -/
def Seqs.Right (ss : Seqs) : Op → Answer → Prop
  | .create, a | .parse _, a | .clone _ _, a | .unfreeze _, a | .destroy _, a => a = .done
  | .append k _, a | .appendSelf k, a => ∀ s, at? ss k = some s → s.Changed a
  | .appendElement k j i, a => ∀ s v, at? ss k = some s → (at? ss j).bind (·.items[i.toNat]?) = some v → s.Changed a
  | .remove k _, a => ∀ s, at? ss k = some s → s.Changed a ∨ s.bReadOnly = false ∧ s.items = [] ∧ a = .error .eErrIsEmpty
  | .ptrAt k i, a => ∀ s, at? ss k = some s → a = .element s.items[i.toNat]?
  | .count k, a => ∀ s, at? ss k = some s → a = .count s.items.length
  | .mkPayload k, a => ∀ s, at? ss k = some s → ∃ b, a = .payload b ∧ s.Writes b

def Seqs.run (ss : Seqs) : List Op → Seqs
  | [] => ss
  | op :: ops => Seqs.run (ss.step op) ops

def Seqs.AllRight (ss : Seqs) : List Op → List Answer → Prop
  | [], [] => True
  | op :: ops, a :: answers => ss.Right op a ∧ Seqs.AllRight (ss.step op) ops answers
  | _, _ => False

/-! ## What a program has to keep to -/

namespace ListVariant

/-- How many elements the variant has, once its payload is parsed. -/
def length : ListVariant → Nat
  | raw _ payload => payload.entries.length
  | container _ pList => pList.count

/-- For how many it has room then. -/
def capacity : ListVariant → Nat
  | raw _ payload => capacityAfter payload.entries.length 0 4
  | container _ pList => pList.capacity

/-- Its payload can be parsed: the elements find room in the list they are appended to. -/
def Opens : ListVariant → Prop
  | raw _ payload => Fits payload.entries.length 0 4
  | container _ _ => True

/-- There is room for one more element, or the list gets some. -/
def Grows (v : ListVariant) : Prop := v.length < v.capacity ∨ v.capacity < growth v.capacity

/-- It is read-only, and parsed from a payload that had no memory of its own, of which nothing is left. -/
def Spoilt : ListVariant → Prop
  | raw _ _ => False
  | container parsed _ => parsed.bReadOnly = true ∧ parsed.pRawPayload = none

/-- The elements that live in the variant. -/
def objects : ListVariant → List (Object Content)
  | raw _ _ => []
  | container _ pList => pList.objects

end ListVariant

/-- The operation does what it does to the sequence. -/
def World.Meets (w : World) : Op → Prop
  | .append k _ => ∀ v, at? w.lists k = some v → v.bReadOnly = false → v.Opens ∧ v.Grows
  | .appendElement k j i => ∀ u, at? w.lists j = some u → u.Opens ∧ (i.toNat < u.length →
      ∀ v, at? w.lists k = some v → v.bReadOnly = false → v.Opens ∧ v.Grows ∧ (j = k → v.length < v.capacity))
  | .appendSelf k => ∀ v, at? w.lists k = some v → v.bReadOnly = true
  | .remove k i => ∀ v, at? w.lists k = some v → v.bReadOnly = false → v.Opens ∧ v.length ≤ i.toNat
  | .ptrAt k _ | .count k => ∀ v, at? w.lists k = some v → v.Opens
  | .mkPayload k => ∀ v, at? w.lists k = some v → ¬ v.Spoilt
  | .create | .parse _ | .clone _ _ | .unfreeze _ | .destroy _ => True

/-- Every operation of the program does. -/
def World.MeetsAll (w : World) : List Op → Prop
  | [] => True
  | op :: ops => w.Meets op ∧ ∀ w' a, w.step op = .ok (w', a) → World.MeetsAll w' ops

/-! ## Variants that stand for sequences -/

/-- The variant stands for the sequence. -/
def Rep : ListVariant → Seq → Prop
  | .raw bReadOnly payload, s => s.bReadOnly = bReadOnly ∧ s.items = payload.elements ∧
      (s.source = some payload.bytes ∨ payload.bytes = [])
  | .container parsed pList, s => Sound pList pList.objects ∧ s.bReadOnly = parsed.bReadOnly ∧ values pList.objects = s.items ∧
      (parsed.bReadOnly = true → ∃ payload : Payload, payload.bytes ≠ [] ∧ s.source = some payload.bytes ∧
        s.items = payload.elements ∧ parsed = Content.parsedFrom true payload.bytes)

section Rep
variable {v : ListVariant} {s : Seq} {m : Ledger}

theorem Rep.bReadOnly_eq (h : Rep v s) : s.bReadOnly = v.bReadOnly := by
  cases v with
  | raw bReadOnly payload => exact h.1
  | container parsed pList => exact h.2.1

theorem Rep.length_eq (h : Rep v s) : v.length = s.items.length := by
  cases v with
  | raw bReadOnly payload =>
    rw [h.2.1, Payload.elements, List.length_map]
    rfl
  | container parsed pList =>
    rw [← h.2.2.1, values, List.length_map]
    exact h.1.count_eq

theorem Payload.entries_of_empty (payload : Payload) (h : payload.bytes = []) : payload.entries = [] := by
  have hreads := payload.reads
  rw [h] at hreads
  exact (Prod.mk.inj hreads).1.symm

theorem map_shared_elements (payload : Payload) : payload.elements.map Content.shared = payload.elements := by
  rw [Payload.elements, List.map_map]
  exact List.map_congr_left fun e _ => shared_ofBytes e.1 e.2

theorem Rep.getList (h : Rep v s) (hopens : v.Opens) {b : Bool} (hb : b = true → v.bReadOnly = false) (m : Ledger) :
    (v.getList b m = .ok (none, m) ∧ b = false ∧ s.items = []) ∨
    ∃ parsed pList m', v.getList b m = .ok (some (parsed, pList), m') ∧ Rep (.container parsed pList) s ∧
      Traded m v.objects m' pList.objects ∧ pList.count = v.length ∧ pList.capacity = v.capacity := by
  cases v with
  | container parsed pList => exact .inr ⟨parsed, pList, m, rfl, h, Traded.rfl, rfl, rfl⟩
  | raw bReadOnly payload =>
    rcases h with ⟨hro, hitems, hsource⟩
    by_cases hempty : payload.bytes = [] ∧ b = false
    · refine .inl ⟨if_pos hempty, hempty.2, ?_⟩
      rw [hitems, Payload.elements, payload.entries_of_empty hempty.1]
      rfl
    · right
      have hfits : Fits payload.elements.length (allocList 4).count (allocList 4).capacity := by
        rw [Payload.elements, List.length_map]
        exact hopens
      rcases (sound_allocList (c := 4) (by omega)).appendAll (m := m) hfits with
        ⟨pList, os, m', hall, hsound, hvalues, htraded, hcount, hcapacity⟩
      have hobjects := hsound.objects_eq
      rw [map_shared_elements, show values [] = [] from rfl, List.nil_append] at hvalues
      rw [Payload.elements, List.length_map] at hcount hcapacity
      refine ⟨Content.parsedFrom bReadOnly payload.bytes, pList, m', ?_, ⟨?_, ?_, ?_, ?_⟩, ?_, ?_, hcapacity⟩
      · rw [ListVariant.getList, if_neg hempty, hall]
        rfl
      · rw [hobjects]
        exact hsound
      · rw [hro]
        unfold Content.parsedFrom
        split_ifs <;> rfl
      · rw [hobjects, hvalues, hitems]
      · intro hparsed
        have hbro : bReadOnly = true := by
          rw [← hparsed]
          unfold Content.parsedFrom
          split_ifs <;> rfl
        have hne : payload.bytes ≠ [] := by
          intro hnil
          cases b with
          | true => exact absurd (hb rfl) (by rw [ListVariant.bReadOnly, hbro]; decide)
          | false => exact hempty ⟨hnil, rfl⟩
        exact ⟨payload, hne, hsource.resolve_right hne, hitems, by rw [hbro]⟩
      · rw [hobjects]
        exact htraded
      · rw [hcount]
        exact Nat.zero_add _

theorem getList_fault (hnot : ¬ v.Opens) (b : Bool) : ∃ f, v.getList b m = .error f := by
  cases v with
  | container parsed pList => exact absurd trivial hnot
  | raw bReadOnly payload =>
    have hne : ¬ (payload.bytes = [] ∧ b = false) := by
      rintro ⟨hnil, -⟩
      apply hnot
      rw [ListVariant.Opens, payload.entries_of_empty hnil]
      trivial
    have hfits : ¬ Fits payload.elements.length (allocList 4).count (allocList 4).capacity := by
      rw [Payload.elements, List.length_map]
      exact hnot
    rcases (sound_allocList (c := 4) (by omega)).appendAll_fault (m := m) hfits with ⟨f, hf⟩
    refine ⟨f, ?_⟩
    rw [ListVariant.getList, if_neg hne, hf]
    rfl

end Rep

/-! ## Calls -/

def objectsOf : Option ListVariant → List (Object Content)
  | none => []
  | some v => v.objects

/-- The variant that is left stands for the sequence that is left. -/
def Agree : Option ListVariant → Option Seq → Prop
  | none, none => True
  | some v, some s => Rep v s
  | _, _ => False

/-- The call leaves a variant for the sequence, with its elements accounted for, and answers right. -/
def Serves (call : ListVariant → Ledger → Except Misuse Result) (v : ListVariant) (s : Option Seq) (right : Answer → Prop) : Prop :=
  ∀ m, ∃ v' m' a, call v m = .ok (v', m', a) ∧ Agree v' s ∧ Traded m v.objects m' (objectsOf v') ∧ right a

/-- The call goes wrong, or its answer is not right. -/
def Fails (call : ListVariant → Ledger → Except Misuse Result) (v : ListVariant) (right : Answer → Prop) : Prop :=
  ∀ m, (∃ f, call v m = .error f) ∨ ∃ r, call v m = .ok r ∧ ¬ right r.2.2

section Calls
variable {v : ListVariant} {s : Seq}

theorem Rep.count (h : Rep v s) (hopens : v.Opens) : Serves ListVariant.count v (some s) (· = .count s.items.length) := by
  intro m
  rcases h.getList hopens (b := false) nofun m with ⟨hget, -, hnil⟩ | ⟨parsed, pList, m', hget, hrep, htraded, -, -⟩
  · refine ⟨some v, m, .count 0, ?_, h, Traded.rfl, by rw [hnil]; rfl⟩
    rw [ListVariant.count, hget]
    rfl
  · refine ⟨some (.container parsed pList), m', .count pList.count, ?_, hrep, htraded, ?_⟩
    · rw [ListVariant.count, hget]
      rfl
    · rw [← hrep.length_eq]
      rfl

theorem Rep.ptrAt (h : Rep v s) (hopens : v.Opens) (i : UInt32) :
    Serves (ListVariant.ptrAt i) v (some s) (· = .element s.items[i.toNat]?) := by
  intro m
  rcases h.getList hopens (b := false) nofun m with ⟨hget, -, hnil⟩ | ⟨parsed, pList, m', hget, hrep, htraded, -, -⟩
  · refine ⟨some v, m, .element none, ?_, h, Traded.rfl, by rw [hnil]; rfl⟩
    rw [ListVariant.ptrAt, hget]
    rfl
  · have hlen : pList.count = s.items.length := hrep.length_eq
    rcases hrep with ⟨hsound, hro, hvalues, hpayload⟩
    by_cases hi : i.toNat ≥ pList.count
    · refine ⟨some (.container parsed pList), m', .element none, ?_, ⟨hsound, hro, hvalues, hpayload⟩, htraded, ?_⟩
      · rw [ListVariant.ptrAt, hget]
        exact if_pos hi
      · rw [List.getElem?_eq_none (by omega)]
    · have hlt : i.toNat < pList.objects.length := by
        rw [← hsound.count_eq]
        omega
      refine ⟨some (.container parsed pList), m', .element (some pList.objects[i.toNat].value), ?_, ⟨hsound, hro, hvalues, hpayload⟩, htraded, ?_⟩
      · rw [ListVariant.ptrAt, hget]
        show (if _ then _ else _) = _
        rw [if_neg hi, hsound.holds.objectAt hlt]
        rfl
      · rw [← hvalues, values, List.getElem?_map, List.getElem?_eq_getElem hlt]
        rfl

/-- A look at an element parses the payload, and leaves the variant else as it is. -/
theorem Rep.ptrAt_same (h : Rep v s) (hopens : v.Opens) {i : UInt32} {m m' : Ledger} {v' : Option ListVariant} {a : Answer}
    (hcall : v.ptrAt i m = .ok (v', m', a)) : ∃ u, v' = some u ∧ u.bReadOnly = v.bReadOnly ∧ u.length = v.length ∧
      u.capacity = v.capacity ∧ u.Opens := by
  rcases h.getList hopens (b := false) nofun m with ⟨hget, -, -⟩ | ⟨parsed, pList, m₁, hget, hrep, -, hcount, hcapacity⟩
  · rw [ListVariant.ptrAt, hget] at hcall
    cases hcall
    exact ⟨v, rfl, rfl, rfl, rfl, hopens⟩
  · have hro : (ListVariant.container parsed pList).bReadOnly = v.bReadOnly := hrep.bReadOnly_eq.symm.trans h.bReadOnly_eq
    refine ⟨.container parsed pList, ?_, hro, hcount, hcapacity, trivial⟩
    rw [ListVariant.ptrAt, hget] at hcall
    simp only [ok_bind] at hcall
    split_ifs at hcall
    · cases hcall
      rfl
    · cases hobject : objectAt pList.data i.toNat with
      | ok o =>
        rw [hobject] at hcall
        cases hcall
        rfl
      | error f =>
        rw [hobject] at hcall
        cases hcall

/-- The new element is made of this value. -/
def Source.Made (pVariant : Source) (v : ListVariant) (s : Seq) (w : Content) : Prop :=
  match pVariant with
  | .outside u => w = u
  | .inside i => v.length < v.capacity ∧ s.items[i]? = some w

theorem Rep.append (h : Rep v s) (hro : v.bReadOnly = false) (hopens : v.Opens) (hgrows : v.Grows) {pVariant : Source}
    {w : Content} (hmade : pVariant.Made v s w) : Serves (ListVariant.append pVariant) v (some (s.append w)) s.Changed := by
  intro m
  have hsro : s.bReadOnly = false := h.bReadOnly_eq.trans hro
  rcases h.getList hopens (b := true) (fun _ => hro) m with ⟨-, hb, -⟩ | ⟨parsed, pList, m', hget, hrep, htraded, hcount, hcapacity⟩
  · cases hb
  · rcases hrep with ⟨hsound, hpro, hvalues, hpayload⟩
    have hroom : HasRoom pList := by
      unfold ListVariant.Grows at hgrows
      rwa [← hcount, ← hcapacity] at hgrows
    have hread : pVariant.Reads pList pList.objects w := by
      cases pVariant with
      | outside u => exact hmade
      | inside i => exact ⟨by rw [hcount, hcapacity]; exact hmade.1, by rw [hvalues]; exact hmade.2⟩
    rcases hsound.listAppend (m := m') hroom hread with ⟨pList', os', m'', happend, hsound', hvalues', htraded', -, -⟩
    have hobjects := hsound'.objects_eq
    rw [← hobjects] at hsound' hvalues' htraded'
    refine ⟨some (.container parsed pList'), m'', .done, ?_, ?_, htraded.trans htraded', ?_⟩
    · rw [ListVariant.append, hro, hget]
      show (ListBlock.listAppend pList pVariant m' >>= _) = _
      rw [happend]
      rfl
    · have happended : s.append w = ⟨false, s.items ++ [w.shared], none⟩ := by
        rw [Seq.append, hsro]
        rfl
      rw [happended]
      refine ⟨hsound', ?_, ?_, fun hp => ?_⟩
      · rw [← hpro, hsro]
      · rw [hvalues', hvalues]
      · rw [← hpro, hsro] at hp
        cases hp
    · rw [Seq.Changed, hsro]
      rfl

theorem Rep.refuses (h : Rep v s) (hro : v.bReadOnly = true) {c : ListVariant → Ledger → Except Misuse Result}
    (hcall : ∀ m, c v m = .ok (some v, m, .error .eErrNotWritable)) : Serves c v (some s) s.Changed := by
  intro m
  refine ⟨some v, m, _, hcall m, h, Traded.rfl, ?_⟩
  rw [Seq.Changed, h.bReadOnly_eq, hro]
  rfl

theorem Rep.append_fails (h : Rep v s) (hro : v.bReadOnly = false) {pVariant : Source} {right : Answer → Prop}
    (hnot : ¬ (v.Opens ∧ v.Grows ∧ ∀ i, pVariant = .inside i → v.length < v.capacity)) : Fails (ListVariant.append pVariant) v right := by
  intro m
  left
  by_cases hopens : v.Opens
  · rcases h.getList hopens (b := true) (fun _ => hro) m with ⟨-, hb, -⟩ | ⟨parsed, pList, m', hget, hrep, -, hcount, hcapacity⟩
    · cases hb
    · have hwrong : ¬ HasRoom pList ∨ ∃ i, pVariant = .inside i ∧ ¬ pList.count < pList.capacity := by
        rw [HasRoom, hcount, hcapacity]
        by_contra hright
        rw [not_or, not_not] at hright
        apply hnot
        refine ⟨hopens, hright.1, fun i hi => ?_⟩
        by_contra hfull
        exact hright.2 ⟨i, hi, hfull⟩
      rcases hrep.1.listAppend_fault (m := m') hwrong with ⟨f, hf⟩
      refine ⟨f, ?_⟩
      rw [ListVariant.append, hro, hget]
      show (ListBlock.listAppend pList pVariant m' >>= _) = _
      rw [hf]
      rfl
  · rcases getList_fault (m := m) hopens true with ⟨f, hf⟩
    refine ⟨f, ?_⟩
    rw [ListVariant.append, hro, hf]
    rfl

theorem Rep.remove (h : Rep v s) (hro : v.bReadOnly = false) (hopens : v.Opens) {i : UInt32} (hi : v.length ≤ i.toNat) :
    Serves (ListVariant.remove i) v (some (s.remove i)) fun a => s.Changed a ∨ s.bReadOnly = false ∧ s.items = [] ∧ a = .error .eErrIsEmpty := by
  intro m
  have hsro : s.bReadOnly = false := h.bReadOnly_eq.trans hro
  have hsame : s.remove i = s := by
    rw [Seq.remove, if_pos]
    rw [← h.length_eq]
    exact .inr hi
  rw [hsame]
  rcases h.getList hopens (b := false) nofun m with ⟨hget, -, hnil⟩ | ⟨parsed, pList, m', hget, hrep, htraded, hcount, -⟩
  · refine ⟨some v, m, .error .eErrIsEmpty, ?_, h, Traded.rfl, .inr ⟨hsro, hnil, rfl⟩⟩
    rw [ListVariant.remove, hro, hget]
    rfl
  · refine ⟨some (.container parsed pList), m', .done, ?_, hrep, htraded, .inl ?_⟩
    · have hpast : listRemove pList i.toNat m' = .ok (pList, m') := if_pos (by omega)
      rw [ListVariant.remove, hro, hget]
      show (listRemove pList i.toNat m' >>= _) = _
      rw [hpast]
      rfl
    · rw [Seq.Changed, hsro]
      rfl

theorem Rep.remove_fails (h : Rep v s) (hro : v.bReadOnly = false) {i : UInt32} {right : Answer → Prop}
    (hnot : ¬ (v.Opens ∧ v.length ≤ i.toNat)) : Fails (ListVariant.remove i) v right := by
  intro m
  left
  by_cases hopens : v.Opens
  · have hi : i.toNat < v.length := by
      by_contra hle
      exact hnot ⟨hopens, by omega⟩
    rcases h.getList hopens (b := false) nofun m with ⟨-, -, hnil⟩ | ⟨parsed, pList, m', hget, hrep, -, hcount, -⟩
    · rw [h.length_eq, hnil] at hi
      exact absurd hi (Nat.not_lt_zero _)
    · rcases hrep.1.listRemove_fault (m := m') (i := i.toNat) (by omega) with ⟨f, hf⟩
      refine ⟨f, ?_⟩
      rw [ListVariant.remove, hro, hget]
      show (listRemove pList i.toNat m' >>= _) = _
      rw [hf]
      rfl
  · rcases getList_fault (m := m) hopens false with ⟨f, hf⟩
    refine ⟨f, ?_⟩
    rw [ListVariant.remove, hro, hf]
    rfl

theorem Payload.entries_ne (payload : Payload) (h : payload.bytes ≠ []) : payload.entries ≠ [] := by
  have hreads := payload.reads
  rw [readRawList, readRawListLoop, if_neg h] at hreads
  rintro hnil
  rw [hnil] at hreads
  cases hread : readPacket payload.bytes with
  | error e =>
    rw [hread] at hreads
    cases hreads
  | ok r =>
    rw [hread] at hreads
    cases hreads

/-- The elements of a payload that is not empty are written as bytes again. -/
theorem writeAll_elements (payload : Payload) (h : payload.bytes ≠ []) :
    ∃ b, Content.writeAll (payload.elements.map Content.toPacket) = some b ∧ b ≠ [] := by
  have hflat : ∀ e : EType × Bytes, ∃ b, (Content.ofBytes e.1 e.2).toPacket = some b ∧ b ≠ [] := by
    rintro ⟨type, data⟩
    have hne : ∀ (t : EType) (bytes : Bytes), Variant.toPacket t bytes ≠ [] := by
      intro t bytes
      unfold Variant.toPacket packetHeader
      split_ifs <;> simp
    unfold Content.ofBytes
    split_ifs with hempty
    · exact ⟨_, by rw [Content.toPacket, Content.mkPayload]; rfl, hne _ []⟩
    · exact ⟨_, by rw [Content.toPacket, Content.mkPayload]; rfl, hne _ data⟩
  have hall : ∀ es : List (EType × Bytes), ∃ b, Content.writeAll (es.map fun e => (Content.ofBytes e.1 e.2).toPacket) = some b := by
    intro es
    induction es with
    | nil => exact ⟨[], rfl⟩
    | cons e es ih =>
      rcases ih with ⟨b, hb⟩
      rcases hflat e with ⟨c, hc, -⟩
      exact ⟨c ++ b, by rw [List.map_cons, Content.writeAll, hc, Option.bind_some, hb]; rfl⟩
  rw [Payload.elements, List.map_map]
  rcases hentries : payload.entries with _ | ⟨e, es⟩
  · exact absurd hentries (payload.entries_ne h)
  · rcases hflat e with ⟨c, hc, hne⟩
    rcases hall es with ⟨b, hb⟩
    refine ⟨c ++ b, ?_, List.append_ne_nil_of_left_ne_nil hne b⟩
    rw [List.map_cons, Content.writeAll, Function.comp_apply, hc, Option.bind_some]
    exact congrArg (Option.map _) hb

theorem Rep.mkPayload (h : Rep v s) (hkept : ¬ v.Spoilt) : Serves ListVariant.mkPayload v (some s) fun a => ∃ b, a = .payload b ∧ s.Writes b := by
  intro m
  cases v with
  | raw bReadOnly payload =>
    refine ⟨_, m, _, rfl, h, Traded.rfl, _, rfl, ?_⟩
    rcases h with ⟨-, hitems, hsource | hempty⟩
    · exact .inr ⟨rfl, hsource.symm⟩
    · left
      rw [hitems, Payload.elements, payload.entries_of_empty hempty, hempty]
      rfl
  | container parsed pList =>
    have hrep := h
    rcases h with ⟨hsound, -, hvalues, hpayload⟩
    by_cases hro : parsed.bReadOnly = true
    · refine ⟨_, m, _, if_pos hro, hrep, Traded.rfl, _, rfl, .inr ?_⟩
      rcases hpayload hro with ⟨payload, -, hsource, -, rfl⟩
      have hlong : ¬ payload.bytes.length ≤ varDataSize ∧ ¬ payload.bytes.length ≤ varEmbeddedSize := by
        constructor
        · intro hle
          apply hkept
          rw [ListVariant.Spoilt, Content.parsedFrom, if_pos hle]
          exact ⟨rfl, rfl⟩
        · intro hle
          apply hkept
          rw [ListVariant.Spoilt, Content.parsedFrom]
          split_ifs <;> exact ⟨rfl, rfl⟩
      have hkeep : (Content.parsedFrom true payload.bytes).payload = some payload.bytes := by
        rw [Content.parsedFrom, if_neg hlong.1, if_neg hlong.2, Parsed.payload]
        exact congrArg some List.take_length
      rw [hkeep, hsource]
      exact ⟨rfl, rfl⟩
    · refine ⟨some (.container parsed pList), m, .payload (Content.writeAll (pList.objects.map fun o => o.value.toPacket)), ?_, hrep, Traded.rfl, _, rfl, .inl ?_⟩
      · rw [ListVariant.mkPayload, if_neg hro, hsound.count_eq, hsound.holds.readAll]
        rfl
      · rw [← hvalues, values, List.map_map]
        rfl

/-- What a read-only list is written as that has lost its payload is not right. -/
theorem Rep.mkPayload_fails (h : Rep v s) (hspoilt : v.Spoilt) :
    Fails ListVariant.mkPayload v fun a => ∃ b, a = .payload b ∧ s.Writes b := by
  intro m
  right
  cases v with
  | raw bReadOnly payload => exact hspoilt.elim
  | container parsed pList =>
    rcases hspoilt with ⟨hro, hlost⟩
    rcases h.2.2.2 hro with ⟨payload, hne, hsource, hitems, -⟩
    refine ⟨_, if_pos hro, ?_⟩
    rintro ⟨b, hb, hwrites⟩
    cases hb
    have hshort : parsed.payload = none ∨ parsed.payload = some [] := by
      unfold Parsed.payload
      rw [hlost]
      simp only
      split_ifs
      · exact .inr rfl
      · exact .inl rfl
    rcases writeAll_elements payload hne with ⟨b, hb, hbne⟩
    rcases hwrites with hwrites | ⟨hsome, hwrites⟩
    · rw [hitems, hb] at hwrites
      rcases hshort with hnone | hnil
      · rw [hnone] at hwrites
        cases hwrites
      · rw [hnil] at hwrites
        exact hbne (Option.some.inj hwrites).symm
    · rcases hshort with hnone | hnil
      · rw [hnone] at hsome
        cases hsome
      · rw [hnil, hsource] at hwrites
        exact hne (Option.some.inj hwrites).symm

theorem cloned_elements (payload : Payload) (full : Bool) : payload.elements.map (cloned full) = payload.elements := by
  rw [Payload.elements, List.map_map]
  apply List.map_congr_left
  rintro ⟨type, data⟩ -
  show cloned full (Content.ofBytes type data) = _
  cases full with
  | false => exact shared_ofBytes type data
  | true =>
    show (Content.ofBytes type data).clone = _
    by_cases hempty : type = varTypeEmpty
    · rw [Content.ofBytes, if_pos hempty, Content.clone, Content.ofBytes, if_pos hempty]
    · rw [Content.ofBytes, if_neg hempty, Content.clone, Content.ofBytes, if_neg hempty]

theorem Rep.clone (h : Rep v s) (full : Bool) (m : Ledger) : ∃ v' m', v.clone full m = .ok (v', m') ∧
    Rep v' ⟨false, s.items.map (cloned full), s.source⟩ ∧ Traded m [] m' v'.objects := by
  cases v with
  | raw bReadOnly payload =>
    rcases h with ⟨-, hitems, hsource⟩
    refine ⟨_, m, rfl, ⟨rfl, ?_, hsource⟩, Traded.rfl⟩
    rw [hitems]
    exact cloned_elements payload full
  | container parsed pList =>
    rcases h with ⟨hsound, -, hvalues, -⟩
    rcases hsound.cloneList (m := m) full with ⟨pList', os', m', hclone, hsound', hvalues', htraded⟩
    have hobjects := hsound'.objects_eq
    rw [← hobjects] at hsound' hvalues' htraded
    refine ⟨.container Content.unparsed pList', m', ?_, ⟨hsound', rfl, ?_, nofun⟩, htraded⟩
    · rw [ListVariant.clone, hclone]
      rfl
    · rw [hvalues', hvalues]

theorem Rep.unfreeze (h : Rep v s) : Serves ListVariant.unfreeze v (some { s with bReadOnly := false }) (· = .done) := by
  intro m
  cases v with
  | raw bReadOnly payload => exact ⟨_, m, _, rfl, ⟨rfl, h.2⟩, Traded.rfl, rfl⟩
  | container parsed pList => exact ⟨_, m, _, rfl, ⟨h.1, rfl, h.2.2.1, nofun⟩, Traded.rfl, rfl⟩

/-- The destructor destroys the elements there are. -/
theorem Rep.destroy (h : Rep v s) : Serves ListVariant.destroy v none (· = .done) := by
  intro m
  cases v with
  | raw bReadOnly payload => exact ⟨_, m, _, rfl, trivial, Traded.rfl, rfl⟩
  | container parsed pList =>
    rcases h with ⟨hsound, -⟩
    have hfree := hsound.holds.freeAll (m := m) le_rfl
    rw [List.take_length] at hfree
    refine ⟨none, _, .done, ?_, trivial, Traded.replace (n := 0) rfl, rfl⟩
    rw [ListVariant.destroy, freeList, hsound.count_eq, hfree]
    rfl

end Calls

end MajorPrivacy.Variant.ListBlock

/-
The three implementations together. A value of any depth may be written by a different encoder at
every level; all decoders take it for the same type and payload, and the look-ups of all
implementations, at every level, find the same elements in it.
-/
import MajorPrivacy.Variant.Lookup

namespace MajorPrivacy.Variant

open LittleEndian MajorPrivacy.Core

/-! ## Values -/

/-- A value as the format has it: a type with a payload, or a container of values. -/
inductive Value
  | scalar (type : EType) (payload : Bytes)
  | map (entries : List (Bytes × Value))
  | list (items : List Value)
  | index (entries : List (UInt32 × Value))

mutual

/-- A type and payload the value has, with any encoder for any of the elements. -/
def Encodes : Value → EType → Bytes → Prop
  | .scalar t p, type, payload => type = t ∧ payload = p ∧ Valid t p
  | .map entries, type, payload =>
    type = varTypeMap ∧ ∃ es, EncodesMap entries es ∧ ShortNames es ∧ Entries nameKey es payload
  | .list items, type, payload => type = varTypeList ∧ ∃ es, EncodesList items es ∧ Entries noKey es payload
  | .index entries, type, payload => type = varTypeIndex ∧ ∃ es, EncodesIndex entries es ∧ Entries idKey es payload

def EncodesMap : List (Bytes × Value) → List (Bytes × EType × Bytes) → Prop
  | [], es => es = []
  | (name, v) :: entries, es => ∃ t p es', es = (name, t, p) :: es' ∧ Encodes v t p ∧ EncodesMap entries es'

def EncodesList : List Value → List (Unit × EType × Bytes) → Prop
  | [], es => es = []
  | v :: items, es => ∃ t p es', es = ((), t, p) :: es' ∧ Encodes v t p ∧ EncodesList items es'

def EncodesIndex : List (UInt32 × Value) → List (UInt32 × EType × Bytes) → Prop
  | [], es => es = []
  | (id, v) :: entries, es => ∃ t p es', es = (id, t, p) :: es' ∧ Encodes v t p ∧ EncodesIndex entries es'

end

/-! ## Readers -/

inductive Implementation
  | cpp
  | c
  | go

def decode : Implementation → Bytes → Option Decoded
  | .cpp => cppFromPacket
  | .c => variantFromBuffer
  | .go => fun packet => (goFromBuffer packet).toOption

/-- What looks an element up: C++ in the payload, C++ in the parsed container, C, Go. -/
inductive Reader
  | cppRaw
  | cppParsed
  | c
  | go

/-- The payload of an object that is no container. -/
def CVariant.bytes (v : CVariant) : Bytes :=
  match v.store with
  | .data bytes | .embedded bytes | .rawPayload bytes | .shared bytes => bytes
  | .container _ _ => []

def CVariant.element (v : CVariant) : EType × Bytes := (v.type, v.bytes)

def Decoded.element (d : Decoded) : EType × Bytes := (d.type, d.payload)

/-- `PtrAt` by name on a variant that is not parsed yet. -/
def ptrAtName (payload name : Bytes) : Except EResult (Option CVariant) :=
  if payload = [] then .error .eErrIsEmpty else (parseMap payload).map (·.findValue name)

/-- `PtrAt` on an index that is not parsed yet. -/
def ptrAtId (payload : Bytes) (id : UInt32) : Except EResult (Option CVariant) :=
  if payload = [] then .error .eErrIsEmpty else (parseIndex payload).map (·.findValue id)

/-- `PtrAt` on a list that is not parsed yet. -/
def ptrAtPosition (payload : Bytes) (pos : Nat) : Except EResult (Option CVariant) :=
  if payload = [] then .error .eErrIsEmpty
  else match parseList payload with
    | .error e => .error e
    | .ok list => if pos ≥ list.data.length then .error .eErrIndexOutOfBounds else .ok list.data[pos]?

def findName (payload name : Bytes) : Reader → Option (EType × Bytes)
  | .cppRaw => (rawFindName payload name).toOption
  | .cppParsed => ((ptrAtName payload name).toOption.bind id).map CVariant.element
  | .c => (variantFind varTypeMap payload name).map Decoded.element
  | .go => (goFind varTypeMap payload name).toOption.map Decoded.element

def findId (payload : Bytes) (id : UInt32) : Reader → Option (EType × Bytes)
  | .cppRaw => (rawFindId payload id.toNat).toOption
  | .cppParsed => ((ptrAtId payload id).toOption.bind fun v => v).map CVariant.element
  | .c => (variantGet varTypeIndex payload id.toNat).map Decoded.element
  | .go => (goGet varTypeIndex payload id.toNat).toOption.map Decoded.element

def findPosition (payload : Bytes) (pos : Nat) : Reader → Option (EType × Bytes)
  | .cppRaw => (readRawList payload).1[pos]?
  | .cppParsed => ((ptrAtPosition payload pos).toOption.bind id).map CVariant.element
  | .c => (variantAt varTypeList payload pos).map Decoded.element
  | .go => (goAt varTypeList payload pos).toOption.map Decoded.element

/-- A name a C string can be: it has no NUL, and it is short enough to be stored. -/
def IsName (name : Bytes) : Prop := 0 ∉ name ∧ name.length < 256

/-- The positions `int` has. -/
def maxPosition : Nat := 0x7FFFFFFF

mutual

/-- All readers find, at every level where the keys are distinct, the elements of the value. -/
def ReadsBack : Value → EType → Bytes → Prop
  | .scalar t p, type, payload => type = t ∧ payload = p
  | .map entries, type, payload => type = varTypeMap ∧ ((entries.map (·.1)).Nodup → ReadsBackMap entries payload ∧
      ∀ name, IsName name → name ∉ entries.map (·.1) → ∀ reader, findName payload name reader = none)
  | .list items, type, payload => type = varTypeList ∧ ReadsBackList items 0 payload ∧
      ∀ pos, items.length ≤ pos → pos ≤ maxPosition → ∀ reader, findPosition payload pos reader = none
  | .index entries, type, payload => type = varTypeIndex ∧ ((entries.map (·.1)).Nodup → ReadsBackIndex entries payload ∧
      ∀ id, id ∉ entries.map (·.1) → ∀ reader, findId payload id reader = none)

def ReadsBackMap : List (Bytes × Value) → Bytes → Prop
  | [], _ => True
  | (name, v) :: entries, payload =>
    (IsName name → ∃ t p, (∀ reader, findName payload name reader = some (t, p)) ∧ ReadsBack v t p) ∧
      ReadsBackMap entries payload

def ReadsBackList : List Value → (pos : Nat) → Bytes → Prop
  | [], _, _ => True
  | v :: items, pos, payload =>
    (pos ≤ maxPosition → ∃ t p, (∀ reader, findPosition payload pos reader = some (t, p)) ∧ ReadsBack v t p) ∧
      ReadsBackList items (pos + 1) payload

def ReadsBackIndex : List (UInt32 × Value) → Bytes → Prop
  | [], _ => True
  | (id, v) :: entries, payload =>
    (∃ t p, (∀ reader, findId payload id reader = some (t, p)) ∧ ReadsBack v t p) ∧ ReadsBackIndex entries payload

end

/-! ## All readers find the same -/

theorem element_initValue {type : EType} {payload : Bytes} (h : Valid type payload) :
    (initValue type payload).element = (type, payload) := by
  unfold CVariant.element CVariant.bytes initValue
  split_ifs with he
  · have hp : payload = [] := he.elim h.empty id
    rw [hp]
  · unfold storeOf
    split_ifs <;> rfl

theorem Entries.valid {K : Type} {key : K → Bytes} {es : List (K × EType × Bytes)} {payload : Bytes}
    (h : Entries key es payload) : ∀ e ∈ es, Valid e.2.1 e.2.2 := by
  induction h with
  | nil => intro e he; cases he
  | cons hv _ _ ih =>
    intro e he
    rcases List.mem_cons.1 he with rfl | he
    · exact hv
    · exact ih e he

theorem Entries.ne_nil {K : Type} {key : K → Bytes} {e : K × EType × Bytes} {es : List (K × EType × Bytes)}
    {payload : Bytes} (h : Entries key (e :: es) payload) (hs : payload.length ≤ ulongMax) : payload ≠ [] := by
  have := h.length_le hs
  rw [← List.length_pos_iff]
  rw [List.length_cons] at this
  omega

theorem mem_of_entryOf {K : Type} [DecidableEq K] {es : List (K × EType × Bytes)} {k : K} {v : EType × Bytes}
    (h : entryOf es k = some v) : (k, v) ∈ es := by
  unfold entryOf at h
  obtain ⟨e, he, rfl⟩ := Option.map_eq_some_iff.1 h
  have hk := List.find?_some he
  rw [decide_eq_true_eq] at hk
  exact hk ▸ List.mem_of_find?_eq_some he

/-- The objects a table is parsed into are the entries. -/
theorem map_element_initValue {K : Type} [DecidableEq K] {key : K → Bytes} {es : List (K × EType × Bytes)}
    {payload : Bytes} (h : Entries key es payload) (k : K) :
    ((entryOf es k).map fun v => initValue v.1 v.2).map CVariant.element = entryOf es k := by
  cases he : entryOf es k with
  | none => rfl
  | some v =>
    have hv := h.valid _ (mem_of_entryOf he)
    simp [element_initValue hv]

section Containers

variable {payload : Bytes} (hs : payload.length ≤ ulongMax)
include hs

theorem variantFind_entries {es : List (Bytes × EType × Bytes)} (h : Entries nameKey es payload) (hn : ShortNames es)
    (name : Bytes) : (variantFind varTypeMap payload name).map Decoded.element = entryOf es name := by
  have hloop := variantFindLoop_entries name _ es payload h hs hn (Nat.lt_succ_of_le (h.length_le hs))
  unfold variantFind
  by_cases he : payload.length = 0
  · rw [if_pos (.inl he)]
    cases es with
    | nil => rfl
    | cons e es => exact absurd (List.length_eq_zero_iff.1 he) (h.ne_nil hs)
  · rw [if_neg (by simp only [he, ne_eq, not_true_eq_false, or_self, not_false_eq_true])]
    exact hloop

theorem variantGet_entries {es : List (UInt32 × EType × Bytes)} (h : Entries idKey es payload) (id : UInt32) :
    (variantGet varTypeIndex payload id.toNat).map Decoded.element = entryOf es id := by
  have hloop := variantGetLoop_entries id _ es payload h hs (Nat.lt_succ_of_le (h.length_le hs))
  unfold variantGet
  by_cases he : payload.length = 0
  · rw [if_pos (.inl he)]
    cases es with
    | nil => rfl
    | cons e es => exact absurd (List.length_eq_zero_iff.1 he) (h.ne_nil hs)
  · rw [if_neg (by simp only [he, ne_eq, not_true_eq_false, or_self, not_false_eq_true])]
    exact hloop

theorem variantAt_entries {es : List (Unit × EType × Bytes)} (h : Entries noKey es payload) (pos : Nat) :
    (variantAt varTypeList payload pos).map Decoded.element = elementAt es pos := by
  have hloop := variantAtLoop_entries _ es payload pos h hs (Nat.lt_succ_of_le (h.length_le hs))
  unfold variantAt
  by_cases he : payload.length = 0
  · rw [if_pos (.inl he)]
    cases es with
    | nil => rfl
    | cons e es => exact absurd (List.length_eq_zero_iff.1 he) (h.ne_nil hs)
  · rw [if_neg (by simp only [he, ne_eq, not_true_eq_false, or_self, not_false_eq_true])]
    exact hloop

theorem findName_entries {es : List (Bytes × EType × Bytes)} (h : Entries nameKey es payload) (hn : ShortNames es)
    (hd : (es.map (·.1)).Nodup) (name : Bytes) (reader : Reader) : findName payload name reader = entryOf es name := by
  have hf := Nat.lt_succ_of_le (h.length_le hs)
  cases reader with
  | cppRaw => exact findNameLoop_entries name _ es payload h hs hn hf
  | cppParsed =>
    unfold findName ptrAtName
    by_cases he : payload = []
    · subst he
      cases h with
      | nil => rfl
    · rw [if_neg he, parseMap, parseMapLoop_entries _ es payload _ h hs hn hf]
      have hfind := findValue_insertObjects es (allocTable_ne_nil Bytes) (placed_allocTable Bytes 4) hd name
      rw [findValue_allocTable, Option.or_none] at hfind
      simp only [Except.map, Except.toOption, Option.bind_some, id_eq, hfind]
      exact map_element_initValue h name
  | c => exact variantFind_entries hs h hn name
  | go =>
    unfold findName goFind
    rw [if_neg (by simp)]
    exact goFindLoop_entries name _ es payload h hs hn hf

theorem findId_entries {es : List (UInt32 × EType × Bytes)} (h : Entries idKey es payload)
    (hd : (es.map (·.1)).Nodup) (id : UInt32) (reader : Reader) : findId payload id reader = entryOf es id := by
  have hf := Nat.lt_succ_of_le (h.length_le hs)
  cases reader with
  | cppRaw => exact findIdLoop_entries id _ es payload h hs hf
  | cppParsed =>
    unfold findId ptrAtId
    by_cases he : payload = []
    · subst he
      cases es with
      | nil => rfl
      | cons e es => exact absurd rfl (h.ne_nil hs)
    · rw [if_neg he, parseIndex, parseIndexLoop_entries _ es payload _ h hs hf]
      have hfind := findValue_insertObjects es (allocTable_ne_nil UInt32) (placed_allocTable UInt32 4) hd id
      rw [findValue_allocTable, Option.or_none] at hfind
      simp only [Except.map, Except.toOption, Option.bind_some, hfind]
      exact map_element_initValue h id
  | c => exact variantGet_entries hs h id
  | go =>
    unfold findId goGet
    rw [if_neg (by simp)]
    exact goGetLoop_entries id _ es payload h hs hf

theorem findPosition_entries {es : List (Unit × EType × Bytes)} (h : Entries noKey es payload) (pos : Nat)
    (reader : Reader) : findPosition payload pos reader = elementAt es pos := by
  have hf := Nat.lt_succ_of_le (h.length_le hs)
  cases reader with
  | cppRaw =>
    unfold findPosition readRawList elementAt
    rw [readRawListLoop_entries _ es payload h hs hf, List.getElem?_map]
  | cppParsed =>
    unfold findPosition ptrAtPosition elementAt
    by_cases he : payload = []
    · subst he
      cases es with
      | nil => rfl
      | cons e es => exact absurd rfl (h.ne_nil hs)
    · obtain ⟨list, hlist, hdata⟩ := parseListLoop_entries _ es payload (allocList 4) h hs hf (by simp [allocList])
      rw [if_neg he, parseList, hlist]
      simp only [allocList, List.nil_append] at hdata
      simp only [hdata, List.length_map, List.getElem?_map]
      by_cases hpos : pos ≥ es.length
      · rw [if_pos hpos, List.getElem?_eq_none hpos]
        rfl
      · have hlt : pos < es.length := by omega
        have hv := h.valid _ (List.getElem_mem hlt)
        rw [if_neg hpos, List.getElem?_eq_getElem hlt]
        simp only [Option.map_some, Except.toOption, Option.bind_some, id_eq, element_initValue hv]
  | c => exact variantAt_entries hs h pos
  | go =>
    unfold findPosition goAt
    rw [if_neg (by simp)]
    exact goAtLoop_entries _ es payload pos h hs hf

end Containers

/-! ## Every level -/

theorem map_fst_encodesMap : ∀ {entries : List (Bytes × Value)} {es : List (Bytes × EType × Bytes)},
    EncodesMap entries es → es.map (·.1) = entries.map (·.1)
  | [], _, h => by rw [EncodesMap] at h; rw [h]; rfl
  | (name, v) :: entries, _, h => by
    rw [EncodesMap] at h
    obtain ⟨t, p, es', rfl, -, h⟩ := h
    rw [List.map_cons, List.map_cons, map_fst_encodesMap h]

theorem map_fst_encodesIndex : ∀ {entries : List (UInt32 × Value)} {es : List (UInt32 × EType × Bytes)},
    EncodesIndex entries es → es.map (·.1) = entries.map (·.1)
  | [], _, h => by rw [EncodesIndex] at h; rw [h]; rfl
  | (id, v) :: entries, _, h => by
    rw [EncodesIndex] at h
    obtain ⟨t, p, es', rfl, -, h⟩ := h
    rw [List.map_cons, List.map_cons, map_fst_encodesIndex h]

theorem length_encodesList : ∀ {items : List Value} {es : List (Unit × EType × Bytes)},
    EncodesList items es → es.length = items.length
  | [], _, h => by rw [EncodesList] at h; rw [h]; rfl
  | v :: items, _, h => by
    rw [EncodesList] at h
    obtain ⟨t, p, es', rfl, -, h⟩ := h
    rw [List.length_cons, List.length_cons, length_encodesList h]

theorem entryOf_eq_none {K : Type} [DecidableEq K] {es : List (K × EType × Bytes)} {k : K} (h : k ∉ es.map (·.1)) :
    entryOf es k = none := by
  unfold entryOf
  rw [Option.map_eq_none_iff, List.find?_eq_none]
  intro e he hk
  rw [decide_eq_true_eq] at hk
  exact h (List.mem_map.2 ⟨e, he, hk⟩)

/-- Among distinct keys, an entry is the one of its key. -/
theorem entryOf_mem {K : Type} [DecidableEq K] : ∀ {es : List (K × EType × Bytes)} {k : K} {v : EType × Bytes},
    (es.map (·.1)).Nodup → (k, v) ∈ es → entryOf es k = some v
  | (k', v') :: es, k, v, hd, hm => by
    rw [List.map_cons, List.nodup_cons] at hd
    rw [entryOf_cons]
    rcases List.mem_cons.1 hm with h | h
    · cases h
      rw [if_pos rfl]
    · rw [if_neg fun hk => hd.1 (List.mem_map.2 ⟨_, h, hk.symm⟩)]
      exact entryOf_mem hd.2 h

/-- The data of an entry is no longer than the payload it stands in. -/
theorem Entries.length_data_le {K : Type} {key : K → Bytes} : ∀ {es : List (K × EType × Bytes)} {payload : Bytes},
    Entries key es payload → payload.length ≤ ulongMax → ∀ e ∈ es, e.2.2.length ≤ ulongMax
  | [], _, _, _, _, he => by cases he
  | (k, type, data) :: es, payload, h, hs, e, he => by
    obtain ⟨header, rest, rfl, -, -, hes, -⟩ := h.split hs
    simp only [List.length_append] at hs
    rcases List.mem_cons.1 he with rfl | he
    · simp only
      omega
    · exact hes.length_data_le (by omega) e he

mutual

theorem readsBack_of_encodes : ∀ (v : Value) {type : EType} {payload : Bytes}, Encodes v type payload →
    payload.length ≤ ulongMax → ReadsBack v type payload
  | .scalar t p, type, payload, h, _ => by
    rw [Encodes] at h
    rw [ReadsBack]
    exact ⟨h.1, h.2.1⟩
  | .map entries, type, payload, h, hs => by
    rw [Encodes] at h
    obtain ⟨rfl, es, hes, hn, he⟩ := h
    rw [ReadsBack]
    refine ⟨rfl, fun hd => ?_⟩
    have hd' : (es.map (·.1)).Nodup := by rw [map_fst_encodesMap hes]; exact hd
    have hfind := fun name reader => findName_entries hs he hn hd' name reader
    refine ⟨readsBackMap_of_encodes entries es hes (fun e hm => ?_) (he.length_data_le hs), ?_⟩
    · intro reader
      rw [hfind, entryOf_mem hd' hm]
    · intro name _ hname reader
      rw [hfind, entryOf_eq_none (by rw [map_fst_encodesMap hes]; exact hname)]
  | .list items, type, payload, h, hs => by
    rw [Encodes] at h
    obtain ⟨rfl, es, hes, he⟩ := h
    rw [ReadsBack]
    have hfind := fun pos reader => findPosition_entries hs he pos reader
    refine ⟨rfl, readsBackList_of_encodes items es 0 hes (fun pos e hm reader => ?_) (he.length_data_le hs), ?_⟩
    · rw [hfind, elementAt, Nat.zero_add, hm]
      rfl
    · intro pos hpos _ reader
      rw [hfind, elementAt, List.getElem?_eq_none (by rw [length_encodesList hes]; exact hpos)]
      rfl
  | .index entries, type, payload, h, hs => by
    rw [Encodes] at h
    obtain ⟨rfl, es, hes, he⟩ := h
    rw [ReadsBack]
    refine ⟨rfl, fun hd => ?_⟩
    have hd' : (es.map (·.1)).Nodup := by rw [map_fst_encodesIndex hes]; exact hd
    have hfind := fun id reader => findId_entries hs he hd' id reader
    refine ⟨readsBackIndex_of_encodes entries es hes (fun e hm => ?_) (he.length_data_le hs), ?_⟩
    · intro reader
      rw [hfind, entryOf_mem hd' hm]
    · intro id hid reader
      rw [hfind, entryOf_eq_none (by rw [map_fst_encodesIndex hes]; exact hid)]

theorem readsBackMap_of_encodes : ∀ (entries : List (Bytes × Value)) (es : List (Bytes × EType × Bytes)) {payload : Bytes},
    EncodesMap entries es → (∀ e ∈ es, ∀ reader, findName payload e.1 reader = some e.2) →
    (∀ e ∈ es, e.2.2.length ≤ ulongMax) → ReadsBackMap entries payload
  | [], _, _, _, _, _ => by rw [ReadsBackMap]; trivial
  | (name, v) :: entries, _, payload, h, hfind, hlen => by
    rw [EncodesMap] at h
    obtain ⟨t, p, es', rfl, hv, h⟩ := h
    rw [ReadsBackMap]
    refine ⟨fun _ => ⟨t, p, hfind _ List.mem_cons_self, ?_⟩, ?_⟩
    · exact readsBack_of_encodes v hv (hlen _ List.mem_cons_self)
    · exact readsBackMap_of_encodes entries es' h (fun e he => hfind e (List.mem_cons_of_mem _ he))
        fun e he => hlen e (List.mem_cons_of_mem _ he)

theorem readsBackList_of_encodes : ∀ (items : List Value) (es : List (Unit × EType × Bytes)) (pos : Nat) {payload : Bytes},
    EncodesList items es → (∀ i e, es[i]? = some e → ∀ reader, findPosition payload (pos + i) reader = some e.2) →
    (∀ e ∈ es, e.2.2.length ≤ ulongMax) → ReadsBackList items pos payload
  | [], _, _, _, _, _, _ => by rw [ReadsBackList]; trivial
  | v :: items, _, pos, payload, h, hfind, hlen => by
    rw [EncodesList] at h
    obtain ⟨t, p, es', rfl, hv, h⟩ := h
    rw [ReadsBackList]
    refine ⟨fun _ => ⟨t, p, hfind 0 _ rfl, ?_⟩, ?_⟩
    · exact readsBack_of_encodes v hv (hlen _ List.mem_cons_self)
    · refine readsBackList_of_encodes items es' (pos + 1) h (fun i e he => ?_)
        fun e he => hlen e (List.mem_cons_of_mem _ he)
      rw [Nat.add_assoc, Nat.add_comm 1 i]
      exact hfind (i + 1) e he

theorem readsBackIndex_of_encodes : ∀ (entries : List (UInt32 × Value)) (es : List (UInt32 × EType × Bytes))
    {payload : Bytes}, EncodesIndex entries es → (∀ e ∈ es, ∀ reader, findId payload e.1 reader = some e.2) →
    (∀ e ∈ es, e.2.2.length ≤ ulongMax) → ReadsBackIndex entries payload
  | [], _, _, _, _, _ => by rw [ReadsBackIndex]; trivial
  | (id, v) :: entries, _, payload, h, hfind, hlen => by
    rw [EncodesIndex] at h
    obtain ⟨t, p, es', rfl, hv, h⟩ := h
    rw [ReadsBackIndex]
    refine ⟨⟨t, p, hfind _ List.mem_cons_self, ?_⟩, ?_⟩
    · exact readsBack_of_encodes v hv (hlen _ List.mem_cons_self)
    · exact readsBackIndex_of_encodes entries es' h (fun e he => hfind e (List.mem_cons_of_mem _ he))
        fun e he => hlen e (List.mem_cons_of_mem _ he)

end

/-- The types a container has are types of five bits, and not the empty one. -/
theorem valid_of_encodes {v : Value} {type : EType} {payload : Bytes} (h : Encodes v type payload) :
    Valid type payload := by
  cases v with
  | scalar t p =>
    rw [Encodes] at h
    obtain ⟨rfl, rfl, h⟩ := h
    exact h
  | map entries =>
    rw [Encodes] at h
    rw [h.1]
    exact ⟨by decide, fun h => absurd h (by decide)⟩
  | list items =>
    rw [Encodes] at h
    rw [h.1]
    exact ⟨by decide, fun h => absurd h (by decide)⟩
  | index entries =>
    rw [Encodes] at h
    rw [h.1]
    exact ⟨by decide, fun h => absurd h (by decide)⟩

/-- A packet of less than 4 GB, written by any encoder, with any encoder for each element in it and
whatever follows it: all three decoders report the type, the payload and the size of the packet,
and at every level all look-ups find the same elements. -/
theorem implementations_interoperate {v : Value} {type : EType} {payload packet rest : Bytes}
    (he : Encodes v type payload) (hw : Written type payload packet) (hs : (packet ++ rest).length ≤ ulongMax) :
    (∀ implementation, decode implementation (packet ++ rest) = some ⟨type, payload, packet.length⟩) ∧
      ReadsBack v type payload := by
  have hv := valid_of_encodes he
  have hent : Entries noKey [((), type, payload)] (noKey () ++ packet ++ []) := .cons hv hw .nil
  rw [noKey, List.nil_append, List.append_nil] at hent
  have hlen : packet.length ≤ ulongMax := by
    rw [List.length_append] at hs
    omega
  obtain ⟨header, rest', hpacket, hh, hd, hnil, -⟩ := hent.split hlen
  cases hnil
  rw [noKey, List.nil_append, List.append_nil] at hpacket
  subst hpacket
  refine ⟨fun implementation => ?_, readsBack_of_encodes v he ?_⟩
  · rw [List.length_append]
    cases implementation with
    | cpp => exact hh.cppFromPacket hd rest
    | c => exact hh.variantFromBuffer rest hs
    | go =>
      have hgo := hh.goFromBuffer rest
      simp only [decode, hgo, Except.toOption]
  · rw [List.length_append] at hlen
    omega

/-- A map with a list in it: the number written in Go, the list finished in C, the map packed in
C++. -/
theorem implementations_interoperate_nested :
    (∀ implementation, decode implementation [0x21, 6, 1, 0x61, 0x22, 2, 0x0C, 7] =
      some ⟨varTypeMap, [1, 0x61, 0x22, 2, 0x0C, 7], 8⟩) ∧
    ReadsBack (.map [([0x61], .list [.scalar varTypeUInt [7]])]) varTypeMap [1, 0x61, 0x22, 2, 0x0C, 7] := by
  have hscalar : Encodes (.scalar varTypeUInt [7]) varTypeUInt [7] := by
    rw [Encodes]
    exact ⟨rfl, rfl, by decide, fun h => absurd h (by decide)⟩
  have hlist : Encodes (.list [.scalar varTypeUInt [7]]) varTypeList [0x0C, 7] := by
    rw [Encodes]
    refine ⟨rfl, [((), varTypeUInt, [7])], ?_, .cons (valid_of_encodes hscalar) .goToBuffer .nil⟩
    simp only [EncodesList]
    exact ⟨_, _, _, rfl, hscalar, rfl⟩
  have hmap : Encodes (.map [([0x61], .list [.scalar varTypeUInt [7]])]) varTypeMap [1, 0x61, 0x22, 2, 0x0C, 7] := by
    rw [Encodes]
    refine ⟨rfl, [([0x61], varTypeList, [0x0C, 7])], ?_, by simp [ShortNames], ?_⟩
    · simp only [EncodesMap]
      exact ⟨_, _, _, rfl, hlist, rfl⟩
    · have hfinish : Written varTypeList [0x0C, 7] (finishHeader varTypeList 16 2 ++ [0x0C, 7]) :=
        .variantFinish (by decide) (by decide)
      exact .cons (valid_of_encodes hlist) hfinish .nil
  exact @implementations_interoperate _ _ _ _ [] hmap .toPacket (by decide)

/-- `FromPacket` takes the length of the longest payload below 4 GB for the error value. -/
theorem cppFromPacket_longest {payload : Bytes} (hlen : payload.length = invalidSize) :
    cppFromPacket (toPacket varTypeBytes payload) = none := by
  have hh : Header varTypeBytes invalidSize (packetHeader varTypeBytes invalidSize) :=
    packetHeader_header (by decide) (by decide) fun h => absurd h (by decide)
  unfold cppFromPacket readPacket toPacket
  rw [hlen, hh.readHeader, if_neg (by omega)]
  simp only [if_true]

/-- What `ToPacket` writes for the longest payload below 4 GB is rejected. -/
theorem longest_payload_rejected : ¬ ∀ (type : EType) (payload packet : Bytes), Valid type payload →
    payload.length < 2 ^ 32 → Written type payload packet →
    ∀ implementation, decode implementation packet = some ⟨type, payload, packet.length⟩ := by
  intro h
  obtain ⟨payload, hlen⟩ : ∃ payload : Bytes, payload.length = invalidSize :=
    ⟨List.replicate invalidSize 0, List.length_replicate⟩
  have hvalid : Valid varTypeBytes payload := ⟨by decide, fun h => absurd h (by decide)⟩
  have hcpp := h varTypeBytes payload _ hvalid (by rw [hlen]; decide) .toPacket .cpp
  rw [decode, cppFromPacket_longest hlen] at hcpp
  cases hcpp

end MajorPrivacy.Variant

/-
`CVariantReader::Find` on every form a container has: as it comes in a packet, built by hand, parsed
in place, and copied, cloned or made exclusive from there.
-/
import MajorPrivacy.Variant.Clone
import MajorPrivacy.Variant.Lookup

namespace MajorPrivacy.Variant

open LittleEndian MajorPrivacy.Core

/-! ## A payload as the readers go through it -/

/-- The values under a key, in the order they were written. -/
def under {K : Type} [DecidableEq K] (es : List (K × EType × Bytes)) (k : K) : List (EType × Bytes) :=
  (es.filter (·.1 = k)).map (·.2)

/-- What a search that stops at the first hit makes of the entries. -/
def firstOf {K : Type} [DecidableEq K] (es : List (K × EType × Bytes)) (k : K) : Except EResult (EType × Bytes) :=
  match (under es k).head? with
  | some found => .ok found
  | none => .error .eErrNotFound

section Payloads
variable {K : Type} [DecidableEq K]

theorem under_cons (k k' : K) (v : EType × Bytes) (es : List (K × EType × Bytes)) :
    under ((k, v) :: es) k' = if k = k' then v :: under es k' else under es k' := by
  unfold under
  rw [List.filter_cons]
  by_cases h : k = k' <;> simp [h]

theorem firstOf_cons (k k' : K) (v : EType × Bytes) (es : List (K × EType × Bytes)) :
    firstOf ((k, v) :: es) k' = if k = k' then .ok v else firstOf es k' := by
  unfold firstOf
  rw [under_cons]
  by_cases h : k = k' <;> simp [h]

/-- `FromPacket` reads the header `Find` skips an entry by. -/
theorem skip_of_readPacket {packet : Bytes} {type : EType} {data left : Bytes}
    (h : readPacket packet = .ok (type, data, left)) :
    ∃ size body, readHeader packet = some (type, size, body) ∧ size ≠ invalidSize ∧ readData body size = some (data, left) := by
  unfold readPacket at h
  rcases hh : readHeader packet with _ | ⟨type', size, body⟩
  · simp [hh] at h
  simp only [hh] at h
  by_cases hs : size = invalidSize
  · simp [hs] at h
  simp only [if_neg hs] at h
  rcases hb : readData body size with _ | ⟨data', left'⟩
  · simp [hb] at h
  simp only [hb, Except.ok.injEq, Prod.mk.injEq] at h
  rcases h with ⟨rfl, rfl, rfl⟩
  exact ⟨size, body, rfl, hs, hb⟩

theorem findNameLoop_of_read (name : Bytes) : ∀ (fuel : Nat) {payload : Bytes} {es : List (Bytes × EType × Bytes)},
    readRawMapLoop fuel payload = (es, none) → findNameLoop name fuel payload = firstOf es name
  | 0, _, _, h => by
    cases h
    rfl
  | fuel + 1, [], _, h => by
    cases h
    rfl
  | fuel + 1, len :: packet, es, h => by
    rw [readRawMapLoop] at h
    rw [findNameLoop]
    rcases hd : readData packet len.toNat with _ | ⟨cur, packet'⟩
    · simp [hd] at h
    simp only [hd] at h ⊢
    rcases hp : readPacket packet' with e | ⟨type, data, left⟩
    · simp [hp] at h
    simp only [hp] at h
    rcases hr : readRawMapLoop fuel left with ⟨rest, e⟩
    simp only [hr, Prod.mk.injEq] at h
    rcases h with ⟨rfl, rfl⟩
    rw [firstOf_cons]
    by_cases hk : cur = name
    · subst hk
      simp [Except.map]
    · have hk' : ¬(cur.length = name.length ∧ name = cur) := fun h => hk h.2.symm
      rcases skip_of_readPacket hp with ⟨size, body, hh, hs, hb⟩
      rw [if_neg hk', if_neg hk, hh]
      simp only [if_neg hs, hb]
      exact findNameLoop_of_read name fuel hr

theorem findIdLoop_of_read (id : Nat) : ∀ (fuel : Nat) {payload : Bytes} {es : List (Nat × EType × Bytes)},
    readRawIndexLoop fuel payload = (es, none) → findIdLoop id fuel payload = firstOf es id
  | 0, _, _, h => by
    cases h
    rfl
  | fuel + 1, payload, es, h => by
    rw [readRawIndexLoop] at h
    rw [findIdLoop]
    by_cases hnil : payload = []
    · rw [if_pos hnil] at h ⊢
      cases h
      rfl
    rw [if_neg hnil] at h ⊢
    rcases hv : readValue 4 payload with _ | ⟨index, packet⟩
    · simp [hv] at h
    simp only [hv] at h ⊢
    rcases hp : readPacket packet with e | ⟨type, data, left⟩
    · simp [hp] at h
    simp only [hp] at h
    rcases hr : readRawIndexLoop fuel left with ⟨rest, e⟩
    simp only [hr, Prod.mk.injEq] at h
    rcases h with ⟨rfl, rfl⟩
    rw [firstOf_cons]
    by_cases hk : index = id
    · subst hk
      simp [Except.map]
    · rcases skip_of_readPacket hp with ⟨size, body, hh, hs, hb⟩
      rw [if_neg hk, if_neg hk, hh]
      simp only [if_neg hs, hb]
      exact findIdLoop_of_read id fuel hr

/-- A name read from a payload has its length in one byte. -/
theorem shortNames_of_read : ∀ (fuel : Nat) {payload : Bytes} {es : List (Bytes × EType × Bytes)} {e : Option EResult},
    readRawMapLoop fuel payload = (es, e) → ShortNames es
  | 0, _, _, _, h => by
    cases h
    simp [ShortNames]
  | fuel + 1, [], _, _, h => by
    cases h
    simp [ShortNames]
  | fuel + 1, len :: packet, es, _, h => by
    rw [readRawMapLoop] at h
    rcases hd : readData packet len.toNat with _ | ⟨cur, packet'⟩
    · simp only [hd, Prod.mk.injEq] at h
      simp [ShortNames, ← h.1]
    simp only [hd] at h
    rcases hp : readPacket packet' with e | ⟨type, data, left⟩
    · simp only [hp, Prod.mk.injEq] at h
      simp [ShortNames, ← h.1]
    simp only [hp] at h
    rcases hr : readRawMapLoop fuel left with ⟨rest, e⟩
    simp only [hr, Prod.mk.injEq] at h
    rcases h with ⟨rfl, rfl⟩
    rintro x hx
    rcases List.mem_cons.1 hx with rfl | hx
    · unfold readData at hd
      split at hd
      · cases hd
        have := len.toNat_lt
        rw [List.length_take]
        omega
      · cases hd
    · exact shortNames_of_read fuel hr x hx

/-- An id read from a payload has 32 bits. -/
theorem ids_of_read : ∀ (fuel : Nat) {payload : Bytes} {es : List (Nat × EType × Bytes)} {e : Option EResult},
    readRawIndexLoop fuel payload = (es, e) → ∀ x ∈ es, x.1 < 2 ^ 32
  | 0, _, _, _, h => by
    cases h
    simp
  | fuel + 1, payload, es, _, h => by
    rw [readRawIndexLoop] at h
    by_cases hnil : payload = []
    · rw [if_pos hnil] at h
      simp only [Prod.mk.injEq] at h
      simp [← h.1]
    rw [if_neg hnil] at h
    rcases hv : readValue 4 payload with _ | ⟨index, packet⟩
    · simp only [hv, Prod.mk.injEq] at h
      simp [← h.1]
    simp only [hv] at h
    rcases hp : readPacket packet with e | ⟨type, data, left⟩
    · simp only [hp, Prod.mk.injEq] at h
      simp [← h.1]
    simp only [hp] at h
    rcases hr : readRawIndexLoop fuel left with ⟨rest, e⟩
    simp only [hr, Prod.mk.injEq] at h
    rcases h with ⟨rfl, rfl⟩
    rintro x hx
    rcases List.mem_cons.1 hx with rfl | hx
    · unfold readValue readData at hv
      split at hv
      · simp only [Option.map_some, Option.some.injEq, Prod.mk.injEq] at hv
        have hlt := ofLE_lt (payload.take 4)
        rw [List.length_take, Nat.min_eq_left (by assumption)] at hlt
        rw [← hv.1]
        exact hlt
      · cases hv
    · exact ids_of_read fuel hr x hx

end Payloads

theorem readRawMapLoop_entries : ∀ (fuel : Nat) (es : List (Bytes × EType × Bytes)) (payload : Bytes),
    Entries nameKey es payload → payload.length ≤ ulongMax → ShortNames es → es.length < fuel →
    readRawMapLoop fuel payload = (es, none)
  | 0, _, _, _, _, _, hf => absurd hf (Nat.not_lt_zero _)
  | fuel + 1, [], _, .nil, _, _, _ => rfl
  | fuel + 1, (k, type, data) :: es, payload, h, hs, hn, hf => by
    obtain ⟨header, rest, rfl, hh, hd, he, -⟩ := h.split hs
    obtain ⟨hk, hn⟩ := hn.cons
    simp only [List.length_append, List.length_cons] at hs hf
    rw [nameKey, List.cons_append, readRawMapLoop, toNat_nameLength hk, readData_append]
    simp only [hh.readPacket hd, readRawMapLoop_entries fuel es rest he (by omega) hn (by omega)]

theorem readRawIndexLoop_entries : ∀ (fuel : Nat) (es : List (UInt32 × EType × Bytes)) (payload : Bytes),
    Entries idKey es payload → payload.length ≤ ulongMax → es.length < fuel →
    readRawIndexLoop fuel payload = (es.map fun e => (e.1.toNat, e.2), none)
  | 0, _, _, _, _, hf => absurd hf (Nat.not_lt_zero _)
  | fuel + 1, [], _, .nil, _, _ => rfl
  | fuel + 1, (k, type, data) :: es, payload, h, hs, hf => by
    obtain ⟨header, rest, rfl, hh, hd, he, -⟩ := h.split hs
    simp only [List.length_append, List.length_cons] at hs hf
    rw [readRawIndexLoop, if_neg (idKey_append_ne_nil _ _), readValue_idKey]
    simp only [hh.readPacket hd, readRawIndexLoop_entries fuel es rest he (by omega) (by omega), List.map_cons]

/-! ## The forms of a container -/

namespace Content

/-- What an object has to keep when a container takes the place of its payload: the address of one in
memory of its own, and `m_uPayloadSize`, over which the bytes of an embedded one lie. -/
def parsedFrom (bReadOnly : Bool) (payload : Bytes) : Parsed :=
  if payload.length ≤ varDataSize then ⟨bReadOnly, none, payload.length⟩
  else if payload.length ≤ varEmbeddedSize then ⟨bReadOnly, none, ofLE ((payload.drop 2).take 4)⟩
  else ⟨bReadOnly, some payload, payload.length⟩

/-- `GetMap`, `GetList` and `GetIndex` on an object with a payload: their loops are those of the
`ReadRaw` functions, with `MapInsert`, `ListAppend` and `IndexInsert` for the callback. -/
def parse (bCanInit : Bool) : Content → Content
  | .flat type bReadOnly payload =>
    if payload = [] ∧ ¬bCanInit then .flat type bReadOnly payload -- eErrIsEmpty
    else if type = varTypeMap then
      match readRawMap payload with
      | (es, none) =>
        .map (parsedFrom bReadOnly payload) (insertAll (es.map fun e => (e.1, ofBytes e.2.1 e.2.2)) (allocTable Bytes 4))
      | _ => .flat type bReadOnly payload
    else if type = varTypeList then
      match readRawList payload with
      | (es, none) => .list (parsedFrom bReadOnly payload) (es.map fun e => ofBytes e.1 e.2)
      | _ => .flat type bReadOnly payload
    else if type = varTypeIndex then
      match readRawIndex payload with
      | (es, none) =>
        .index (parsedFrom bReadOnly payload)
          (insertAll (es.map fun e => (UInt32.ofNat e.1, ofBytes e.2.1 e.2.2)) (allocTable UInt32 4))
      | _ => .flat type bReadOnly payload
    else .flat type bReadOnly payload
  | v => v

/-- A value with nothing but a payload, as the format has them. -/
def Plain (v : Content) : Prop :=
  ∃ type bReadOnly data, v = .flat type bReadOnly data ∧ Valid type data

/-- A container that was built: by insertions, removals and assignments of plain values. -/
inductive Built : Content → Prop
  | map {t : Table Bytes Content} (hs : SoundTable t) (hp : ∀ e ∈ t.toList, e.1.length < 256 ∧ Plain e.2) :
    Built (.map unparsed t)
  | list {l : List Content} (hp : ∀ v ∈ l, Plain v) : Built (.list unparsed l)
  | index {t : Table UInt32 Content} (hs : SoundTable t) (hp : ∀ e ∈ t.toList, Plain e.2) : Built (.index unparsed t)

/-- The containers of one payload: the one that comes in a packet, those whose packet it is, and what
is parsed or copied from them. -/
inductive Form (type : EType) (payload : Bytes) : Content → Prop
  | packet : Form type payload (.flat type true payload)
  | built {v : Content} (hb : Built v) (ht : v.getType = type) (hp : v.mkPayload = some payload)
    (hlen : payload.length < invalidSize) : Form type payload v
  | parse {v : Content} (bCanInit : Bool) (h : Form type payload v) : Form type payload (v.parse bCanInit)
  | copy {v : Content} (h : Form type payload v) : Form type payload v.shared
  | clone {v : Content} (h : Form type payload v) : Form type payload v.clone
  | exclusive {v : Content} (h : Form type payload v) : Form type payload v.exclusive

/-! ## Find -/

/-- The length of the longest name the 320 bytes of the pool of `MapFind` have room for, beside the
headers of the block and of the string. A longer name is a null string, which no key is equal to. -/
def mapFindLength : Nat := 320 - 24 - 32

/-- `MapFind`. -/
def mapFind (map : Table Bytes Content) (name : Bytes) : Option Content :=
  if name.length ≤ mapFindLength then map.findValue name else none

/-- `CVariantReader::Find` by name. -/
def findName (v : Content) (name : Bytes) : Except EResult (Option Content) :=
  match v with
  | .map _ t =>
    match mapFind t name with
    | none => .error .eErrNotFound
    | some value => .ok (some value.shared)
  | .flat type _ payload =>
    if type = varTypeEmpty then .ok none
    else if type ≠ varTypeMap then .error .eErrTypeMismatch
    else (rawFindName payload name).map fun (type, data) => some (.flat type true data)
  | _ => .error .eErrTypeMismatch

/-- `CVariantReader::Find` by id. It does not return the element of a parsed container, but goes on
with a search in what is left of the payload; `none` where nobody has set the bytes it goes through. -/
def findId (v : Content) (id : UInt32) : Option (Except EResult (Option Content)) :=
  let search := fun payload => (rawFindId payload id.toNat).map fun (type, data) => some (.flat type true data)
  match v with
  | .index p t =>
    match t.findValue id with
    | none => some (.error .eErrNotFound)
    | some _ => p.payload.map search
  | .flat type _ payload =>
    if type = varTypeEmpty then some (.ok none)
    else if type ≠ varTypeIndex then some (.error .eErrTypeMismatch)
    else some (search payload)
  | _ => some (.error .eErrTypeMismatch)

/-- The element `ReadRawList` hands over as the one at a position. -/
def findPos (v : Content) (pos : Nat) : Except EResult (Option Content) :=
  match v with
  | .list _ l =>
    match l[pos]? with
    | none => .error .eErrNotFound
    | some value => .ok (some value)
  | .flat type _ payload =>
    if type = varTypeEmpty then .ok none
    else if type ≠ varTypeList then .error .eErrTypeMismatch
    else match readRawList payload with
      | (es, e) =>
        match es[pos]? with
        | none => .error (e.getD .eErrNotFound)
        | some (type, data) => .ok (some (.flat type true data))
  | _ => .error .eErrTypeMismatch

inductive Key
  | name (name : Bytes)
  | id (id : UInt32)
  | pos (pos : Nat)

def find (v : Content) : Key → Option (Except EResult (Option Content))
  | .name name => some (v.findName name)
  | .id id => v.findId id
  | .pos pos => some (v.findPos pos)

/-- What is found: the type and the payload of the element, or the error. -/
def answer (v : Content) (key : Key) : Option (Except EResult (Option (EType × Option Bytes))) :=
  (v.find key).map fun found => found.map fun value => value.map fun value => (value.getType, value.mkPayload)

/-- What an object of its own has of a value: under the empty type, nothing. -/
def stored (value : EType × Bytes) : EType × Bytes := if value.1 = varTypeEmpty then (value.1, []) else value

/-- Where every form of a container gives the same answer: a name whose first and last value are the
same, an id that is not there, a position; nothing is stored under the empty type; and anything
where the payload cannot be parsed. -/
def Alike (type : EType) (payload : Bytes) : Key → Prop
  | .name name => type = varTypeMap → ∀ es, readRawMap payload = (es, none) →
    ∀ first ∈ (under es name).head?, ∀ last ∈ (under es name).getLast?, stored first = first ∧ stored last = first
  | .id id => type = varTypeIndex → ∀ es, readRawIndex payload = (es, none) → under es id.toNat = []
  | .pos pos => type = varTypeList → ∀ es, readRawList payload = (es, none) → ∀ value ∈ es[pos]?, stored value = value

/-! ### Tables of values -/

/-- The type and the payload of a value that has nothing else. -/
def shown : Content → Option (EType × Bytes)
  | .flat type _ payload => some (type, payload)
  | _ => none

theorem stored_stored (x : EType × Bytes) : stored (stored x) = stored x := by
  unfold stored
  split <;> simp_all

theorem shown_ofBytes (type : EType) (data : Bytes) : shown (ofBytes type data) = some (stored (type, data)) := by
  unfold ofBytes stored
  split <;> rfl

section Shown
variable {v : Content} {x : EType × Bytes}

theorem shown_eq (h : shown v = some x) : ∃ ro, v = .flat x.1 ro x.2 := by
  cases v with
  | flat type ro data =>
    cases h
    exact ⟨ro, rfl⟩
  | _ => cases h

theorem shown_shared (h : shown v = some x) : shown v.shared = some (stored x) := by
  rcases shown_eq h with ⟨ro, rfl⟩
  exact shown_ofBytes x.1 x.2

theorem shown_clone (h : shown v = some x) : shown v.clone = some (stored x) := by
  rcases shown_eq h with ⟨ro, rfl⟩
  rw [clone]
  exact shown_ofBytes x.1 x.2

theorem said_of_shown (h : shown v = some x) : (v.getType, v.mkPayload) = (x.1, some x.2) := by
  rcases shown_eq h with ⟨ro, rfl⟩
  rw [mkPayload]
  rfl

theorem Plain.shown (h : Plain v) : ∃ type data, shown v = some (type, data) ∧ Valid type data ∧
    stored (type, data) = (type, data) := by
  rcases h with ⟨type, ro, data, rfl, hv⟩
  refine ⟨type, data, rfl, hv, ?_⟩
  unfold stored
  split
  · rw [hv.empty ‹_›]
  · rfl

end Shown

theorem map_shown_clone : ∀ {vs : List Content} {xs : List (EType × Bytes)},
    vs.map shown = xs.map (fun x => some (stored x)) → (vs.map clone).map shown = xs.map fun x => some (stored x)
  | [], [], _ => rfl
  | [], _ :: _, h => by cases h
  | _ :: _, [], h => by cases h
  | v :: vs, x :: xs, h => by
    rw [List.map_cons, List.map_cons, List.cons.injEq] at h
    rw [List.map_cons, List.map_cons, List.map_cons, map_shown_clone h.2, shown_clone h.1, stored_stored]

section Tables
variable {K : Type} [Hasher K]

/-- A table its own insertions have made, with the count it keeps. -/
structure Counted (t : Table K Content) : Prop where
  sound : SoundTable t
  count : t.count = t.toList.length
  ne_nil : t.buckets ≠ []

theorem Counted.insertValue {t : Table K Content} (h : Counted t) (k : K) (v : Content) : Counted (t.insertValue k v) := by
  have hpos := List.length_pos_iff.2 h.ne_nil
  have hlen := (Table.perm_insertValue h.ne_nil k v).length_eq
  have hroom := h.sound.room
  have hcount := h.count
  refine ⟨⟨Table.placed_insertValue h.sound.placed k v, ?_⟩, ?_, Table.insertValue_ne_nil h.ne_nil k v⟩
  · rw [hlen, List.length_cons, Table.insertValue, length_insertEntry]
    unfold Table.grow
    by_cases hg : t.count ≥ t.buckets.length ∧ t.buckets.length &&& 0x80000000 = 0
    · rw [if_pos hg, length_moveTable]
      left
      rcases hroom with hroom | hroom
      · omega
      · exact absurd hg.2 hroom
    · rw [if_neg hg]
      rcases hroom with hroom | hroom
      · by_cases hc : t.count ≥ t.buckets.length
        · exact .inr fun hb => hg ⟨hc, hb⟩
        · exact .inl (by omega)
      · exact .inr hroom
  · rw [hlen, List.length_cons, Table.insertValue, Table.count_grow, hcount]

theorem Counted.insertAll : ∀ (entries : List (K × Content)) {t : Table K Content}, Counted t → Counted (insertAll entries t)
  | [], _, h => h
  | e :: entries, _, h => Counted.insertAll entries (h.insertValue e.1 e.2)

theorem counted_allocTable {n : Nat} (hn : 0 < n) : Counted (allocTable K n) := by
  have hnil : (allocTable K n).toList = [] := by simp [allocTable, Table.toList]
  refine ⟨⟨placed_replicate n, .inl (by rw [hnil]; exact Nat.zero_le _)⟩, by rw [hnil]; rfl, ?_⟩
  rw [← List.length_pos_iff, allocTable, List.length_replicate]
  exact hn

variable [DecidableEq K]

theorem valuesOf_insertAll (k : K) : ∀ (entries : List (K × Content)) {t : Table K Content}, t.buckets ≠ [] →
    Placed t.buckets →
    valuesOf (insertAll entries t).buckets k = (chainValues k entries).reverse ++ valuesOf t.buckets k
  | [], _, _, _ => by simp [insertAll]
  | e :: entries, t, hne, hp => by
    have ih := valuesOf_insertAll k entries (Table.insertValue_ne_nil hne e.1 e.2) (Table.placed_insertValue hp e.1 e.2)
    have hstep : insertAll (e :: entries) t = insertAll entries (t.insertValue e.1 e.2) := rfl
    rw [hstep, ih, Table.valuesOf_insertValue hne hp, chainValues_cons]
    by_cases hk : e.1 = k
    · simp [hk]
    · simp [hk]

/-- The values of a clone stand the other way round. -/
theorem valuesOf_cloned {t : Table K Content} (h : SoundTable t) (f : Content → Content) (k : K) :
    valuesOf (insertAll (t.toList.map fun e => (e.1, f e.2)) (allocTable K t.buckets.length)).buckets k =
      ((valuesOf t.buckets k).map f).reverse := by
  have hroom := h.room
  have hb := buckets_insertAll (t.toList.map fun e => (e.1, f e.2)) (t := allocTable K t.buckets.length)
    (by simpa [allocTable] using hroom)
  have hlen : ∀ g : List (K × Content) → List (K × Content),
      bucketIndex (t.buckets.map g) k = bucketIndex t.buckets k := fun g => bucketIndex_congr (by simp) k
  rw [hb, allocTable, Table.toList, foldl_insertEntry_flatten h.placed f]
  unfold valuesOf
  rw [hlen, List.getD_eq_getElem?_getD, List.getD_eq_getElem?_getD, List.getElem?_map]
  rcases t.buckets[bucketIndex t.buckets k]? with _ | bucket
  · rfl
  · simp only [Option.map_some, Option.getD_some, chainValues_reverse]
    simp only [chainValues, List.filter_map, List.map_map, Function.comp_def]

/-- A table holds entries: under each key their values, in the one order or the other. -/
def Holds (es : List (K × EType × Bytes)) (t : Table K Content) : Prop :=
  SoundTable t ∧ ∀ k, (valuesOf t.buckets k).map shown = (under es k).map (fun x => some (stored x)) ∨
    (valuesOf t.buckets k).map shown = (under es k).reverse.map fun x => some (stored x)

theorem holds_cloned {es : List (K × EType × Bytes)} {t : Table K Content} (h : Holds es t) :
    Holds es (insertAll (t.toList.map fun e => (e.1, e.2.clone)) (allocTable K t.buckets.length)) := by
  rcases h with ⟨hs, hv⟩
  refine ⟨cloned_sound hs _, fun k => ?_⟩
  rw [valuesOf_cloned hs, List.map_reverse]
  rcases hv k with hv | hv
  · right
    rw [map_shown_clone hv, List.map_reverse]
  · left
    rw [map_shown_clone hv, List.map_reverse, List.reverse_reverse]

/-- What a parsed table shows under a key: the values from the last one. -/
theorem valuesOf_parsed (es : List (K × EType × Bytes)) (k : K) :
    (valuesOf (insertAll (es.map fun e => (e.1, ofBytes e.2.1 e.2.2)) (allocTable K 4)).buckets k).map shown =
      (under es k).reverse.map fun x => some (stored x) := by
  have hc : Counted (allocTable K 4) := counted_allocTable (by omega)
  have hnil : valuesOf (allocTable K 4).buckets k = [] := by
    rw [← chainValues_flatten hc.sound.placed]
    simp [allocTable]
  rw [valuesOf_insertAll k _ hc.ne_nil hc.sound.placed, hnil, List.append_nil, List.map_reverse, List.map_reverse]
  congr 1
  simp only [chainValues, under, List.filter_map, List.map_map, Function.comp_def, shown_ofBytes]

theorem holds_parsed (es : List (K × EType × Bytes)) :
    Holds es (insertAll (es.map fun e => (e.1, ofBytes e.2.1 e.2.2)) (allocTable K 4)) := by
  have hc : Counted (allocTable K 4) := counted_allocTable (by omega)
  exact ⟨(hc.insertAll _).sound, fun k => .inr (valuesOf_parsed es k)⟩

omit [Hasher K] in
/-- What the values of a list of entries show. -/
theorem map_chainValues (k : K) : ∀ {l : List (K × Content)} {es : List (K × EType × Bytes)},
    l.map (fun e => (e.1, shown e.2)) = es.map (fun e => (e.1, some e.2)) →
    (chainValues k l).map shown = (under es k).map some
  | [], [], _ => rfl
  | [], _ :: _, h => by cases h
  | _ :: _, [], h => by cases h
  | e :: l, (k', x) :: es, h => by
    rw [List.map_cons, List.map_cons, List.cons.injEq, Prod.mk.injEq] at h
    rcases h with ⟨⟨hk, hx⟩, h⟩
    have ih := map_chainValues k h
    simp only at hk hx
    rw [chainValues_cons, under_cons, hk]
    by_cases he : k' = k
    · rw [if_pos he, if_pos he, List.map_cons, List.map_cons, ih, hx]
    · rw [if_neg he, if_neg he, ih]

theorem holds_built {es : List (K × EType × Bytes)} {t : Table K Content} (hs : SoundTable t)
    (h : t.toList.map (fun e => (e.1, shown e.2)) = es.map fun e => (e.1, some e.2)) (hx : ∀ e ∈ es, stored e.2 = e.2) :
    Holds es t := by
  refine ⟨hs, fun k => .inl ?_⟩
  rw [← chainValues_flatten hs.placed, ← Table.toList, map_chainValues k h]
  apply List.map_congr_left
  rintro x hxm
  rcases List.mem_map.1 hxm with ⟨e, he, rfl⟩
  rw [hx e (List.mem_of_mem_filter he)]

end Tables

/-! ### What is read of a container that was built -/

section Written
variable {K : Type}

theorem entries_of_writeAll {key key' : K → Bytes} : ∀ {l : List (K × Content)} {payload : Bytes},
    (∀ e ∈ l, key' e.1 = key e.1 ∧ Plain e.2) →
    writeAll (l.map fun e => e.2.toPacket.map (key' e.1 ++ ·)) = some payload →
    ∃ es, Entries key es payload ∧ l.map (fun e => (e.1, shown e.2)) = es.map (fun e => (e.1, some e.2)) ∧
      ∀ e ∈ es, stored e.2 = e.2
  | [], _, _, h => by
    cases h
    exact ⟨[], .nil, rfl, by simp⟩
  | (k, v) :: l, payload, hl, h => by
    rcases List.forall_mem_cons.1 hl with ⟨⟨hk, hp⟩, htail⟩
    rcases hp.shown with ⟨type, data, hsh, hv, hst⟩
    rcases shown_eq hsh with ⟨ro, rfl⟩
    simp only [List.map_cons, writeAll, Content.toPacket, mkPayload, Option.map_some, Option.bind_some] at h
    rcases hr : writeAll (l.map fun e => e.2.toPacket.map (key' e.1 ++ ·)) with _ | rest
    · simp only [Content.toPacket] at hr
      rw [hr] at h
      cases h
    have hrest := hr
    simp only [Content.toPacket] at hr
    rw [hr] at h
    cases h
    rcases entries_of_writeAll htail hrest with ⟨es, hes, hmap, hstored⟩
    refine ⟨(k, type, data) :: es, ?_, ?_, ?_⟩
    · rw [show key' k = key k from hk]
      exact .cons hv .toPacket hes
    · simp only [List.map_cons, hmap, hsh]
    · exact List.forall_mem_cons.2 ⟨hst, hstored⟩

end Written

/-- A built map has the entries of its payload. -/
theorem holds_map {t : Table Bytes Content} {payload : Bytes} (hs : SoundTable t)
    (hp : ∀ e ∈ t.toList, e.1.length < 256 ∧ Plain e.2) (h : (Content.map unparsed t).mkPayload = some payload)
    (hlen : payload.length < invalidSize) : ∃ es, readRawMap payload = (es, none) ∧ Holds es t := by
  have hle : payload.length ≤ ulongMax := Nat.le_of_lt hlen
  rw [mkPayload_map, if_neg (by decide)] at h
  have hkey : ∀ e ∈ t.toList, nameBytes e.1 = nameKey e.1 ∧ Plain e.2 := by
    rintro e he
    refine ⟨?_, (hp e he).2⟩
    rw [nameBytes, nameKey, toNat_nameLength (hp e he).1, List.take_length]
  rcases entries_of_writeAll hkey h with ⟨es, hes, hmap, hstored⟩
  have hshort : ShortNames es := by
    rintro e he
    have hfst := congrArg (List.map Prod.fst) hmap
    rw [List.map_map, List.map_map] at hfst
    have hk : e.1 ∈ t.toList.map Prod.fst := by
      rw [show t.toList.map Prod.fst = es.map Prod.fst from hfst]
      exact List.mem_map_of_mem he
    rcases List.mem_map.1 hk with ⟨e', he', hk⟩
    rw [← hk]
    exact (hp e' he').1
  exact ⟨es, readRawMapLoop_entries _ _ _ hes hle hshort (Nat.lt_succ_of_le (hes.length_le hle)),
    holds_built hs hmap hstored⟩

/-- The ids of a payload as the keys of an index. -/
def idsOf (es : List (Nat × EType × Bytes)) : List (UInt32 × EType × Bytes) := es.map fun e => (UInt32.ofNat e.1, e.2)

theorem holds_index {t : Table UInt32 Content} {payload : Bytes} (hs : SoundTable t)
    (hp : ∀ e ∈ t.toList, Plain e.2) (h : (Content.index unparsed t).mkPayload = some payload)
    (hlen : payload.length < invalidSize) : ∃ es, readRawIndex payload = (es, none) ∧ Holds (idsOf es) t := by
  have hle : payload.length ≤ ulongMax := Nat.le_of_lt hlen
  rw [mkPayload_index, if_neg (by decide)] at h
  have hkey : ∀ e ∈ t.toList, idKey e.1 = idKey e.1 ∧ Plain e.2 := fun e he => ⟨rfl, hp e he⟩
  rcases entries_of_writeAll hkey h with ⟨es, hes, hmap, hstored⟩
  have hids : idsOf (es.map fun e => (e.1.toNat, e.2)) = es := by
    rw [idsOf, List.map_map]
    simp [Function.comp_def]
  refine ⟨_, readRawIndexLoop_entries _ _ _ hes hle (Nat.lt_succ_of_le (hes.length_le hle)), ?_⟩
  rw [hids]
  exact holds_built hs hmap hstored

theorem holds_list {l : List Content} {payload : Bytes} (hp : ∀ v ∈ l, Plain v)
    (h : (Content.list unparsed l).mkPayload = some payload) (hlen : payload.length < invalidSize) :
    ∃ es, readRawList payload = (es, none) ∧ l.map shown = es.map fun x => some (stored x) := by
  have hle : payload.length ≤ ulongMax := Nat.le_of_lt hlen
  rw [mkPayload_list, if_neg (by decide)] at h
  have hkey : ∀ e ∈ l.map fun v => ((), v), noKey e.1 = noKey e.1 ∧ Plain e.2 := by
    rintro e he
    rcases List.mem_map.1 he with ⟨v, hv, rfl⟩
    exact ⟨rfl, hp v hv⟩
  have hw : writeAll ((l.map fun v => ((), v)).map fun e => e.2.toPacket.map (noKey e.1 ++ ·)) = some payload := by
    rw [List.map_map, ← h]
    simp [Function.comp_def, noKey]
  rcases entries_of_writeAll hkey hw with ⟨es, hes, hmap, hstored⟩
  refine ⟨_, readRawListLoop_entries _ _ _ hes hle (Nat.lt_succ_of_le (hes.length_le hle)), ?_⟩
  have hsnd := congrArg (List.map Prod.snd) hmap
  simp only [List.map_map, Function.comp_def] at hsnd
  rw [hsnd, List.map_map]
  exact List.map_congr_left fun e he => by rw [Function.comp_apply, hstored e he]

/-! ### What holds of every form -/

/-- The payload itself, or a container that holds what is read of it. -/
def Sides (type : EType) (payload : Bytes) : Content → Prop
  | .flat type' _ data => type' = type ∧ (type = varTypeEmpty ∨ data = payload)
  | .map _ t => type = varTypeMap ∧ ∃ es, readRawMap payload = (es, none) ∧ Holds es t
  | .list _ l => type = varTypeList ∧ ∃ es, readRawList payload = (es, none) ∧ l.map shown = es.map fun x => some (stored x)
  | .index _ t => type = varTypeIndex ∧ ∃ es, readRawIndex payload = (es, none) ∧ Holds (idsOf es) t
  | _ => False

section Forms
variable {type : EType} {payload : Bytes} {v : Content}

theorem Built.sides (hb : Built v) (hp : v.mkPayload = some payload) (hlen : payload.length < invalidSize) :
    Sides v.getType payload v := by
  cases hb with
  | map hs h => exact ⟨rfl, holds_map hs h hp hlen⟩
  | list h => exact ⟨rfl, holds_list h hp hlen⟩
  | index hs h => exact ⟨rfl, holds_index hs h hp hlen⟩

theorem Sides.parse (bCanInit : Bool) (h : Sides type payload v) : Sides type payload (v.parse bCanInit) := by
  cases v with
  | flat type' ro data =>
    rcases h with ⟨rfl, hd⟩
    have hself : Sides type' payload (.flat type' ro data) := ⟨rfl, hd⟩
    have hdata : type' ≠ varTypeEmpty → data = payload := hd.resolve_left
    simp only [Content.parse]
    split_ifs with hnil hm hl hi
    · exact hself
    · have hpay := hdata (by rw [hm]; decide)
      split
      · rename_i es hr
        exact ⟨hm, es, by rw [← hpay, hr], holds_parsed es⟩
      · exact hself
    · have hpay := hdata (by rw [hl]; decide)
      split
      · rename_i es hr
        refine ⟨hl, es, by rw [← hpay, hr], ?_⟩
        simp [shown_ofBytes]
      · exact hself
    · have hpay := hdata (by rw [hi]; decide)
      split
      · rename_i es hr
        refine ⟨hi, es, by rw [← hpay, hr], ?_⟩
        have hh := holds_parsed (idsOf es)
        rwa [idsOf, List.map_map] at hh
      · exact hself
    · exact hself
  | _ => exact h

theorem sides_ofBytes {ro : Bool} {data : Bytes} {type' : EType} (h : Sides type payload (.flat type' ro data)) :
    Sides type payload (ofBytes type' data) := by
  rcases h with ⟨rfl, hd⟩
  unfold ofBytes
  split
  · exact ⟨rfl, .inl ‹_›⟩
  · exact ⟨rfl, hd⟩

theorem Sides.shared (h : Sides type payload v) : Sides type payload v.shared := by
  cases v with
  | flat type' ro data => exact sides_ofBytes h
  | _ => exact h

theorem Sides.clone (h : Sides type payload v) : Sides type payload v.clone := by
  cases v with
  | flat type' ro data =>
    rw [Content.clone]
    exact sides_ofBytes h
  | map p t =>
    rcases h with ⟨ht, es, hr, hh⟩
    rw [clone_map]
    exact ⟨ht, es, hr, holds_cloned hh⟩
  | list p l =>
    rcases h with ⟨ht, es, hr, hh⟩
    rw [clone_list]
    exact ⟨ht, es, hr, map_shown_clone hh⟩
  | index p t =>
    rcases h with ⟨ht, es, hr, hh⟩
    rw [clone_index]
    exact ⟨ht, es, hr, holds_cloned hh⟩
  | _ => exact h.elim

theorem Sides.exclusive (h : Sides type payload v) : Sides type payload v.exclusive := by
  cases v with
  | map p t =>
    rcases h with ⟨ht, es, hr, hh⟩
    exact ⟨ht, es, hr, holds_cloned hh⟩
  | list p l =>
    rcases h with ⟨ht, es, hr, hh⟩
    exact ⟨ht, es, hr, map_shown_clone hh⟩
  | index p t =>
    rcases h with ⟨ht, es, hr, hh⟩
    exact ⟨ht, es, hr, holds_cloned hh⟩
  | _ => exact h

theorem Form.sides (h : Form type payload v) : Sides type payload v := by
  induction h with
  | packet => exact ⟨rfl, .inr rfl⟩
  | built hb ht hp hlen => exact ht ▸ hb.sides hp hlen
  | parse bCanInit _ ih => exact ih.parse bCanInit
  | copy _ ih => exact ih.shared
  | clone _ ih => exact ih.clone
  | exclusive _ ih => exact ih.exclusive

end Forms

/-! ### The answers -/

/-- The answer of a search that has come to its end. -/
def said (found : Option (EType × Bytes)) : Option (Except EResult (Option (EType × Option Bytes))) :=
  some (match found with
    | none => .error .eErrNotFound
    | some x => .ok (some (x.1, some x.2)))

theorem said_inj {a b : Option (EType × Bytes)} (h : said a = said b) : a = b := by
  rcases a with _ | ⟨t, d⟩ <;> rcases b with _ | ⟨t', d'⟩ <;> simp_all [said]

section Answers
variable {payload : Bytes} {ro : Bool} {p : Parsed}

theorem answer_found {v : Content} {x : EType × Bytes} (h : shown v = some x) :
    (some (Except.map (Option.map fun v : Content => (v.getType, v.mkPayload)) (.ok (some v) : Except EResult (Option Content)))) =
      said (some x) := by
  simp [Except.map, said_of_shown h, said]

theorem answer_packet_name {es : List (Bytes × EType × Bytes)} (h : readRawMap payload = (es, none)) (name : Bytes) :
    (flat varTypeMap ro payload).answer (.name name) = said (under es name).head? := by
  simp only [answer, find, findName, rawFindName]
  rw [if_neg (by decide), if_neg (by simp), findNameLoop_of_read name _ h, firstOf]
  rcases (under es name).head? with _ | ⟨t, d⟩
  · rfl
  · exact answer_found rfl

theorem answer_map {t : Table Bytes Content} {name : Bytes} {xs : List (EType × Bytes)}
    (hn : name.length ≤ mapFindLength)
    (h : (valuesOf t.buckets name).map shown = xs.map fun x => some (stored x)) :
    (map p t).answer (.name name) = said (xs.head?.map stored) := by
  simp only [answer, find, findName, mapFind, Table.findValue]
  rw [if_pos hn, findEntry_eq]
  cases hv : valuesOf t.buckets name with
  | nil =>
    rw [hv] at h
    cases xs with
    | nil => rfl
    | cons => cases h
  | cons v vs =>
    rw [hv] at h
    cases xs with
    | nil => cases h
    | cons x xs =>
      rw [List.map_cons, List.map_cons, List.cons.injEq] at h
      have hsh := shown_shared h.1
      rw [stored_stored] at hsh
      exact answer_found hsh

theorem answer_packet_id {es : List (Nat × EType × Bytes)} (h : readRawIndex payload = (es, none)) (id : UInt32) :
    (flat varTypeIndex ro payload).answer (.id id) = said (under es id.toNat).head? := by
  simp only [answer, find, findId, rawFindId]
  rw [if_neg (by decide), if_neg (by simp), findIdLoop_of_read id.toNat _ h, firstOf]
  rcases (under es id.toNat).head? with _ | ⟨t, d⟩
  · rfl
  · exact answer_found rfl

theorem answer_index {t : Table UInt32 Content} {id : UInt32} (h : valuesOf t.buckets id = []) :
    (index p t).answer (.id id) = said none := by
  simp only [answer, find, findId, Table.findValue]
  rw [findEntry_eq, h]
  rfl

/-- Nothing is found by id where no payload is left. -/
theorem answer_unparsed (t : Table UInt32 Content) (id : UInt32) : (index unparsed t).answer (.id id) = said none := by
  simp only [answer, find, findId]
  rcases t.findValue id with _ | value <;> rfl

theorem answer_packet_pos {es : List (EType × Bytes)} (h : readRawList payload = (es, none)) (pos : Nat) :
    (flat varTypeList ro payload).answer (.pos pos) = said es[pos]? := by
  simp only [answer, find, findPos, h]
  rw [if_neg (by decide), if_neg (by simp)]
  rcases es[pos]? with _ | ⟨t, d⟩
  · rfl
  · exact answer_found rfl

theorem answer_list {l : List Content} {xs : List (EType × Bytes)} (h : l.map shown = xs.map fun x => some (stored x))
    (pos : Nat) : (list p l).answer (.pos pos) = said (xs[pos]?.map stored) := by
  have hpos := congrArg (fun l => l[pos]?) h
  simp only [List.getElem?_map] at hpos
  simp only [answer, find, findPos]
  rcases hl : l[pos]? with _ | v
  · rw [hl] at hpos
    rcases hx : xs[pos]? with _ | x
    · simp [Except.map, said]
    · simp [hx] at hpos
  · rw [hl] at hpos
    rcases hx : xs[pos]? with _ | x
    · simp [hx] at hpos
    · rw [hx, Option.map_some, Option.map_some, Option.some.injEq] at hpos
      exact answer_found hpos

end Answers

/-! ## Agreement -/

section Agreement
variable {type : EType} {payload : Bytes}

/-- A payload answers the same however its object came by it. -/
theorem answer_flat {v : Content} {type' : EType} {ro : Bool} {data : Bytes} (hv : v = .flat type' ro data)
    (h : Sides type payload v) (key : Key) : v.answer key = (flat type true payload).answer key := by
  subst hv
  rcases h with ⟨rfl, rfl | rfl⟩
  · cases key <;> rfl
  · cases key <;> rfl

theorem stored_head {xs : List (EType × Bytes)}
    (h : ∀ first ∈ xs.head?, ∀ last ∈ xs.getLast?, stored first = first ∧ stored last = first) :
    xs.head?.map stored = xs.head? ∧ xs.reverse.head?.map stored = xs.head? := by
  rw [List.head?_reverse]
  cases xs with
  | nil => exact ⟨rfl, rfl⟩
  | cons x xs =>
    have hlast : (x :: xs).getLast? = some ((x :: xs).getLast (by simp)) := List.getLast?_eq_some_getLast _
    have hx := h x rfl _ hlast
    rw [hlast, List.head?_cons, Option.map_some, Option.map_some, hx.1, hx.2]
    exact ⟨rfl, rfl⟩

theorem agree_name {v : Content} {name : Bytes} (h : Sides type payload v) (ha : Alike type payload (.name name)) :
    v.answer (.name name) = (flat type true payload).answer (.name name) := by
  cases v with
  | flat type' ro data => exact answer_flat rfl h _
  | map p t =>
    rcases h with ⟨rfl, es, hr, -, hv⟩
    rw [answer_packet_name hr]
    rcases stored_head (ha rfl es hr) with ⟨hhead, hlast⟩
    rcases Nat.lt_or_ge mapFindLength name.length with hn | hn
    · -- a name too long for the pool is too long for a payload, too
      have hnil : under es name = [] := by
        rw [under, List.map_eq_nil_iff, List.filter_eq_nil_iff]
        rintro e he hk
        have hlen := shortNames_of_read _ hr e he
        rw [decide_eq_true_eq] at hk
        rw [hk] at hlen
        unfold mapFindLength at hn
        omega
      rw [hnil]
      simp only [answer, find, findName, mapFind]
      rw [if_neg (by omega)]
      rfl
    · rcases hv name with hv | hv
      · rw [answer_map hn hv, hhead]
      · rw [answer_map hn hv, hlast]
  | list p l =>
    rcases h with ⟨rfl, -⟩
    rfl
  | index p t =>
    rcases h with ⟨rfl, -⟩
    rfl
  | _ => exact h.elim

theorem agree_id {v : Content} {id : UInt32} (h : Sides type payload v) (ha : Alike type payload (.id id)) :
    v.answer (.id id) = (flat type true payload).answer (.id id) := by
  cases v with
  | flat type' ro data => exact answer_flat rfl h _
  | map p t =>
    rcases h with ⟨rfl, -⟩
    rfl
  | list p l =>
    rcases h with ⟨rfl, -⟩
    rfl
  | index p t =>
    rcases h with ⟨rfl, es, hr, -, hv⟩
    have hnil := ha rfl es hr
    have hids : under (idsOf es) id = [] := by
      rw [under, List.map_eq_nil_iff, List.filter_eq_nil_iff] at hnil ⊢
      rintro e he hk
      rcases List.mem_map.1 he with ⟨e', he', rfl⟩
      have hlt := ids_of_read _ hr e' he'
      rw [decide_eq_true_eq] at hk
      apply hnil e' he'
      rw [decide_eq_true_eq, ← hk, UInt32.toNat_ofNat', Nat.mod_eq_of_lt hlt]
    have hvals : valuesOf t.buckets id = [] := by
      have hv := hv id
      rw [hids] at hv
      simpa using hv
    rw [answer_packet_id hr, answer_index hvals, hnil]
    rfl
  | _ => exact h.elim

theorem agree_pos {v : Content} {pos : Nat} (h : Sides type payload v) (ha : Alike type payload (.pos pos)) :
    v.answer (.pos pos) = (flat type true payload).answer (.pos pos) := by
  cases v with
  | flat type' ro data => exact answer_flat rfl h _
  | map p t =>
    rcases h with ⟨rfl, -⟩
    rfl
  | list p l =>
    rcases h with ⟨rfl, es, hr, hv⟩
    have hst := ha rfl es hr
    rw [answer_packet_pos hr, answer_list hv]
    rcases hx : es[pos]? with _ | x
    · rfl
    · rw [Option.map_some, hst x hx]
  | index p t =>
    rcases h with ⟨rfl, -⟩
    rfl
  | _ => exact h.elim

theorem parse_map {es : List (Bytes × EType × Bytes)} (h : readRawMap payload = (es, none)) :
    (flat varTypeMap true payload).parse true = .map (parsedFrom true payload)
      (insertAll (es.map fun e => (e.1, ofBytes e.2.1 e.2.2)) (allocTable Bytes 4)) := by
  simp [Content.parse, h]

theorem parse_list {es : List (EType × Bytes)} (h : readRawList payload = (es, none)) :
    (flat varTypeList true payload).parse true =
      .list (parsedFrom true payload) (es.map fun e => ofBytes e.1 e.2) := by
  simp [Content.parse, h, varTypeList, varTypeMap]

theorem parse_index {es : List (Nat × EType × Bytes)} (h : readRawIndex payload = (es, none)) :
    (flat varTypeIndex true payload).parse true = .index (parsedFrom true payload)
      (insertAll (es.map fun e => (UInt32.ofNat e.1, ofBytes e.2.1 e.2.2)) (allocTable UInt32 4)) := by
  simp [Content.parse, h, varTypeIndex, varTypeList, varTypeMap]

/-- A parsed map answers with the last value of a name, its clone with the first. -/
theorem alike_name {name : Bytes}
    (h : ∀ v, Form type payload v → v.answer (.name name) = (flat type true payload).answer (.name name)) :
    Alike type payload (.name name) := by
  rintro rfl es hr first hf last hl
  have hn : name.length ≤ mapFindLength := by
    rcases List.mem_map.1 (List.mem_of_mem_head? hf) with ⟨e, he, -⟩
    have hlen := shortNames_of_read _ hr e (List.mem_of_mem_filter he)
    have hk : e.1 = name := by simpa using List.of_mem_filter he
    rw [hk] at hlen
    unfold mapFindLength
    omega
  have hv := valuesOf_parsed es name
  have hsound : SoundTable (insertAll (es.map fun e => (e.1, ofBytes e.2.1 e.2.2)) (allocTable Bytes 4)) :=
    (holds_parsed es).1
  have hvc := map_shown_clone hv
  rw [List.map_reverse, ← List.reverse_eq_iff, ← List.map_reverse, ← valuesOf_cloned hsound] at hvc
  have hparsed := h _ (.parse true .packet)
  have hcloned := h _ (.clone (.parse true .packet))
  rw [parse_map hr, answer_packet_name hr, answer_map hn hv, List.head?_reverse] at hparsed
  rw [parse_map hr, clone_map, answer_packet_name hr, answer_map hn hvc] at hcloned
  have hlast := said_inj hparsed
  have hfirst := said_inj hcloned
  rw [hf, hl] at hlast
  rw [hf] at hfirst
  exact ⟨Option.some.inj hfirst, Option.some.inj hlast⟩

/-- The clone of a parsed index answers with nothing. -/
theorem alike_id {id : UInt32}
    (h : ∀ v, Form type payload v → v.answer (.id id) = (flat type true payload).answer (.id id)) :
    Alike type payload (.id id) := by
  rintro rfl es hr
  have hcloned := h _ (.clone (.parse true .packet))
  rw [parse_index hr, clone_index, answer_packet_id hr, answer_unparsed] at hcloned
  rw [← List.head?_eq_none_iff, ← said_inj hcloned]

theorem alike_pos {pos : Nat}
    (h : ∀ v, Form type payload v → v.answer (.pos pos) = (flat type true payload).answer (.pos pos)) :
    Alike type payload (.pos pos) := by
  rintro rfl es hr value hx
  have hparsed := h _ (.parse true .packet)
  have hv : (es.map fun e => ofBytes e.1 e.2).map shown = es.map fun x => some (stored x) := by
    simp [shown_ofBytes]
  rw [parse_list hr, answer_packet_pos hr, answer_list hv, hx] at hparsed
  exact Option.some.inj (said_inj hparsed)

/-- Look-ups in all forms of a container agree where the first and the last value of a name are the
same, where an id is not there, and at every position. -/
theorem lookups_agree_iff (type : EType) (payload : Bytes) (key : Key) :
    (∀ v, Form type payload v → v.answer key = (flat type true payload).answer key) ↔ Alike type payload key := by
  constructor
  · rintro h
    cases key with
    | name name => exact alike_name h
    | id id => exact alike_id h
    | pos pos => exact alike_pos h
  · rintro ha v hv
    cases key with
    | name name => exact agree_name hv.sides ha
    | id id => exact agree_id hv.sides ha
    | pos pos => exact agree_pos hv.sides ha

/-- An index with a number under the id 5: the search in its clone does not find it. -/
theorem not_lookups_agree_id : ¬ ∀ v, Form varTypeIndex [5, 0, 0, 0, 0x0C, 7] v →
    v.answer (.id 5) = (flat varTypeIndex true [5, 0, 0, 0, 0x0C, 7]).answer (.id 5) := by
  rintro h
  have hread : readRawIndex [5, 0, 0, 0, 0x0C, 7] = ([(5, varTypeUInt, [7])], none) := by decide
  have hnil := alike_id h rfl _ hread
  exact absurd hnil (by decide)

end Agreement

end Content

end MajorPrivacy.Variant

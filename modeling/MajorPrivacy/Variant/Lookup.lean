/-
Look-ups in the containers of the three implementations side by side. A container holds one entry
after the other, each a key and a variant some encoder wrote; every look-up, in C++ both in the
payload and in the table or list it is parsed into, finds the variant of the entry asked for.
-/
import MajorPrivacy.Variant.Encode
import MajorPrivacy.Variant.Object

namespace MajorPrivacy.Variant

open LittleEndian MajorPrivacy.Core

/-! ## Containers -/

/-- The variants the format has: a type of five bits, and no payload for the empty type. -/
structure Valid (type : EType) (payload : Bytes) : Prop where
  type_eq : type &&& varTypeMask = type
  empty : type = varTypeEmpty → payload = []

/-- The payload of a container: the entries one after the other, each with its key in front. -/
inductive Entries {K : Type} (key : K → Bytes) : List (K × EType × Bytes) → Bytes → Prop
  | nil : Entries key [] []
  | cons {k : K} {type : EType} {data packet : Bytes} {es : List (K × EType × Bytes)} {rest : Bytes}
      (hv : Valid type data) (hw : Written type data packet) (he : Entries key es rest) :
      Entries key ((k, type, data) :: es) (key k ++ packet ++ rest)

/-- A name as a map stores it: its length in one byte, and the name. -/
def nameKey (name : Bytes) : Bytes := UInt8.ofNat name.length :: name

/-- An id as an index stores it. -/
def idKey (id : UInt32) : Bytes := toLE 4 id.toNat

/-- The elements of a list have no key. -/
def noKey (_ : Unit) : Bytes := []

/-- The first entry with a key. -/
def entryOf {K : Type} [DecidableEq K] (es : List (K × EType × Bytes)) (k : K) : Option (EType × Bytes) :=
  (es.find? (·.1 = k)).map (·.2)

section Entries

variable {K : Type} {key : K → Bytes}

/-- An entry in front of others: its key, a header, its payload, and the others. -/
theorem Entries.split {k : K} {type : EType} {data payload : Bytes} {es : List (K × EType × Bytes)}
    (h : Entries key ((k, type, data) :: es) payload) (hs : payload.length ≤ ulongMax) :
    ∃ header rest, payload = key k ++ (header ++ data ++ rest) ∧ Header type data.length header ∧
      data.length < invalidSize ∧ Entries key es rest ∧ Valid type data := by
  cases h with
  | @cons _ _ _ packet _ rest hv hw he =>
    have hlen : data.length < 2 ^ 32 := by
      by_contra hbig
      cases hw with
      | toPacket => simp [toPacket] at hs; unfold ulongMax at hs; omega
      | variantToBuffer h =>
        unfold variantToBuffer at h
        split at h
        · cases h
        · cases h
          simp [variantWriteRaw] at hs
          unfold ulongMax at hs
          omega
      | variantFinish _ _ => simp at hs; unfold ulongMax at hs; omega
      | variantFinishStatic _ hm => omega
      | goToBuffer => simp [goToBuffer] at hs; unfold ulongMax at hs; omega
    obtain ⟨header, hh, rfl⟩ := hw.header hv.type_eq hv.empty hlen
    have hpos := List.length_pos_iff.2 hh.ne_nil
    refine ⟨header, rest, by simp, hh, ?_, he, hv⟩
    simp only [List.length_append] at hs
    unfold invalidSize
    unfold ulongMax at hs
    omega

/-- No payload, no entries: every entry takes at least the byte of its type. -/
theorem Entries.length_le {es : List (K × EType × Bytes)} : ∀ {payload : Bytes}, Entries key es payload →
    payload.length ≤ ulongMax → es.length ≤ payload.length := by
  induction es with
  | nil => exact fun _ _ => Nat.zero_le _
  | cons e es ih =>
    intro payload h hs
    obtain ⟨header, rest, rfl, hh, -, he, -⟩ := h.split hs
    have hpos := List.length_pos_iff.2 hh.ne_nil
    simp only [List.length_append, List.length_cons] at hs ⊢
    have := ih he (by omega)
    omega

end Entries

theorem entryOf_cons {K : Type} [DecidableEq K] (k k' : K) (v : EType × Bytes) (es : List (K × EType × Bytes)) :
    entryOf ((k, v) :: es) k' = if k = k' then some v else entryOf es k' := by
  unfold entryOf
  rw [List.find?_cons]
  by_cases h : k = k' <;> simp [h]

/-! ## Maps -/

section Maps

/-- Every name has its length in one byte. -/
def ShortNames (es : List (Bytes × EType × Bytes)) : Prop := ∀ e ∈ es, e.1.length < 256

theorem ShortNames.cons {e : Bytes × EType × Bytes} {es : List (Bytes × EType × Bytes)} (h : ShortNames (e :: es)) :
    e.1.length < 256 ∧ ShortNames es :=
  ⟨h e List.mem_cons_self, fun e' he => h e' (List.mem_cons_of_mem _ he)⟩

theorem toNat_nameLength {name : Bytes} (h : name.length < 256) : (UInt8.ofNat name.length).toNat = name.length := by
  rw [UInt8.toNat_ofNat']
  omega

theorem readData_append (data rest : Bytes) : readData (data ++ rest) data.length = some (data, rest) := by
  simp [readData]

theorem findNameLoop_entries (name : Bytes) : ∀ (fuel : Nat) (es : List (Bytes × EType × Bytes)) (payload : Bytes),
    Entries nameKey es payload → payload.length ≤ ulongMax → ShortNames es → es.length < fuel →
    (findNameLoop name fuel payload).toOption = entryOf es name
  | 0, _, _, _, _, _, hf => absurd hf (Nat.not_lt_zero _)
  | fuel + 1, [], _, .nil, _, _, _ => rfl
  | fuel + 1, (k, type, data) :: es, payload, h, hs, hn, hf => by
    obtain ⟨header, rest, rfl, hh, hd, he, -⟩ := h.split hs
    obtain ⟨hk, hn⟩ := hn.cons
    simp only [List.length_append, List.length_cons] at hs hf
    have ih := findNameLoop_entries name fuel es rest he (by omega) hn (by omega)
    rw [entryOf_cons, nameKey, List.cons_append, findNameLoop, toNat_nameLength hk, readData_append]
    by_cases hkn : k = name
    · subst hkn
      simp only [and_self, if_true, hh.readPacket hd]
      rfl
    · have hkn' : ¬ (k.length = name.length ∧ name = k) := fun h => hkn h.2.symm
      simp only [if_neg hkn', if_neg hkn]
      rw [List.append_assoc, hh.readHeader, if_neg (by simp)]
      simp only [if_neg (show ¬ data.length = invalidSize by omega), readData_append]
      exact ih

theorem variantFindLoop_entries (name : Bytes) : ∀ (fuel : Nat) (es : List (Bytes × EType × Bytes)) (payload : Bytes),
    Entries nameKey es payload → payload.length ≤ ulongMax → ShortNames es → es.length < fuel →
    (variantFindLoop name fuel payload).map (fun d => (d.type, d.payload)) = entryOf es name
  | 0, _, _, _, _, _, hf => absurd hf (Nat.not_lt_zero _)
  | fuel + 1, [], _, .nil, _, _, _ => rfl
  | fuel + 1, (k, type, data) :: es, payload, h, hs, hn, hf => by
    obtain ⟨header, rest, rfl, hh, hd, he, -⟩ := h.split hs
    obtain ⟨hk, hn⟩ := hn.cons
    have hpos := List.length_pos_iff.2 hh.ne_nil
    simp only [List.length_append, List.length_cons] at hs hf
    have ih := variantFindLoop_entries name fuel es rest he (by omega) hn (by omega)
    rw [entryOf_cons, nameKey, List.cons_append, variantFindLoop, toNat_nameLength hk,
      if_neg (by simp only [List.length_append]; omega)]
    simp only [List.take_left, List.drop_left]
    by_cases hkn : k = name
    · subst hkn
      simp only [and_self, if_true]
      rw [hh.variantFromBuffer rest (by simp only [List.length_append]; omega)]
      rfl
    · have hkn' : ¬ (name.length = k.length ∧ k = name) := fun h => hkn h.2
      simp only [if_neg hkn', if_neg hkn]
      rw [List.append_assoc, hh.variantReadSize _ (by simp only [List.length_append]; omega)]
      simp only [List.drop_left]
      exact ih

theorem goFindLoop_entries (name : Bytes) : ∀ (fuel : Nat) (es : List (Bytes × EType × Bytes)) (payload : Bytes),
    Entries nameKey es payload → payload.length ≤ ulongMax → ShortNames es → es.length < fuel →
    (goFindLoop name fuel payload).toOption.map (fun d => (d.type, d.payload)) = entryOf es name
  | 0, _, _, _, _, _, hf => absurd hf (Nat.not_lt_zero _)
  | fuel + 1, [], _, .nil, _, _, _ => rfl
  | fuel + 1, (k, type, data) :: es, payload, h, hs, hn, hf => by
    obtain ⟨header, rest, rfl, hh, hd, he, -⟩ := h.split hs
    obtain ⟨hk, hn⟩ := hn.cons
    simp only [List.length_append, List.length_cons] at hs hf
    have ih := goFindLoop_entries name fuel es rest he (by omega) hn (by omega)
    rw [entryOf_cons, nameKey, List.cons_append, goFindLoop, toNat_nameLength hk,
      if_neg (by simp only [List.length_append]; omega)]
    simp only [List.take_left, List.drop_left]
    by_cases hkn : k = name
    · subst hkn
      simp only [if_true, hh.goFromBuffer]
      rfl
    · simp only [if_neg hkn, hh.goFromBuffer]
      rw [← List.length_append, List.drop_left]
      exact ih

/-- The objects a map is parsed into, inserted one after the other. -/
def insertObjects {K : Type} [Hasher K] (es : List (K × EType × Bytes)) (t : Table K CVariant) : Table K CVariant :=
  es.foldl (fun t e => t.insertValue e.1 (initValue e.2.1 e.2.2)) t

theorem parseMapLoop_entries : ∀ (fuel : Nat) (es : List (Bytes × EType × Bytes)) (payload : Bytes)
    (map : Table Bytes CVariant), Entries nameKey es payload → payload.length ≤ ulongMax → ShortNames es →
    es.length < fuel → parseMapLoop fuel payload map = .ok (insertObjects es map)
  | 0, _, _, _, _, _, _, hf => absurd hf (Nat.not_lt_zero _)
  | fuel + 1, [], _, _, .nil, _, _, _ => rfl
  | fuel + 1, (k, type, data) :: es, payload, map, h, hs, hn, hf => by
    obtain ⟨header, rest, rfl, hh, hd, he, -⟩ := h.split hs
    obtain ⟨hk, hn⟩ := hn.cons
    simp only [List.length_append, List.length_cons] at hs hf
    rw [nameKey, List.cons_append, parseMapLoop, toNat_nameLength hk, readData_append]
    simp only [hh.readPacket hd]
    exact parseMapLoop_entries fuel es rest _ he (by omega) hn (by omega)

end Maps

/-- A table of objects has each under its key. -/
theorem findValue_insertObjects {K : Type} [Hasher K] [DecidableEq K] : ∀ (es : List (K × EType × Bytes))
    {t : Table K CVariant}, t.buckets ≠ [] → Placed t.buckets → (es.map (·.1)).Nodup → ∀ k,
    (insertObjects es t).findValue k =
      ((entryOf es k).map fun v => initValue v.1 v.2).or (t.findValue k)
  | [], t, _, _, _, k => by simp [insertObjects, entryOf]
  | (k', v) :: es, t, hne, hp, hnd, k => by
    rw [List.map_cons, List.nodup_cons] at hnd
    have ih := findValue_insertObjects es (Table.insertValue_ne_nil hne k' (initValue v.1 v.2))
      (Table.placed_insertValue hp k' (initValue v.1 v.2)) hnd.2 k
    have hfold : insertObjects ((k', v) :: es) t = insertObjects es (t.insertValue k' (initValue v.1 v.2)) := rfl
    rw [hfold, ih, Table.findValue_insertValue hne hp, entryOf_cons]
    by_cases hk : k' = k
    · subst hk
      have hnone : entryOf es k' = none := by
        unfold entryOf
        rw [Option.map_eq_none_iff, List.find?_eq_none]
        intro e he hk
        rw [decide_eq_true_eq] at hk
        exact hnd.1 (List.mem_map.2 ⟨e, he, hk⟩)
      simp [hnone]
    · simp [hk]

theorem allocTable_ne_nil (K : Type) : (allocTable K 4).buckets ≠ [] := by
  simp [allocTable]

theorem placed_allocTable (K : Type) [Hasher K] (n : Nat) : Placed (allocTable K n).buckets :=
  placed_replicate n

theorem findValue_allocTable {K : Type} [Hasher K] [DecidableEq K] (n : Nat) (k : K) :
    (allocTable K n).findValue k = none := by
  simp [allocTable, Table.findValue, findEntry_eq]

/-! ## Indexes -/

section Indexes

theorem readValue_idKey (id : UInt32) (rest : Bytes) : readValue 4 (idKey id ++ rest) = some (id.toNat, rest) :=
  readValue_toLE (by have := id.toNat_lt; omega) rest

theorem take_idKey (id : UInt32) (rest : Bytes) :
    ofLE ((idKey id ++ rest).take 4) = id.toNat ∧ (idKey id ++ rest).drop 4 = rest :=
  ⟨take_toLE (by have := id.toNat_lt; omega) rest, List.drop_left' (length_toLE 4 id.toNat)⟩

theorem idKey_append_ne_nil (id : UInt32) (rest : Bytes) : idKey id ++ rest ≠ [] := by
  rw [← List.length_pos_iff, List.length_append, idKey, length_toLE]
  omega

theorem findIdLoop_entries (id : UInt32) : ∀ (fuel : Nat) (es : List (UInt32 × EType × Bytes)) (payload : Bytes),
    Entries idKey es payload → payload.length ≤ ulongMax → es.length < fuel →
    (findIdLoop id.toNat fuel payload).toOption = entryOf es id
  | 0, _, _, _, _, hf => absurd hf (Nat.not_lt_zero _)
  | fuel + 1, [], _, .nil, _, _ => rfl
  | fuel + 1, (k, type, data) :: es, payload, h, hs, hf => by
    obtain ⟨header, rest, rfl, hh, hd, he, -⟩ := h.split hs
    simp only [List.length_append, List.length_cons] at hs hf
    have ih := findIdLoop_entries id fuel es rest he (by omega) (by omega)
    rw [entryOf_cons, findIdLoop, if_neg (idKey_append_ne_nil _ _), readValue_idKey]
    by_cases hk : k = id
    · subst hk
      simp only [if_true, hh.readPacket hd]
      rfl
    · have hk' : ¬ k.toNat = id.toNat := fun h => hk (UInt32.toNat_inj.1 h)
      simp only [if_neg hk', if_neg hk]
      rw [List.append_assoc, hh.readHeader, if_neg (by simp)]
      simp only [if_neg (show ¬ data.length = invalidSize by omega), readData_append]
      exact ih

theorem variantGetLoop_entries (id : UInt32) : ∀ (fuel : Nat) (es : List (UInt32 × EType × Bytes)) (payload : Bytes),
    Entries idKey es payload → payload.length ≤ ulongMax → es.length < fuel →
    (variantGetLoop id.toNat fuel payload).map (fun d => (d.type, d.payload)) = entryOf es id
  | 0, _, _, _, _, hf => absurd hf (Nat.not_lt_zero _)
  | fuel + 1, [], _, .nil, _, _ => rfl
  | fuel + 1, (k, type, data) :: es, payload, h, hs, hf => by
    obtain ⟨header, rest, rfl, hh, hd, he, -⟩ := h.split hs
    have hpos := List.length_pos_iff.2 hh.ne_nil
    have hkey : (idKey k).length = 4 := length_toLE 4 k.toNat
    simp only [List.length_append, List.length_cons] at hs hf
    have ih := variantGetLoop_entries id fuel es rest he (by omega) (by omega)
    obtain ⟨hid, hdrop⟩ := take_idKey k (header ++ data ++ rest)
    rw [entryOf_cons, variantGetLoop, if_neg (by simp only [List.length_append]; omega)]
    simp only [hid, hdrop]
    by_cases hk : k = id
    · subst hk
      simp only [if_true]
      rw [hh.variantFromBuffer rest (by simp only [List.length_append]; omega)]
      rfl
    · have hk' : ¬ k.toNat = id.toNat := fun h => hk (UInt32.toNat_inj.1 h)
      simp only [if_neg hk', if_neg hk]
      rw [List.append_assoc, hh.variantReadSize _ (by simp only [List.length_append]; omega)]
      simp only [List.drop_left]
      exact ih

theorem goGetLoop_entries (id : UInt32) : ∀ (fuel : Nat) (es : List (UInt32 × EType × Bytes)) (payload : Bytes),
    Entries idKey es payload → payload.length ≤ ulongMax → es.length < fuel →
    (goGetLoop id.toNat fuel payload).toOption.map (fun d => (d.type, d.payload)) = entryOf es id
  | 0, _, _, _, _, hf => absurd hf (Nat.not_lt_zero _)
  | fuel + 1, [], _, .nil, _, _ => rfl
  | fuel + 1, (k, type, data) :: es, payload, h, hs, hf => by
    obtain ⟨header, rest, rfl, hh, hd, he, -⟩ := h.split hs
    have hkey : (idKey k).length = 4 := length_toLE 4 k.toNat
    simp only [List.length_append, List.length_cons] at hs hf
    have ih := goGetLoop_entries id fuel es rest he (by omega) (by omega)
    obtain ⟨hid, hdrop⟩ := take_idKey k (header ++ data ++ rest)
    rw [entryOf_cons, goGetLoop, if_neg (by simp only [List.length_append]; omega)]
    simp only [hid, hdrop]
    by_cases hk : k = id
    · subst hk
      simp only [if_true, hh.goFromBuffer]
      rfl
    · have hk' : ¬ k.toNat = id.toNat := fun h => hk (UInt32.toNat_inj.1 h)
      simp only [if_neg hk', if_neg hk, hh.goFromBuffer]
      rw [← List.length_append, List.drop_left]
      exact ih

theorem parseIndexLoop_entries : ∀ (fuel : Nat) (es : List (UInt32 × EType × Bytes)) (payload : Bytes)
    (index : Table UInt32 CVariant), Entries idKey es payload → payload.length ≤ ulongMax →
    es.length < fuel → parseIndexLoop fuel payload index = .ok (insertObjects es index)
  | 0, _, _, _, _, _, hf => absurd hf (Nat.not_lt_zero _)
  | fuel + 1, [], _, _, .nil, _, _ => rfl
  | fuel + 1, (k, type, data) :: es, payload, index, h, hs, hf => by
    obtain ⟨header, rest, rfl, hh, hd, he, -⟩ := h.split hs
    simp only [List.length_append, List.length_cons] at hs hf
    rw [parseIndexLoop, if_neg (idKey_append_ne_nil _ _), readValue_idKey]
    simp only [hh.readPacket hd, UInt32.ofNat_toNat]
    exact parseIndexLoop_entries fuel es rest _ he (by omega) (by omega)

end Indexes

/-! ## Lists -/

section Lists

/-- The element at a position. -/
def elementAt (es : List (Unit × EType × Bytes)) (pos : Nat) : Option (EType × Bytes) := es[pos]?.map (·.2)

theorem noKey_append_ne_nil {header : Bytes} (h : header ≠ []) (data rest : Bytes) :
    noKey () ++ (header ++ data ++ rest) ≠ [] := by
  simp [noKey, h]

theorem readRawListLoop_entries : ∀ (fuel : Nat) (es : List (Unit × EType × Bytes)) (payload : Bytes),
    Entries noKey es payload → payload.length ≤ ulongMax → es.length < fuel →
    readRawListLoop fuel payload = (es.map (·.2), none)
  | 0, _, _, _, _, hf => absurd hf (Nat.not_lt_zero _)
  | fuel + 1, [], _, .nil, _, _ => rfl
  | fuel + 1, ((), type, data) :: es, payload, h, hs, hf => by
    obtain ⟨header, rest, rfl, hh, hd, he, -⟩ := h.split hs
    simp only [List.length_append, List.length_cons] at hs hf
    rw [readRawListLoop, if_neg (noKey_append_ne_nil hh.ne_nil _ _)]
    rw [noKey, List.nil_append, hh.readPacket hd]
    simp only [readRawListLoop_entries fuel es rest he (by omega) (by omega), List.map_cons]

theorem variantAtLoop_entries : ∀ (fuel : Nat) (es : List (Unit × EType × Bytes)) (payload : Bytes) (pos : Nat),
    Entries noKey es payload → payload.length ≤ ulongMax → es.length < fuel →
    (variantAtLoop fuel pos payload).map (fun d => (d.type, d.payload)) = elementAt es pos
  | 0, _, _, _, _, _, hf => absurd hf (Nat.not_lt_zero _)
  | fuel + 1, [], _, _, .nil, _, _ => rfl
  | fuel + 1, ((), type, data) :: es, payload, pos, h, hs, hf => by
    obtain ⟨header, rest, rfl, hh, hd, he, -⟩ := h.split hs
    simp only [List.length_append, List.length_cons] at hs hf
    rw [variantAtLoop, if_neg (noKey_append_ne_nil hh.ne_nil _ _)]
    rw [noKey, List.nil_append]
    cases pos with
    | zero =>
      simp only [Nat.cast_zero, if_true]
      rw [hh.variantFromBuffer rest (by simp only [List.length_append]; omega)]
      rfl
    | succ pos =>
      have ih := variantAtLoop_entries fuel es rest pos he (by omega) (by omega)
      rw [if_neg (by omega), List.append_assoc, hh.variantReadSize _ (by simp only [List.length_append]; omega)]
      simp only [List.drop_left]
      rw [show ((pos + 1 : Nat) : Int) - 1 = (pos : Int) by omega]
      exact ih

theorem goAtLoop_entries : ∀ (fuel : Nat) (es : List (Unit × EType × Bytes)) (payload : Bytes) (pos : Nat),
    Entries noKey es payload → payload.length ≤ ulongMax → es.length < fuel →
    (goAtLoop fuel pos payload).toOption.map (fun d => (d.type, d.payload)) = elementAt es pos
  | 0, _, _, _, _, _, hf => absurd hf (Nat.not_lt_zero _)
  | fuel + 1, [], _, _, .nil, _, _ => rfl
  | fuel + 1, ((), type, data) :: es, payload, pos, h, hs, hf => by
    obtain ⟨header, rest, rfl, hh, hd, he, -⟩ := h.split hs
    simp only [List.length_append, List.length_cons] at hs hf
    rw [goAtLoop, if_neg (noKey_append_ne_nil hh.ne_nil _ _)]
    rw [noKey, List.nil_append]
    cases pos with
    | zero =>
      simp only [Nat.cast_zero, if_true, hh.goFromBuffer]
      rfl
    | succ pos =>
      have ih := goAtLoop_entries fuel es rest pos he (by omega) (by omega)
      rw [if_neg (by omega), hh.goFromBuffer]
      simp only
      rw [← List.length_append, List.drop_left, show ((pos + 1 : Nat) : Int) - 1 = (pos : Int) by omega]
      exact ih

theorem parseListLoop_entries : ∀ (fuel : Nat) (es : List (Unit × EType × Bytes)) (payload : Bytes) (list : SList),
    Entries noKey es payload → payload.length ≤ ulongMax → es.length < fuel → (∀ v ∈ list.data, v.copied = v) →
    ∃ list', parseListLoop fuel payload list = .ok list' ∧
      list'.data = list.data ++ es.map fun e => initValue e.2.1 e.2.2
  | 0, _, _, _, _, _, hf, _ => absurd hf (Nat.not_lt_zero _)
  | fuel + 1, [], _, list, .nil, _, _, _ => ⟨list, rfl, by simp⟩
  | fuel + 1, ((), type, data) :: es, payload, list, h, hs, hf, hc => by
    obtain ⟨header, rest, rfl, hh, hd, he, -⟩ := h.split hs
    simp only [List.length_append, List.length_cons] at hs hf
    rw [parseListLoop, if_neg (noKey_append_ne_nil hh.ne_nil _ _)]
    rw [noKey, List.nil_append, hh.readPacket hd]
    have hdata := data_append hc (initValue type data)
    have hc' : ∀ v ∈ (list.append (initValue type data)).data, v.copied = v := by
      intro v hv
      rw [hdata, List.mem_append, List.mem_singleton] at hv
      rcases hv with hv | rfl
      · exact hc v hv
      · exact copied_initValue type data
    obtain ⟨list', h₁, h₂⟩ := parseListLoop_entries fuel es rest _ he (by omega) (by omega) hc'
    refine ⟨list', h₁, ?_⟩
    rw [h₂, hdata]
    simp

end Lists

end MajorPrivacy.Variant

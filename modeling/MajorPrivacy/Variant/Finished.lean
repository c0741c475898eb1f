/-
The end of a run of the in-place builder. What `Variant_Finish` reports lies inside the buffer and is
a packet of the value on record, in which the look-ups in C find the recorded entries and no others.
-/
import MajorPrivacy.Variant.BuilderSound

namespace MajorPrivacy.Variant

open LittleEndian Memory

/-! ## What is encoded is found -/

mutual

theorem found_of_encodes : ∀ (v : Value) {type : EType} {payload : Bytes}, Encodes v type payload →
    payload.length ≤ ulongMax → Found v type payload
  | .scalar t p, type, payload, h, _ => by
    rw [Encodes] at h
    rw [Found]
    exact ⟨h.1, h.2.1⟩
  | .map entries, type, payload, h, hs => by
    rw [Encodes] at h
    obtain ⟨rfl, es, hes, hn, he⟩ := h
    rw [Found]
    refine ⟨rfl, foundMap_of_encodes entries es [] hes (fun name _ => ?_) (he.length_data_le hs), fun name _ hname => ?_⟩
    · exact variantFind_entries hs he hn name
    · have hfind := variantFind_entries hs he hn name
      rw [entryOf_eq_none (by rw [map_fst_encodesMap hes]; exact hname)] at hfind
      exact Option.map_eq_none_iff.1 hfind
  | .list items, type, payload, h, hs => by
    rw [Encodes] at h
    obtain ⟨rfl, es, hes, he⟩ := h
    rw [Found]
    refine ⟨rfl, foundList_of_encodes items es 0 hes (fun i e hi => ?_) (he.length_data_le hs), fun pos hpos => ?_⟩
    · rw [variantAt_entries hs he, elementAt, Nat.zero_add, hi]
      rfl
    · have hat := variantAt_entries hs he pos
      rw [elementAt, List.getElem?_eq_none (by rw [length_encodesList hes]; exact hpos)] at hat
      exact Option.map_eq_none_iff.1 hat
  | .index entries, type, payload, h, hs => by
    rw [Encodes] at h
    obtain ⟨rfl, es, hes, he⟩ := h
    rw [Found]
    refine ⟨rfl, foundIndex_of_encodes entries es [] hes (fun id _ => ?_) (he.length_data_le hs), fun id hid => ?_⟩
    · exact variantGet_entries hs he id
    · have hget := variantGet_entries hs he id
      rw [entryOf_eq_none (by rw [map_fst_encodesIndex hes]; exact hid)] at hget
      exact Option.map_eq_none_iff.1 hget

theorem foundMap_of_encodes : ∀ (entries : List (Bytes × Value)) (es : List (Bytes × EType × Bytes)) (seen : List Bytes)
    {payload : Bytes}, EncodesMap entries es →
    (∀ name, name ∉ seen → (variantFind varTypeMap payload name).map Decoded.element = entryOf es name) →
    (∀ e ∈ es, e.2.2.length ≤ ulongMax) → FoundMap seen entries payload
  | [], _, _, _, _, _, _ => by rw [FoundMap]; trivial
  | (name, v) :: entries, _, seen, payload, h, hfind, hlen => by
    rw [EncodesMap] at h
    obtain ⟨t, p, es', rfl, hv, h⟩ := h
    rw [FoundMap]
    refine ⟨fun hseen => ⟨t, p, ?_, found_of_encodes v hv (hlen _ List.mem_cons_self)⟩, ?_⟩
    · rw [hfind name hseen, entryOf_cons, if_pos rfl]
    · refine foundMap_of_encodes entries es' (name :: seen) h (fun n hn => ?_)
        fun e he => hlen e (List.mem_cons_of_mem _ he)
      rw [List.mem_cons, not_or] at hn
      rw [hfind n hn.2, entryOf_cons, if_neg fun hk => hn.1 hk.symm]

theorem foundList_of_encodes : ∀ (items : List Value) (es : List (Unit × EType × Bytes)) (pos : Nat) {payload : Bytes},
    EncodesList items es →
    (∀ (i : Nat) e, es[i]? = some e →
      (variantAt varTypeList payload (pos + i : Nat)).map Decoded.element = some e.2) →
    (∀ e ∈ es, e.2.2.length ≤ ulongMax) → FoundList items pos payload
  | [], _, _, _, _, _, _ => by rw [FoundList]; trivial
  | v :: items, _, pos, payload, h, hat, hlen => by
    rw [EncodesList] at h
    obtain ⟨t, p, es', rfl, hv, h⟩ := h
    rw [FoundList]
    refine ⟨⟨t, p, hat 0 _ rfl, found_of_encodes v hv (hlen _ List.mem_cons_self)⟩, ?_⟩
    refine foundList_of_encodes items es' (pos + 1) h (fun i e hi => ?_) fun e he => hlen e (List.mem_cons_of_mem _ he)
    rw [Nat.add_assoc, Nat.add_comm 1 i]
    exact hat (i + 1) e hi

theorem foundIndex_of_encodes : ∀ (entries : List (UInt32 × Value)) (es : List (UInt32 × EType × Bytes))
    (seen : List UInt32) {payload : Bytes}, EncodesIndex entries es →
    (∀ id : UInt32, id ∉ seen → (variantGet varTypeIndex payload id.toNat).map Decoded.element = entryOf es id) →
    (∀ e ∈ es, e.2.2.length ≤ ulongMax) → FoundIndex seen entries payload
  | [], _, _, _, _, _, _ => by rw [FoundIndex]; trivial
  | (id, v) :: entries, _, seen, payload, h, hget, hlen => by
    rw [EncodesIndex] at h
    obtain ⟨t, p, es', rfl, hv, h⟩ := h
    rw [FoundIndex]
    refine ⟨fun hseen => ⟨t, p, ?_, found_of_encodes v hv (hlen _ List.mem_cons_self)⟩, ?_⟩
    · rw [hget id hseen, entryOf_cons, if_pos rfl]
    · refine foundIndex_of_encodes entries es' (id :: seen) h (fun i hi => ?_)
        fun e he => hlen e (List.mem_cons_of_mem _ he)
      rw [List.mem_cons, not_or] at hi
      rw [hget i hi.2, entryOf_cons, if_neg fun hk => hi.1 hk.symm]

end

/-! ## The finished packet -/

/-- The room of a buffer is known: it has five bytes for the longest header, and the header left room
for at the beginning is the one that fits the room after it became a 32-bit number. -/
def HeaderFits (size : Nat) : Prop :=
  5 ≤ size ∧ prepareHeaderSize (size - 5) = prepareHeaderSize ((size - 5) % 2 ^ 32)

/-- What `Variant_Finish` leaves at the beginning of the buffer, when it reports bytes, is a packet of
the value. -/
def FinishedAs (mem : Bytes) (var : SVariant) (v : Value) : Prop :=
  ∃ mem' len, variantFinish mem 0 var = some (mem', len) ∧
    (len ≠ 0 → len ≤ mem.length ∧ ∃ type payload, variantFromBuffer (mem'.take len) = some ⟨type, payload, len⟩ ∧
      Encodes v type payload ∧ Found v type payload)

/-- A run writes nothing outside its buffer, and what is finished in the end holds exactly the
entries whose insertion succeeded. -/
def Builds (mem : Bytes) (type : EType) (calls : List Call) : Prop :=
  buildRun mem type calls ≠ .error .outside ∧
    ∀ mem' var f, buildRun mem type calls = .ok (⟨mem', [var]⟩, [f]) → FinishedAs mem' var f.value

/-- The packet that is finished in the end has less than 4 GB. -/
def ResultFits (mem : Bytes) (type : EType) (calls : List Call) : Prop :=
  match buildRun mem type calls with
  | .ok (⟨_, [var]⟩, _) => prepareHeaderSize var.uMaxSize + var.uSize ≤ ulongMax
  | _ => True

instance (size : Nat) : Decidable (HeaderFits size) := by unfold HeaderFits; infer_instance

instance (mem : Bytes) (type : EType) (calls : List Call) : Decidable (ResultFits mem type calls) := by
  unfold ResultFits; split <;> infer_instance

/-- A prepared buffer holds nothing. -/
theorem prepare_inv {mem : Bytes} {type : EType} (ht : type &&& varTypeMask = type) (hlt : mem.length < 2 ^ 64)
    (hfits : HeaderFits mem.length) :
    StackInv mem none (Builder.prepare mem type).stack [⟨.none, type, .none, false⟩] := by
  obtain ⟨hle, hheader⟩ := hfits
  have hsub : (mem.length + 2 ^ 64 - (1 + 4)) % 2 ^ 64 = mem.length - 5 := by omega
  have hmod := Nat.mod_le (mem.length - 5) (2 ^ 32)
  have hhdr := prepareHeaderSize_le ((mem.length - 5) % 2 ^ 32)
  unfold Builder.prepare variantPrepare
  simp only [hsub, hheader, Nat.zero_add]
  refine ⟨⟨by simp, Nat.zero_le _, Nat.mod_lt _ (by decide), by simp, fun _ => ?_⟩, rfl, by simp only; omega⟩
  exact ⟨type, [], Frame.encodes_start ht _, rfl, by simp, by simp [pendingBytes], by simp [pendingBytes]⟩

theorem finishedAs {mem : Bytes} {var : SVariant} {f : Frame} (h : StackInv mem none [var] [f])
    (hs : prepareHeaderSize var.uMaxSize + var.uSize ≤ ulongMax) : FinishedAs mem var f.value := by
  obtain ⟨hf, hdata, hroom⟩ := h
  unfold FinishedAs variantFinish
  by_cases herr : var.bError = 0
  · rw [if_neg (not_not.2 herr)]
    by_cases hempty : var.uType = varTypeEmpty
    · rw [if_neg (not_not.2 hempty)]
      exact ⟨mem, 0, rfl, fun h => absurd rfl h⟩
    · rw [if_pos hempty]
      have hlen := length_finishHeader var.uType var.uMaxSize var.uSize
      have hsize := hf.size_le
      generalize hheader : finishHeader var.uType var.uMaxSize var.uSize = header at hlen
      obtain ⟨mem', hw⟩ := writeAt_eq mem 0 header (by omega)
      simp only [hw, Option.map_some]
      refine ⟨mem', header.length + var.uSize, rfl, fun _ => ⟨by omega, ?_⟩⟩
      obtain ⟨type, p, henc, htype, -, hslice, hp⟩ := hf.filled herr
      simp only [pendingBytes, Option.map_none, Option.getD_none, List.append_nil, List.length_nil, Nat.add_zero]
        at hslice hp
      change var.uType = type at htype
      subst htype
      have hwritten : Written var.uType p (header ++ p) := by
        rw [← hheader, hp]
        exact .variantFinish hempty (by have := hf.max_lt; omega)
      have htake : mem'.take (header.length + var.uSize) = header ++ p := by
        rw [← slice_full, slice_add, slice_writeAt_self hw, hlen, Nat.zero_add, ← hdata,
          slice_writeAt hw (.inr (by omega)), hslice]
      have hv := valid_of_encodes henc
      obtain ⟨header', hh, heq⟩ := hwritten.header hv.type_eq hv.empty (by unfold ulongMax at hs; omega)
      obtain rfl := List.append_cancel_right heq
      refine ⟨var.uType, p, ?_, henc, found_of_encodes _ henc (by omega)⟩
      have hdec := hh.variantFromBuffer [] (by rw [List.append_nil, List.length_append]; omega)
      rw [List.append_nil] at hdec
      rw [htake, hdec, hp]
  · rw [if_pos herr]
    exact ⟨mem, 0, rfl, fun h => absurd rfl h⟩

/-- The builder is sound in every run that leaves no key without a value: on a buffer whose size the
header was chosen for, as long as every accepted insertion comes with a value, every nested variant
is finished without an error and not empty, and the result has less than 4 GB. -/
theorem builds_of_goodRun {mem : Bytes} {type : EType} {calls : List Call} (hlt : mem.length < 2 ^ 64)
    (ht : type &&& varTypeMask = type) (hwf : ∀ call ∈ calls, call.WellFormed) (hfits : HeaderFits mem.length)
    (hgood : (Builder.prepare mem type).GoodRun calls) (hresult : ResultFits mem type calls) :
    Builds mem type calls := by
  have hrun : buildRun mem type calls = runCalls (Builder.prepare mem type) [⟨.none, type, .none, false⟩] calls := rfl
  rcases runCalls_inv calls (prepare_inv ht hlt hfits) hwf hgood with hn | ⟨b, frames, hr, -, h⟩
  · rw [← hrun] at hn
    refine ⟨by rw [hn]; simp, fun mem' var f h => ?_⟩
    rw [hn] at h
    cases h
  · rw [← hrun] at hr
    refine ⟨by rw [hr]; simp, fun mem' var f h' => ?_⟩
    unfold ResultFits at hresult
    rw [h'] at hr hresult
    cases hr
    exact finishedAs h hresult

/-- A map with a number and a list of one number. -/
theorem builds_of_goodRun_nested : Builds (List.replicate 40 0) varTypeMap
    [.insert (.name [0x61]) varTypeUInt (some [7]), .prepare (.name [0x62]) varTypeList,
      .insert .none varTypeUInt (some [9]), .finishEntry] :=
  builds_of_goodRun (by decide) (by decide) (by decide +kernel) (by decide) (by decide +kernel) (by decide +kernel)

/-- A list that refuses an entry with an id is not finished, but its name stays in the map. -/
theorem failed_entry_leaves_name : ¬ ∀ (mem : Bytes) (type : EType) (calls : List Call), mem.length < 2 ^ 64 →
    type &&& varTypeMask = type → (∀ call ∈ calls, call.WellFormed) → Builds mem type calls := by
  intro h
  obtain ⟨-, hfin⟩ := h (List.replicate 16 0) varTypeMap
    [.prepare (.name [0x61]) varTypeList, .insert (.id 1) varTypeUInt (some [7]), .finishEntry]
    (by decide) (by decide) (by decide +kernel)
  obtain ⟨mem', len, hf, hlen⟩ := hfin ([0, 0, 1, 0x61] ++ List.replicate 12 0) ⟨varTypeMap, 0, 2, 11, 2⟩
    ⟨.none, varTypeMap, .none, false⟩ (by rfl)
  have hfinish : variantFinish ([0, 0, 1, 0x61] ++ List.replicate 12 0) 0 ⟨varTypeMap, 0, 2, 11, 2⟩ =
      some ([0x21, 2, 1, 0x61] ++ List.replicate 12 0, 4) := by decide +kernel
  rw [hfinish] at hf
  cases hf
  obtain ⟨-, type, payload, hdec, henc, -⟩ := hlen (by decide)
  have hdec' : variantFromBuffer ((([0x21, 2, 1, 0x61] : Bytes) ++ List.replicate 12 0).take 4) =
      some ⟨varTypeMap, [1, 0x61], 4⟩ := by decide +kernel
  rw [hdec'] at hdec
  cases hdec
  cases (encodes_nil_map henc).2

end MajorPrivacy.Variant

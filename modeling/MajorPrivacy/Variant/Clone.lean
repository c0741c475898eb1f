/-
What `Clone` keeps of a value: node by node the type, the payload bytes and the text, or exactly
which nodes lose them.
-/
import MajorPrivacy.Variant.Content

namespace MajorPrivacy.Variant

open LittleEndian MajorPrivacy.Core

namespace Content

/-! ## Nodes -/

/-- The values a value consists of, itself included. -/
inductive Within : Content → Content → Prop
  | self (v : Content) : Within v v
  | map {u : Content} {p : Parsed} {t : Table Bytes Content} {e : Bytes × Content} (he : e ∈ t.toList) (h : Within u e.2) :
    Within u (.map p t)
  | list {u : Content} {p : Parsed} {l : List Content} {v : Content} (hv : v ∈ l) (h : Within u v) : Within u (.list p l)
  | index {u : Content} {p : Parsed} {t : Table UInt32 Content} {e : UInt32 × Content} (he : e ∈ t.toList) (h : Within u e.2) :
    Within u (.index p t)

/-- The values right below a value. -/
def children : Content → List Content
  | .map _ t => t.toList.map (·.2)
  | .list _ l => l
  | .index _ t => t.toList.map (·.2)
  | _ => []

theorem Within.of_child {u v w : Content} (hv : v ∈ w.children) (h : Within u v) : Within u w := by
  cases w with
  | map p t =>
    rcases List.mem_map.1 hv with ⟨e, he, rfl⟩
    exact .map he h
  | list p l => exact .list hv h
  | index p t =>
    rcases List.mem_map.1 hv with ⟨e, he, rfl⟩
    exact .index he h
  | _ => cases hv

theorem Within.cases_child {u w : Content} (h : Within u w) : u = w ∨ ∃ v ∈ w.children, Within u v := by
  cases h with
  | self => exact .inl rfl
  | map he h => exact .inr ⟨_, List.mem_map_of_mem he, h⟩
  | list hv h => exact .inr ⟨_, hv, h⟩
  | index he h => exact .inr ⟨_, List.mem_map_of_mem he, h⟩

/-- What holds of a value when it holds of those right below it. -/
theorem induct_children {motive : Content → Prop} (step : ∀ v, (∀ u ∈ v.children, motive u) → motive v) (v : Content) :
    motive v := by
  induction v using Content.induct with
  | flat | buffer | strA | strW => exact step _ (by simp [children])
  | map p t ih =>
    apply step
    rintro u hu
    rcases List.mem_map.1 hu with ⟨e, he, rfl⟩
    exact ih e he
  | list p l ih => exact step _ ih
  | index p t ih =>
    apply step
    rintro u hu
    rcases List.mem_map.1 hu with ⟨e, he, rfl⟩
    exact ih e he

/-- A condition on single nodes that decides another one, given the nodes below, decides it for all
nodes together. -/
theorem forall_within_iff {P Q : Content → Prop} {v : Content}
    (step : ∀ u, Within u v → (∀ w ∈ u.children, P w) → (P u ↔ Q u)) :
    (∀ u, Within u v → P u) ↔ ∀ u, Within u v → Q u := by
  induction v using induct_children with
  | step v ih =>
    have hchild : ∀ w ∈ v.children, ((∀ u, Within u w → P u) ↔ ∀ u, Within u w → Q u) :=
      fun w hw => ih w hw fun u hu => step u (hu.of_child hw)
    constructor
    · rintro h u hu
      rcases hu.cases_child with rfl | ⟨w, hw, hu⟩
      · exact (step u (.self u) fun w hw => h w (.of_child hw (.self w))).1 (h u (.self u))
      · exact (hchild w hw).1 (fun u hu => h u (hu.of_child hw)) u hu
    · rintro h u hu
      rcases hu.cases_child with rfl | ⟨w, hw, hu⟩
      · refine (step u (.self u) fun w hw => ?_).2 (h u (.self u))
        exact (hchild w hw).2 (fun u hu => h u (hu.of_child hw)) w (.self w)
      · exact (hchild w hw).2 (fun u hu => h u (hu.of_child hw)) u hu

/-! ## Sound tables -/

/-- A table as the operations keep it: every entry in its bucket, and no more entries than buckets
while there may be more buckets. -/
structure SoundTable {K : Type} [Hasher K] (t : Table K Content) : Prop where
  placed : Placed t.buckets
  room : t.toList.length ≤ t.buckets.length ∨ t.buckets.length &&& 0x80000000 ≠ 0

/-- A value whose own table is sound. -/
def SoundNode : Content → Prop
  | .map _ t => SoundTable t
  | .index _ t => SoundTable t
  | _ => True

/-- A value all of whose tables are sound. -/
def Sound (v : Content) : Prop := ∀ u, Within u v → SoundNode u

/-! ## The tables of a clone -/

section Tables
variable {K : Type} [Hasher K]

theorem buckets_insertAll : ∀ (entries : List (K × Content)) {t : Table K Content},
    t.count + entries.length ≤ t.buckets.length ∨ t.buckets.length &&& 0x80000000 ≠ 0 →
    (insertAll entries t).buckets = entries.foldl insertEntry t.buckets
  | [], _, _ => rfl
  | e :: entries, t, h => by
    have hgrow : t.grow = t := by
      apply if_neg
      rintro ⟨hc, hb⟩
      rcases h with h | h
      · rw [List.length_cons] at h
        omega
      · exact h hb
    have hinsert : t.insertValue e.1 e.2 = ⟨insertEntry t.buckets e, t.count + 1⟩ := by
      rw [Table.insertValue, hgrow]
    have hstep : insertAll (e :: entries) t = insertAll entries ⟨insertEntry t.buckets e, t.count + 1⟩ := by
      rw [insertAll, List.foldl_cons, hinsert]
      rfl
    have hroom : t.count + 1 + entries.length ≤ t.buckets.length ∨ t.buckets.length &&& 0x80000000 ≠ 0 := by
      rw [List.length_cons] at h
      rcases h with h | h
      · exact .inl (by omega)
      · exact .inr h
    rw [hstep, buckets_insertAll entries (by rw [length_insertEntry]; exact hroom)]
    rfl

/-- Each chain of a clone is the one it was cloned from, the other way round. -/
theorem toList_cloned {t : Table K Content} (h : SoundTable t) (f : Content → Content) :
    (insertAll (t.toList.map fun e => (e.1, f e.2)) (allocTable K t.buckets.length)).toList =
      (t.buckets.flatMap List.reverse).map fun e => (e.1, f e.2) := by
  have hroom := h.room
  rw [Table.toList, buckets_insertAll _ (by simpa [allocTable] using hroom)]
  rw [Table.toList, allocTable, foldl_insertEntry_flatten h.placed f, List.map_flatMap, List.flatMap_def]
  simp

theorem cloned_sound {t : Table K Content} (h : SoundTable t) (f : Content → Content) :
    SoundTable (insertAll (t.toList.map fun e => (e.1, f e.2)) (allocTable K t.buckets.length)) := by
  have hroom := h.room
  have hb := buckets_insertAll (t.toList.map fun e => (e.1, f e.2)) (t := allocTable K t.buckets.length)
    (by simpa [allocTable] using hroom)
  constructor
  · rw [hb]
    exact placed_foldl_insertEntry _ (placed_replicate _)
  · have hlen : (t.buckets.flatMap List.reverse).length = t.buckets.flatten.length := (perm_flatMap_reverse _).length_eq
    rw [toList_cloned h f, hb, length_foldl_insertEntry, List.length_map, hlen, allocTable, List.length_replicate]
    exact hroom

end Tables

theorem sound_iff {v : Content} : v.Sound ↔ SoundNode v ∧ ∀ w ∈ v.children, w.Sound := by
  constructor
  · rintro h
    exact ⟨h v (.self v), fun w hw u hu => h u (hu.of_child hw)⟩
  · rintro ⟨hv, hc⟩ u hu
    rcases hu.cases_child with rfl | ⟨w, hw, hu⟩
    · exact hv
    · exact hc w hw u hu

/-- The tables of a clone are sound again. -/
theorem sound_clone {v : Content} (h : v.Sound) : v.clone.Sound := by
  induction v using induct_children with
  | step v ih =>
    rcases sound_iff.1 h with ⟨hv, hc⟩
    have hcloned : ∀ w ∈ v.children, w.clone.Sound := fun w hw => ih w hw (hc w hw)
    have hleaf : ∀ {u : Content}, SoundNode u → u.children = [] → u.Sound := fun hu hn =>
      sound_iff.2 ⟨hu, by rw [hn]; simp⟩
    cases v with
    | flat type ro payload =>
      rw [Content.clone, ofBytes]
      split <;> exact hleaf trivial rfl
    | buffer data => rw [Content.clone]; exact hleaf trivial rfl
    | strA type str => rw [Content.clone]; exact hleaf trivial rfl
    | strW str => rw [Content.clone]; exact hleaf trivial rfl
    | map p t =>
      rw [clone_map]
      refine sound_iff.2 ⟨cloned_sound hv _, ?_⟩
      simp only [children, toList_cloned hv, List.map_map, List.mem_map]
      rintro _ ⟨e, he, rfl⟩
      exact hcloned e.2 (List.mem_map_of_mem ((perm_flatMap_reverse _).mem_iff.1 he))
    | list p l =>
      rw [clone_list]
      refine sound_iff.2 ⟨trivial, ?_⟩
      simp only [children, List.mem_map]
      rintro _ ⟨w, hw, rfl⟩
      exact hcloned w hw
    | index p t =>
      rw [clone_index]
      refine sound_iff.2 ⟨cloned_sound hv _, ?_⟩
      simp only [children, toList_cloned hv, List.map_map, List.mem_map]
      rintro _ ⟨e, he, rfl⟩
      exact hcloned e.2 (List.mem_map_of_mem ((perm_flatMap_reverse _).mem_iff.1 he))

theorem sound_clone_table : (Content.map unparsed ((allocTable Bytes 4).insertValue [97] (.buffer [7]))).clone.Sound := by
  apply sound_clone
  refine sound_iff.2 ⟨⟨Table.placed_insertValue (placed_replicate 4) _ _, .inl (by decide)⟩, ?_⟩
  rintro w hw
  obtain rfl : w = .buffer [7] := List.mem_singleton.1 hw
  exact sound_iff.2 ⟨trivial, by simp [children]⟩

/-! ## What single nodes keep -/

/-- The clone of a node has its type, its payload and its text. -/
structure Kept (u : Content) : Prop where
  type : u.clone.getType = u.getType
  payload : ∃ bytes, u.mkPayload = some bytes ∧ u.clone.mkPayload = some bytes
  text : u.clone.getStringW = u.getStringW

/-- A node that survives: no bytes under an empty type, no UTF-8 and no wide text in a shared string,
and a container whose payload is what its entries say when every bucket is read from its end. -/
def Clonable : Content → Prop
  | .flat type _ payload => type = varTypeEmpty → payload = []
  | .buffer _ => True
  | .strA type _ => type = varTypeAscii
  | .strW str => str = []
  | .map p t => (map p t).mkPayload = writeAll ((t.buckets.flatMap List.reverse).map mapEntry)
  | .list p l => (list p l).mkPayload = writeAll (l.map toPacket)
  | .index p t => (index p t).mkPayload = writeAll ((t.buckets.flatMap List.reverse).map indexEntry)

theorem writeAll_isSome : ∀ {l : List (Option Bytes)}, (∀ b ∈ l, b.isSome) → (writeAll l).isSome
  | [], _ => rfl
  | none :: _, h => absurd (h none List.mem_cons_self) (by simp)
  | some b :: rest, h => by
    rcases Option.isSome_iff_exists.1 (writeAll_isSome fun b hb => h b (List.mem_cons_of_mem _ hb)) with ⟨bytes, hr⟩
    rw [writeAll, hr]
    rfl

theorem Kept.toPacket {u : Content} (h : Kept u) : u.clone.toPacket = u.toPacket ∧ u.toPacket.isSome := by
  rcases h.payload with ⟨bytes, hu, hc⟩
  unfold Content.toPacket
  rw [h.type, hu, hc]
  exact ⟨rfl, rfl⟩

theorem kept_flat (type : EType) (ro : Bool) (payload : Bytes) :
    Kept (.flat type ro payload) ↔ Clonable (.flat type ro payload) := by
  by_cases he : type = varTypeEmpty
  · subst he
    have hc : (Content.flat varTypeEmpty ro payload).clone = .flat varTypeEmpty false [] := by rw [clone, ofBytes, if_pos rfl]
    constructor
    · rintro ⟨-, ⟨bytes, h₁, h₂⟩, -⟩ -
      rw [hc] at h₂
      rw [mkPayload] at h₁ h₂
      exact Option.some.inj (h₁.trans h₂.symm)
    · rintro h
      have hp : payload = [] := h rfl
      subst hp
      exact ⟨by rw [hc]; rfl, ⟨[], by rw [mkPayload], by rw [hc, mkPayload]⟩, by rw [hc]; rfl⟩
  · have hc : (Content.flat type ro payload).clone = .flat type false payload := by rw [clone, ofBytes, if_neg he]
    constructor
    · rintro - h
      exact absurd h he
    · rintro -
      exact ⟨by rw [hc]; rfl, ⟨payload, by rw [mkPayload], by rw [hc, mkPayload]⟩, by rw [hc]; rfl⟩

theorem kept_buffer (data : Bytes) : Kept (.buffer data) := by
  have hc : (Content.buffer data).clone = .buffer data := by rw [clone]
  exact ⟨by rw [hc], ⟨data, by rw [mkPayload], by rw [hc, mkPayload]⟩, by rw [hc]⟩

theorem kept_strA (type : EType) (str : Bytes) : Kept (.strA type str) ↔ Clonable (.strA type str) := by
  have hc : (Content.strA type str).clone = .strA varTypeAscii str := by rw [clone]
  constructor
  · rintro ⟨ht, -, -⟩
    rw [hc] at ht
    exact ht.symm
  · rintro h
    have ht : type = varTypeAscii := h
    subst ht
    exact ⟨by rw [hc], ⟨sized str, by rw [mkPayload], by rw [hc, mkPayload]⟩, by rw [hc]⟩

theorem kept_strW (str : List UInt16) : Kept (.strW str) ↔ Clonable (.strW str) := by
  have hc : (Content.strW str).clone = .strW (str.take (str.length / 2)) := by rw [clone]
  constructor
  · rintro ⟨-, -, ht⟩
    rw [hc] at ht
    have htake : str.take (str.length / 2) = str := Except.ok.inj ht
    have hlen := congrArg List.length htake
    rw [List.length_take] at hlen
    exact List.length_eq_zero_iff.1 (by omega)
  · rintro h
    have hs : str = [] := h
    subst hs
    exact ⟨by rw [hc]; rfl, ⟨[], by rw [mkPayload]; rfl, by rw [hc, mkPayload]; rfl⟩, by rw [hc]; rfl⟩

/-- A container whose clone serialises to `bytes` is kept when they are its payload. -/
theorem kept_container {u : Content} {bytes : Option Bytes} (ht : u.clone.getType = u.getType)
    (htext : u.clone.getStringW = u.getStringW) (hb : bytes.isSome) (hc : u.clone.mkPayload = bytes) :
    Kept u ↔ u.mkPayload = bytes := by
  rcases Option.isSome_iff_exists.1 hb with ⟨b, rfl⟩
  constructor
  · rintro ⟨-, ⟨b', h₁, h₂⟩, -⟩
    rw [h₁, ← h₂, hc]
  · rintro h
    exact ⟨ht, ⟨b, h, hc⟩, htext⟩

theorem kept_map {p : Parsed} {t : Table Bytes Content} (hs : SoundTable t) (h : ∀ w ∈ (map p t).children, Kept w) :
    Kept (.map p t) ↔ Clonable (.map p t) := by
  have hchild : ∀ e ∈ t.buckets.flatMap List.reverse, Kept e.2 := fun e he =>
    h e.2 (List.mem_map_of_mem ((perm_flatMap_reverse _).mem_iff.1 he))
  apply kept_container
  · rw [clone_map]; rfl
  · rw [clone_map]; rfl
  · apply writeAll_isSome
    rintro b hb
    rcases List.mem_map.1 hb with ⟨e, he, rfl⟩
    rw [mapEntry, Option.isSome_map]
    exact (hchild e he).toPacket.2
  · rw [clone_map, mkPayload_map, toList_cloned hs, List.map_map]
    rw [List.map_congr_left fun e he => ?_]
    · rfl
    · simp only [Function.comp_apply, mapEntry, (hchild e he).toPacket.1]

theorem kept_index {p : Parsed} {t : Table UInt32 Content} (hs : SoundTable t) (h : ∀ w ∈ (index p t).children, Kept w) :
    Kept (.index p t) ↔ Clonable (.index p t) := by
  have hchild : ∀ e ∈ t.buckets.flatMap List.reverse, Kept e.2 := fun e he =>
    h e.2 (List.mem_map_of_mem ((perm_flatMap_reverse _).mem_iff.1 he))
  apply kept_container
  · rw [clone_index]; rfl
  · rw [clone_index]; rfl
  · apply writeAll_isSome
    rintro b hb
    rcases List.mem_map.1 hb with ⟨e, he, rfl⟩
    rw [indexEntry, Option.isSome_map]
    exact (hchild e he).toPacket.2
  · rw [clone_index, mkPayload_index, toList_cloned hs, List.map_map]
    rw [List.map_congr_left fun e he => ?_]
    · rfl
    · simp only [Function.comp_apply, indexEntry, (hchild e he).toPacket.1]

theorem kept_list {p : Parsed} {l : List Content} (h : ∀ w ∈ l, Kept w) : Kept (.list p l) ↔ Clonable (.list p l) := by
  apply kept_container
  · rw [clone_list]; rfl
  · rw [clone_list]; rfl
  · apply writeAll_isSome
    rintro b hb
    rcases List.mem_map.1 hb with ⟨v, hv, rfl⟩
    exact (h v hv).toPacket.2
  · rw [clone_list, mkPayload_list, List.map_map]
    rw [List.map_congr_left fun v hv => ?_]
    · rfl
    · exact (h v hv).toPacket.1

theorem kept_iff {u : Content} (hs : SoundNode u) (h : ∀ w ∈ u.children, Kept w) : Kept u ↔ Clonable u := by
  cases u with
  | flat type ro payload => exact kept_flat type ro payload
  | buffer data => exact ⟨fun _ => trivial, fun _ => kept_buffer data⟩
  | strA type str => exact kept_strA type str
  | strW str => exact kept_strW str
  | map p t => exact kept_map hs h
  | list p l => exact kept_list h
  | index p t => exact kept_index hs h

/-! ## The law of copies -/

/-- Two values nobody can tell apart by what they say. -/
structure SameValue (v w : Content) : Prop where
  type : w.getType = v.getType
  compare : compareEqual v w
  packet : w.toPacket = v.toPacket
  text : w.getStringW = v.getStringW

/-- A clone keeps every node, and is the same value; so is what copy-on-write puts in its place. -/
structure CopiesKeep (v : Content) : Prop where
  nodes : ∀ u, Within u v → Kept u
  clone : SameValue v v.clone
  exclusive : SameValue v v.exclusive

/-- A container that is read-only. -/
def Frozen : Content → Prop
  | .map p _ | .list p _ | .index p _ => p.bReadOnly = true
  | _ => False

theorem Kept.same {v : Content} (h : Kept v) : SameValue v v.clone := by
  rcases h.payload with ⟨bytes, hv, hc⟩
  exact ⟨h.type, by rw [compareEqual, hv, hc], h.toPacket.1, h.text⟩

theorem sameValue_iff {v w : Content} (ht : w.getType = v.getType) (hs : w.getStringW = v.getStringW) :
    SameValue v w ↔ w.mkPayload = v.mkPayload := by
  constructor
  · rintro hw
    exact hw.compare.symm
  · rintro hp
    exact ⟨ht, hp.symm, by rw [Content.toPacket, Content.toPacket, hp, ht], hs⟩

theorem mkPayload_exclusive_frozen {v : Content} (h : Frozen v) : v.exclusive.mkPayload = some [] := by
  cases v with
  | map p t =>
    have hro : p.bReadOnly = true := h
    rw [exclusive, mkPayload_map, if_pos hro]
    rfl
  | list p l =>
    have hro : p.bReadOnly = true := h
    rw [exclusive, mkPayload_list, if_pos hro]
    rfl
  | index p t =>
    have hro : p.bReadOnly = true := h
    rw [exclusive, mkPayload_index, if_pos hro]
    rfl
  | _ => exact h.elim

theorem mkPayload_exclusive {v : Content} (hk : Kept v) (h : ¬ Frozen v) : v.exclusive.mkPayload = v.mkPayload := by
  rcases hk.payload with ⟨bytes, hv, hc⟩
  rw [hv, ← hc]
  cases v with
  | map p t =>
    have hro : ¬ p.bReadOnly = true := h
    rw [exclusive, clone_map, mkPayload_map, mkPayload_map, if_neg hro]
    rfl
  | list p l =>
    have hro : ¬ p.bReadOnly = true := h
    rw [exclusive, clone_list, mkPayload_list, mkPayload_list, if_neg hro]
    rfl
  | index p t =>
    have hro : ¬ p.bReadOnly = true := h
    rw [exclusive, clone_index, mkPayload_index, mkPayload_index, if_neg hro]
    rfl
  | _ => exact hv.trans hc.symm

/-- Copy-on-write clones a container and leaves it read-only when it was; nothing is left of the
payload then. -/
theorem same_exclusive_iff {v : Content} (h : Kept v) : SameValue v v.exclusive ↔ (Frozen v → v.mkPayload = some []) := by
  have ht : v.exclusive.getType = v.getType := by cases v <;> rfl
  have hs : v.exclusive.getStringW = v.getStringW := by cases v <;> rfl
  rw [sameValue_iff ht hs]
  constructor
  · rintro hp hf
    rw [← hp, mkPayload_exclusive_frozen hf]
  · rintro hf
    by_cases hro : Frozen v
    · rw [mkPayload_exclusive_frozen hro, hf hro]
    · exact mkPayload_exclusive h hro

/-- When copies keep a value: every node of it survives a clone, and it is not a read-only container
with a payload. -/
theorem copies_keep_iff {v : Content} (hs : v.Sound) :
    CopiesKeep v ↔ (∀ u, Within u v → Clonable u) ∧ (Frozen v → v.mkPayload = some []) := by
  have hnodes : (∀ u, Within u v → Kept u) ↔ ∀ u, Within u v → Clonable u :=
    forall_within_iff fun u hu hc => kept_iff (hs u hu) hc
  constructor
  · rintro h
    exact ⟨hnodes.1 h.nodes, (same_exclusive_iff (h.nodes v (.self v))).1 h.exclusive⟩
  · rintro ⟨hc, hf⟩
    have hk := hnodes.2 hc
    exact ⟨hk, (hk v (.self v)).same, (same_exclusive_iff (hk v (.self v))).2 hf⟩

/-- A list of a number and a text, neither of which is lost. -/
theorem copies_keep_list : CopiesKeep (.list unparsed [.flat varTypeUInt false [7], .strA varTypeAscii [0x61]]) ↔
    (∀ u, Within u (.list unparsed [.flat varTypeUInt false [7], .strA varTypeAscii [0x61]]) → Clonable u) ∧
      (Frozen (.list unparsed [.flat varTypeUInt false [7], .strA varTypeAscii [0x61]]) →
        (Content.list unparsed [.flat varTypeUInt false [7], .strA varTypeAscii [0x61]]).mkPayload = some []) := by
  apply copies_keep_iff
  intro u hu
  rcases hu.cases_child with rfl | ⟨w, hw, hu⟩
  · trivial
  · rcases hu.cases_child with rfl | ⟨x, hx, -⟩
    · rcases List.mem_pair.1 hw with rfl | rfl <;> trivial
    · rcases List.mem_pair.1 hw with rfl | rfl <;> cases hx

/-- An e with an acute accent in a shared UTF-8 string is ASCII after a clone. -/
theorem not_copies_keep_utf8 : ¬ CopiesKeep (.strA varTypeUtf8 [0xC3, 0xA9]) := by
  rintro h
  have ht := h.clone.type
  rw [Content.clone] at ht
  exact absurd ht (by decide)

end Content

end MajorPrivacy.Variant

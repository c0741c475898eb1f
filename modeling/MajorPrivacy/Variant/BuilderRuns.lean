/-
Runs of the in-place builder. Beside a run, the entries whose insertion succeeded are recorded from
the results the calls report; as long as no call leaves a key without its value, or a value that
cannot be read back, every container being filled holds exactly its recorded entries, and what is
finished in the end decodes to them.
-/
import MajorPrivacy.Variant.Builder

namespace MajorPrivacy.Variant

open LittleEndian Memory

/-! ## The entries on record -/

/-- The entries of a container, which fixes its type with the first of them. -/
inductive Contents
  | none
  | map (entries : List (Bytes × Value))
  | list (items : List Value)
  | index (entries : List (UInt32 × Value))

def Contents.add : Contents → Key → Value → Contents
  | .none, .name n, v => .map [(n, v)]
  | .map entries, .name n, v => .map (entries ++ [(n, v)])
  | .none, .id i, v => .index [(i, v)]
  | .index entries, .id i, v => .index (entries ++ [(i, v)])
  | .none, .none, v => .list [v]
  | .list items, .none, v => .list (items ++ [v])
  | contents, _, _ => contents

/-- A variant being filled: the key it goes under, the type it was prepared with, its entries, and
whether an insertion into it has failed. -/
structure Frame where
  key : Key
  type : EType
  contents : Contents
  failed : Bool

def Frame.value (f : Frame) : Value :=
  match f.contents with
  | .map entries => .map entries
  | .list items => .list items
  | .index entries => .index entries
  | .none =>
    if f.type = varTypeMap then .map [] else if f.type = varTypeList then .list []
    else if f.type = varTypeIndex then .index [] else .scalar f.type []

def Frame.add (f : Frame) (key : Key) (v : Value) : Frame := { f with contents := f.contents.add key v }

/-- What a call adds to the record, by the success it reports. A variant in which an insertion has
failed is not inserted itself. -/
def record (frames : List Frame) (call : Call) (ok : Bool) : List Frame :=
  match frames with
  | [] => []
  | f :: frames =>
    match call with
    | .insert key type value =>
      if ok then f.add key (.scalar (type &&& varTypeMask) (value.getD [])) :: frames
      else { f with failed := true } :: frames
    | .prepare key type => if ok then ⟨key, type, .none, false⟩ :: f :: frames else { f with failed := true } :: frames
    | .finishEntry =>
      match frames with
      | [] => [f]
      | g :: frames => (if f.failed then g else g.add f.key f.value) :: frames

/-- A run with its record. -/
def runCalls (b : Builder) (frames : List Frame) : List Call → Except Fault (Builder × List Frame)
  | [] => .ok (b, frames)
  | call :: calls =>
    match b.step call with
    | .error e => .error e
    | .ok (b', ok) => runCalls b' (record frames call ok) calls

/-- A run from `Variant_Prepare` on. -/
def buildRun (mem : Bytes) (type : EType) (calls : List Call) : Except Fault (Builder × List Frame) :=
  runCalls (Builder.prepare mem type) [⟨.none, type, .none, false⟩] calls

/-! ## What decodes to a value -/

mutual

/-- The look-ups in C find the value: under every name the first entry with it, under every id
likewise, at every position the element, and nothing else. -/
def Found : Value → EType → Bytes → Prop
  | .scalar t p, type, payload => type = t ∧ payload = p
  | .map entries, type, payload => type = varTypeMap ∧ FoundMap [] entries payload ∧
      ∀ name, IsName name → name ∉ entries.map (·.1) → variantFind varTypeMap payload name = none
  | .list items, type, payload => type = varTypeList ∧ FoundList items 0 payload ∧
      ∀ pos : Nat, items.length ≤ pos → variantAt varTypeList payload pos = none
  | .index entries, type, payload => type = varTypeIndex ∧ FoundIndex [] entries payload ∧
      ∀ id : UInt32, id ∉ entries.map (·.1) → variantGet varTypeIndex payload id.toNat = none

def FoundMap : (seen : List Bytes) → List (Bytes × Value) → Bytes → Prop
  | _, [], _ => True
  | seen, (name, v) :: entries, payload =>
    (name ∉ seen → ∃ t p, (variantFind varTypeMap payload name).map Decoded.element = some (t, p) ∧ Found v t p) ∧
      FoundMap (name :: seen) entries payload

def FoundList : List Value → (pos : Nat) → Bytes → Prop
  | [], _, _ => True
  | v :: items, pos, payload =>
    (∃ t p, (variantAt varTypeList payload pos).map Decoded.element = some (t, p) ∧ Found v t p) ∧
      FoundList items (pos + 1) payload

def FoundIndex : (seen : List UInt32) → List (UInt32 × Value) → Bytes → Prop
  | _, [], _ => True
  | seen, (id, v) :: entries, payload =>
    (id ∉ seen → ∃ t p, (variantGet varTypeIndex payload id.toNat).map Decoded.element = some (t, p) ∧ Found v t p) ∧
      FoundIndex (id :: seen) entries payload

end

/-! ## Entries appended -/

theorem encodesMap_append {v : Value} {t : EType} {p name : Bytes} (hv : Encodes v t p) :
    ∀ {entries : List (Bytes × Value)} {es : List (Bytes × EType × Bytes)}, EncodesMap entries es →
      EncodesMap (entries ++ [(name, v)]) (es ++ [(name, t, p)])
  | [], _, h => by
    rw [EncodesMap] at h
    subst h
    simp only [List.nil_append, EncodesMap]
    exact ⟨t, p, [], rfl, hv, rfl⟩
  | (n, w) :: entries, _, h => by
    rw [EncodesMap] at h
    obtain ⟨t', p', es', rfl, hw, h⟩ := h
    rw [List.cons_append, EncodesMap]
    exact ⟨t', p', es' ++ [(name, t, p)], rfl, hw, encodesMap_append hv h⟩

theorem encodesList_append {v : Value} {t : EType} {p : Bytes} (hv : Encodes v t p) :
    ∀ {items : List Value} {es : List (Unit × EType × Bytes)}, EncodesList items es →
      EncodesList (items ++ [v]) (es ++ [((), t, p)])
  | [], _, h => by
    rw [EncodesList] at h
    subst h
    simp only [List.nil_append, EncodesList]
    exact ⟨t, p, [], rfl, hv, rfl⟩
  | w :: items, _, h => by
    rw [EncodesList] at h
    obtain ⟨t', p', es', rfl, hw, h⟩ := h
    rw [List.cons_append, EncodesList]
    exact ⟨t', p', es' ++ [((), t, p)], rfl, hw, encodesList_append hv h⟩

theorem encodesIndex_append {v : Value} {t : EType} {p : Bytes} {id : UInt32} (hv : Encodes v t p) :
    ∀ {entries : List (UInt32 × Value)} {es : List (UInt32 × EType × Bytes)}, EncodesIndex entries es →
      EncodesIndex (entries ++ [(id, v)]) (es ++ [(id, t, p)])
  | [], _, h => by
    rw [EncodesIndex] at h
    subst h
    simp only [List.nil_append, EncodesIndex]
    exact ⟨t, p, [], rfl, hv, rfl⟩
  | (n, w) :: entries, _, h => by
    rw [EncodesIndex] at h
    obtain ⟨t', p', es', rfl, hw, h⟩ := h
    rw [List.cons_append, EncodesIndex]
    exact ⟨t', p', es' ++ [(id, t, p)], rfl, hw, encodesIndex_append hv h⟩

theorem Entries.append {K : Type} {key : K → Bytes} {k : K} {t : EType} {p packet : Bytes} (hv : Valid t p)
    (hw : Written t p packet) {es : List (K × EType × Bytes)} {payload : Bytes} (h : Entries key es payload) :
    Entries key (es ++ [(k, t, p)]) (payload ++ (key k ++ packet)) := by
  induction h with
  | nil =>
    have hlast : Entries key [(k, t, p)] (key k ++ packet ++ []) := .cons hv hw .nil
    rwa [List.append_nil] at hlast
  | @cons k' type data packet' es rest hv' hw' _ ih =>
    rw [List.append_assoc]
    exact .cons hv' hw' ih

/-- A key that can be stored: a name has its length in one byte. -/
def Key.Short : Key → Prop
  | .name n => n.length < 256
  | _ => True

instance (key : Key) : Decidable key.Short := by
  cases key <;> unfold Key.Short <;> infer_instance

/-- The type a container has once an entry with a key is in it. -/
def typeWith (type : EType) (key : Key) : EType := if type = varTypeEmpty then key.container else type

theorem encodes_nil_map {type : EType} {p : Bytes} (h : Encodes (.map []) type p) : type = varTypeMap ∧ p = [] := by
  rw [Encodes] at h
  obtain ⟨rfl, es, hes, -, he⟩ := h
  rw [EncodesMap] at hes
  subst hes
  cases he
  exact ⟨rfl, rfl⟩

theorem encodes_nil_list {type : EType} {p : Bytes} (h : Encodes (.list []) type p) : type = varTypeList ∧ p = [] := by
  rw [Encodes] at h
  obtain ⟨rfl, es, hes, he⟩ := h
  rw [EncodesList] at hes
  subst hes
  cases he
  exact ⟨rfl, rfl⟩

theorem encodes_nil_index {type : EType} {p : Bytes} (h : Encodes (.index []) type p) : type = varTypeIndex ∧ p = [] := by
  rw [Encodes] at h
  obtain ⟨rfl, es, hes, he⟩ := h
  rw [EncodesIndex] at hes
  subst hes
  cases he
  exact ⟨rfl, rfl⟩

/-- Without entries there is no payload, whatever the type. -/
theorem Frame.encodes_none {f : Frame} {type : EType} {p : Bytes} (hc : f.contents = .none)
    (h : Encodes f.value type p) : type = f.type ∧ p = [] := by
  unfold Frame.value at h
  rw [hc] at h
  simp only at h
  split_ifs at h with h1 h2 h3
  · obtain ⟨rfl, rfl⟩ := encodes_nil_map h
    exact ⟨h1.symm, rfl⟩
  · obtain ⟨rfl, rfl⟩ := encodes_nil_list h
    exact ⟨h2.symm, rfl⟩
  · obtain ⟨rfl, rfl⟩ := encodes_nil_index h
    exact ⟨h3.symm, rfl⟩
  · rw [Encodes] at h
    exact ⟨h.1, h.2.1⟩

theorem Frame.encodes_start {type : EType} (ht : type &&& varTypeMask = type) (key : Key) :
    Encodes (⟨key, type, .none, false⟩ : Frame).value type [] := by
  unfold Frame.value
  simp only
  split_ifs with h1 h2 h3
  · rw [Encodes]
    exact ⟨h1, [], rfl, by simp [ShortNames], .nil⟩
  · rw [Encodes]
    exact ⟨h2, [], rfl, .nil⟩
  · rw [Encodes]
    exact ⟨h3, [], rfl, .nil⟩
  · rw [Encodes]
    exact ⟨rfl, rfl, ht, fun _ => rfl⟩

/-- A further entry: its key and its packet behind the payload. -/
theorem Frame.encodes_add {f : Frame} {type : EType} {p : Bytes} (h : Encodes f.value type p) {key : Key}
    (hk : key.Short) (ht : typeWith type key = key.container) {v : Value} {t : EType} {q packet : Bytes}
    (hv : Encodes v t q) (hw : Written t q packet) :
    Encodes (f.add key v).value (typeWith type key) (p ++ (key.bytes ++ packet)) := by
  have hvalid := valid_of_encodes hv
  rw [ht]
  cases hc : f.contents with
  | none =>
    obtain ⟨-, rfl⟩ := f.encodes_none hc h
    cases key with
    | name n =>
      unfold Frame.add Frame.value
      simp only [hc, Contents.add, Encodes]
      refine ⟨rfl, [(n, t, q)], encodesMap_append hv (by rw [EncodesMap]), ?_, .append hvalid hw .nil⟩
      intro e he
      rw [List.mem_singleton] at he
      rw [he]
      exact hk
    | id i =>
      unfold Frame.add Frame.value
      simp only [hc, Contents.add, Encodes]
      exact ⟨rfl, [(i, t, q)], encodesIndex_append hv (by rw [EncodesIndex]), .append hvalid hw .nil⟩
    | none =>
      unfold Frame.add Frame.value
      simp only [hc, Contents.add, Encodes]
      exact ⟨rfl, [((), t, q)], encodesList_append hv (by rw [EncodesList]), .append hvalid hw .nil⟩
  | map entries =>
    unfold Frame.value at h
    rw [hc] at h
    simp only [Encodes] at h
    obtain ⟨rfl, es, hes, hn, he⟩ := h
    cases key with
    | name n =>
      unfold Frame.add Frame.value
      simp only [hc, Contents.add, Encodes]
      refine ⟨rfl, _, encodesMap_append hv hes, ?_, he.append hvalid hw⟩
      intro e hm
      rcases List.mem_append.1 hm with hm | hm
      · exact hn e hm
      · rw [List.mem_singleton] at hm
        rw [hm]
        exact hk
    | id i => exact absurd (show varTypeMap = varTypeIndex from ht) (by decide)
    | none => exact absurd (show varTypeMap = varTypeList from ht) (by decide)
  | list items =>
    unfold Frame.value at h
    rw [hc] at h
    simp only [Encodes] at h
    obtain ⟨rfl, es, hes, he⟩ := h
    cases key with
    | name n => exact absurd (show varTypeList = varTypeMap from ht) (by decide)
    | id i => exact absurd (show varTypeList = varTypeIndex from ht) (by decide)
    | none =>
      unfold Frame.add Frame.value
      simp only [hc, Contents.add, Encodes]
      exact ⟨rfl, _, encodesList_append hv hes, he.append hvalid hw⟩
  | index entries =>
    unfold Frame.value at h
    rw [hc] at h
    simp only [Encodes] at h
    obtain ⟨rfl, es, hes, he⟩ := h
    cases key with
    | name n => exact absurd (show varTypeIndex = varTypeMap from ht) (by decide)
    | id i =>
      unfold Frame.add Frame.value
      simp only [hc, Contents.add, Encodes]
      exact ⟨rfl, _, encodesIndex_append hv hes, he.append hvalid hw⟩
    | none => exact absurd (show varTypeIndex = varTypeList from ht) (by decide)

end MajorPrivacy.Variant

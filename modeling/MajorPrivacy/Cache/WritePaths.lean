/-
The two ways into `CVariantCacheT` (VariantCache.h), `Write` of a variant and `WriteRaw` of a type and
bytes, for values of every kind. What the cache remembers of a field is an object with whatever it
points at; beside it stands what was written last.
-/
import MajorPrivacy.Cache.VariantCache
import MajorPrivacy.Variant.TextRoutes

namespace MajorPrivacy.Cache

open MajorPrivacy.Core Variant LittleEndian

/-! ## One field -/

instance (l r : Content) : Decidable (l.compareEqual r) := inferInstanceAs (Decidable (l.mkPayload = r.mkPayload))

/-- The object `operator=` leaves: what is shared stays so, unless the value has another memory pool or
points into a buffer, which makes it a clone. -/
def assigned (value : Content) (bOther : Bool) : Content := if bOther then value.clone else value.shared

/-- `GetSize() == Size && memcmp(GetData(), pData, Size) == 0`; `none` where the bytes of a container
are compared that has none. -/
def sameBytes (old : Content) (data : Bytes) : Option Bool :=
  match old with
  | .flat _ _ payload => some (payload = data)
  | .buffer payload => some (payload = data)
  | .strA _ str => some (sized str = data)
  | .strW str => some (sized (wideBytes str) = data)
  | .map p _ | .list p _ | .index p _ =>
    if p.uPayloadSize = data.length then p.payload.map fun payload => payload = data else some false

/-- `Write`: whether the field has changed, and what is remembered of it then. -/
def writeField (pOld : Option Content) (value : Content) (bOther : Bool) : Bool × Content :=
  match pOld with
  | some old => if old.compareEqual value then (false, old) else (true, assigned value bOther)
  | none => (true, assigned value bOther)

/-- `WriteRaw`. -/
def writeRawField (pOld : Option Content) (type : EType) (data : Bytes) : Option (Bool × Content) :=
  let value := Content.initValue type data
  match pOld with
  | some old =>
    if old.getType = type then (sameBytes old data).map fun same => if same then (false, old) else (true, value)
    else some (true, value)
  | none => some (true, value)

/-! ## All fields -/

/-- What the cache remembers of a field, and the type and payload that were written last. -/
structure Field where
  remembered : Option Content
  last : Option (EType × Bytes)

/-- The fields of all entries. -/
abbrev FieldMap (K : Type) := K → UInt32 → Field

/-- What happens to the cache: a value is written on the one way or the other, entries go with their
fields. -/
inductive Access (K : Type)
  | write (id : K) (field : UInt32) (value : Content) (bOther : Bool)
  | writeRaw (id : K) (field : UInt32) (type : EType) (data : Bytes)
  | gone (ids : K → Bool)

section Histories
variable {K : Type} [DecidableEq K]

def FieldMap.set (s : FieldMap K) (id : K) (field : UInt32) (value : Field) : FieldMap K :=
  fun id' field' => if id' = id ∧ field' = field then value else s id' field'

/-- One event; nothing is defined to happen after a value without a payload is compared. -/
def FieldMap.step (keyField : UInt32) (s : FieldMap K) : Access K → Option (FieldMap K)
  | .write id field value bOther =>
    if field = keyField then some s
    else value.mkPayload.map fun payload =>
      s.set id field ⟨some (writeField (s id field).remembered value bOther).2, some (value.getType, payload)⟩
  | .writeRaw id field type data =>
    if field = keyField then some s
    else (writeRawField (s id field).remembered type data).map fun result =>
      s.set id field ⟨some result.2, some (type, data)⟩
  | .gone ids => some fun id field => if ids id then ⟨none, none⟩ else s id field

def FieldMap.run (keyField : UInt32) (s : FieldMap K) : List (Access K) → Option (FieldMap K)
  | [] => some s
  | e :: events => (s.step keyField e).bind fun s => FieldMap.run keyField s events

end Histories

/-- An empty cache. -/
def FieldMap.init (K : Type) : FieldMap K := fun _ _ => ⟨none, none⟩

/-! ## Deciding alike -/

/-- Both ways report a change when, and only when, the field was never written or was last written
with another type or payload. -/
structure DecideAlike (f : Field) (value : Content) (payload : Bytes) (bOther : Bool) : Prop where
  write : (writeField f.remembered value bOther).1 = true ↔ f.last ≠ some (value.getType, payload)
  writeRaw : ∃ result, writeRawField f.remembered value.getType payload = some result ∧
    (result.1 = true ↔ f.last ≠ some (value.getType, payload))

/-- The field was last written with the same payload under another type. -/
def Retyped (f : Field) (type : EType) (payload : Bytes) : Prop := ∃ other, other ≠ type ∧ f.last = some (other, payload)

/-- An object that is a type and bytes to everyone who asks. -/
structure Says (v : Content) (type : EType) (payload : Bytes) : Prop where
  type_eq : v.getType = type
  payload_eq : v.mkPayload = some payload
  bytes_eq : ∀ data, sameBytes v data = some (decide (payload = data))

/-- A value that is remembered as it was written, and that is not the last one under another type. -/
def Apt {K : Type} (keyField : UInt32) (s : FieldMap K) : Access K → Prop
  | .write id field value bOther => field = keyField ∨ ∃ payload, value.mkPayload = some payload ∧
    Says (assigned value bOther) value.getType payload ∧ ¬ Retyped (s id field) value.getType payload
  | .writeRaw _ field type data => field = keyField ∨ Says (.initValue type data) type data
  | .gone _ => True

/-- Every event of a history is apt when it happens. -/
def AptRun {K : Type} [DecidableEq K] (keyField : UInt32) (s : FieldMap K) : List (Access K) → Prop
  | [] => True
  | e :: events => Apt keyField s e ∧ ∀ s', s.step keyField e = some s' → AptRun keyField s' events

/-- What is remembered is what was written last. -/
def Recalls (f : Field) : Prop :=
  (f.remembered = none ∧ f.last = none) ∨
    ∃ v type payload, f.remembered = some v ∧ f.last = some (type, payload) ∧ Says v type payload

theorem writeField_eq {v : Content} {type : EType} {payload bytes : Bytes} (h : Says v type payload) {value : Content}
    (hp : value.mkPayload = some bytes) (bOther : Bool) :
    writeField (some v) value bOther = if payload = bytes then (false, v) else (true, assigned value bOther) := by
  have hc : v.compareEqual value ↔ payload = bytes := by
    rw [Content.compareEqual, h.payload_eq, hp, Option.some.injEq]
  simp only [writeField, hc]

theorem writeRawField_eq {v : Content} {type : EType} {payload : Bytes} (h : Says v type payload) (type' : EType)
    (data : Bytes) : writeRawField (some v) type' data =
      some (if type = type' ∧ payload = data then (false, v) else (true, .initValue type' data)) := by
  simp only [writeRawField, h.type_eq, h.bytes_eq]
  by_cases ht : type = type' <;> by_cases hd : payload = data <;> simp [ht, hd]

/-! ### What is remembered as it was written -/

section Kinds
variable {type : EType} {payload : Bytes} {bOther : Bool}

theorem says_flat (ro : Bool) : Says (.flat type ro payload) type payload :=
  ⟨rfl, by rw [Content.mkPayload], fun _ => rfl⟩

theorem says_ofBytes_iff : Says (Content.ofBytes type payload) type payload ↔ (type = varTypeEmpty → payload = []) := by
  unfold Content.ofBytes
  by_cases ht : type = varTypeEmpty
  · rw [if_pos ht]
    constructor
    · rintro h -
      have hp := h.payload_eq
      rw [Content.mkPayload] at hp
      exact (Option.some.inj hp).symm
    · rintro h
      rw [h ht]
      exact says_flat false
  · rw [if_neg ht]
    exact ⟨fun _ he => absurd he ht, fun _ => says_flat false⟩

/-- A payload of its own, unless it stands under the empty type. -/
theorem says_assigned_flat {ro : Bool} :
    Says (assigned (.flat type ro payload) bOther) type payload ↔ (type = varTypeEmpty → payload = []) := by
  rw [← says_ofBytes_iff]
  cases bOther
  · exact Iff.rfl
  · rw [assigned, if_pos rfl, Content.clone]

end Kinds

section Runs
variable {K : Type} [DecidableEq K] {keyField : UInt32} {s : FieldMap K}

theorem recalls_set {id : K} {field : UInt32} {f : Field} (h : ∀ id field, Recalls (s id field)) (hf : Recalls f) :
    ∀ id' field', Recalls (s.set id field f id' field') := by
  rintro id' field'
  unfold FieldMap.set
  split
  · exact hf
  · exact h id' field'

/-- One apt event: what is remembered stays what was written last. -/
theorem recalls_step (h : ∀ id field, Recalls (s id field)) {e : Access K} (ha : Apt keyField s e) :
    ∃ s', s.step keyField e = some s' ∧ ∀ id field, Recalls (s' id field) := by
  cases e with
  | gone ids =>
    refine ⟨_, rfl, fun id field => ?_⟩
    split
    · exact .inl ⟨rfl, rfl⟩
    · exact h id field
  | write id field value bOther =>
    by_cases hk : field = keyField
    · exact ⟨s, if_pos hk, h⟩
    · rcases ha.resolve_left hk with ⟨payload, hp, hs, hr⟩
      refine ⟨_, by rw [FieldMap.step, if_neg hk, hp, Option.map_some], recalls_set h (.inr ⟨_, _, _, rfl, rfl, ?_⟩)⟩
      rcases h id field with ⟨hrem, -⟩ | ⟨v, type, bytes, hrem, hlast, hv⟩
      · rw [hrem]
        exact hs
      · rw [hrem, writeField_eq hv hp]
        by_cases hb : bytes = payload
        · -- the value stays, and with it its type
          rw [if_pos hb]
          subst hb
          have ht : type = value.getType := by
            by_contra hne
            exact hr ⟨type, hne, hlast⟩
          exact ht ▸ hv
        · rw [if_neg hb]
          exact hs
  | writeRaw id field type data =>
    by_cases hk : field = keyField
    · exact ⟨s, if_pos hk, h⟩
    · have hs := ha.resolve_left hk
      rcases h id field with ⟨hrem, -⟩ | ⟨v, type', bytes, hrem, -, hv⟩
      · refine ⟨_, by rw [FieldMap.step, if_neg hk, hrem, writeRawField, Option.map_some], recalls_set h ?_⟩
        exact .inr ⟨_, _, _, rfl, rfl, hs⟩
      · refine ⟨_, by rw [FieldMap.step, if_neg hk, hrem, writeRawField_eq hv, Option.map_some], recalls_set h ?_⟩
        refine .inr ⟨_, _, _, rfl, rfl, ?_⟩
        by_cases hsame : type' = type ∧ bytes = data
        · rw [if_pos hsame]
          rcases hsame with ⟨rfl, rfl⟩
          exact hv
        · rw [if_neg hsame]
          exact hs

theorem recalls_run : ∀ {events : List (Access K)} {s : FieldMap K}, (∀ id field, Recalls (s id field)) →
    AptRun keyField s events → ∃ s', s.run keyField events = some s' ∧ ∀ id field, Recalls (s' id field)
  | [], s, h, _ => ⟨s, rfl, h⟩
  | e :: events, s, h, ha => by
    rcases ha with ⟨he, hrest⟩
    rcases recalls_step h he with ⟨s₁, hs₁, h₁⟩
    rcases recalls_run h₁ (hrest s₁ hs₁) with ⟨s', hs', h'⟩
    exact ⟨s', by rw [FieldMap.run, hs₁, Option.bind_some, hs'], h'⟩

end Runs

/-- Where what is remembered is what was written last, only a change of the type alone is decided
differently: `Write` does not see it. -/
theorem decideAlike_iff {f : Field} (h : Recalls f) {value : Content} {payload : Bytes}
    (hp : value.mkPayload = some payload) (bOther : Bool) :
    DecideAlike f value payload bOther ↔ ¬ Retyped f value.getType payload := by
  rcases h with ⟨hrem, hlast⟩ | ⟨v, type, bytes, hrem, hlast, hv⟩
  · constructor
    · rintro - ⟨other, -, ho⟩
      rw [hlast] at ho
      cases ho
    · rintro -
      refine ⟨?_, _, by rw [hrem, writeRawField], ?_⟩
      · simp [hrem, hlast, writeField]
      · simp [hlast]
  · have hraw : ∃ result, writeRawField f.remembered value.getType payload = some result ∧
        (result.1 = true ↔ f.last ≠ some (value.getType, payload)) := by
      refine ⟨_, by rw [hrem, writeRawField_eq hv], ?_⟩
      rw [hlast]
      by_cases hs : type = value.getType ∧ bytes = payload
      · simp [hs]
      · simp [hs]
    constructor
    · rintro ⟨hw, -⟩ ⟨other, hne, ho⟩
      rw [hlast, Option.some.injEq, Prod.mk.injEq] at ho
      rcases ho with ⟨rfl, rfl⟩
      rw [hrem, writeField_eq hv hp, if_pos rfl, hlast] at hw
      simp [hne] at hw
    · rintro hr
      refine ⟨?_, hraw⟩
      rw [hrem, writeField_eq hv hp, hlast]
      by_cases hb : bytes = payload
      · subst hb
        have ht : type = value.getType := by
          by_contra hne
          exact hr ⟨type, hne, hlast⟩
        simp [ht]
      · simp [hb]

/-- Over any history of apt events, the two ways decide alike about a value unless it is the last one
under another type. -/
theorem write_paths_iff {K : Type} [DecidableEq K] (keyField : UInt32) {events : List (Access K)}
    (ha : AptRun keyField (FieldMap.init K) events) :
    ∃ s, (FieldMap.init K).run keyField events = some s ∧
      ∀ id field value payload bOther, value.mkPayload = some payload →
        (DecideAlike (s id field) value payload bOther ↔ ¬ Retyped (s id field) value.getType payload) := by
  have hinit : ∀ id field, Recalls (FieldMap.init K id field) := fun _ _ => .inl ⟨rfl, rfl⟩
  rcases recalls_run hinit ha with ⟨s, hs, h⟩
  exact ⟨s, hs, fun id field value payload bOther hp => decideAlike_iff (h id field) hp bOther⟩

theorem write_paths_of_numbers :
    AptRun 0 (FieldMap.init UInt64) [.write 7 1 (.flat varTypeUInt true [65]) true, .writeRaw 7 1 varTypeUInt [66]] ∧
      ∃ s, (FieldMap.init UInt64).run 0
          [.write 7 1 (.flat varTypeUInt true [65]) true, .writeRaw 7 1 varTypeUInt [66]] = some s ∧
        ∀ id field value payload bOther, value.mkPayload = some payload →
          (DecideAlike (s id field) value payload bOther ↔ ¬ Retyped (s id field) value.getType payload) := by
  have hrun : AptRun 0 (FieldMap.init UInt64)
      [.write 7 1 (.flat varTypeUInt true [65]) true, .writeRaw 7 1 varTypeUInt [66]] := by
    refine ⟨.inr ⟨[65], by rw [Content.mkPayload], ?_, ?_⟩, fun _ _ => ⟨.inr ?_, fun _ _ => trivial⟩⟩
    · exact says_assigned_flat.2 fun h => absurd h (by decide)
    · rintro ⟨other, -, ho⟩
      cases ho
    · exact says_ofBytes_iff.2 fun h => absurd h (by decide)
  exact ⟨hrun, write_paths_iff 0 hrun⟩

/-- The number 65 is written, then the text "A": `Write` sees no change, `WriteRaw` does. -/
theorem not_decideAlike_retyped :
    ∃ s, (FieldMap.init UInt64).run 0 [.write 7 1 (.flat varTypeUInt true [65]) false] = some s ∧
      ¬ DecideAlike (s 7 1) (.flat varTypeAscii true [65]) [65] false := by
  refine ⟨_, by rw [FieldMap.run, FieldMap.step, if_neg (by decide), Content.mkPayload]; rfl, ?_⟩
  rintro ⟨hw, -⟩
  have hsame : (assigned (.flat varTypeUInt true [65]) false).compareEqual (.flat varTypeAscii true [65]) := by
    have hold : assigned (.flat varTypeUInt true [65]) false = .flat varTypeUInt false [65] := rfl
    rw [Content.compareEqual, hold, Content.mkPayload, Content.mkPayload]
  simp only [FieldMap.set, FieldMap.init, and_self, if_true, writeField, hsame] at hw
  exact absurd (hw.2 (by decide)) (by decide)

/-! ## The tables of the cache -/

/-- A flat variant as an object. -/
def FlatVariant.content (value : FlatVariant) : Content := .flat value.type false value.payload

namespace VariantCache

variable {K : Type} [CacheKey K] [DecidableEq K]

/-- `Write` on the tables of the cache stores what `Write` of one field reports as changed. -/
theorem write_eq (c : VariantCache K) (id : K) (field : UInt32) (value : FlatVariant) (bOther : Bool) :
    c.write id field value =
      if field = c.keyField then some c
      else (c.mention id).map fun (c, entry) =>
        if (writeField ((entry.fields.findValue field).map FlatVariant.content) value.content bOther).1 then
          c.store id field value
        else c := by
  unfold write
  congr 1
  congr 1
  funext ⟨c', entry⟩
  simp only [storeUnless]
  rcases hf : entry.fields.findValue field with _ | old
  · simp [writeField]
  · have hc : old.content.compareEqual value.content ↔ old.payload = value.payload := by
      rw [Content.compareEqual, FlatVariant.content, FlatVariant.content, Content.mkPayload, Content.mkPayload,
        Option.some.injEq]
    by_cases hp : old.payload = value.payload
    · simp [writeField, hc, hp]
    · simp [writeField, hc, hp]

theorem writeRaw_eq (c : VariantCache K) (id : K) (field : UInt32) (type : EType) (data : Bytes) :
    c.writeRaw id field type data =
      if field = c.keyField then some c
      else (c.mention id).bind fun (c, entry) =>
        (writeRawField ((entry.fields.findValue field).map FlatVariant.content) type data).map fun result =>
          if result.1 then c.store id field ⟨type, data⟩ else c := by
  unfold writeRaw
  by_cases hk : field = c.keyField
  · rw [if_pos hk, if_pos hk]
  rw [if_neg hk, if_neg hk]
  rcases c.mention id with _ | ⟨c', entry⟩
  · rfl
  rw [Option.map_some, Option.bind_some]
  simp only [storeUnless]
  rcases hf : entry.fields.findValue field with _ | old
  · simp [writeRawField]
  · have hs : Says old.content old.type old.payload := says_flat false
    simp only [Option.map_some, writeRawField_eq hs]
    by_cases hsame : old.type = type ∧ old.payload = data
    · rcases hsame with ⟨rfl, rfl⟩
      simp
    · rw [if_neg hsame, if_pos rfl, if_neg]
      simp only [decide_eq_true_eq]
      exact fun h => hsame ⟨h.1, h.2.2⟩

end VariantCache

end MajorPrivacy.Cache

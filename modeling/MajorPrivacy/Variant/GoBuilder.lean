/-
Containers in Go (variant.go): a builder writes one entry after the other, and the look-ups read them back. A container
comes back whole exactly when every name fits its length byte, every value fits its length field, what is inserted twice
is the same twice, and no entry lies behind the length that the header of the container says.
-/
import MajorPrivacy.Variant.Container
import MajorPrivacy.Variant.Interop

namespace MajorPrivacy.Variant

open LittleEndian

/-! ## Variants and builders -/

/-- `Variant`: what the constructors, the builders and the decoder make. -/
@[ext] structure GoVariant where
  varType : EType
  data : Bytes
  valid : Valid varType data
  deriving DecidableEq

namespace GoVariant

/-- What the decoder makes is cut out behind a header that it could read. -/
theorem goFromBuffer_eq_ok {buffer : Bytes} {d : Decoded} : goFromBuffer buffer = .ok d ↔ ∃ typeByte ∈ buffer.head?,
    ∃ length bytesRead, goReadSize buffer typeByte = .ok (length, bytesRead) ∧ 1 + bytesRead + length ≤ buffer.length ∧
      d = ⟨typeByte &&& varTypeMask, (buffer.drop (1 + bytesRead)).take length, 1 + bytesRead + length⟩ := by
  obtain _ | ⟨typeByte, rest⟩ := buffer
  · exact ⟨nofun, nofun⟩
  unfold goFromBuffer
  dsimp only
  constructor
  · intro h
    split at h
    · exact nomatch h
    · rename_i hsize
      split at h
      · exact nomatch h
      · rename_i hfits
        exact ⟨typeByte, rfl, _, _, hsize, Nat.le_of_not_lt hfits, (Except.ok.inj h).symm⟩
  · rintro ⟨_, ⟨⟩, length, bytesRead, hsize, hfits, rfl⟩
    rw [hsize]
    exact if_neg (Nat.not_lt.2 hfits)

/-- What the decoder makes is masked, and empty when its type is. -/
theorem goFromBuffer_valid {buffer : Bytes} {d : Decoded} (h : goFromBuffer buffer = .ok d) : Valid d.type d.payload := by
  obtain ⟨typeByte, -, length, bytesRead, hsize, -, rfl⟩ := goFromBuffer_eq_ok.1 h
  refine ⟨type_idem typeByte, fun hempty => ?_⟩
  unfold goReadSize at hsize
  rw [if_pos hempty] at hsize
  cases hsize
  rfl

/-- `FromBuffer`. -/
def fromBuffer (buffer : Bytes) : Except GoError (GoVariant × Nat) :=
  match h : goFromBuffer buffer with
  | .error e => .error e
  | .ok d => .ok (⟨d.type, d.payload, goFromBuffer_valid h⟩, d.consumed)

/-- `ToBuffer`. -/
def toBuffer (v : GoVariant) : Bytes := goToBuffer v.varType v.data

/-- `Find`. -/
def find (v : GoVariant) (name : Bytes) : Except GoError Decoded := goFind v.varType v.data name

/-- `Get`. -/
def get (v : GoVariant) (index : UInt32) : Except GoError Decoded := goGet v.varType v.data index.toNat

/-- `At`. -/
def atPos (v : GoVariant) (pos : Int) : Except GoError Decoded := goAt v.varType v.data pos

/-- The bytes of a number of one, two, four or eight bytes; there are none of another size. -/
def numberData (value : UInt64) (size : Nat) : Bytes :=
  if size = 1 ∨ size = 2 ∨ size = 4 ∨ size = 8 then toLE size value.toNat else List.replicate size 0

/-- `NewUInt`. -/
def newUInt (value : UInt64) (size : Nat) : GoVariant := ⟨varTypeUInt, numberData value size, ⟨by decide, nofun⟩⟩

/-- `NewInt`. -/
def newInt (value : Int64) (size : Nat) : GoVariant := ⟨varTypeSInt, numberData value.toUInt64 size, ⟨by decide, nofun⟩⟩

/-- `NewString`. -/
def newString (value : Bytes) : GoVariant := ⟨varTypeAscii, value, ⟨by decide, nofun⟩⟩

end GoVariant

theorem ContainerKind.valid (kind : ContainerKind) (data : Bytes) : Valid kind.varType data := by
  cases kind <;> exact ⟨by decide, nofun⟩

/-- `VariantBuilder`. -/
structure VariantBuilder where
  kind : ContainerKind
  buf : Bytes
  err : Option GoError

namespace VariantBuilder

/-- `NewMapBuilder`, `NewListBuilder` and `NewIndexBuilder`. -/
def new (kind : ContainerKind) : VariantBuilder := ⟨kind, [], none⟩

/-- A key and a value, for builders of one kind. -/
def write (b : VariantBuilder) (kind : ContainerKind) (key : Bytes) (value : GoVariant) : VariantBuilder :=
  if b.err ≠ none then b
  else if b.kind ≠ kind then { b with err := some .errTypeMismatch }
  else { b with buf := b.buf ++ key ++ value.toBuffer }

/-- `Insert`. -/
def insert (b : VariantBuilder) (name : Bytes) (value : GoVariant) : VariantBuilder := b.write .map (nameKey name) value

/-- `InsertUInt`. -/
def insertUInt (b : VariantBuilder) (name : Bytes) (value : UInt64) (size : Nat) : VariantBuilder :=
  b.write .map (nameKey name) (.newUInt value size)

/-- `InsertInt`. -/
def insertInt (b : VariantBuilder) (name : Bytes) (value : Int64) (size : Nat) : VariantBuilder :=
  b.write .map (nameKey name) (.newInt value size)

/-- `InsertString`. -/
def insertString (b : VariantBuilder) (name value : Bytes) : VariantBuilder := b.write .map (nameKey name) (.newString value)

/-- `Add`. -/
def add (b : VariantBuilder) (index : UInt32) (value : GoVariant) : VariantBuilder := b.write .index (idKey index) value

/-- `AddUInt`. -/
def addUInt (b : VariantBuilder) (index : UInt32) (value : UInt64) (size : Nat) : VariantBuilder :=
  b.write .index (idKey index) (.newUInt value size)

/-- `Append`. -/
def append (b : VariantBuilder) (value : GoVariant) : VariantBuilder := b.write .list [] value

/-- `AppendUInt`. -/
def appendUInt (b : VariantBuilder) (value : UInt64) (size : Nat) : VariantBuilder := b.write .list [] (.newUInt value size)

/-- `AppendInt`. -/
def appendInt (b : VariantBuilder) (value : Int64) (size : Nat) : VariantBuilder := b.write .list [] (.newInt value size)

/-- `AppendString`. -/
def appendString (b : VariantBuilder) (value : Bytes) : VariantBuilder := b.write .list [] (.newString value)

/-- `Build`. -/
def build (b : VariantBuilder) : Except GoError GoVariant :=
  match b.err with
  | some e => .error e
  | none => .ok ⟨b.kind.varType, b.buf, b.kind.valid b.buf⟩

end VariantBuilder

/-- A call of a builder. -/
inductive Insertion
  | insert (name : Bytes) (value : GoVariant)
  | insertUInt (name : Bytes) (value : UInt64) (size : Nat)
  | insertInt (name : Bytes) (value : Int64) (size : Nat)
  | insertString (name value : Bytes)
  | add (index : UInt32) (value : GoVariant)
  | addUInt (index : UInt32) (value : UInt64) (size : Nat)
  | append (value : GoVariant)
  | appendUInt (value : UInt64) (size : Nat)
  | appendInt (value : Int64) (size : Nat)
  | appendString (value : Bytes)

def VariantBuilder.apply (b : VariantBuilder) : Insertion → VariantBuilder
  | .insert name value => b.insert name value
  | .insertUInt name value size => b.insertUInt name value size
  | .insertInt name value size => b.insertInt name value size
  | .insertString name value => b.insertString name value
  | .add index value => b.add index value
  | .addUInt index value size => b.addUInt index value size
  | .append value => b.append value
  | .appendUInt value size => b.appendUInt value size
  | .appendInt value size => b.appendInt value size
  | .appendString value => b.appendString value

namespace Insertion

/-- The value that is inserted. -/
def value : Insertion → GoVariant
  | insert _ value | add _ value | append value => value
  | insertUInt _ value size | addUInt _ value size | appendUInt value size => .newUInt value size
  | insertInt _ value size | appendInt value size => .newInt value size
  | insertString _ value | appendString value => .newString value

/-- The slot of the call that comes after `pos` others. -/
def slot (pos : Nat) : Insertion → Slot
  | insert name _ | insertUInt name _ _ | insertInt name _ _ | insertString name _ => .name name
  | add index _ | addUInt index _ _ => .id index
  | append _ | appendUInt _ _ | appendInt _ _ | appendString _ => .pos pos

end Insertion

/-- What the calls insert, the first of which comes after `pos` others. -/
def insertedFrom (pos : Nat) : List Insertion → List (Slot × GoVariant)
  | [] => []
  | op :: ops => (op.slot pos, op.value) :: insertedFrom (pos + 1) ops

/-- What comes back from a container under a slot. -/
def look (v : GoVariant) : Slot → Except GoError Decoded
  | .name name => v.find name
  | .id index => v.get index
  | .pos pos => v.atPos pos

/-- The container is read back, every slot has the value that was inserted there, and there are no others. -/
def RoundTrips (v : GoVariant) (es : List (Slot × GoVariant)) : Prop :=
  ∃ w read, GoVariant.fromBuffer v.toBuffer = .ok (w, read) ∧ w.varType = v.varType ∧
    (∀ e ∈ es, ∃ r, look w e.1 = .ok r ∧ r.element = (e.2.varType, e.2.data)) ∧
    (∀ slot r, look w slot = .ok r → slot ∈ es.map (·.1)) ∧ ∀ pos r, w.atPos pos = .ok r → 0 ≤ pos

/-! ## What a builder writes -/

/-- The key of a slot. -/
def slotKey : Slot → Bytes
  | .name name => nameKey name
  | .id index => idKey index
  | .pos _ => []

/-- An entry: its key and its value. -/
def entryBytes (e : Slot × GoVariant) : Bytes := slotKey e.1 ++ e.2.toBuffer

def encodeAll : List (Slot × GoVariant) → Bytes
  | [] => []
  | e :: es => entryBytes e ++ encodeAll es

/-- The slots a container of the kind has, for the entry at a position. -/
def SlotOf : ContainerKind → Nat → Slot → Prop
  | .map, _, .name _ => True
  | .index, _, .id _ => True
  | .list, pos, .pos p => p = pos
  | _, _, _ => False

def SlotsOf (kind : ContainerKind) : Nat → List (Slot × GoVariant) → Prop
  | _, [] => True
  | pos, e :: es => SlotOf kind pos e.1 ∧ SlotsOf kind (pos + 1) es

theorem VariantBuilder.apply_eq (b : VariantBuilder) (op : Insertion) (pos : Nat) :
    ∃ kind, b.apply op = b.write kind (slotKey (op.slot pos)) op.value ∧ ∀ kind', SlotOf kind' pos (op.slot pos) ↔ kind' = kind := by
  cases op with
  | insert | insertUInt | insertInt | insertString => exact ⟨.map, rfl, fun kind' => by cases kind' <;> simp [SlotOf, Insertion.slot]⟩
  | add | addUInt => exact ⟨.index, rfl, fun kind' => by cases kind' <;> simp [SlotOf, Insertion.slot]⟩
  | append | appendUInt | appendInt | appendString =>
    exact ⟨.list, rfl, fun kind' => by cases kind' <;> simp [SlotOf, Insertion.slot]⟩

theorem VariantBuilder.foldl_failed {b : VariantBuilder} (h : b.err ≠ none) : ∀ ops : List Insertion, (ops.foldl VariantBuilder.apply b) = b
  | [] => rfl
  | op :: ops => by
    obtain ⟨kind, heq, -⟩ := b.apply_eq op 0
    have hstay : b.apply op = b := heq.trans (if_pos h)
    rw [List.foldl_cons, hstay]
    exact foldl_failed h ops

/-- A builder that reports no error has written all entries, and only for its own kind. -/
theorem VariantBuilder.foldl_apply : ∀ (ops : List Insertion) (b : VariantBuilder) (pos : Nat),
    (ops.foldl VariantBuilder.apply b).err = none →
      (ops.foldl VariantBuilder.apply b).kind = b.kind ∧
        (ops.foldl VariantBuilder.apply b).buf = b.buf ++ encodeAll (insertedFrom pos ops) ∧ SlotsOf b.kind pos (insertedFrom pos ops)
  | [], b, _, _ => ⟨rfl, (List.append_nil _).symm, trivial⟩
  | op :: ops, b, pos, h => by
    rw [List.foldl_cons] at h ⊢
    have hnext : (b.apply op).err = none := by
      by_contra hne
      rw [foldl_failed hne] at h
      exact hne h
    obtain ⟨hkind, hbuf, hslots⟩ := foldl_apply ops (b.apply op) (pos + 1) h
    obtain ⟨kind, heq, hslot⟩ := b.apply_eq op pos
    rw [heq] at hnext hkind hbuf hslots ⊢
    unfold write at hnext hkind hbuf hslots ⊢
    by_cases hfailed : b.err ≠ none
    · rw [if_pos hfailed] at hnext
      exact absurd hnext hfailed
    by_cases hother : b.kind ≠ kind
    · rw [if_neg hfailed, if_pos hother] at hnext
      exact nomatch hnext
    rw [if_neg hfailed, if_neg hother] at hkind hbuf hslots ⊢
    refine ⟨hkind, ?_, (hslot _).2 (not_not.1 hother), hslots⟩
    rw [hbuf]
    show b.buf ++ slotKey (op.slot pos) ++ op.value.toBuffer ++ _ = b.buf ++ (slotKey (op.slot pos) ++ op.value.toBuffer ++ _)
    simp only [List.append_assoc]

/-! ## Values are read back, and nothing of them when they are cut -/

namespace GoVariant

variable {v : GoVariant}

/-- The header says the size of the payload as far as its field has room. -/
theorem header_goHeader (v : GoVariant) : Header v.varType (v.data.length % 2 ^ 32) (goHeader v.varType v.data.length) := by
  by_cases hlen : v.data.length < 2 ^ 32
  · rw [Nat.mod_eq_of_lt hlen]
    exact goHeader_header v.valid.type_eq hlen fun he => List.length_eq_zero_iff.2 (v.valid.empty he)
  · have hne : v.varType ≠ varTypeEmpty := by
      intro he
      rw [v.valid.empty he, List.length_nil] at hlen
      omega
    have hfield : goHeader v.varType v.data.length =
        (v.varType ||| varLenField ||| varLen32) :: toLE (fieldWidth varLen32) (v.data.length % 2 ^ 32) := by
      have hmod : toLE 4 v.data.length = toLE 4 (v.data.length % 2 ^ 32) := (toLE_mod 4 v.data.length).symm
      unfold goHeader
      rw [if_neg hne, if_neg (by omega), if_neg (by omega), if_neg (by omega), if_neg (by omega), if_pos (by omega), hmod]
      rfl
    rw [hfield]
    exact header_field v.valid.type_eq (by decide) (by decide) hne (Nat.mod_lt _ (by decide))

/-- What follows the header is the payload, as much of it as the header says. -/
theorem goFromBuffer_toBuffer (v : GoVariant) (rest : Bytes) : goFromBuffer (v.toBuffer ++ rest) =
    .ok ⟨v.varType, v.data.take (v.data.length % 2 ^ 32), (goHeader v.varType v.data.length).length + v.data.length % 2 ^ 32⟩ := by
  have hle : v.data.length % 2 ^ 32 ≤ v.data.length := Nat.mod_le _ _
  have hheader := header_goHeader v
  have hlen : (v.data.take (v.data.length % 2 ^ 32)).length = v.data.length % 2 ^ 32 := List.length_take_of_le hle
  rw [← hlen] at hheader
  have hread := hheader.goFromBuffer (v.data.drop (v.data.length % 2 ^ 32) ++ rest)
  rw [hlen] at hread
  rw [← hread]
  congr 1
  unfold toBuffer goToBuffer
  simp only [List.append_assoc]
  rw [← List.append_assoc (v.data.take _), List.take_append_drop]

end GoVariant

/-- A decoder that has succeeded does not read what follows. -/
theorem goReadSize_append {typeByte t : UInt8} {l rest : Bytes} {r : Nat × Nat} (h : goReadSize (typeByte :: l) t = .ok r) :
    goReadSize (typeByte :: (l ++ rest)) t = .ok r := by
  unfold goReadSize at h ⊢
  have hfield : ∀ w, (if (typeByte :: l).length < 1 + w then (.error .errBufferTooSmall : Except GoError (Nat × Nat))
        else .ok (ofLE (((typeByte :: l).drop 1).take w), w)) = .ok r →
      (if (typeByte :: (l ++ rest)).length < 1 + w then (.error .errBufferTooSmall : Except GoError (Nat × Nat))
        else .ok (ofLE (((typeByte :: (l ++ rest)).drop 1).take w), w)) = .ok r := by
    intro w h
    by_cases hshort : (typeByte :: l).length < 1 + w
    · rw [if_pos hshort] at h
      exact nomatch h
    rw [if_neg hshort] at h
    rw [List.length_cons] at hshort
    rw [if_neg (by rw [List.length_cons, List.length_append]; omega)]
    rw [List.drop_succ_cons, List.drop_zero] at h ⊢
    rw [List.take_append_of_le_length (by omega)]
    exact h
  by_cases hempty : t &&& varTypeMask = varTypeEmpty
  · rw [if_pos hempty] at h ⊢
    exact h
  rw [if_neg hempty] at h ⊢
  by_cases hf : t &&& varLenField ≠ 0
  · rw [if_pos hf] at h ⊢
    by_cases h8 : t &&& varLenMask = varLen8
    · rw [if_pos h8] at h ⊢
      exact hfield 1 h
    rw [if_neg h8] at h ⊢
    by_cases h16 : t &&& varLenMask = varLen16
    · rw [if_pos h16] at h ⊢
      exact hfield 2 h
    rw [if_neg h16] at h ⊢
    by_cases h32 : t &&& varLenMask = varLen32
    · rw [if_pos h32] at h ⊢
      exact hfield 4 h
    · rw [if_neg h32] at h
      exact nomatch h
  · rw [if_neg hf] at h ⊢
    exact h

theorem goFromBuffer_append {l : Bytes} {d : Decoded} (h : goFromBuffer l = .ok d) (rest : Bytes) :
    goFromBuffer (l ++ rest) = .ok d ∧ d.consumed ≤ l.length := by
  obtain ⟨typeByte, hhead, length, bytesRead, hsize, hfits, rfl⟩ := GoVariant.goFromBuffer_eq_ok.1 h
  obtain ⟨l, rfl⟩ := List.head?_eq_some_iff.1 hhead
  refine ⟨GoVariant.goFromBuffer_eq_ok.2 ⟨typeByte, rfl, length, bytesRead, goReadSize_append hsize, ?_, ?_⟩, hfits⟩
  · rw [List.length_append]
    omega
  · rw [List.drop_append_of_le_length (by omega), List.take_append_of_le_length (by rw [List.length_drop]; omega)]

/-- Of a value that is cut nothing is read. -/
theorem GoVariant.goFromBuffer_take {v : GoVariant} (hlen : v.data.length < 2 ^ 32) {n : Nat} (hn : n < v.toBuffer.length)
    (d : Decoded) : goFromBuffer (v.toBuffer.take n) ≠ .ok d := by
  intro h
  obtain ⟨hfull, hle⟩ := goFromBuffer_append h (v.toBuffer.drop n)
  rw [List.take_append_drop, ← List.append_nil v.toBuffer, v.goFromBuffer_toBuffer, Nat.mod_eq_of_lt hlen] at hfull
  cases hfull
  rw [List.length_take] at hle
  unfold toBuffer goToBuffer at hle hn
  rw [List.length_append] at hle hn
  dsimp only at hle
  omega

theorem GoVariant.toBuffer_ne_nil (v : GoVariant) : v.toBuffer ≠ [] := by
  have hne := v.header_goHeader.ne_nil
  unfold toBuffer goToBuffer
  exact List.append_ne_nil_of_left_ne_nil hne _

/-! ## The look-ups as one loop -/

/-- The key of the entry at a position, and what is behind it. -/
def readSlot : ContainerKind → Nat → Bytes → Option (Slot × Bytes)
  | .map, _, [] => none
  | .map, _, keyLen :: data =>
    if keyLen.toNat > data.length then none else some (.name (data.take keyLen.toNat), data.drop keyLen.toNat)
  | .index, _, data => if data.length < 4 then none else some (.id (UInt32.ofNat (ofLE (data.take 4))), data.drop 4)
  | .list, pos, data => if data = [] then none else some (.pos pos, data)

theorem readSlot_map (pos : Nat) (keyLen : UInt8) (data : Bytes) : readSlot .map pos (keyLen :: data) =
    if keyLen.toNat > data.length then none else some (.name (data.take keyLen.toNat), data.drop keyLen.toNat) := rfl

theorem readSlot_index (pos : Nat) (data : Bytes) : readSlot .index pos data =
    if data.length < 4 then none else some (.id (UInt32.ofNat (ofLE (data.take 4))), data.drop 4) := rfl

theorem readSlot_list (pos : Nat) (data : Bytes) : readSlot .list pos data = if data = [] then none else some (.pos pos, data) := rfl

def lookLoop (kind : ContainerKind) (slot : Slot) : Nat → Nat → Bytes → Except GoError Decoded
  | 0, _, _ => .error .errNotFound
  | fuel + 1, pos, data =>
    match readSlot kind pos data with
    | none => .error .errNotFound
    | some (key, data) =>
      if key = slot then goFromBuffer data
      else match goFromBuffer data with
        | .error e => .error e
        | .ok skipped => lookLoop kind slot fuel (pos + 1) (data.drop skipped.consumed)

theorem goFindLoop_eq (name : Bytes) : ∀ fuel pos data, goFindLoop name fuel data = lookLoop .map (.name name) fuel pos data
  | 0, _, _ => rfl
  | fuel + 1, _, [] => rfl
  | fuel + 1, pos, keyLen :: data => by
    unfold goFindLoop lookLoop
    rw [readSlot_map]
    by_cases hshort : keyLen.toNat > data.length
    · rw [if_pos hshort, if_pos hshort]
    rw [if_neg hshort, if_neg hshort]
    simp only [Slot.name.injEq]
    refine ite_congr rfl (fun _ => rfl) fun _ => ?_
    cases goFromBuffer (data.drop keyLen.toNat) with
    | error e => rfl
    | ok skipped => exact goFindLoop_eq name fuel (pos + 1) _

theorem goGetLoop_eq (index : UInt32) : ∀ fuel pos data, goGetLoop index.toNat fuel data = lookLoop .index (.id index) fuel pos data
  | 0, _, _ => rfl
  | fuel + 1, pos, data => by
    unfold goGetLoop lookLoop
    rw [readSlot_index]
    by_cases hshort : data.length < 4
    · rw [if_pos hshort, if_pos hshort]
    rw [if_neg hshort, if_neg hshort]
    simp only [Slot.id.injEq]
    have hlt : ofLE (data.take 4) < 2 ^ 32 := by
      have h := ofLE_lt (data.take 4)
      rwa [List.length_take_of_le (by omega)] at h
    have hsame : ofLE (data.take 4) = index.toNat ↔ UInt32.ofNat (ofLE (data.take 4)) = index := by
      rw [← UInt32.toNat_inj, UInt32.toNat_ofNat_of_lt' hlt]
    refine ite_congr (propext hsame) (fun _ => rfl) fun _ => ?_
    cases goFromBuffer (data.drop 4) with
    | error e => rfl
    | ok skipped => exact goGetLoop_eq index fuel (pos + 1) _

theorem goAtLoop_eq (p : Nat) : ∀ fuel pos data, goAtLoop fuel ((p : Int) - (pos : Nat)) data = lookLoop .list (.pos p) fuel pos data
  | 0, _, _ => rfl
  | fuel + 1, pos, data => by
    unfold goAtLoop lookLoop
    rw [readSlot_list]
    by_cases hnil : data = []
    · rw [if_pos hnil, if_pos hnil]
    rw [if_neg hnil, if_neg hnil]
    simp only [Slot.pos.injEq]
    refine ite_congr (propext (by omega)) (fun _ => rfl) fun _ => ?_
    cases goFromBuffer data with
    | error e => rfl
    | ok skipped =>
      have hrec := goAtLoop_eq p fuel (pos + 1) (data.drop skipped.consumed)
      rw [Nat.cast_add, Nat.cast_one, ← Int.sub_sub] at hrec
      exact hrec

/-- Behind the last position there is nothing, and before the first neither. -/
theorem goAtLoop_neg : ∀ (fuel : Nat) (pos : Int) (data : Bytes) (r : Decoded), goAtLoop fuel pos data = .ok r → 0 ≤ pos
  | 0, _, _, _, h => by cases h
  | fuel + 1, pos, data, r, h => by
    unfold goAtLoop at h
    by_cases hnil : data = []
    · rw [if_pos hnil] at h
      cases h
    rw [if_neg hnil] at h
    by_cases hpos : pos = 0
    · omega
    rw [if_neg hpos] at h
    obtain ⟨e, hskip⟩ | ⟨skipped, hskip⟩ : (∃ e, goFromBuffer data = .error e) ∨ ∃ d, goFromBuffer data = .ok d := by
      cases goFromBuffer data <;> simp
    · simp only [hskip] at h
      cases h
    · simp only [hskip] at h
      have hrec := goAtLoop_neg fuel (pos - 1) _ r h
      omega

def slotKind : Slot → ContainerKind
  | .name _ => .map
  | .id _ => .index
  | .pos _ => .list

theorem look_eq {w : GoVariant} {kind : ContainerKind} (hw : w.varType = kind.varType) (slot : Slot) :
    look w slot = if kind = slotKind slot then lookLoop kind slot (w.data.length + 1) 0 w.data else .error .errTypeMismatch := by
  cases slot with
  | name name =>
    show goFind w.varType w.data name = _
    unfold goFind
    rw [hw]
    cases kind
    · exact goFindLoop_eq name _ 0 _
    · rfl
    · rfl
  | id index =>
    show goGet w.varType w.data index.toNat = _
    unfold goGet
    rw [hw]
    cases kind
    · rfl
    · rfl
    · exact goGetLoop_eq index _ 0 _
  | pos pos =>
    show goAt w.varType w.data pos = _
    unfold goAt
    rw [hw]
    cases kind
    · rfl
    · have heq := goAtLoop_eq pos (w.data.length + 1) 0 w.data
      rw [Nat.cast_zero, Int.sub_zero] at heq
      exact heq
    · rfl

/-! ## What the loop finds -/

/-- A name that its length byte has room for. -/
def Slot.Writable : Slot → Prop
  | .name bytes => bytes.length < 256
  | _ => True

/-- The value under a slot among the entries that lie in the first `room` bytes. -/
def lookupWithin (slot : Slot) : List (Slot × GoVariant) → Nat → Option GoVariant
  | [], _ => none
  | e :: es, room =>
    if (entryBytes e).length ≤ room then
      if e.1 = slot then some e.2 else lookupWithin slot es (room - (entryBytes e).length)
    else none

theorem readSlot_slotKey {kind : ContainerKind} {pos : Nat} {slot : Slot} (hslot : SlotOf kind pos slot) (hw : slot.Writable)
    {rest : Bytes} (hrest : rest ≠ []) : readSlot kind pos (slotKey slot ++ rest) = some (slot, rest) := by
  cases slot with
  | name name =>
    cases kind <;> first | exact hslot.elim | skip
    have hlen : (UInt8.ofNat name.length).toNat = name.length := toNat_nameLength hw
    show readSlot .map pos (UInt8.ofNat name.length :: (name ++ rest)) = _
    rw [readSlot_map, hlen, if_neg (by rw [List.length_append]; omega), List.take_left, List.drop_left]
  | id index =>
    cases kind <;> first | exact hslot.elim | skip
    have hlen : (toLE 4 index.toNat).length = 4 := length_toLE 4 _
    have hid : ofLE (toLE 4 index.toNat) = index.toNat := ofLE_toLE_of_lt index.toNat_lt
    show readSlot .index pos (toLE 4 index.toNat ++ rest) = _
    rw [readSlot_index, if_neg (by rw [List.length_append]; omega), List.take_left' hlen, List.drop_left' hlen, hid, UInt32.ofNat_toNat]
  | pos p =>
    cases kind <;> first | exact hslot.elim | skip
    obtain rfl : p = pos := hslot
    exact if_neg hrest

/-- Behind a key that is cut, or that nothing follows, there is nothing. -/
theorem readSlot_take {kind : ContainerKind} {pos : Nat} {slot key : Slot} (hslot : SlotOf kind pos slot) (hw : slot.Writable)
    {n : Nat} (hn : n ≤ (slotKey slot).length) {rest : Bytes} (h : readSlot kind pos ((slotKey slot).take n) = some (key, rest)) :
    rest = [] := by
  cases slot with
  | name name =>
    cases kind <;> first | exact hslot.elim | skip
    have hlen : (UInt8.ofNat name.length).toNat = name.length := toNat_nameLength hw
    obtain _ | n := n
    · exact nomatch h
    change readSlot .map pos (UInt8.ofNat name.length :: name.take n) = _ at h
    rw [readSlot_map, hlen] at h
    by_cases hshort : name.length > (name.take n).length
    · rw [if_pos hshort] at h
      exact nomatch h
    rw [if_neg hshort] at h
    cases h
    exact List.drop_eq_nil_of_le (List.length_take_le' n name)
  | id index =>
    cases kind <;> first | exact hslot.elim | skip
    have hlen : (toLE 4 index.toNat).length = 4 := length_toLE 4 _
    change n ≤ (toLE 4 index.toNat).length at hn
    change readSlot .index pos ((toLE 4 index.toNat).take n) = _ at h
    rw [readSlot_index] at h
    by_cases hshort : ((toLE 4 index.toNat).take n).length < 4
    · rw [if_pos hshort] at h
      exact nomatch h
    rw [if_neg hshort] at h
    cases h
    exact List.drop_eq_nil_of_le (by rw [List.length_take]; omega)
  | pos p =>
    cases kind <;> first | exact hslot.elim | skip
    change readSlot .list pos (List.take n []) = _ at h
    rw [List.take_nil] at h
    exact nomatch h

theorem readSlot_nil (kind : ContainerKind) (pos : Nat) : readSlot kind pos [] = none := by
  cases kind <;> rfl

/-- Entries that can be read back: names and values their length fields have room for. -/
def Readable (es : List (Slot × GoVariant)) : Prop := ∀ e ∈ es, e.1.Writable ∧ e.2.data.length < 2 ^ 32

theorem GoVariant.goFromBuffer_readable {v : GoVariant} (hlen : v.data.length < 2 ^ 32) (rest : Bytes) :
    goFromBuffer (v.toBuffer ++ rest) = .ok ⟨v.varType, v.data, v.toBuffer.length⟩ := by
  rw [v.goFromBuffer_toBuffer, Nat.mod_eq_of_lt hlen, List.take_length]
  unfold toBuffer goToBuffer
  rw [List.length_append]

/-- An entry that is not whole ends the search. -/
theorem lookLoop_cut {kind : ContainerKind} {slot : Slot} {pos fuel n : Nat} {e : Slot × GoVariant} (hslot : SlotOf kind pos e.1)
    (hw : e.1.Writable) (hlen : e.2.data.length < 2 ^ 32) (hn : n < (entryBytes e).length) (d : Decoded) :
    lookLoop kind slot fuel pos ((entryBytes e).take n) ≠ .ok d := by
  intro h
  obtain _ | fuel := fuel
  · exact nomatch h
  unfold lookLoop at h
  -- whatever is behind the key, no value can be read from it
  have hnone : ∀ key rest, readSlot kind pos ((entryBytes e).take n) = some (key, rest) → ∀ d, goFromBuffer rest ≠ .ok d := by
    intro key rest hread
    unfold entryBytes at hread hn
    rw [List.length_append] at hn
    by_cases hkey : n ≤ (slotKey e.1).length
    · rw [List.take_append_of_le_length hkey] at hread
      rw [readSlot_take hslot hw hkey hread]
      exact fun _ => nofun
    · have hrest : e.2.toBuffer.take (n - (slotKey e.1).length) ≠ [] := by
        refine List.ne_nil_of_length_pos ?_
        rw [List.length_take]
        omega
      rw [List.take_append, List.take_of_length_le (by omega), readSlot_slotKey hslot hw hrest] at hread
      cases hread
      exact e.2.goFromBuffer_take hlen (by omega)
  obtain hread | ⟨⟨key, rest⟩, hread⟩ := Option.eq_none_or_eq_some (readSlot kind pos ((entryBytes e).take n))
  · simp only [hread] at h
    exact nomatch h
  simp only [hread] at h
  by_cases hsame : key = slot
  · rw [if_pos hsame] at h
    exact hnone key rest hread d h
  rw [if_neg hsame] at h
  obtain ⟨err, hskip⟩ | ⟨skipped, hskip⟩ : (∃ err, goFromBuffer rest = .error err) ∨ ∃ d, goFromBuffer rest = .ok d := by
    cases goFromBuffer rest <;> simp
  · simp only [hskip] at h
    exact nomatch h
  · exact hnone key rest hread skipped hskip

theorem lookLoop_take {kind : ContainerKind} (slot : Slot) : ∀ (es : List (Slot × GoVariant)) (fuel pos room : Nat),
    SlotsOf kind pos es → Readable es → ((encodeAll es).take room).length < fuel →
      (lookLoop kind slot fuel pos ((encodeAll es).take room)).toOption.map Decoded.element =
        (lookupWithin slot es room).map fun v => (v.varType, v.data)
  | _, 0, _, _, _, _, hfuel => absurd hfuel (Nat.not_lt_zero _)
  | [], fuel + 1, pos, room, _, _, _ => by
    unfold encodeAll lookLoop
    rw [List.take_nil, readSlot_nil]
    rfl
  | e :: es, fuel + 1, pos, room, hslots, hreadable, hfuel => by
    obtain ⟨hslot, hslots⟩ := hslots
    obtain ⟨⟨hw, hlen⟩, hreadable⟩ := List.forall_mem_cons.1 hreadable
    unfold encodeAll lookupWithin
    by_cases hroom : (entryBytes e).length ≤ room
    case neg =>
      rw [if_neg hroom, List.take_append_of_le_length (by omega)]
      cases hloop : lookLoop kind slot (fuel + 1) pos ((entryBytes e).take room) with
      | error err => rfl
      | ok d => exact absurd hloop (lookLoop_cut hslot hw hlen (by omega) d)
    have hpos : 0 < (entryBytes e).length := by
      unfold entryBytes
      rw [List.length_append]
      have hvalue := List.length_pos_iff.2 e.2.toBuffer_ne_nil
      omega
    rw [encodeAll, List.take_append, List.take_of_length_le hroom, List.length_append] at hfuel
    rw [if_pos hroom, List.take_append, List.take_of_length_le hroom]
    have ih := lookLoop_take slot es fuel (pos + 1) (room - (entryBytes e).length) hslots hreadable (by omega)
    generalize (encodeAll es).take (room - (entryBytes e).length) = rest at ih ⊢
    have hrest : e.2.toBuffer ++ rest ≠ [] := List.append_ne_nil_of_left_ne_nil e.2.toBuffer_ne_nil _
    unfold entryBytes lookLoop
    rw [List.append_assoc, readSlot_slotKey hslot hw hrest]
    dsimp only
    rw [GoVariant.goFromBuffer_readable hlen]
    by_cases hsame : e.1 = slot
    · rw [if_pos hsame, if_pos hsame]
      rfl
    · rw [if_neg hsame, if_neg hsame]
      dsimp only
      rw [List.drop_left]
      exact ih

/-! ## What lies within the room -/

/-- An entry with the slot ends within the room. -/
def ReachedWithin (es : List (Slot × GoVariant)) (slot : Slot) (room : Nat) : Prop :=
  ∃ pre e post, es = pre ++ e :: post ∧ e.1 = slot ∧ (encodeAll (pre ++ [e])).length ≤ room

theorem reachedWithin_of_lookup {slot : Slot} {v : GoVariant} : ∀ {es : List (Slot × GoVariant)} {room : Nat},
    lookupWithin slot es room = some v → ReachedWithin es slot room ∧ (slot, v) ∈ es
  | [], _, h => nomatch h
  | e :: es, room, h => by
    unfold lookupWithin at h
    by_cases hroom : (entryBytes e).length ≤ room
    case neg =>
      rw [if_neg hroom] at h
      exact nomatch h
    rw [if_pos hroom] at h
    by_cases hsame : e.1 = slot
    · rw [if_pos hsame] at h
      cases h
      refine ⟨⟨[], e, es, rfl, hsame, ?_⟩, ?_⟩
      · rw [List.nil_append, encodeAll, encodeAll, List.append_nil]
        exact hroom
      · rw [← hsame]
        exact List.mem_cons_self
    · rw [if_neg hsame] at h
      obtain ⟨⟨pre, e', post, rfl, hslot, hle⟩, hmem⟩ := reachedWithin_of_lookup h
      refine ⟨⟨e :: pre, e', post, rfl, hslot, ?_⟩, List.mem_cons_of_mem _ hmem⟩
      rw [List.cons_append, encodeAll, List.length_append]
      omega

theorem lookup_of_reachedWithin {slot : Slot} : ∀ {es : List (Slot × GoVariant)} {room : Nat},
    ReachedWithin es slot room → ∃ v, lookupWithin slot es room = some v
  | [], _, ⟨pre, e, post, heq, _, _⟩ => absurd heq (by simp)
  | e :: es, room, ⟨pre, e', post, heq, hslot, hle⟩ => by
    unfold lookupWithin
    have hroom : (entryBytes e).length ≤ room := by
      obtain _ | ⟨c, pre⟩ := pre
      · obtain ⟨rfl, rfl⟩ := List.cons.inj heq
        rw [List.nil_append, encodeAll, encodeAll, List.append_nil] at hle
        exact hle
      · obtain ⟨rfl, rfl⟩ := List.cons.inj heq
        rw [List.cons_append, encodeAll, List.length_append] at hle
        omega
    rw [if_pos hroom]
    by_cases hsame : e.1 = slot
    · exact ⟨e.2, if_pos hsame⟩
    · rw [if_neg hsame]
      obtain _ | ⟨c, pre⟩ := pre
      · obtain ⟨rfl, rfl⟩ := List.cons.inj heq
        exact absurd hslot hsame
      · obtain ⟨rfl, rfl⟩ := List.cons.inj heq
        refine lookup_of_reachedWithin ⟨pre, e', post, rfl, hslot, ?_⟩
        rw [List.cons_append, encodeAll, List.length_append] at hle
        omega

/-! ## Only what can be read back is found -/

theorem readSlot_writable {kind : ContainerKind} {pos : Nat} {data rest : Bytes} {slot : Slot}
    (h : readSlot kind pos data = some (slot, rest)) : slot.Writable := by
  cases kind with
  | map =>
    obtain _ | ⟨keyLen, data⟩ := data
    · exact nomatch h
    rw [readSlot_map] at h
    obtain ⟨hle, heq⟩ := Option.ite_none_left_eq_some.1 h
    cases heq
    show (data.take keyLen.toNat).length < 256
    have hbyte := keyLen.toNat_lt
    rw [List.length_take]
    omega
  | list =>
    rw [readSlot_list] at h
    obtain ⟨-, heq⟩ := Option.ite_none_left_eq_some.1 h
    cases heq
    trivial
  | index =>
    rw [readSlot_index] at h
    obtain ⟨-, heq⟩ := Option.ite_none_left_eq_some.1 h
    cases heq
    trivial

theorem goReadSize_lt {buffer : Bytes} {typeByte : UInt8} {length bytesRead : Nat} (h : goReadSize buffer typeByte = .ok (length, bytesRead)) :
    length < 2 ^ 32 := by
  have hfield : ∀ w, w ≤ 4 → ofLE ((buffer.drop 1).take w) < 2 ^ 32 := by
    intro w hw
    have hlt := ofLE_lt ((buffer.drop 1).take w)
    have hpow : 256 ^ ((buffer.drop 1).take w).length ≤ 256 ^ 4 :=
      Nat.pow_le_pow_right (by omega) (by rw [List.length_take]; omega)
    omega
  unfold goReadSize at h
  split_ifs at h <;> cases h
  · decide
  · exact hfield 1 (by omega)
  · exact hfield 2 (by omega)
  · exact hfield 4 (by omega)
  · unfold implicitSize
    split_ifs <;> decide

theorem goFromBuffer_lt {buffer : Bytes} {d : Decoded} (h : goFromBuffer buffer = .ok d) : d.payload.length < 2 ^ 32 := by
  obtain ⟨typeByte, -, length, bytesRead, hsize, -, rfl⟩ := GoVariant.goFromBuffer_eq_ok.1 h
  have hlt := goReadSize_lt hsize
  dsimp only
  rw [List.length_take]
  omega

theorem lookLoop_readable {kind : ContainerKind} {slot : Slot} : ∀ {fuel pos : Nat} {data : Bytes} {r : Decoded},
    lookLoop kind slot fuel pos data = .ok r → slot.Writable ∧ r.payload.length < 2 ^ 32
  | 0, _, _, _, h => nomatch h
  | fuel + 1, pos, data, r, h => by
    unfold lookLoop at h
    obtain hread | ⟨⟨key, rest⟩, hread⟩ := Option.eq_none_or_eq_some (readSlot kind pos data)
    · simp only [hread] at h
      exact nomatch h
    simp only [hread] at h
    by_cases hsame : key = slot
    · rw [if_pos hsame] at h
      subst hsame
      exact ⟨readSlot_writable hread, goFromBuffer_lt h⟩
    rw [if_neg hsame] at h
    obtain ⟨err, hskip⟩ | ⟨skipped, hskip⟩ : (∃ err, goFromBuffer rest = .error err) ∨ ∃ d, goFromBuffer rest = .ok d := by
      cases goFromBuffer rest <;> simp
    · simp only [hskip] at h
      exact nomatch h
    · simp only [hskip] at h
      exact lookLoop_readable h

theorem look_readable {w : GoVariant} {kind : ContainerKind} (hw : w.varType = kind.varType) {slot : Slot} {r : Decoded}
    (h : look w slot = .ok r) : slot.Writable ∧ r.payload.length < 2 ^ 32 := by
  rw [look_eq hw] at h
  by_cases hkind : kind = slotKind slot
  · rw [if_pos hkind] at h
    exact lookLoop_readable h
  · rw [if_neg hkind] at h
    exact nomatch h

/-! ## Round trips -/

theorem slotKind_of_mem {kind : ContainerKind} : ∀ {es : List (Slot × GoVariant)} {pos : Nat} {e : Slot × GoVariant},
    SlotsOf kind pos es → e ∈ es → kind = slotKind e.1
  | e' :: es, pos, e, ⟨hslot, hslots⟩, he => by
    obtain rfl | he := List.mem_cons.1 he
    · generalize e.1 = slot at hslot
      cases slot <;> cases kind <;> first | rfl | exact hslot.elim
    · exact slotKind_of_mem hslots he

/-- What is found in a container is what lies within the length that its header said. -/
theorem look_take {w : GoVariant} {kind : ContainerKind} {es : List (Slot × GoVariant)} {room : Nat} (hw : w.varType = kind.varType)
    (hdata : w.data = (encodeAll es).take room) (hslots : SlotsOf kind 0 es) (hreadable : Readable es) (slot : Slot) :
    (look w slot).toOption.map Decoded.element = (lookupWithin slot es room).map fun v => (v.varType, v.data) := by
  rw [look_eq hw]
  by_cases hkind : kind = slotKind slot
  · rw [if_pos hkind, hdata]
    exact lookLoop_take slot es _ 0 room hslots hreadable (Nat.lt_succ_self _)
  · rw [if_neg hkind]
    cases hlook : lookupWithin slot es room with
    | none => rfl
    | some v => exact absurd (slotKind_of_mem hslots (reachedWithin_of_lookup hlook).2) hkind

/-- Every name fits its length byte and every value its length field, what is inserted twice is the same twice, and an entry
with each slot lies within the length that the header of the container says. -/
structure Insertable (es : List (Slot × GoVariant)) : Prop where
  readable : Readable es
  same : ∀ e ∈ es, ∀ e' ∈ es, e.1 = e'.1 → e.2 = e'.2
  reached : ∀ e ∈ es, ReachedWithin es e.1 ((encodeAll es).length % 2 ^ 32)

theorem GoVariant.fromBuffer_eq {buffer : Bytes} {d : Decoded} (h : goFromBuffer buffer = .ok d) :
    fromBuffer buffer = .ok (⟨d.type, d.payload, goFromBuffer_valid h⟩, d.consumed) := by
  unfold fromBuffer
  split
  case h_1 e heq => exact absurd (heq.symm.trans h) nofun
  case h_2 d' heq =>
    obtain rfl := Except.ok.inj (heq.symm.trans h)
    rfl

theorem GoVariant.fromBuffer_toBuffer (v : GoVariant) : ∃ w read, fromBuffer v.toBuffer = .ok (w, read) ∧
    w.varType = v.varType ∧ w.data = v.data.take (v.data.length % 2 ^ 32) := by
  have hread := v.goFromBuffer_toBuffer []
  rw [List.append_nil] at hread
  exact ⟨_, _, fromBuffer_eq hread, rfl, rfl⟩

theorem GoVariant.eq_of_element {v v' : GoVariant} (h : (v.varType, v.data) = (v'.varType, v'.data)) : v = v' :=
  GoVariant.ext (Prod.mk.inj h).1 (Prod.mk.inj h).2

theorem look_ok_iff {w : GoVariant} {slot : Slot} {element : EType × Bytes} :
    (∃ r, look w slot = .ok r ∧ r.element = element) ↔ (look w slot).toOption.map Decoded.element = some element := by
  cases hlook : look w slot with
  | error e => exact ⟨nofun, nofun⟩
  | ok r => exact ⟨fun ⟨_, heq, he⟩ => by cases heq; exact congrArg some he, fun h => ⟨r, rfl, Option.some.inj h⟩⟩

theorem roundTrips_iff_insertable {v : GoVariant} {kind : ContainerKind} {es : List (Slot × GoVariant)} (hv : v.varType = kind.varType)
    (hdata : v.data = encodeAll es) (hslots : SlotsOf kind 0 es) : RoundTrips v es ↔ Insertable es := by
  obtain ⟨w, read, hread, hw, htake⟩ := v.fromBuffer_toBuffer
  rw [hdata] at htake
  have hkind : w.varType = kind.varType := hw.trans hv
  constructor
  · rintro ⟨w', read', hread', -, hfound, -, -⟩
    obtain ⟨rfl, -⟩ := Prod.mk.inj (Except.ok.inj (hread.symm.trans hread'))
    have hreadable : Readable es := by
      intro e he
      obtain ⟨r, hr, helement⟩ := hfound e he
      obtain ⟨hwritable, hlen⟩ := look_readable hkind hr
      exact ⟨hwritable, by rw [← (Prod.mk.inj helement).2]; exact hlen⟩
    have hvalue : ∀ e ∈ es, lookupWithin e.1 es ((encodeAll es).length % 2 ^ 32) = some e.2 := by
      intro e he
      have hlook := look_ok_iff.1 (hfound e he)
      rw [look_take hkind htake hslots hreadable] at hlook
      obtain ⟨v', hv', heq⟩ := Option.map_eq_some_iff.1 hlook
      rw [hv', GoVariant.eq_of_element heq]
    refine ⟨hreadable, fun e he e' he' hsame => ?_, fun e he => (reachedWithin_of_lookup (hvalue e he)).1⟩
    have hvalue' := hvalue e' he'
    rw [← hsame, hvalue e he] at hvalue'
    exact Option.some.inj hvalue'
  · intro h
    refine ⟨w, read, hread, hw, fun e he => ?_, fun slot r hr => ?_, fun pos r hr => ?_⟩
    · rw [look_ok_iff, look_take hkind htake hslots h.readable]
      obtain ⟨v', hv'⟩ := lookup_of_reachedWithin (h.reached e he)
      obtain ⟨-, hmem⟩ := reachedWithin_of_lookup hv'
      have hsame : v' = e.2 := h.same _ hmem e he rfl
      rw [hv', hsame]
      rfl
    · have hlook := look_ok_iff.1 ⟨r, hr, rfl⟩
      rw [look_take hkind htake hslots h.readable] at hlook
      obtain ⟨v', hv', -⟩ := Option.map_eq_some_iff.1 hlook
      exact List.mem_map_of_mem (reachedWithin_of_lookup hv').2
    · change goAt w.varType w.data pos = .ok r at hr
      unfold goAt at hr
      by_cases hlist : w.varType ≠ varTypeList
      · rw [if_pos hlist] at hr
        exact nomatch hr
      · rw [if_neg hlist] at hr
        exact goAtLoop_neg _ _ _ _ hr

/-- A builder reports an error, or the container it makes comes back whole exactly when what was inserted is insertable. -/
theorem build_roundTrips_iff (kind : ContainerKind) (ops : List Insertion) :
    (∃ e, (ops.foldl VariantBuilder.apply (.new kind)).build = .error e) ∨
      ∃ v, (ops.foldl VariantBuilder.apply (.new kind)).build = .ok v ∧
        (RoundTrips v (insertedFrom 0 ops) ↔ Insertable (insertedFrom 0 ops)) := by
  have hrun := VariantBuilder.foldl_apply ops (.new kind) 0
  unfold VariantBuilder.build
  cases herr : (ops.foldl VariantBuilder.apply (.new kind)).err with
  | some e => exact .inl ⟨e, rfl⟩
  | none =>
    obtain ⟨hkind, hbuf, hslots⟩ := hrun herr
    exact .inr ⟨_, rfl, roundTrips_iff_insertable (congrArg ContainerKind.varType hkind) hbuf hslots⟩

/-- A name of 256 bytes gets the length byte 0. -/
def longName : List Insertion := [.insertUInt (List.replicate 256 0x61) 7 1]

theorem not_roundTrips_longName : ∃ v, (longName.foldl VariantBuilder.apply (.new .map)).build = .ok v ∧
    ¬ RoundTrips v (insertedFrom 0 longName) := by
  have hrun := VariantBuilder.foldl_apply longName (.new .map) 0
  have hbuild : ∀ b : VariantBuilder, b.err = none → b.build = .ok ⟨b.kind.varType, b.buf, b.kind.valid b.buf⟩ := by
    intro b hb
    unfold VariantBuilder.build
    rw [hb]
  have hnone : (longName.foldl VariantBuilder.apply (.new .map)).err = none := rfl
  obtain ⟨hkind, hbuf, hslots⟩ := hrun hnone
  refine ⟨_, hbuild _ hnone, fun h => ?_⟩
  have hinsertable := (roundTrips_iff_insertable (congrArg ContainerKind.varType hkind) hbuf hslots).1 h
  have hname : (List.replicate 256 (0x61 : UInt8)).length < 256 := (hinsertable.readable _ (List.mem_singleton.2 rfl)).1
  rw [List.length_replicate] at hname
  omega

end MajorPrivacy.Variant

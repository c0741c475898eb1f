/-
A record in a variant: an index of its fields by id, or a map of them by name. Whatever the record is,
its reader is given the fields in the order in which they were written.
-/
import MajorPrivacy.Firewall.Fields
import MajorPrivacy.Variant.Interop

namespace MajorPrivacy.Records

open LittleEndian MajorPrivacy.Firewall
open MajorPrivacy.Variant hiding Value

/-- The fields of a record, with the id each has in an index, and the name in a map if it has one. -/
class RecordField (F : Type) where
  toId : F → UInt32
  key : F → Option Bytes
  ofId : UInt32 → Option F
  ofName : Bytes → Option F
  ofId_toId : ∀ f, ofId (toId f) = some f
  ofName_key : ∀ f s, key f = some s → ofName s = some f
  length_key : ∀ f s, key f = some s → s.length < 256

namespace Record

section Definitions
variable {F T : Type} [RecordField F]

/-- What `Finish` returns after these fields. -/
def finish (fields : List (F × Value)) : EFormat → Value
  | .eIndex => (varTypeIndex, writeEntries idKey (fields.map fun f => (RecordField.toId f.1, f.2)))
  | .eMap => (varTypeMap, writeEntries nameKey (fields.map fun f => ((RecordField.key f.1).getD [], f.2)))

/-- What the callback of a reader does with an entry; a tag that is not known is left out. -/
def readEntry (read : T → Value → F → Except EResult T) (r : T) (f : Option F) (data : Value) : Except EResult T :=
  match f with
  | none => .ok r
  | some f => read r data f

/-- The two readers over the entries of a variant, if it is one they are for. -/
def fromVariant (read : EFormat → T → Value → F → Except EResult T) (r : T) (v : Value) : Except EResult (Option T) :=
  if v.1 = varTypeMap then
    let (entries, err) := readRawMap v.2
    (entries.foldlM (fun r e => readEntry (read .eMap) r (RecordField.ofName e.1) e.2) r).bind fun r => err.elim (.ok (some r)) .error
  else if v.1 = varTypeIndex then
    let (entries, err) := readRawIndex v.2
    (entries.foldlM (fun r e => readEntry (read .eIndex) r (RecordField.ofId (.ofNat e.1)) e.2) r).bind fun r =>
      err.elim (.ok (some r)) .error
  else .ok none

/-- The loop over the fields. -/
def readAll (read : T → Value → F → Except EResult T) (fields : List (F × Value)) (r : T) : Except EResult T :=
  fields.foldlM (fun r f => read r f.2 f.1) r

/-- The fields as a variant that goes through a packet and is read. -/
def readBack (read : EFormat → T → Value → F → Except EResult T) (fields : List (F × Value)) (format : EFormat) (target : T) :
    Except EResult (Option T) :=
  (readPacket (toPacket (finish fields format).1 (finish fields format).2)).bind fun packet =>
    fromVariant read target (packet.1, packet.2.1)

end Definitions

section Fields
variable {F T : Type} {read : T → Value → F → Except EResult T}

theorem bind_ok {α β : Type} (a : α) (f : α → Except EResult β) : (Except.ok a : Except EResult α).bind f = f a := (rfl)

theorem map_ok {α β : Type} (a : α) (f : α → β) : (Except.ok a : Except EResult α).map f = .ok (f a) := (rfl)

theorem readAll_nil (r : T) : readAll read [] r = .ok r := (rfl)

theorem readAll_cons (f : F × Value) (fields : List (F × Value)) (r : T) :
    readAll read (f :: fields) r = (read r f.2 f.1).bind (readAll read fields) :=
  List.foldlM_cons

theorem readAll_append (fields fields' : List (F × Value)) (r : T) :
    readAll read (fields ++ fields') r = (readAll read fields r).bind (readAll read fields') :=
  List.foldlM_append

theorem readAll_congr {read' : T → Value → F → Except EResult T} : ∀ (fields : List (F × Value)) (r : T),
    (∀ f ∈ fields, ∀ r v, read r v f.1 = read' r v f.1) → readAll read fields r = readAll read' fields r
  | [], _, _ => rfl
  | f :: fields, r, hread => by
    rw [List.forall_mem_cons] at hread
    rw [readAll_cons, readAll_cons, hread.1]
    exact congrArg _ (funext fun r => readAll_congr fields r hread.2)

/-- A reader that leaves some fields to the reader of a part. -/
theorem readAll_part {P : Type} {readPart : P → Value → F → Except EResult P} (get : T → P) (set : T → P → T) (hget : ∀ r p, get (set r p) = p)
    (hset : ∀ r p p', set (set r p) p' = set r p') (hself : ∀ r, set r (get r) = r) : ∀ (fields : List (F × Value)) (r : T),
    (∀ f ∈ fields, ∀ r v, read r v f.1 = (readPart (get r) v f.1).map (set r)) →
    readAll read fields r = (readAll readPart fields (get r)).map (set r)
  | [], r, _ => by rw [readAll_nil, readAll_nil, map_ok, hself]
  | f :: fields, r, hread => by
    rw [List.forall_mem_cons] at hread
    rw [readAll_cons, readAll_cons, hread.1]
    rcases readPart (get r) f.2 f.1 with _ | p
    · rfl
    · rw [map_ok, bind_ok, bind_ok, readAll_part get set hget hset hself fields (set r p) hread.2, hget]
      exact congrArg (fun g => (readAll readPart fields p).map g) (funext fun p' => hset r p p')

/-- The keys are those of the fields. -/
theorem foldlM_readEntry {K : Type} (key : F → K) (ofKey : K → Option F) : ∀ (fields : List (F × Value)) (r : T),
    (∀ f ∈ fields, ofKey (key f.1) = some f.1) →
    (fields.map fun f => (key f.1, f.2)).foldlM (fun r e => readEntry read r (ofKey e.1) e.2) r = readAll read fields r
  | [], _, _ => rfl
  | f :: fields, r, hkey => by
    rw [List.forall_mem_cons] at hkey
    rw [List.map_cons, List.foldlM_cons, readAll, List.foldlM_cons, hkey.1, readEntry]
    exact congrArg _ (funext fun r => foldlM_readEntry key ofKey fields r hkey.2)

theorem length_le_writeEntries {K : Type} (key : K → Bytes) (g : F → K) : ∀ (fields : List (F × Value)), ∀ f ∈ fields,
    f.2.2.length ≤ (writeEntries key (fields.map fun f => (g f.1, f.2))).length
  | [], f, hf => by cases hf
  | e :: fields, f, hf => by
    have hcons : (writeEntries key ((e :: fields).map fun f => (g f.1, f.2))).length =
        (key (g e.1)).length + ((packetHeader e.2.1 e.2.2.length).length + e.2.2.length) +
          (writeEntries key (fields.map fun f => (g f.1, f.2))).length := by
      simp only [writeEntries, List.map_cons, List.flatMap_cons, List.length_append, toPacket]
    rcases List.mem_cons.1 hf with rfl | hf
    · omega
    · have := length_le_writeEntries key g fields f hf
      omega

end Fields

section Finish
variable {F : Type} [RecordField F] (fields : List (F × Value))

/-- A field is no longer than the variant it is in. -/
theorem length_le_finish (format : EFormat) : ∀ f ∈ fields, f.2.2.length ≤ (finish fields format).2.length := by
  cases format with
  | eIndex => exact length_le_writeEntries idKey RecordField.toId fields
  | eMap => exact length_le_writeEntries nameKey (fun f => (RecordField.key f).getD []) fields

/-- Every field that is written in a format has its key there. -/
def Named : EFormat → Prop
  | .eIndex => True
  | .eMap => ∀ f ∈ fields, RecordField.key f.1 ≠ none

theorem Named.key_eq (h : Named fields .eMap) : ∀ f ∈ fields, RecordField.key f.1 = some ((RecordField.key f.1).getD []) := fun f hf => by
  rcases hkey : RecordField.key f.1 with _ | s
  · exact absurd hkey (h f hf)
  · rfl

variable {T : Type} (read : EFormat → T → Value → F → Except EResult T) (target : T) {fields}
  (hvalid : ∀ f ∈ fields, Valid f.2.1 f.2.2)
include hvalid

/-- What was written is read field by field. -/
theorem fromVariant_finish {format : EFormat} (hnamed : Named fields format) (hfits : (finish fields format).2.length < invalidSize) :
    fromVariant read target (finish fields format) = (readAll (read format) fields target).map some := by
  have hle : (finish fields format).2.length ≤ ulongMax := Nat.le_of_lt hfits
  have hfinish : ∀ x : Except EResult T, (x.bind fun r => (none : Option EResult).elim (.ok (some r)) .error) = x.map some :=
    fun x => by cases x <;> rfl
  cases format with
  | eIndex =>
    have hes : Entries idKey (fields.map fun f => (RecordField.toId f.1, f.2)) (finish fields .eIndex).2 := by
      refine entries_writeEntries idKey ?_
      simp only [List.forall_mem_map]
      exact hvalid
    have hraw : readRawIndex (finish fields .eIndex).2 = (fields.map fun f => ((RecordField.toId f.1).toNat, f.2), none) := by
      have hread := readRawIndexLoop_entries _ _ _ hes hle (Nat.lt_succ_of_le (hes.length_le hle))
      rwa [List.map_map] at hread
    have hfold := @foldlM_readEntry F T (read .eIndex) Nat (fun f => (RecordField.toId f).toNat)
      (fun n => RecordField.ofId (.ofNat n)) fields target fun f _ => by rw [UInt32.ofNat_toNat, RecordField.ofId_toId]
    have htype : (finish fields .eIndex).1 = varTypeIndex := rfl
    have hmap : varTypeIndex ≠ varTypeMap := by decide
    rw [fromVariant, if_neg (htype ▸ hmap), if_pos htype, hraw]
    dsimp only
    rw [hfold]
    exact hfinish _
  | eMap =>
    have hkey := hnamed.key_eq
    have hes : Entries nameKey (fields.map fun f => ((RecordField.key f.1).getD [], f.2)) (finish fields .eMap).2 := by
      refine entries_writeEntries nameKey ?_
      simp only [List.forall_mem_map]
      exact hvalid
    have hnames : ShortNames (fields.map fun f => ((RecordField.key f.1).getD [], f.2)) := by
      simp only [ShortNames, List.forall_mem_map]
      exact fun f hf => RecordField.length_key f.1 _ (hkey f hf)
    have hraw : readRawMap (finish fields .eMap).2 = (fields.map fun f => ((RecordField.key f.1).getD [], f.2), none) :=
      readRawMapLoop_entries _ _ _ hes hle hnames (Nat.lt_succ_of_le (hes.length_le hle))
    have hfold := @foldlM_readEntry F T (read .eMap) Bytes (fun f => (RecordField.key f).getD [])
      RecordField.ofName fields target fun f hf => RecordField.ofName_key f.1 _ (hkey f hf)
    have htype : (finish fields .eMap).1 = varTypeMap := rfl
    rw [fromVariant, if_pos htype, hraw]
    dsimp only
    rw [hfold]
    exact hfinish _

/-- Fields that were written come back through a packet one by one. -/
theorem readBack_eq {format : EFormat} (hnamed : Named fields format) (hfits : (finish fields format).2.length < invalidSize) :
    readBack read fields format target = (readAll (read format) fields target).map some := by
  have hindex : TextType varTypeIndex := ⟨by decide, by decide⟩
  have hmap : TextType varTypeMap := ⟨by decide, by decide⟩
  have htype : TextType (finish fields format).1 := by
    cases format with
    | eIndex => exact hindex
    | eMap => exact hmap
  rw [readBack, readPacket_toPacket htype hfits, bind_ok]
  exact fromVariant_finish read target hvalid hnamed hfits

end Finish

end Record

end MajorPrivacy.Records

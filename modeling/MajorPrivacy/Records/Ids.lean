/-
Ids in a record. A single id is read with `FromVariant`, which knows both forms of a GUID; an id in a list
is read from the text of the element, which sixteen bytes do not have.
-/
import MajorPrivacy.Records.Fields

namespace MajorPrivacy.Records

open LittleEndian MajorPrivacy.Firewall
open MajorPrivacy.Variant hiding Value
open MajorPrivacy.Guid hiding Value
open Guid.CFlexGuid hiding isAscii

/-! ## Writing and reading -/

/-- An id with `eTextGuids` or without. -/
def idValue (bTextGuids : Bool) (g : CFlexGuid) : Value := valueOf (g.toVariant bTextGuids)

/-- `FromVariant` of what is read. -/
def readId (g : CFlexGuid) (v : Value) : CFlexGuid := g.fromVariant (.flat v.1 true v.2)

/-- The id a string of a list is made to. -/
def readIdText (doubleText : Bytes → Str) (v : Value) : CFlexGuid := ofText (.wide (asStr doubleText v))

def isNull (g : CFlexGuid) : Bool := g.value = .null

/-- A text that no id is read from but the one that has it. -/
def NoGuid (codes : List Nat) : Prop := codes ≠ [] ∧ (readGuid codes).1 = none

instance (codes : List Nat) : Decidable (NoGuid codes) := inferInstanceAs (Decidable (_ ∧ _))

/-- Ids that are read back from a variant. -/
def ByVariant (bTextGuids : Bool) (g : CFlexGuid) : Prop :=
  match g.value with
  | .null => True
  | .regular _ => bTextGuids = true → g.lowerCaseMask = 0
  | .unicode str => NoGuid (str.map (·.toNat)) ∧ CFlexGuid.isAscii str = false
  | .ascii str => NoGuid (str.map (·.toNat))

/-- Ids that are read back from the text of a variant. -/
def ByText (bTextGuids : Bool) (g : CFlexGuid) : Prop :=
  match g.value with
  | .null => True
  | .regular _ => bTextGuids = true ∧ g.lowerCaseMask = 0
  | .unicode str => NoGuid (str.map (·.toNat)) ∧ CFlexGuid.isAscii str = false
  | .ascii str => NoGuid (str.map (·.toNat)) ∧ ∀ c ∈ str, c < 0x80

/-- An id whose text fits a variant. -/
def FitsId (g : CFlexGuid) : Prop := 2 * g.toWString.length < invalidSize

theorem fitsId_new : FitsId .new := by
  unfold FitsId
  decide

/-! ## What is written -/

section Write
variable {mask : UInt32} {bTextGuids : Bool}

theorem idValue_null : idValue bTextGuids ⟨.null, mask⟩ = (varTypeEmpty, []) := by
  rw [idValue, CFlexGuid.toVariant, valueOf, data_flat]
  rfl

theorem length_wideBytes_two (str : List UInt16) : (wideBytes str).length = 2 * str.length := by
  induction str with
  | nil => rfl
  | cons c str ih =>
    have hcons : (wideBytes (c :: str)).length = 2 + (wideBytes str).length := by
      simp only [wideBytes, List.flatMap_cons, List.length_append, length_toLE]
    rw [hcons, ih, List.length_cons]
    omega

theorem idValue_unicode {str : List UInt16} (h : FitsId ⟨.unicode str, mask⟩) :
    idValue bTextGuids ⟨.unicode str, mask⟩ = .str str := by
  have hlen : (wideBytes str).length < invalidSize := by
    rw [length_wideBytes_two]
    exact h
  rw [idValue, toVariant_unicode mask bTextGuids hlen, valueOf, data_flat]
  rfl

theorem idValue_ascii {str : Bytes} (h : FitsId ⟨.ascii str, mask⟩) : idValue bTextGuids ⟨.ascii str, mask⟩ = .ascii str := by
  have hwide : 2 * (widen str).length < invalidSize := h
  have hlen : str.length < invalidSize := by
    rw [widen, List.length_map] at hwide
    omega
  rw [idValue, toVariant_ascii mask bTextGuids hlen, valueOf, data_flat]
  rfl

theorem idValue_text (guid : SGuid) : idValue true ⟨.regular guid, mask⟩ = .ascii (guidText guid mask) := by
  rw [idValue, toVariant_text, valueOf, data_flat]
  rfl

theorem idValue_bytes (guid : SGuid) : idValue false ⟨.regular guid, mask⟩ =
    (varTypeBytes, guid.data ++ if mask ≠ 0 then toLE 4 mask.toNat else []) := by
  have hlen : (guid.data ++ if mask ≠ 0 then toLE 4 mask.toNat else []).length < invalidSize := by
    rw [List.length_append, guid.size]
    split
    · rw [length_toLE]
      decide
    · decide
  have hvariant : (⟨.regular guid, mask⟩ : CFlexGuid).toVariant false =
      .flat varTypeBytes false (guid.data ++ if mask ≠ 0 then toLE 4 mask.toNat else []) := initValue_eq textType_bytes hlen
  rw [idValue, hvariant, valueOf, data_flat]
  rfl

theorem valid_idValue {g : CFlexGuid} (h : FitsId g) : Valid (idValue bTextGuids g).1 (idValue bTextGuids g).2 := by
  rcases g with ⟨value, mask⟩
  cases value with
  | null =>
    rw [idValue_null]
    exact ⟨by decide, fun _ => rfl⟩
  | regular guid =>
    cases bTextGuids with
    | true =>
      rw [idValue_text]
      exact valid_ascii _
    | false =>
      rw [idValue_bytes]
      exact ⟨textType_bytes.mask, fun h => absurd h textType_bytes.ne_empty⟩
  | unicode str =>
    rw [idValue_unicode h]
    exact valid_str str
  | ascii str =>
    rw [idValue_ascii h]
    exact valid_ascii str

end Write

/-! ## Texts -/

/-- An id has the text of another for its own when this is a text at all and is kept as such. -/
theorem key_ofText_text (t : Text) (isAscii : Bool) :
    (ofText t).key = (if isAscii then 3 else 2) :: t.codes.length :: compared t.codes ↔ NoGuid t.codes ∧ t.isAscii = isAscii := by
  have hkey : (if isAscii then 3 else 2) :: t.codes.length :: compared t.codes =
      (Reading.text isAscii t.codes.length (compared t.codes)).key := rfl
  rw [key_ofText, hkey, Reading.key_injective.eq_iff, Text.read, NoGuid]
  by_cases hnil : t.codes = []
  · simp [hnil]
  · rcases (readGuid t.codes).1 with _ | guid
    · simp [hnil]
    · simp [hnil]

/-- The text of a GUID gives it back unless it was in another case. -/
theorem key_ofText_guid {t : Text} {guid : SGuid} {mask : UInt32} (h : t.IsGuidText guid mask) :
    (ofText t).key = (⟨.regular guid, mask⟩ : CFlexGuid).key ↔ mask = 0 := by
  have hguid : (⟨.regular guid, mask⟩ : CFlexGuid).key = 1 :: (guid.data.map (·.toNat) ++ [mask.toNat]) := rfl
  rw [key_ofText, hguid]
  constructor
  · rintro heq
    rcases hread : t.read with _ | g | ⟨isAscii, length, characters⟩
    · rw [hread] at heq
      cases heq
    · rw [hread] at heq
      have hlast := congrArg List.getLast? (List.cons_eq_cons.1 heq).2
      rw [List.getLast?_concat, List.getLast?_concat, Option.some_inj] at hlast
      exact UInt32.toNat_inj.1 hlast.symm
    · rw [hread] at heq
      cases isAscii <;> cases heq
  · rintro rfl
    have hcase : ¬ ((∃ c ∈ t.codes, IsUpper c) ∧ ∃ c ∈ t.codes, IsLower c) := by
      rintro ⟨-, c, hc, hlower⟩
      rw [show t.codes = _ from h, List.mem_map] at hc
      rcases hc with ⟨b, hb, rfl⟩
      exact guidText_zero_not_lower guid b hb hlower
    rw [Text.Plain.read_guid h hcase]
    rfl

theorem asStr_ascii (doubleText : Bytes → Str) (s : Bytes) : asStr doubleText (.ascii s) = widen s := by
  have hascii : varTypeAscii ≠ varTypeEmpty ∧ varTypeAscii ≠ varTypeUnicode := by decide
  rw [Firewall.Value.ascii, asStr, if_pos (.inl rfl), Firewall.toWString, if_neg hascii.1, if_neg hascii.2, if_pos (.inl rfl)]

theorem codes_widen {str : Bytes} (h : ∀ c ∈ str, c < 0x80) : (Text.wide (widen str)).codes = str.map (·.toNat) := by
  rw [Text.codes, widen_of_ascii h, List.map_map]
  exact List.map_congr_left fun c _ => UInt8.toNat_toUInt16 c

theorem isAscii_widen (str : Bytes) : CFlexGuid.isAscii (widen str) = true ↔ ∀ c ∈ str, c < 0x80 := by
  have hall : ∀ n : Fin 256, decide ((if UInt8.ofNat n < 0x80 then (UInt8.ofNat n).toUInt16 else (UInt8.ofNat n).toUInt16 + 0xFF00) ≤ 0x7F) =
      decide (UInt8.ofNat n < 0x80) := by
    decide +kernel
  have hchar : ∀ c : UInt8, decide ((if c < 0x80 then c.toUInt16 else c.toUInt16 + 0xFF00) ≤ 0x7F) = decide (c < 0x80) := fun c => by
    have hc := hall ⟨c.toNat, c.toNat_lt⟩
    rwa [UInt8.ofNat_toNat] at hc
  rw [CFlexGuid.isAscii, widen, List.all_map, List.all_eq_true]
  exact forall₂_congr fun c _ => by rw [Function.comp_apply, hchar, decide_eq_true_eq]

/-! ## What is read back -/

section Read
variable {bTextGuids : Bool} {g : CFlexGuid}

/-- The ids that come back from a list. -/
theorem readIdText_compare (doubleText : Bytes → Str) (h : FitsId g) :
    (readIdText doubleText (idValue bTextGuids g)).compare g = .eq ↔ ByText bTextGuids g := by
  rw [compare_eq_iff]
  rcases g with ⟨value, mask⟩
  cases value with
  | null =>
    rw [idValue_null]
    exact iff_of_true rfl trivial
  | regular guid =>
    cases bTextGuids with
    | true =>
      have hascii := guidText_ascii guid mask
      have htext : (Text.wide (widen (guidText guid mask))).IsGuidText guid mask := codes_widen hascii
      rw [idValue_text, readIdText, asStr_ascii, key_ofText_guid htext]
      exact (and_iff_right rfl).symm
    | false =>
      -- sixteen or twenty bytes are too few characters for a GUID
      refine iff_of_false ?_ fun h => by cases h.1
      rw [idValue_bytes]
      generalize hbytes : guid.data ++ (if mask ≠ 0 then toLE 4 mask.toNat else []) = bytes
      have hlen : bytes.length < 32 := by
        rw [← hbytes, List.length_append, guid.size]
        split
        · rw [length_toLE]
          decide
        · decide
      have hstr : asStr doubleText (varTypeBytes, bytes) = widen bytes := by
        have hb : varTypeBytes ≠ varTypeEmpty ∧ varTypeBytes ≠ varTypeUnicode := by decide
        rw [asStr, if_pos (.inr (.inl rfl)), Firewall.toWString, if_neg hb.1, if_neg hb.2, if_pos (.inr rfl)]
      have hcodes : (Text.wide (widen bytes)).codes.length < 32 := by
        rwa [Text.codes, List.length_map, widen, List.length_map]
      have hnone : (readGuid (Text.wide (widen bytes)).codes).1 = none := by
        rw [readGuid, parseGuid, if_pos hcodes]
        rfl
      rw [readIdText, hstr, key_ofText, Text.read, hnone]
      rintro heq
      split at heq
      · cases heq
      · rcases h : (Text.wide (widen bytes)).isAscii with _ | _
        · rw [h] at heq
          cases heq
        · rw [h] at heq
          cases heq
  | unicode str =>
    have hkey := key_ofText_text (.wide str) false
    simp only [Text.codes, Text.isAscii, List.length_map] at hkey
    rw [idValue_unicode h, readIdText, asStr_str]
    exact hkey
  | ascii str =>
    rw [idValue_ascii h, readIdText, asStr_ascii]
    by_cases hascii : ∀ c ∈ str, c < 0x80
    · have hkey := key_ofText_text (.wide (widen str)) true
      rw [codes_widen hascii, List.length_map] at hkey
      exact hkey.trans (and_congr_right fun _ => isAscii_widen str)
    · refine iff_of_false ?_ fun h => hascii h.2
      have hwide : (Text.wide (widen str)).isAscii = false := Bool.eq_false_iff.2 fun h => hascii ((isAscii_widen str).1 h)
      rw [key_ofText, Text.read]
      rintro heq
      split at heq
      · cases heq
      · split at heq
        · cases heq
        · rw [hwide] at heq
          cases heq

/-- Twenty bytes are a GUID and its mask. -/
theorem readId_masked (guid : SGuid) (mask : UInt32) (target : CFlexGuid) :
    readId target (varTypeBytes, guid.data ++ toLE 4 mask.toNat) = ⟨.regular guid, mask⟩ := by
  have hbytes : ¬ (varTypeBytes = varTypeUInt ∨ varTypeBytes = varTypeSInt) := by decide
  have hlen : (guid.data ++ toLE 4 mask.toNat).length = 20 := by rw [List.length_append, guid.size, length_toLE]
  have htake : (guid.data ++ toLE 4 mask.toNat).take 16 = guid.data := by rw [← guid.size, List.take_left]
  have hdrop : (guid.data ++ toLE 4 mask.toNat).drop 16 = toLE 4 mask.toNat := by rw [← guid.size, List.drop_left]
  have hmask : mask.toNat < 256 ^ 4 := mask.toNat_lt
  simp only [readId, CFlexGuid.fromVariant, data_flat, Content.getType]
  rw [if_neg fun h => hbytes h.1, if_neg fun h => by omega, if_pos ⟨trivial, hlen⟩, htake, hdrop, ofLE_toLE_of_lt hmask,
    UInt32.ofNat_toNat, setRegularGuid, dif_pos guid.size]

/-- Nothing is read from a string without characters. -/
theorem fromVariant_nil {type : EType} (hutf8 : type ≠ varTypeUtf8) :
    CFlexGuid.new.fromVariant (.flat type true []) = .new := by
  simp only [CFlexGuid.fromVariant, data_flat, Content.getType, List.length_nil]
  rw [if_neg (by omega), if_neg (by omega), if_neg (by omega), if_neg (by omega), if_neg (by omega), if_neg fun h => hutf8 h.1]
  rfl

/-- The ids that come back into an object that has none. -/
theorem readId_compare (h : FitsId g) : (readId .new (idValue bTextGuids g)).compare g = .eq ↔ ByVariant bTextGuids g := by
  have hnew : CFlexGuid.new.clear = .new := rfl
  rw [compare_eq_iff]
  rcases g with ⟨value, mask⟩
  cases value with
  | null =>
    rw [idValue_null, readId, fromVariant_empty]
    exact iff_of_true rfl trivial
  | regular guid =>
    cases bTextGuids with
    | true =>
      have hne : guidText guid mask ≠ [] := by rw [guidText]; exact List.cons_ne_nil _ _
      have htext : (Text.narrow (guidText guid mask)).IsGuidText guid mask := rfl
      rw [idValue_text, readId, Firewall.Value.ascii, fromVariant_ascii _ _ hne, fromAString_of_clear hnew, key_ofText_guid htext]
      exact ⟨fun h _ => h, fun h => h rfl⟩
    | false =>
      refine iff_of_true ?_ fun h => by cases h
      rw [idValue_bytes]
      by_cases hmask : mask = 0
      · rw [if_neg (not_not.2 hmask), List.append_nil, readId, fromVariant_bytes, hmask]
        rfl
      · rw [if_pos hmask, readId_masked]
  | unicode str =>
    rw [idValue_unicode h, readId, Firewall.Value.str]
    by_cases hnil : str = []
    · have hnull : CFlexGuid.new.fromVariant (.flat varTypeUnicode true (wideBytes [])) = .new := fromVariant_nil (by decide)
      refine iff_of_false ?_ fun h => h.1.1 (by rw [hnil]; rfl)
      rw [hnil, hnull]
      rintro heq
      cases heq
    · have hlen : 2 ≤ (wideBytes str).length := by
        have := List.length_pos_of_ne_nil hnil
        rw [length_wideBytes_two]
        omega
      have hkey := key_ofText_text (.wide str) false
      simp only [Text.codes, Text.isAscii, List.length_map] at hkey
      rw [fromVariant_unicode _ _ hlen, wideUnits_wideBytes, fromWString_of_clear hnew]
      exact hkey
  | ascii str =>
    rw [idValue_ascii h, readId, Firewall.Value.ascii]
    by_cases hnil : str = []
    · have hnull : CFlexGuid.new.fromVariant (.flat varTypeAscii true []) = .new := fromVariant_nil (by decide)
      refine iff_of_false ?_ fun h => h.1 (by rw [hnil]; rfl)
      rw [hnil, hnull]
      rintro heq
      cases heq
    · have hkey := key_ofText_text (.narrow str) true
      simp only [Text.codes, Text.isAscii, List.length_map, and_true] at hkey
      rw [fromVariant_ascii _ _ hnil, fromAString_of_clear hnew]
      exact hkey

end Read

/-! ## Fields with an id -/

/-- An id is written if there is one. -/
def writeId (bTextGuids : Bool) (f : Field) (g : CFlexGuid) : List (Field × Value) :=
  if isNull g then [] else [(f, idValue bTextGuids g)]

/-- What comes back of it in an object that has none. -/
def idBack (bTextGuids : Bool) (g : CFlexGuid) : CFlexGuid := if isNull g then .new else readId .new (idValue bTextGuids g)

section Field
variable {bTextGuids : Bool} {g : CFlexGuid}

theorem idBack_compare (h : FitsId g) : (idBack bTextGuids g).compare g = .eq ↔ ByVariant bTextGuids g := by
  rw [idBack]
  by_cases hnull : isNull g
  · rw [if_pos hnull]
    rcases g with ⟨value, mask⟩
    cases (of_decide_eq_true hnull : value = .null)
    exact iff_of_true rfl trivial
  · rw [if_neg hnull, readId_compare h]

theorem valid_writeId (h : FitsId g) (f : Field) : ∀ entry ∈ writeId bTextGuids f g, Valid entry.2.1 entry.2.2 := by
  rw [writeId]
  split
  · exact fun _ h => by cases h
  · rintro entry hentry
    rw [List.mem_singleton.1 hentry]
    exact valid_idValue h

/-- What a field with an id gives an object that has none. -/
theorem readAll_writeId {T : Type} {read : T → Value → Field → Except EResult T} {f : Field} (set : T → CFlexGuid → T) {r : T}
    (hread : ∀ v, read r v f = .ok (set r (readId .new v))) (hset : set r .new = r) :
    Record.readAll read (writeId bTextGuids f g) r = .ok (set r (idBack bTextGuids g)) := by
  rw [writeId, idBack]
  split
  · rw [hset]
    rfl
  · rw [Record.readAll_cons, hread]
    rfl

end Field

end MajorPrivacy.Records

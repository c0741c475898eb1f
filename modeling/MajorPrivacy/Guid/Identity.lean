/-
What an id is stays the same when it is stored and read back, copied or moved; `Compare` orders all ids,
and two ids that were made from texts are equal when the texts read the same.
-/
import MajorPrivacy.Guid.Reading
import Mathlib.Data.List.TakeWhile

namespace MajorPrivacy.Guid

open LittleEndian MajorPrivacy.Variant CFlexGuid

/-! ## The order -/

/-- The characters a comparison looks at. -/
def compared (str : List Nat) : List Nat := (str.map toLower).takeWhile (· ≠ 0)

/-- What `Compare` orders by. -/
def CFlexGuid.key (g : CFlexGuid) : List Nat :=
  match g.value with
  | .null => [0]
  | .regular guid => 1 :: (guid.data.map (·.toNat) ++ [g.lowerCaseMask.toNat])
  | .unicode str => 2 :: str.length :: compared (str.map (·.toNat))
  | .ascii str => 3 :: str.length :: compared (str.map (·.toNat))

theorem toLower_eq_zero (c : Nat) : toLower c = 0 ↔ c = 0 := toLower_eq_iff c (by decide) (by decide)

theorem strnicmp_eq : ∀ {as bs : List Nat}, as.length = bs.length → strnicmp as bs = compare (compared as) (compared bs)
  | [], [], _ => rfl
  | a :: as, b :: bs, h => by
    have ih := strnicmp_eq (Nat.succ.inj h)
    have ha := toLower_eq_zero a
    have hb := toLower_eq_zero b
    rw [strnicmp, compared, compared, List.map_cons, List.map_cons, List.takeWhile_cons, List.takeWhile_cons]
    by_cases ha0 : a = 0
    · by_cases hb0 : b = 0
      · rw [ha0, hb0]
        rfl
      · have hpos : 0 < toLower b := Nat.pos_of_ne_zero fun h => hb0 (hb.1 h)
        have hlt : compare (toLower a) (toLower b) = .lt := by
          rw [ha.2 ha0]
          exact Nat.compare_eq_lt.2 hpos
        rw [hlt, ha.2 ha0]
        simp [hb0, hb]
    · by_cases hb0 : b = 0
      · have hpos : 0 < toLower a := Nat.pos_of_ne_zero fun h => ha0 (ha.1 h)
        have hgt : compare (toLower a) (toLower b) = .gt := by
          rw [hb.2 hb0]
          exact Nat.compare_eq_gt.2 hpos
        rw [hgt, hb.2 hb0]
        simp [ha0, ha]
      · rw [if_neg ha0, if_pos (by simpa [ha] using ha0), if_pos (by simpa [hb] using hb0), List.compare_cons_cons, ih]
        rfl

theorem memcmp_eq : ∀ {as bs : Bytes} (m n : Nat), as.length = bs.length →
    (memcmp as bs).then (compare m n) = compare (as.map (·.toNat) ++ [m]) (bs.map (·.toNat) ++ [n])
  | [], [], m, n, _ => by
    rw [memcmp, List.map_nil, List.nil_append, List.nil_append, List.compare_cons_cons]
    · simp
    all_goals simp
  | a :: as, b :: bs, m, n, h => by
    rw [memcmp, List.map_cons, List.map_cons, List.cons_append, List.cons_append, List.compare_cons_cons, Ordering.then_assoc,
      memcmp_eq m n (Nat.succ.inj h)]

/-- `Compare` is the order of what it looks at. -/
theorem compare_eq (g other : CFlexGuid) : g.compare other = Ord.compare g.key other.key := by
  rcases g with ⟨value, mask⟩
  rcases other with ⟨value', mask'⟩
  have hlengths : ∀ as bs : List Nat, (Ord.compare as.length bs.length).then (strnicmp as bs) =
      Ord.compare (as.length :: compared as) (bs.length :: compared bs) := fun as bs => by
    rw [List.compare_cons_cons]
    rcases Nat.lt_trichotomy as.length bs.length with h | h | h
    · rw [Nat.compare_eq_lt.2 h]
      rfl
    · rw [strnicmp_eq h]
    · rw [Nat.compare_eq_gt.2 h]
      rfl
  have hsame : ∀ n (as bs : List Nat), Ord.compare (n :: as) (n :: bs) = Ord.compare as bs := fun n as bs => by
    rw [List.compare_cons_cons, Nat.compare_eq_eq.2 rfl]
    rfl
  cases value with
  | null => cases value' <;> rfl
  | regular a =>
    cases value' with
    | regular b =>
      simp only [CFlexGuid.compare, CFlexGuid.key]
      rw [hsame, memcmp_eq _ _ (a.size.trans b.size.symm)]
    | _ => rfl
  | unicode a =>
    cases value' with
    | unicode b =>
      have h := hlengths (a.map (·.toNat)) (b.map (·.toNat))
      rw [List.length_map, List.length_map] at h
      simp only [CFlexGuid.compare, CFlexGuid.key]
      rw [hsame, h]
    | _ => rfl
  | ascii a =>
    cases value' with
    | ascii b =>
      have h := hlengths (a.map (·.toNat)) (b.map (·.toNat))
      rw [List.length_map, List.length_map] at h
      simp only [CFlexGuid.compare, CFlexGuid.key]
      rw [hsame, h]
    | _ => rfl

/-- `Compare` is reflexive, antisymmetric and transitive over all ids. -/
theorem compare_order : (∀ g : CFlexGuid, g.compare g = .eq) ∧ (∀ g h : CFlexGuid, g.compare h = (h.compare g).swap) ∧
    ∀ g h k : CFlexGuid, (g.compare h).isLE → (h.compare k).isLE → (g.compare k).isLE := by
  simp only [compare_eq]
  refine ⟨fun g => Std.ReflCmp.compare_self, fun g h => Std.OrientedCmp.eq_swap, fun g h k => ?_⟩
  exact Std.TransCmp.isLE_trans

theorem compare_eq_iff (g other : CFlexGuid) : g.compare other = .eq ↔ g.key = other.key := by
  rw [compare_eq]
  exact Std.LawfulEqCmp.compare_eq_iff_eq

/-! ## Texts -/

/-- A text an id is made from, which is read back from a variant as wide or narrow characters. -/
inductive Text
  | wide (str : List UInt16)
  | narrow (str : Bytes)

/-- The characters of a text. -/
def Text.codes : Text → List Nat
  | .wide str => str.map (·.toNat)
  | .narrow str => str.map (·.toNat)

/-- Whether a text would be stored with one byte for each character. -/
def Text.isAscii : Text → Bool
  | .wide str => CFlexGuid.isAscii str
  | .narrow _ => true

/-- An id with a text for its value. -/
def Text.value : Text → Value
  | .wide str => if CFlexGuid.isAscii str then .ascii (str.map (·.toUInt8)) else .unicode str
  | .narrow str => .ascii str

/-- `FromText` for an object that is null. -/
def CFlexGuid.ofText : Text → CFlexGuid
  | .wide str => fromWString .new str
  | .narrow str => fromAString .new str

theorem ofText_eq (t : Text) : ofText t =
    if t.codes = [] then .new
    else match readGuid t.codes with
      | (some guid, _) => ⟨.regular guid, 0⟩
      | (none, mask) => ⟨t.value, mask⟩ := by
  have hnil : t.codes = [] ↔ (match t with | .wide str => str = [] | .narrow str => str = []) := by
    cases t <;> simp [Text.codes]
  cases t with
  | wide str =>
    by_cases h : str = []
    · rw [if_pos (hnil.2 h), ofText, fromWString, if_pos h]
      rfl
    · rw [if_neg fun h' => h (hnil.1 h'), ofText, fromWString, if_neg h]
      rfl
  | narrow str =>
    by_cases h : str = []
    · rw [if_pos (hnil.2 h), ofText, fromAString, if_pos h]
      rfl
    · rw [if_neg fun h' => h (hnil.1 h'), ofText, fromAString, if_neg h]
      rfl

/-- The ids that are made from texts: null, a GUID without a mask, or the text. -/
theorem ofText_cases (t : Text) : (t.codes = [] ∧ ofText t = .new) ∨
    (t.codes ≠ [] ∧ ∃ guid mask, readGuid t.codes = (some guid, mask) ∧ ofText t = ⟨.regular guid, 0⟩) ∨
    (t.codes ≠ [] ∧ ∃ mask, readGuid t.codes = (none, mask) ∧ ofText t = ⟨t.value, mask⟩) := by
  rw [ofText_eq]
  by_cases h : t.codes = []
  · exact .inl ⟨h, if_pos h⟩
  · rw [if_neg h]
    rcases hread : readGuid t.codes with ⟨_ | guid, mask⟩
    · exact .inr (.inr ⟨h, mask, rfl, rfl⟩)
    · exact .inr (.inl ⟨h, guid, mask, rfl, rfl⟩)

theorem toUInt8_toNat {c : UInt16} (h : c.toNat < 128) : c.toUInt8.toNat = c.toNat := by
  rw [UInt16.toNat_toUInt8]
  omega

/-- The characters of an ASCII text are its bytes. -/
theorem codes_narrow {str : List UInt16} (h : CFlexGuid.isAscii str) : (Text.narrow (str.map (·.toUInt8))).codes = (Text.wide str).codes := by
  rw [Text.codes, Text.codes, List.map_map]
  refine List.map_congr_left fun c hc => toUInt8_toNat ?_
  have hle := UInt16.le_iff_toNat_le.1 (of_decide_eq_true (List.all_eq_true.1 h c hc))
  exact Nat.lt_succ_of_le hle

/-! ## Storing and reading back -/

section Stored
variable {g : CFlexGuid} (hg : g.clear = .new)
include hg

theorem fromWString_of_clear (str : List UInt16) : g.fromWString str = ofText (.wide str) := by
  rw [ofText, fromWString, fromWString, hg]
  rfl

theorem fromAString_of_clear (str : Bytes) : g.fromAString str = ofText (.narrow str) := by
  rw [ofText, fromAString, fromAString, hg]
  rfl

end Stored

theorem initValue_eq {type : EType} (ht : TextType type) {bytes : Bytes} (h : bytes.length < invalidSize) :
    Content.initValue type bytes = .flat type false bytes := by
  rw [Content.initValue, sized_of_lt h, Content.ofBytes, if_neg ht.ne_empty]

section ToVariant
variable (mask : UInt32) (bTextOnly : Bool)

theorem toVariant_ascii {str : Bytes} (h : str.length < invalidSize) :
    (⟨.ascii str, mask⟩ : CFlexGuid).toVariant bTextOnly = .flat varTypeAscii false str :=
  initValue_eq textType_ascii h

theorem toVariant_unicode {str : List UInt16} (h : (wideBytes str).length < invalidSize) :
    (⟨.unicode str, mask⟩ : CFlexGuid).toVariant bTextOnly = .flat varTypeUnicode false (wideBytes str) :=
  initValue_eq textType_unicode h

theorem toVariant_text (guid : SGuid) :
    (⟨.regular guid, mask⟩ : CFlexGuid).toVariant true = .flat varTypeAscii false (guidText guid mask) :=
  initValue_eq textType_ascii (by rw [length_guidText]; decide)

theorem textType_bytes : TextType varTypeBytes := ⟨by decide, by decide⟩

theorem toVariant_bytes (guid : SGuid) : (⟨.regular guid, 0⟩ : CFlexGuid).toVariant false = .flat varTypeBytes false guid.data := by
  rw [← initValue_eq textType_bytes (by rw [guid.size]; decide)]
  exact congrArg (Content.initValue varTypeBytes) (List.append_nil _)

end ToVariant

section FromVariant
variable (g : CFlexGuid) (ro : Bool) {bytes : Bytes}

theorem data_flat (type : EType) : data (.flat type ro bytes) = bytes := by
  rw [data, Content.mkPayload]
  rfl

theorem fromVariant_ascii (h : bytes ≠ []) : g.fromVariant (.flat varTypeAscii ro bytes) = g.fromAString bytes := by
  have hlen : 1 ≤ bytes.length := List.length_pos_of_ne_nil h
  have hascii : ¬ (varTypeAscii = varTypeUInt ∨ varTypeAscii = varTypeSInt) ∧ varTypeAscii ≠ varTypeBytes := by decide
  simp only [fromVariant, data_flat, Content.getType]
  rw [if_neg fun h => hascii.1 h.1, if_neg fun h => hascii.2 h.1, if_neg fun h => hascii.2 h.1, if_pos ⟨trivial, hlen⟩]

theorem fromVariant_unicode (h : 2 ≤ bytes.length) : g.fromVariant (.flat varTypeUnicode ro bytes) = g.fromWString (wideUnits bytes) := by
  have hwide : ¬ (varTypeUnicode = varTypeUInt ∨ varTypeUnicode = varTypeSInt) ∧ varTypeUnicode ≠ varTypeBytes ∧
      varTypeUnicode ≠ varTypeAscii := by
    decide
  simp only [fromVariant, data_flat, Content.getType]
  rw [if_neg fun h => hwide.1 h.1, if_neg fun h => hwide.2.1 h.1, if_neg fun h => hwide.2.1 h.1, if_neg fun h => hwide.2.2 h.1,
    if_pos ⟨trivial, h⟩]

theorem fromVariant_bytes (guid : SGuid) :
    g.fromVariant (.flat varTypeBytes ro guid.data) = ⟨.regular guid, g.clear.lowerCaseMask⟩ := by
  have hbytes : ¬ (varTypeBytes = varTypeUInt ∨ varTypeBytes = varTypeSInt) := by decide
  simp only [fromVariant, data_flat, Content.getType]
  rw [if_neg fun h => hbytes h.1, if_pos ⟨trivial, guid.size⟩, setRegularGuid, dif_pos guid.size]

theorem fromVariant_empty : g.fromVariant (.flat varTypeEmpty ro []) = g.clear := by
  simp only [fromVariant, data_flat, Content.getType]
  rw [if_neg (by decide), if_neg (by decide), if_neg (by decide), if_neg (by decide), if_neg (by decide), if_neg (by decide)]

end FromVariant

/-- Nothing arrives as nothing. -/
theorem travel_empty : ∀ (trips : List Trip) (ro : Bool),
    ∃ ro', travel (.flat varTypeEmpty ro []) trips = some (.flat varTypeEmpty ro' [])
  | [], ro => ⟨ro, rfl⟩
  | trip :: trips, ro => by
    have hstep : ∃ ro', trip.take (.flat varTypeEmpty ro []) = some (.flat varTypeEmpty ro' []) := by
      cases trip with
      | packet =>
        have hread : readPacket (toPacket varTypeEmpty []) = .ok (varTypeEmpty, [], []) := by decide
        refine ⟨true, ?_⟩
        rw [Trip.take, Content.toPacket, Content.mkPayload, Option.map_some, Option.bind_some, Content.getType, Content.fromPacket, hread]
        rfl
      | copy => exact ⟨false, rfl⟩
      | clone => exact ⟨false, congrArg some (by rw [Content.clone]; rfl)⟩
    rcases hstep with ⟨ro', hstep⟩
    rw [travel, hstep, Option.bind_some]
    exact travel_empty trips ro'

theorem ofText_guidText (guid : SGuid) : ofText (.narrow (guidText guid 0)) = ⟨.regular guid, 0⟩ := by
  have hread : (readGuid (Text.narrow (guidText guid 0)).codes).1 = some guid := by
    rw [Text.codes, readGuid_guidText, if_neg]
    rintro ⟨-, c, hc, hlower⟩
    exact guidText_zero_not_lower guid c hc hlower
  have hne : (Text.narrow (guidText guid 0)).codes ≠ [] := by
    rw [Text.codes, guidText, List.map_cons]
    rintro h
    cases h
  rcases ofText_cases (.narrow (guidText guid 0)) with ⟨hnil, -⟩ | ⟨-, guid', mask, hread', heq⟩ | ⟨-, mask, hread', -⟩
  · exact absurd hnil hne
  · rw [hread'] at hread
    cases hread
    exact heq
  · rw [hread'] at hread
    cases hread

/-- An id that was stored in either form is the same when it is read back. -/
theorem ofText_stored {t : Text} (h : 2 * t.codes.length < invalidSize) (bTextOnly : Bool) (trips : List Trip) :
    ∃ v, travel ((ofText t).toVariant bTextOnly) trips = some v ∧ ∀ g : CFlexGuid, g.clear = .new → g.fromVariant v = ofText t := by
  have hlen : t.codes.length < invalidSize := by omega
  rcases ofText_cases t with ⟨-, heq⟩ | ⟨-, guid, mask, -, heq⟩ | ⟨hne, mask, hread, heq⟩
  · rcases travel_empty trips false with ⟨ro, hv⟩
    refine ⟨_, by rw [heq]; exact hv, fun g hg => ?_⟩
    rw [fromVariant_empty, hg, heq]
  · rw [heq]
    cases bTextOnly with
    | true =>
      have hne : guidText guid 0 ≠ [] := fun h => absurd (length_guidText guid 0) (by rw [h]; decide)
      have hsize : (guidText guid 0).length < invalidSize := by
        rw [length_guidText]
        decide
      rcases travel_flat textType_ascii hsize trips false with ⟨ro, hv⟩
      refine ⟨_, by rw [toVariant_text]; exact hv, fun g hg => ?_⟩
      rw [fromVariant_ascii _ _ hne, fromAString_of_clear hg, ofText_guidText]
    | false =>
      rcases travel_flat textType_bytes (by rw [guid.size]; decide) trips false with ⟨ro, hv⟩
      refine ⟨_, by rw [toVariant_bytes]; exact hv, fun g hg => ?_⟩
      rw [fromVariant_bytes, hg]
      rfl
  · have hnarrow : ∀ str : Bytes, (Text.narrow str).codes = t.codes → t.value = .ascii str → ∃ v,
        travel ((ofText t).toVariant bTextOnly) trips = some v ∧ ∀ g : CFlexGuid, g.clear = .new → g.fromVariant v = ofText t := by
      intro str hcodes hvalue
      have hsize : str.length < invalidSize := by
        rw [← hcodes, Text.codes, List.length_map] at hlen
        exact hlen
      rcases travel_flat textType_ascii hsize trips false with ⟨ro, hv⟩
      refine ⟨_, by rw [heq, hvalue, toVariant_ascii _ _ hsize]; exact hv, fun g hg => ?_⟩
      have hstr : str ≠ [] := fun h => hne (by rw [← hcodes, h]; rfl)
      rw [fromVariant_ascii _ _ hstr, fromAString_of_clear hg, heq, hvalue, ofText_eq, hcodes, if_neg hne, hread]
      rfl
    cases t with
    | narrow str => exact hnarrow str rfl rfl
    | wide str =>
      by_cases hascii : CFlexGuid.isAscii str
      · exact hnarrow _ (codes_narrow hascii) (if_pos hascii)
      · have hvalue : (Text.wide str).value = .unicode str := if_neg hascii
        have hsize : (wideBytes str).length < invalidSize := by
          rw [length_wideBytes]
          rwa [Text.codes, List.length_map] at h
        rcases travel_flat textType_unicode hsize trips false with ⟨ro, hv⟩
        refine ⟨_, by rw [heq, hvalue, toVariant_unicode _ _ hsize]; exact hv, fun g hg => ?_⟩
        have hstr : 2 ≤ (wideBytes str).length := by
          have hpos : 0 < str.length := List.length_pos_of_ne_nil fun h => hne (by rw [h]; rfl)
          rw [length_wideBytes]
          omega
        rw [fromVariant_unicode _ _ hstr, wideUnits_wideBytes, fromWString_of_clear hg]

/-! ## Copies -/

/-- An id that takes the place of another in every comparison. -/
structure SameId (g other : CFlexGuid) : Prop where
  compare_eq : g.compare other = .eq
  compare_any : ∀ id : CFlexGuid, g.compare id = other.compare id

theorem SameId.of_key {g other : CFlexGuid} (h : g.key = other.key) : SameId g other :=
  ⟨(compare_eq_iff g other).2 h, fun id => by rw [Guid.compare_eq, Guid.compare_eq, h]⟩

theorem SameId.assign (g other : CFlexGuid) : SameId (g.assign other) other := by
  rcases other with ⟨value, mask⟩
  refine .of_key ?_
  cases value <;> rfl

theorem SameId.move (t : Text) : SameId (ofText t).move.1 (ofText t) := by
  refine .of_key ?_
  rcases ofText_cases t with ⟨-, heq⟩ | ⟨-, guid, mask, -, heq⟩ | ⟨-, mask, -, heq⟩
  · rw [heq]
    rfl
  · rw [heq]
    rfl
  · rw [heq, CFlexGuid.move]
    cases t with
    | narrow str => rfl
    | wide str =>
      rw [Text.value]
      split <;> rfl

/-! ## Canonical texts -/

/-- The characters a text has as a wide string. -/
def Text.toWString : Text → List UInt16
  | .wide str => str
  | .narrow str => widen str

/-- A GUID text in its canonical form, with its letters in any case. -/
def Text.IsGuidText (t : Text) (guid : SGuid) (lowerCaseMask : UInt32) : Prop :=
  t.codes = (guidText guid lowerCaseMask).map (·.toNat)

/-- The characters of a GUID text are ASCII. -/
theorem guidText_ascii (guid : SGuid) (mask : UInt32) : ∀ c ∈ guidText guid mask, c < 0x80 := by
  have hhex : ∀ (i : Nat) (bytes : Bytes), ∀ c ∈ hexText mask i bytes, c < 0x80 := by
    intro i bytes
    induction bytes generalizing i with
    | nil => exact fun c h => by cases h
    | cons b bytes ih =>
      have hall : ∀ n : Fin 16, ∀ lower, digit (.ofNat n) lower < 0x80 := by decide
      rcases nibbles b with ⟨hhigh, hlow, -⟩
      rw [hexText, List.forall_mem_cons, List.forall_mem_cons, nibChar_eq, nibChar_eq]
      exact ⟨nibble_forall (P := fun v => ∀ lower, digit v lower < 0x80) hall hhigh _,
        nibble_forall (P := fun v => ∀ lower, digit v lower < 0x80) hall hlow _, ih (i + 2)⟩
  rw [forall_guidText (P := fun c => c < 0x80) (by decide) (by decide), forall_bareText (P := fun c => c < 0x80) (by decide)]
  exact ⟨hhex _ _, hhex _ _, hhex _ _, hhex _ _, hhex _ _⟩

theorem widen_of_ascii {str : Bytes} (h : ∀ c ∈ str, c < 0x80) : widen str = str.map (·.toUInt16) :=
  List.map_congr_left fun c hc => if_pos (h c hc)

/-- An ASCII text made narrow and wide again. -/
theorem widen_narrowed {str : List UInt16} (h : CFlexGuid.isAscii str) : widen (str.map (·.toUInt8)) = str := by
  have hcode : ∀ c ∈ str, c.toNat < 128 := fun c hc =>
    Nat.lt_succ_of_le (UInt16.le_iff_toNat_le.1 (of_decide_eq_true (List.all_eq_true.1 h c hc)))
  have hascii : ∀ b ∈ str.map (·.toUInt8), b < 0x80 := by
    simp only [List.mem_map]
    rintro b ⟨c, hc, rfl⟩
    rw [UInt8.lt_iff_toNat_lt, toUInt8_toNat (hcode c hc)]
    exact hcode c hc
  rw [widen_of_ascii hascii, List.map_map]
  refine (List.map_congr_left fun c hc => ?_).trans (List.map_id str)
  rw [Function.comp_apply, id, ← UInt16.toNat_inj, UInt8.toNat_toUInt16, toUInt8_toNat (hcode c hc)]

/-- A text that is not read as a GUID is given back as it is. -/
theorem toWString_of_text {t : Text} (h : (readGuid t.codes).1 = none) : (ofText t).toWString = t.toWString := by
  rcases ofText_cases t with ⟨hnil, heq⟩ | ⟨-, guid, mask, hread, -⟩ | ⟨-, mask, -, heq⟩
  · rw [heq]
    cases t with
    | wide str =>
      cases List.map_eq_nil_iff.1 hnil
      rfl
    | narrow str =>
      cases List.map_eq_nil_iff.1 hnil
      rfl
  · rw [hread] at h
    cases h
  · rw [heq]
    cases t with
    | narrow str => rfl
    | wide str =>
      rw [Text.value]
      by_cases hascii : CFlexGuid.isAscii str
      · rw [if_pos hascii]
        exact widen_narrowed hascii
      · rw [if_neg hascii]
        rfl

theorem Text.IsGuidText.toWString_eq {t : Text} {guid : SGuid} {mask : UInt32} (h : t.IsGuidText guid mask) :
    t.toWString = (guidText guid mask).map (·.toUInt16) := by
  cases t with
  | wide str =>
    have hinj : Function.Injective fun c : UInt16 => c.toNat := fun c d h => UInt16.toNat_inj.1 h
    refine hinj.list_map ?_
    rw [List.map_map]
    exact h
  | narrow str =>
    have hinj : Function.Injective fun c : UInt8 => c.toNat := fun c d h => UInt8.toNat_inj.1 h
    cases hinj.list_map h
    exact widen_of_ascii (guidText_ascii guid mask)

/-- A GUID text is given back as it is, but for one with letters in lower case only. -/
theorem toWString_guidText {t : Text} {guid : SGuid} {mask : UInt32} (h : t.IsGuidText guid mask)
    (hcase : (∃ c ∈ t.codes, IsUpper c) ∨ ∀ c ∈ t.codes, ¬ IsLower c) : (ofText t).toWString = t.toWString := by
  have hread := readGuid_guidText guid mask
  have hcodes : t.codes = (guidText guid mask).map (·.toNat) := h
  have hforall : (∀ c ∈ t.codes, ¬ IsLower c) ↔ ∀ c ∈ guidText guid mask, ¬ IsLower c.toNat := by rw [hcodes, List.forall_mem_map]
  have hexists : (∃ c ∈ t.codes, IsUpper c) ↔ ∃ c ∈ guidText guid mask, IsUpper c.toNat := by simp [hcodes]
  rw [← hcodes] at hread
  by_cases hmixed : (∃ c ∈ guidText guid mask, IsUpper c.toNat) ∧ ∃ c ∈ guidText guid mask, IsLower c.toNat
  · exact toWString_of_text (hread.trans (if_pos hmixed))
  · have hlower : ∀ c ∈ guidText guid mask, ¬ IsLower c.toNat := by
      rcases hcase with hupper | hlower
      · exact fun c hc hl => hmixed ⟨hexists.1 hupper, c, hc, hl⟩
      · exact hforall.1 hlower
    rw [if_neg hmixed] at hread
    rcases ofText_cases t with ⟨hnil, -⟩ | ⟨-, guid', mask', hread', heq⟩ | ⟨-, mask', hread', -⟩
    · rw [hcodes, guidText] at hnil
      cases hnil
    · rw [hread'] at hread
      cases hread
      rw [heq, h.toWString_eq, guidText_of_not_lower hlower]
      rfl
    · rw [hread'] at hread
      cases hread

/-! ## Equality -/

/-- What a text is read as. -/
inductive Reading
  | empty
  | guid (guid : SGuid)
  | text (isAscii : Bool) (length : Nat) (characters : List Nat)
  deriving DecidableEq

def Text.read (t : Text) : Reading :=
  if t.codes = [] then .empty
  else match (readGuid t.codes).1 with
    | some guid => .guid guid
    | none => .text t.isAscii t.codes.length (compared t.codes)

/-- What ids that are read so are compared by. -/
def Reading.key : Reading → List Nat
  | .empty => [0]
  | .guid g => 1 :: (g.data.map (·.toNat) ++ [0])
  | .text isAscii length characters => (if isAscii then 3 else 2) :: length :: characters

theorem Reading.key_injective : Function.Injective Reading.key := by
  intro r s h
  have htag : ∀ isAscii : Bool, (if isAscii then 3 else 2) ≠ 0 ∧ (if isAscii then 3 else 2) ≠ 1 := by decide
  cases r with
  | empty =>
    cases s with
    | empty => rfl
    | guid g => cases h
    | text isAscii length characters => exact absurd (List.cons_eq_cons.1 h).1.symm (htag isAscii).1
  | guid g =>
    cases s with
    | empty => cases h
    | guid g' =>
      have hbytes := List.append_cancel_right (List.cons_eq_cons.1 h).2
      have hinj : Function.Injective fun c : UInt8 => c.toNat := fun c d h => UInt8.toNat_inj.1 h
      rcases g with ⟨data, hdata⟩
      rcases g' with ⟨data', hdata'⟩
      cases hinj.list_map hbytes
      rfl
    | text isAscii length characters => exact absurd (List.cons_eq_cons.1 h).1.symm (htag isAscii).2
  | text isAscii length characters =>
    cases s with
    | empty => exact absurd (List.cons_eq_cons.1 h).1 (htag isAscii).1
    | guid g => exact absurd (List.cons_eq_cons.1 h).1 (htag isAscii).2
    | text isAscii' length' characters' =>
      rcases List.cons_eq_cons.1 h with ⟨hascii, hrest⟩
      cases hrest
      cases isAscii <;> cases isAscii' <;> first | rfl | cases hascii

theorem key_ofText (t : Text) : (ofText t).key = t.read.key := by
  have hread : t.codes ≠ [] → t.read = match (readGuid t.codes).1 with
      | some guid => .guid guid
      | none => .text t.isAscii t.codes.length (compared t.codes) := fun h => if_neg h
  rcases ofText_cases t with ⟨hnil, heq⟩ | ⟨hne, guid, mask, hguid, heq⟩ | ⟨hne, mask, hguid, heq⟩
  · rw [heq, Text.read, if_pos hnil]
    rfl
  · rw [heq, hread hne, hguid]
    rfl
  · rw [heq, hread hne, hguid]
    cases t with
    | narrow str =>
      simp only [CFlexGuid.key, Text.value, Reading.key, Text.isAscii, if_true, Text.codes, List.length_map]
    | wide str =>
      by_cases hascii : CFlexGuid.isAscii str
      · have hcodes := codes_narrow hascii
        simp only [Text.codes] at hcodes
        have hkind : (Text.wide str).isAscii = true := hascii
        simp only [CFlexGuid.key, Text.value, if_pos hascii, Reading.key, hkind, if_true, Text.codes, hcodes, List.length_map]
      · have hkind : (Text.wide str).isAscii = false := Bool.eq_false_iff.2 hascii
        simp only [CFlexGuid.key, Text.value, if_neg hascii, Reading.key, hkind, Text.codes, List.length_map]
        rfl

/-- Two ids are equal when their texts read the same. -/
theorem compare_eq_iff_read (s t : Text) : (ofText s).compare (ofText t) = .eq ↔ s.read = t.read := by
  rw [compare_eq_iff, key_ofText, key_ofText]
  exact Reading.key_injective.eq_iff

/-- A text in lower case. -/
def Text.lower (t : Text) : List Nat := t.codes.map toLower

/-- A text without zeros, and ASCII if it is narrow, that is no GUID text, or a canonical one in one case. -/
structure Text.Plain (t : Text) : Prop where
  nonzero : ∀ c ∈ t.codes, c ≠ 0
  ascii : t.isAscii = true ↔ ∀ c ∈ t.codes, c < 128
  form : (parseGuid t.codes).1 = false ∨
    ∃ guid mask, t.IsGuidText guid mask ∧ ¬ ((∃ c ∈ t.codes, IsUpper c) ∧ ∃ c ∈ t.codes, IsLower c)

namespace Text.Plain
variable {s t : Text}

/-- A comparison looks at all characters. -/
theorem compared_eq (ht : t.Plain) : compared t.codes = t.lower := by
  rw [compared, Text.lower, List.takeWhile_eq_self_iff]
  simp only [List.mem_map]
  rintro _ ⟨c, hc, rfl⟩
  exact decide_eq_true fun h => ht.nonzero c hc ((toLower_eq_zero c).1 h)

theorem isAscii_eq (hs : s.Plain) (ht : t.Plain) (h : s.lower = t.lower) : s.isAscii = t.isAscii := by
  have hlower : ∀ c : Nat, toLower c < 128 ↔ c < 128 := fun c => by
    unfold toLower
    split <;> omega
  have hsmall : ∀ u : Text, (∀ c ∈ u.codes, c < 128) ↔ ∀ c ∈ u.lower, c < 128 := fun u => by
    simp only [Text.lower, List.forall_mem_map, hlower]
  rw [Bool.eq_iff_iff, hs.ascii, ht.ascii, hsmall, hsmall, h]

/-- What a text that is not parsed is read as. -/
theorem read_text (ht : t.Plain) (hparse : (parseGuid t.codes).1 = false) :
    t.read = if t.codes = [] then .empty else .text t.isAscii t.lower.length t.lower := by
  have hread : (readGuid t.codes).1 = none := by
    rw [readGuid]
    simp [hparse]
  rw [Text.read, hread, ht.compared_eq, Text.lower, List.length_map]

theorem read_guid {guid : SGuid} {mask : UInt32} (h : t.IsGuidText guid mask)
    (hcase : ¬ ((∃ c ∈ t.codes, IsUpper c) ∧ ∃ c ∈ t.codes, IsLower c)) : t.read = .guid guid := by
  have hcodes : t.codes = (guidText guid mask).map (·.toNat) := h
  have hread := readGuid_guidText guid mask
  have hne : t.codes ≠ [] := by
    rw [hcodes, guidText, List.map_cons]
    rintro h
    cases h
  have hmixed : ¬ ((∃ c ∈ guidText guid mask, IsUpper c.toNat) ∧ ∃ c ∈ guidText guid mask, IsLower c.toNat) := by
    simpa [hcodes] using hcase
  rw [if_neg hmixed, ← hcodes] at hread
  rw [Text.read, if_neg hne, hread]

theorem parse_guid {guid : SGuid} {mask : UInt32} (h : t.IsGuidText guid mask) :
    (parseGuid t.codes).1 = true ∧ (parseGuid t.codes).2.outBytes = guid.data := by
  rcases parseGuid_guidText guid mask with ⟨state, hparse, hout, -⟩
  rw [show t.codes = _ from h, hparse]
  exact ⟨rfl, hout⟩

/-- Texts that are the same in lower case are parsed the same. -/
theorem parse_eq (h : s.lower = t.lower) : (parseGuid s.codes).1 = (parseGuid t.codes).1 ∧
    (parseGuid s.codes).2.outBytes = (parseGuid t.codes).2.outBytes := by
  rcases parseGuid_toLower s.codes with ⟨hs, hs'⟩
  rcases parseGuid_toLower t.codes with ⟨ht, ht'⟩
  have hlower : s.codes.map toLower = t.codes.map toLower := h
  rw [hlower] at hs hs'
  exact ⟨hs.symm.trans ht, hs'.symm.trans ht'⟩

/-- The ids of plain texts are equal when the texts are, up to the case of letters. -/
theorem compare_eq_iff_lower (hs : s.Plain) (ht : t.Plain) : (ofText s).compare (ofText t) = .eq ↔ s.lower = t.lower := by
  rw [compare_eq_iff_read]
  have hnil : ∀ u : Text, u.codes = [] ↔ u.lower = [] := fun u => List.map_eq_nil_iff.symm
  rcases hs.form with hparse | ⟨guid, mask, hguid, hcase⟩
  · rcases ht.form with hparse' | ⟨guid', mask', hguid', hcase'⟩
    · rw [hs.read_text hparse, ht.read_text hparse']
      constructor
      · rintro h
        by_cases hempty : s.codes = []
        · by_cases hempty' : t.codes = []
          · rw [(hnil s).1 hempty, (hnil t).1 hempty']
          · rw [if_pos hempty, if_neg hempty'] at h
            cases h
        · by_cases hempty' : t.codes = []
          · rw [if_neg hempty, if_pos hempty'] at h
            cases h
          · rw [if_neg hempty, if_neg hempty'] at h
            exact (Reading.text.inj h).2.2
      · rintro h
        have hempty : s.codes = [] ↔ t.codes = [] := by rw [hnil, hnil, h]
        rw [hs.isAscii_eq ht h, h]
        by_cases hempty' : t.codes = []
        · rw [if_pos hempty', if_pos (hempty.2 hempty')]
        · rw [if_neg hempty', if_neg fun h => hempty' (hempty.1 h)]
    · rw [hs.read_text hparse, read_guid hguid' hcase']
      constructor
      · rintro h
        split at h <;> cases h
      · rintro h
        have hsame := (parse_eq h).1
        rw [hparse, (parse_guid hguid').1] at hsame
        cases hsame
  · rcases ht.form with hparse' | ⟨guid', mask', hguid', hcase'⟩
    · rw [ht.read_text hparse', read_guid hguid hcase]
      constructor
      · rintro h
        split at h <;> cases h
      · rintro h
        have hsame := (parse_eq h).1
        rw [hparse', (parse_guid hguid).1] at hsame
        cases hsame
    · rw [read_guid hguid hcase, read_guid hguid' hcase']
      constructor
      · rintro h
        cases h
        rw [Text.lower, Text.lower, show s.codes = _ from hguid, show t.codes = _ from hguid', List.map_map, List.map_map]
        exact toLower_guidText guid mask mask'
      · rintro h
        have hsame := (parse_eq h).2
        rw [(parse_guid hguid).2, (parse_guid hguid').2] at hsame
        rcases guid with ⟨data, hdata⟩
        rcases guid' with ⟨data', hdata'⟩
        cases hsame
        rfl

end Text.Plain

/-! ## Identity -/

/-- What the id of a text keeps. -/
structure Identity (t : Text) : Prop where
  stored : ∀ (bTextOnly : Bool) (trips : List Trip), ∃ v, travel ((ofText t).toVariant bTextOnly) trips = some v ∧
    ∀ g : CFlexGuid, g.clear = .new → SameId (g.fromVariant v) (ofText t) ∧
      ∀ guid mask, t.IsGuidText guid mask → (∃ c ∈ t.codes, IsUpper c) ∨ (∀ c ∈ t.codes, ¬ IsLower c) →
        (g.fromVariant v).toWString = t.toWString
  assigned : ∀ g : CFlexGuid, SameId (g.assign (ofText t)) (ofText t)
  moved : SameId (ofText t).move.1 (ofText t)

/-- Ids are totally preordered; equal are those whose texts read the same, for plain texts those that
are the same up to the case of letters; and the id of a text stays what it is wherever it is kept. -/
theorem identity :
    (∀ g : CFlexGuid, g.compare g = .eq) ∧ (∀ g h : CFlexGuid, g.compare h = (h.compare g).swap) ∧
    (∀ g h k : CFlexGuid, (g.compare h).isLE → (h.compare k).isLE → (g.compare k).isLE) ∧
    (∀ s t : Text, (ofText s).compare (ofText t) = .eq ↔ s.read = t.read) ∧
    (∀ s t : Text, s.Plain → t.Plain → ((ofText s).compare (ofText t) = .eq ↔ s.lower = t.lower)) ∧
    ∀ t : Text, 2 * t.codes.length < invalidSize → Identity t := by
  rcases compare_order with ⟨hrefl, hswap, htrans⟩
  refine ⟨hrefl, hswap, htrans, compare_eq_iff_read, fun s t hs ht => hs.compare_eq_iff_lower ht, fun t hfits => ?_⟩
  constructor
  case stored =>
    intro bTextOnly trips
    rcases ofText_stored hfits bTextOnly trips with ⟨v, hv, hread⟩
    refine ⟨v, hv, fun g hg => ?_⟩
    rw [hread g hg]
    exact ⟨.of_key rfl, fun guid mask hguid hcase => toWString_guidText hguid hcase⟩
  case assigned => exact fun g => .assign g (ofText t)
  case moved => exact .move t

/-- A GUID text in both cases is kept, and two names are equal up to case. -/
theorem identity_bothCases : Identity (.narrow (guidText ⟨List.replicate 16 0xAB, rfl⟩ 1)) ∧
    (ofText (.wide [0x61])).compare (ofText (.narrow [0x41])) = .eq := by
  have hwide : (Text.wide [0x61]).Plain := ⟨by decide, by decide, .inl (by decide)⟩
  have hnarrow : (Text.narrow [0x41]).Plain := ⟨by decide, by decide, .inl (by decide)⟩
  refine ⟨identity.2.2.2.2.2 _ ?_, (identity.2.2.2.2.1 _ _ hwide hnarrow).2 (by decide)⟩
  rw [Text.codes, List.length_map, length_guidText]
  decide

/-- Two different texts have equal ids, as braces and dashes are not looked at, and two texts that are
the same up to case have different ones, as a GUID in both cases stays a string. -/
theorem not_equal_up_to_case :
    ((ofText (.narrow (List.replicate 32 0x30))).compare (ofText (.narrow (guidText ⟨List.replicate 16 0, rfl⟩ 0))) = .eq ∧
      (Text.narrow (List.replicate 32 0x30)).lower ≠ (Text.narrow (guidText ⟨List.replicate 16 0, rfl⟩ 0)).lower) ∧
    (ofText (.narrow (guidText ⟨List.replicate 16 0xAB, rfl⟩ 1))).compare (ofText (.narrow (guidText ⟨List.replicate 16 0xAB, rfl⟩ 0))) ≠ .eq ∧
      (Text.narrow (guidText ⟨List.replicate 16 0xAB, rfl⟩ 1)).lower = (Text.narrow (guidText ⟨List.replicate 16 0xAB, rfl⟩ 0)).lower := by
  refine ⟨⟨?_, ?_⟩, ?_, ?_⟩ <;> decide +kernel

end MajorPrivacy.Guid

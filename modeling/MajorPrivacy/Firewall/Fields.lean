/-
Each field of a rule by itself: what is written of a value is read as that value, in the numbers of an
index and in the keywords and lists of a map.
-/
import MajorPrivacy.Firewall.Formats
import Mathlib.Data.List.TakeWhile

namespace MajorPrivacy.Firewall

open LittleEndian MajorPrivacy.Variant

/-! ## Values -/

theorem asStr_str (doubleText : Bytes → Str) (s : Str) : asStr doubleText (.str s) = s := by
  have hunicode : varTypeUnicode ≠ varTypeEmpty := by decide
  rw [Value.str, asStr, if_pos (.inr (.inr (.inr rfl))), toWString, if_neg hunicode, if_pos rfl, wideUnits_wideBytes]

theorem toWString_str (s : Str) : toWString (.str s) = .ok s := by
  have hunicode : varTypeUnicode ≠ varTypeEmpty := by decide
  rw [Value.str, toWString, if_neg hunicode, if_pos rfl, wideUnits_wideBytes]

theorem toString_ascii (s : Bytes) : toString (.ascii s) = .ok s := by
  have hascii : varTypeAscii ≠ varTypeEmpty := by decide
  rw [Value.ascii, toString, if_neg hascii, if_pos (.inl rfl)]

/-- A number is read in the size it has. -/
theorem getInt_same {type : EType} {bytes : Bytes} {size : Nat} (ht : type = varTypeSInt ∨ type = varTypeUInt)
    (h : bytes.length = size) : getInt type bytes size = .ok bytes := by
  have hne : type ≠ varTypeEmpty := by rcases ht with rfl | rfl <;> decide
  have hnum : ¬ (type ≠ varTypeSInt ∧ type ≠ varTypeUInt) := fun hn => ht.elim hn.1 hn.2
  rw [getInt, if_neg hne, if_neg hnum, if_neg fun hn => absurd hn.1 (by omega), if_pos h.ge, ← h, List.take_length]

theorem toInt32_sint32 (n : Int32) : toInt32 (.sint32 n) = .ok n := by
  have hlt : n.toUInt32.toNat < 256 ^ 4 := n.toUInt32.toNat_lt
  rw [Value.sint32, toInt32, getInt_same (.inl rfl) (length_toLE _ _), Except.map, ofLE_toLE_of_lt hlt, UInt32.ofNat_toNat,
    Int32.toInt32_toUInt32]

theorem toUInt32_uint32 (n : UInt32) : toUInt32 (.uint32 n) = .ok n := by
  have hlt : n.toNat < 256 ^ 4 := n.toNat_lt
  rw [Value.uint32, toUInt32, getInt_same (.inr rfl) (length_toLE _ _), Except.map, ofLE_toLE_of_lt hlt, UInt32.ofNat_toNat]

theorem toUInt64_uint64 (n : UInt64) : toUInt64 (.uint64 n) = .ok n := by
  have hlt : n.toNat < 256 ^ 8 := n.toNat_lt
  rw [Value.uint64, toUInt64, getInt_same (.inr rfl) (length_toLE _ _), Except.map, ofLE_toLE_of_lt hlt, UInt64.ofNat_toNat]

theorem toBool_bool (b : Bool) : toBool (.bool b) = .ok b := by
  have hread : getInt (Value.bool b).1 (Value.bool b).2 1 = .ok (Value.bool b).2 := getInt_same (.inl rfl) rfl
  rw [toBool, hread]
  cases b <;> rfl

/-! ### Lists -/

section List
variable {α : Type} {read : Value → Except EResult α} {write : α → Value}

/-- A list of values that are read back is read back. -/
theorem asList_list (hread : ∀ a, read (write a) = .ok a) (hvalid : ∀ a, Valid (write a).1 (write a).2) {l : List α}
    (hfits : (Value.list (l.map write)).2.length ≤ ulongMax) : asList read (.list (l.map write)) = .ok l := by
  have hes : Entries noKey ((l.map write).map fun v => ((), v)) (Value.list (l.map write)).2 := by
    refine entries_writeEntries noKey ?_
    simp only [List.forall_mem_map]
    exact fun a _ => hvalid a
  have hlist : varTypeList ≠ varTypeEmpty := by decide
  have hraw : readRawList (Value.list (l.map write)).2 = (l.map write, none) := by
    refine (readRawListLoop_entries _ _ _ hes hfits (Nat.lt_succ_of_le (hes.length_le hfits))).trans ?_
    rw [List.map_map]
    exact congrArg (·, none) (List.map_id _)
  have hmap : ∀ l : List α, (l.map write).mapM read = (.ok l : Except EResult (List α)) := fun l => by
    induction l with
    | nil => rfl
    | cons a l ih =>
      rw [List.map_cons, List.mapM_cons, hread, ih]
      rfl
  rw [Value.list] at hraw
  rw [Value.list, asList, if_neg hlist, if_neg (fun h => h rfl), hraw]
  dsimp only
  rw [hmap l]
  rfl

end List

theorem valid_str (s : Str) : Valid (Value.str s).1 (Value.str s).2 := ⟨textType_unicode.mask, fun h => absurd h textType_unicode.ne_empty⟩

theorem valid_ascii (s : Bytes) : Valid (Value.ascii s).1 (Value.ascii s).2 := ⟨textType_ascii.mask, fun h => absurd h textType_ascii.ne_empty⟩

theorem asList_strList {l : List Str} (h : (Value.strList l).2.length ≤ ulongMax) : asList toWString (.strList l) = .ok l :=
  asList_list toWString_str valid_str h

theorem asList_asciiList {l : List Bytes} (h : (Value.asciiList l).2.length ≤ ulongMax) : asList toString (.asciiList l) = .ok l :=
  asList_list toString_ascii valid_ascii h

/-! ## Keywords -/

section Keyword
variable {E : Type} [Enumeration E] {keyword : E → Option String}

/-- No two values have the same keyword. -/
def KeywordsDiffer (keyword : E → Option String) : Prop :=
  ∀ a ∈ (Enumeration.values : List E), ∀ b ∈ (Enumeration.values : List E),
    keyword a ≠ none → (keyword a).map text = (keyword b).map text → a = b

instance [DecidableEq E] : Decidable (KeywordsDiffer keyword) := inferInstanceAs (Decidable (∀ a ∈ _, ∀ b ∈ _, _))

theorem readKeyword_text (h : KeywordsDiffer keyword) {e : E} {s : String} (hs : keyword e = some s) (default : Cast E) :
    readKeyword keyword default (text s) = .value e := by
  rcases hfind : (Enumeration.values : List E).find? (fun e => (keyword e).map text = some (text s)) with _ | a
  · have hnone := List.find?_eq_none.1 hfind e (Enumeration.mem_values e)
    simp [hs] at hnone
  · have ha : (keyword a).map text = some (text s) := by simpa using List.find?_some hfind
    have hne : keyword a ≠ none := fun hnone => by simp [hnone] at ha
    have heq := h a (List.mem_of_find?_eq_some hfind) e (Enumeration.mem_values e) hne (by rw [ha, hs]; rfl)
    rw [readKeyword, hfind, heq]

end Keyword

theorem keywordsDiffer : KeywordsDiffer EFwRuleState.keyword ∧ KeywordsDiffer EFwRuleSource.keyword ∧
    KeywordsDiffer EFwActions.keyword ∧ KeywordsDiffer EFwDirections.keyword := by
  decide +kernel

/-! ## Flags -/

/-- The profiles a rule may have: some of the three, or all. -/
def admittedProfiles : List UInt32 := [1, 2, 3, 4, 5, 6, 7, profileAll]

/-- The interfaces a rule may have: some of the three, where none stands for all. -/
def admittedInterfaces : List UInt32 := [0, 1, 2, 3, 4, 5, 6, 7]

theorem read_flagTexts : (admittedProfiles.all fun n => readProfile (flagTexts profileAll "All" profileFlags n) = n) = true ∧
    (admittedInterfaces.all fun n => readInterface (flagTexts interfaceAll "Any" interfaceFlags n) interfaceAll = n ∧
      readInterface (flagTexts interfaceAll "Any" interfaceFlags n) n = n) = true := by
  decide +kernel

theorem readProfile_flagTexts {n : UInt32} (h : n ∈ admittedProfiles) : readProfile (flagTexts profileAll "All" profileFlags n) = n :=
  forall_of_all read_flagTexts.1 n h

/-- The interfaces are read into a rule that has none of its own or the same. -/
theorem readInterface_flagTexts {n old : UInt32} (h : n ∈ admittedInterfaces) (hold : old = interfaceAll ∨ old = n) :
    readInterface (flagTexts interfaceAll "Any" interfaceFlags n) old = n := by
  rcases hold with rfl | rfl
  · exact (forall_of_all read_flagTexts.2 n h).1
  · exact (forall_of_all read_flagTexts.2 _ h).2

/-! ## ICMP -/

/-- A decimal digit as a byte. -/
theorem digit_byte {n : Nat} {c : Char} (h : c ∈ Nat.toDigits 10 n) :
    48 ≤ c.toNat ∧ c.toNat ≤ 57 ∧ (UInt8.ofNat c.toNat).toNat = c.toNat := by
  have hdigit := Nat.isDigit_of_mem_toDigits (by decide) (by decide) h
  simp only [Char.isDigit, Bool.and_eq_true, decide_eq_true_eq] at hdigit
  rcases hdigit with ⟨hlow, hhigh⟩
  have hlow : 48 ≤ c.toNat := hlow
  have hhigh : c.toNat ≤ 57 := hhigh
  exact ⟨hlow, hhigh, toNat_byte (by omega)⟩

theorem isDigit_decimal (n : Nat) : ∀ c ∈ decimal n, isDigit c := by
  simp only [decimal, List.forall_mem_map]
  rintro c hc
  rcases digit_byte hc with ⟨hlow, hhigh, hbyte⟩
  rw [isDigit, Bool.and_eq_true, decide_eq_true_eq, decide_eq_true_eq, UInt8.le_iff_toNat_le, UInt8.le_iff_toNat_le, hbyte]
  exact ⟨hlow, hhigh⟩

theorem digitsValue_decimal (n : Nat) : digitsValue (decimal n) = n := by
  have hall : (decimal n).takeWhile isDigit = decimal n := List.takeWhile_eq_self_iff.2 (isDigit_decimal n)
  have hfold : ∀ (l : List Char) (m : Nat), (∀ c ∈ l, (UInt8.ofNat c.toNat).toNat = c.toNat) →
      (l.map fun c => UInt8.ofNat c.toNat).foldl (fun n c => 10 * n + (c.toNat - 48)) m = Nat.ofDigitChars 10 l m := by
    intro l
    induction l with
    | nil => exact fun m _ => rfl
    | cons c l ih =>
      intro m h
      rw [List.forall_mem_cons] at h
      rw [List.map_cons, List.foldl_cons, h.1, ih _ h.2, Nat.ofDigitChars_cons]
      rfl
  rw [digitsValue, hall, decimal, hfold _ 0 fun c hc => (digit_byte hc).2.2, Nat.ofDigitChars_ten_toDigits]

/-- The first byte of a number. -/
theorem decimal_eq_cons (n : Nat) : ∃ c rest, decimal n = c :: rest ∧ isDigit c := by
  rcases h : decimal n with _ | ⟨c, rest⟩
  · exact absurd (List.map_eq_nil_iff.1 h) Nat.toDigits_ne_nil
  · exact ⟨c, rest, rfl, isDigit_decimal n c (h ▸ List.mem_cons_self)⟩

theorem digit_facts {c : UInt8} (h : isDigit c) : isSpace c = false ∧ c ≠ 0x2D ∧ c ≠ 0x2B ∧ c ≠ 0x2A ∧ c ≠ 0x3A := by
  have hne : ∀ d : UInt8, isDigit d = false → c ≠ d := by
    rintro d hd rfl
    rw [h] at hd
    cases hd
  refine ⟨?_, hne _ rfl, hne _ rfl, hne _ rfl, hne _ rfl⟩
  simp only [isDigit, Bool.and_eq_true, decide_eq_true_eq, UInt8.le_iff_toNat_le] at h
  have hlow : 48 ≤ c.toNat := h.1
  simp only [isSpace, Bool.or_eq_false_iff, Bool.and_eq_false_iff, decide_eq_false_iff_not, UInt8.le_iff_toNat_le]
  refine ⟨hne _ rfl, .inr fun hc => ?_⟩
  have hhigh : c.toNat ≤ 13 := hc
  omega

theorem atoi_decimal {n : Nat} (h : n ≤ 0x7FFFFFFF) : atoi (decimal n) = n := by
  rcases decimal_eq_cons n with ⟨c, rest, heq, hdigit⟩
  rcases digit_facts hdigit with ⟨hspace, hminus, hplus, -, -⟩
  have hvalue := digitsValue_decimal n
  rw [heq] at hvalue ⊢
  rw [atoi, List.dropWhile_cons_of_neg (by simp [hspace])]
  simp only [List.head?_cons, Option.some_inj, hminus, hplus, if_false, hvalue]
  omega

theorem split2_decimal (n : Nat) (rest : Bytes) : split2 (decimal n ++ 0x3A :: rest) 0x3A = (decimal n, rest) := by
  have hne : ∀ c ∈ decimal n, decide (c ≠ 0x3A) = true := fun c hc =>
    decide_eq_true (digit_facts (isDigit_decimal n c hc)).2.2.2.2
  rw [split2, List.takeWhile_append_of_pos hne, List.dropWhile_append_of_pos hne]
  simp

theorem readIcmp_icmpText (i : IcmpTypeCode) : readIcmp (icmpText i) = i := by
  rcases i with ⟨type, code⟩
  have htype := type.toNat_lt
  have hcode := code.toNat_lt
  have htypeRead : UInt8.ofInt (type.toNat : Int) = type := by
    have hmod : ((type.toNat : Int) % 2 ^ 8).toNat = type.toNat := by omega
    rw [UInt8.ofInt, hmod, UInt8.ofNat_toNat]
  have hcodeRead : UInt16.ofInt (code.toNat : Int) = code := by
    have hmod : ((code.toNat : Int) % 2 ^ 16).toNat = code.toNat := by omega
    rw [UInt16.ofInt, hmod, UInt16.ofNat_toNat]
  rw [readIcmp, icmpText, split2_decimal]
  dsimp only
  rw [atoi_decimal (by omega), htypeRead]
  by_cases hany : code = 256
  · rw [if_pos hany, if_pos rfl, hany]
  · have hstar : decimal code.toNat ≠ text "*" := by
      rcases decimal_eq_cons code.toNat with ⟨c, rest, heq, hdigit⟩
      rintro h
      rw [heq] at h
      exact (digit_facts hdigit).2.2.2.1 (List.cons_eq_cons.1 h).1
    rw [if_neg hany, if_neg hstar, atoi_decimal (by omega), hcodeRead]

end MajorPrivacy.Firewall

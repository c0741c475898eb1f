/-
The texts tweaks are kept as (Tweak.cpp, Strings.h): the range of Windows versions a tweak is for and the value it writes.
The edition is read from two characters too far on, and numbers are read in 32 bits.
-/
import MajorPrivacy.Dns.DnsInspector
import MajorPrivacy.Firewall.Derived
import MajorPrivacy.Firewall.Fields

namespace MajorPrivacy.Tweaks

open LittleEndian
open MajorPrivacy.Firewall
open MajorPrivacy.Dns (joinStr)
open MajorPrivacy.Variant (EType IsInteger Width getInt_eq number varTypeAscii varTypeBytes varTypeEmpty varTypeSInt varTypeUInt varTypeUnicode
  varTypeUtf8)

/-! ## Windows versions -/

inductive EWinEd
  | any | home | pro | enterprise
  deriving DecidableEq

structure SWinVer where
  MinBuild : UInt32 := 0
  MaxBuild : UInt32 := 0
  Win10Ed : EWinEd := .any
  deriving DecidableEq

/-- What the C++ library throws. -/
inductive StdException
  | invalidArgument | outOfRange
  deriving DecidableEq

/-- `std::stoul`, of 32 bits on Windows. -/
def stoul (s : Str) : Except StdException UInt32 :=
  let s := (s.map narrow).dropWhile isSpace
  let digits := if s.head? = some 0x2D ∨ s.head? = some 0x2B then s.tail else s
  if digits.takeWhile isDigit = [] then .error .invalidArgument
  else if 2 ^ 32 ≤ digitsValue digits then .error .outOfRange
  else if s.head? = some 0x2D then .ok (-.ofNat (digitsValue digits))
  else .ok (.ofNat (digitsValue digits))

/-- `substr` up to the end. -/
def substr (s : Str) (pos : Nat) : Except StdException Str := if s.length < pos then .error .outOfRange else .ok (s.drop pos)

def EWinEd.text : EWinEd → Str
  | .any => []
  | .home => wide "Home"
  | .pro => wide "Pro"
  | .enterprise => wide "Ent"

/-- `Ver2Str`. -/
def ver2Str (Ver : SWinVer) : Str :=
  let MinBuild := if Ver.MinBuild ≠ 0 then [wide "MinBuild:" ++ wideDecimal Ver.MinBuild.toNat] else []
  let MaxBuild := if Ver.MaxBuild ≠ 0 then [wide "MaxBuild:" ++ wideDecimal Ver.MaxBuild.toNat] else []
  let WinEd := if Ver.Win10Ed.text ≠ [] then [wide "WinEd:" ++ Ver.Win10Ed.text] else []
  joinStr (wide ";") (MinBuild ++ MaxBuild ++ WinEd)

/-- One token of `Str2Ver`. -/
def readToken (Ver : SWinVer) (Token : Str) : Except StdException SWinVer :=
  if (wide "MinBuild:").isPrefixOf Token then do
    let MinBuild ← stoul (← substr Token 9)
    return { Ver with MinBuild }
  else if (wide "MaxBuild:").isPrefixOf Token then do
    let MaxBuild ← stoul (← substr Token 9)
    return { Ver with MaxBuild }
  else if (wide "WinEd:").isPrefixOf Token then do
    let WinEd ← substr Token 8
    return if WinEd = wide "Home" then { Ver with Win10Ed := .home }
      else if WinEd = wide "Pro" then { Ver with Win10Ed := .pro }
      else if WinEd = wide "Ent" then { Ver with Win10Ed := .enterprise }
      else Ver
  else return Ver

/-- `Str2Ver`. -/
def str2Ver (Str : Str) : Except StdException SWinVer := (Str.splitOn 0x3B).foldlM readToken {}

/-! ## Values -/

def IsText (type : EType) : Prop := type = varTypeAscii ∨ type = varTypeUtf8 ∨ type = varTypeUnicode

instance (type : EType) : Decidable (IsText type) := inferInstanceAs (Decidable (_ ∨ _ ∨ _))

/-- `Var2Str`. -/
def var2Str (doubleText : Bytes → Str) (Var : Value) : Str :=
  if IsText Var.1 then wide "\"" ++ strReplaceAll (wide "\"") (wide "\\\"") (asStr doubleText Var) ++ wide "\""
  else if Var.1 = varTypeUInt ∨ Var.1 = varTypeSInt then asStr doubleText Var
  else []

/-- A string is assigned: none where its size does not fit the 32 bits it is kept in, and the copy runs out of the memory. -/
def assignStr (s : Str) : Option Value := if 2 * s.length < 2 ^ 32 then some (.str s) else none

/-- `Str2Var`. -/
def str2Var (Str : Str) : Option Value :=
  if Str = [] then some (varTypeEmpty, [])
  else if Str.head? = some 0x22 ∧ Str.getLast? = some 0x22 then
    assignStr (strReplaceAll (wide "\\\"") (wide "\"") Str.tail.dropLast)
  else some (.sint32 (.ofInt (wtoi Str)))

/-- A value of the registry: a text or a number. -/
structure TweakValue where
  value : Value
  kind : IsText value.1 ∨ ∃ width, IsInteger value.1 value.2 width

/-- The number in a value. -/
def valueNumber (v : Value) : Int := number (v.1 = varTypeSInt) v.2

/-- Two values are the same text, or the same number. -/
inductive SameValue (doubleText : Bytes → Str) (x y : Value) : Prop
  | text (hx : IsText x.1) (hy : IsText y.1) (h : asStr doubleText y = asStr doubleText x)
  | number (hx : x.1 = varTypeUInt ∨ x.1 = varTypeSInt) (hy : y.1 = varTypeUInt ∨ y.1 = varTypeSInt)
    (h : valueNumber y = valueNumber x)

/-- A value comes back from its text. -/
def ComesBack (doubleText : Bytes → Str) (x : Value) : Prop :=
  ∃ y, str2Var (var2Str doubleText x) = some y ∧ SameValue doubleText x y

/-- A text whose size fits 32 bits; a number in the range of `int`, which only a value of 64 bits may be below zero. -/
def Survives (doubleText : Bytes → Str) (x : Value) : Prop :=
  if IsText x.1 then 2 * (asStr doubleText x).length < 2 ^ 32
  else (0 ≤ valueNumber x ∨ x.2.length = 8) ∧ -0x80000000 ≤ valueNumber x ∧ valueNumber x ≤ 0x7FFFFFFF

/-! ## Numbers -/

/-- A character of a number, as the readers see it. -/
theorem narrow_digit {c : UInt8} (h : isDigit c = true) : narrow c.toUInt16 = c := by
  simp only [isDigit, Bool.and_eq_true, decide_eq_true_eq, UInt8.le_iff_toNat_le] at h
  have hhigh : c.toNat ≤ 57 := h.2
  have hlt : c.toUInt16 < 128 := by
    rw [UInt16.lt_iff_toNat_lt, UInt8.toNat_toUInt16]
    exact Nat.lt_of_le_of_lt hhigh (by decide)
  rw [narrow, if_pos hlt, UInt8.toUInt8_toUInt16]

theorem narrow_decimal (n : Nat) : ((decimal n).map (·.toUInt16)).map narrow = decimal n := by
  rw [List.map_map]
  refine (List.map_congr_left fun c hc => ?_).trans (List.map_id _)
  exact narrow_digit (isDigit_decimal n c hc)

theorem wideDecimal_ofNat (n : Nat) : wideDecimal n = (decimal n).map (·.toUInt16) := by
  rw [wideDecimal, if_neg (by omega), Int.natAbs_natCast]
  rfl

theorem stoul_wideDecimal {n : UInt32} : stoul (wideDecimal n.toNat) = .ok n := by
  obtain ⟨c, rest, heq, hdigit⟩ := decimal_eq_cons n.toNat
  obtain ⟨hspace, hminus, hplus, -, -⟩ := digit_facts hdigit
  have hvalue := digitsValue_decimal n.toNat
  have hall : (decimal n.toNat).takeWhile isDigit = decimal n.toNat := List.takeWhile_eq_self_iff.2 (isDigit_decimal _)
  have hlt := n.toNat_lt
  rw [wideDecimal_ofNat, stoul, narrow_decimal]
  rw [heq] at hvalue hall ⊢
  rw [List.dropWhile_cons_of_neg (by simp [hspace])]
  simp only [List.head?_cons, Option.some_inj, hminus, hplus, or_self, if_false, hvalue, hall]
  rw [if_neg (List.cons_ne_nil _ _), if_neg (by omega), UInt32.ofNat_toNat]

/-- A number that is written is read, as far as `int` goes. -/
theorem wtoi_wideDecimal (n : Int) : wtoi (wideDecimal n) = max (-0x80000000) (min n 0x7FFFFFFF) := by
  obtain ⟨c, rest, heq, hdigit⟩ := decimal_eq_cons n.natAbs
  obtain ⟨hspace, hminus, hplus, -, -⟩ := digit_facts hdigit
  have hvalue := digitsValue_decimal n.natAbs
  rw [wtoi, wideDecimal, List.map_append, narrow_decimal]
  by_cases hneg : n < 0
  · rw [if_pos hneg]
    have hminusText : List.map narrow [(0x2D : UInt16)] = [0x2D] := rfl
    have hspace' : isSpace 0x2D = false := rfl
    rw [hminusText, List.singleton_append, atoi, List.dropWhile_cons_of_neg (by simp [hspace'])]
    simp only [List.head?_cons, if_true, List.tail_cons, hvalue]
    omega
  · rw [if_neg hneg, List.map_nil, List.nil_append]
    rw [heq] at hvalue ⊢
    rw [atoi, List.dropWhile_cons_of_neg (by simp [hspace])]
    simp only [List.head?_cons, Option.some_inj, hminus, hplus, if_false, hvalue]
    omega

/-! ## The version -/

theorem joinStr_eq_intercalate {separator : Str} {list : List Str} (h : ∀ s ∈ list, s ≠ []) :
    joinStr separator list = separator.intercalate list := by
  have hfold : ∀ {list : List Str} {acc : Str}, acc ≠ [] →
      list.foldl (fun str next => (if str = [] then str else str ++ separator) ++ next) acc = separator.intercalate (acc :: list) := by
    intro list
    induction list with
    | nil => exact fun _ => List.intercalate_singleton.symm
    | cons s list ih =>
      intro acc hacc
      rw [List.foldl_cons, if_neg hacc, ih (by simp [hacc]), List.intercalate_cons_cons]
      cases list with
      | nil => simp
      | cons s' list => simp [List.intercalate_cons_cons]
  cases list with
  | nil => rfl
  | cons s list =>
    rw [joinStr, List.foldl_cons, if_pos rfl, List.nil_append]
    exact hfold (h s List.mem_cons_self)

/-- What is joined is split again. -/
theorem splitOn_joinStr {list : List Str} (h : ∀ s ∈ list, s ≠ [] ∧ 0x3B ∉ s) :
    (joinStr (wide ";") list).splitOn 0x3B = if list = [] then [[]] else list := by
  rw [joinStr_eq_intercalate fun s hs => (h s hs).1]
  cases list with
  | nil => rfl
  | cons s list =>
    rw [if_neg (List.cons_ne_nil _ _)]
    exact List.splitOn_intercalate 0x3B (fun s hs => (h s hs).2) (List.cons_ne_nil _ _)

theorem not_mem_wideDecimal {c : UInt16} {n : Nat} (hc : isDigit (narrow c) = false) : c ∉ wideDecimal n := by
  rw [wideDecimal_ofNat, List.mem_map]
  rintro ⟨d, hd, rfl⟩
  have hdigit := isDigit_decimal n d hd
  rw [narrow_digit hdigit, hdigit] at hc
  cases hc

theorem readToken_minBuild (Ver : SWinVer) (n : UInt32) :
    readToken Ver (wide "MinBuild:" ++ wideDecimal n.toNat) = .ok { Ver with MinBuild := n } := by
  have hsubstr : substr (wide "MinBuild:" ++ wideDecimal n.toNat) 9 = .ok (wideDecimal n.toNat) := by
    rw [substr, if_neg (by simp [wide, text])]
    rfl
  rw [readToken, if_pos (List.isPrefixOf_iff_prefix.2 (List.prefix_append _ _)), hsubstr]
  exact congrArg (Except.map _) stoul_wideDecimal

theorem readToken_maxBuild (Ver : SWinVer) (n : UInt32) :
    readToken Ver (wide "MaxBuild:" ++ wideDecimal n.toNat) = .ok { Ver with MaxBuild := n } := by
  have hsubstr : substr (wide "MaxBuild:" ++ wideDecimal n.toNat) 9 = .ok (wideDecimal n.toNat) := by
    rw [substr, if_neg (by simp [wide, text])]
    rfl
  have hmin : (wide "MinBuild:").isPrefixOf (wide "MaxBuild:" ++ wideDecimal n.toNat) = false := rfl
  rw [readToken, hmin, if_neg Bool.false_ne_true, if_pos (List.isPrefixOf_iff_prefix.2 (List.prefix_append _ _)), hsubstr]
  exact congrArg (Except.map _) stoul_wideDecimal

/-- The edition starts six characters into its token, and is read from the ninth. -/
theorem readToken_winEd (Ver : SWinVer) (e : EWinEd) (he : e.text ≠ []) : readToken Ver (wide "WinEd:" ++ e.text) = .ok Ver := by
  cases e with
  | any => exact absurd rfl he
  | home => rfl
  | pro => rfl
  | enterprise => rfl

/-- A token that may be left out is read, or there is nothing to read. -/
theorem foldlM_optional {p : Prop} [Decidable p] {token : Str} {Ver Ver' : SWinVer} (hread : p → readToken Ver token = .ok Ver')
    (hskip : ¬ p → Ver = Ver') : (if p then [token] else []).foldlM readToken Ver = .ok Ver' := by
  by_cases hp : p
  · rw [if_pos hp, List.foldlM_cons, hread hp]
    rfl
  · rw [if_neg hp, List.foldlM_nil, hskip hp]
    rfl

/-- Tokens that are joined are read one after the other; the one empty token there is without any says nothing. -/
theorem str2Ver_joinStr {list : List Str} (h : ∀ s ∈ list, s ≠ [] ∧ 0x3B ∉ s) :
    str2Ver (joinStr (wide ";") list) = list.foldlM readToken {} := by
  rw [str2Ver, splitOn_joinStr h]
  cases list with
  | nil => rfl
  | cons s list => rw [if_neg (List.cons_ne_nil _ _)]

/-- The builds are read back, the edition never is. -/
theorem str2Ver_ver2Str (v : SWinVer) : str2Ver (ver2Str v) = .ok { v with Win10Ed := .any } := by
  have hmin := @foldlM_optional (v.MinBuild ≠ 0) _ _ {} { MinBuild := v.MinBuild } (fun _ => readToken_minBuild {} v.MinBuild)
    fun h => by rw [not_not.1 h]
  have hmax := @foldlM_optional (v.MaxBuild ≠ 0) _ _ { MinBuild := v.MinBuild } { v with Win10Ed := .any }
    (fun _ => readToken_maxBuild _ v.MaxBuild) fun h => by rw [not_not.1 h]
  have hed := @foldlM_optional (v.Win10Ed.text ≠ []) _ _ { v with Win10Ed := .any } _ (readToken_winEd _ v.Win10Ed) fun _ => rfl
  refine (str2Ver_joinStr ?_).trans ?_
  · intro s hs
    rw [List.mem_append, List.mem_append] at hs
    have hdecimal : ∀ n : Nat, 0x3B ∉ wideDecimal n := fun n => not_mem_wideDecimal rfl
    obtain (hs | hs) | hs := hs
    · split at hs
      · rw [List.mem_singleton.1 hs]
        exact ⟨List.append_ne_nil_of_left_ne_nil (List.cons_ne_nil _ _) _, List.not_mem_append (by decide) (hdecimal _)⟩
      · cases hs
    · split at hs
      · rw [List.mem_singleton.1 hs]
        exact ⟨List.append_ne_nil_of_left_ne_nil (List.cons_ne_nil _ _) _, List.not_mem_append (by decide) (hdecimal _)⟩
      · cases hs
    · split at hs
      · rw [List.mem_singleton.1 hs]
        refine ⟨List.append_ne_nil_of_left_ne_nil (List.cons_ne_nil _ _) _, List.not_mem_append (by decide) ?_⟩
        cases v.Win10Ed <;> decide
      · cases hs
  · rw [List.foldlM_append, List.foldlM_append, hmin]
    refine (congrArg (· >>= _) hmax).trans ?_
    exact hed

/-! ## Texts -/

theorem strReplaceAll_nil (source target : Str) : strReplaceAll source target [] = [] := by
  unfold strReplaceAll
  rfl

theorem strReplaceAll_cons (source target : Str) (c : UInt16) (s : Str) : strReplaceAll source target (c :: s) =
    if source ≠ [] ∧ source.isPrefixOf (c :: s) then target ++ strReplaceAll source target (s.drop (source.length - 1))
    else c :: strReplaceAll source target s := by
  rw [strReplaceAll]

/-- Quotes in a text, as `Var2Str` writes them. -/
def escape (s : Str) : Str := strReplaceAll (wide "\"") (wide "\\\"") s

/-- Quotes in a text, as `Str2Var` reads them. -/
def unescape (s : Str) : Str := strReplaceAll (wide "\\\"") (wide "\"") s

theorem escape_cons (c : UInt16) (s : Str) : escape (c :: s) = if c = 0x22 then 0x5C :: 0x22 :: escape s else c :: escape s := by
  unfold escape
  rw [strReplaceAll_cons]
  by_cases hc : c = 0x22
  · subst hc
    rw [if_pos rfl, if_pos ⟨List.cons_ne_nil _ _, rfl⟩]
    rfl
  · rw [if_neg hc, if_neg]
    rintro ⟨-, hbegins⟩
    obtain ⟨t, ht⟩ := List.isPrefixOf_iff_prefix.1 hbegins
    exact hc (List.cons.inj ht).1.symm

/-- An escaped text does not begin with a quote. -/
theorem head_escape (s : Str) : (escape s).head? ≠ some 0x22 := by
  cases s with
  | nil =>
    rw [escape, strReplaceAll_nil]
    exact Ne.symm (Option.some_ne_none _)
  | cons c s =>
    rw [escape_cons]
    by_cases hc : c = 0x22
    · rw [if_pos hc]
      exact fun h => absurd (Option.some.inj h) (by decide)
    · rw [if_neg hc]
      exact fun h => hc (Option.some.inj h)

/-- Quotes are escaped and read back, whatever backslashes are around them. -/
theorem unescape_escape (s : Str) : unescape (escape s) = s := by
  induction s with
  | nil => rw [escape, unescape, strReplaceAll_nil, strReplaceAll_nil]
  | cons c s ih =>
    rw [escape_cons]
    unfold unescape at ih ⊢
    by_cases hc : c = 0x22
    · rw [if_pos hc, strReplaceAll_cons, if_pos ⟨List.cons_ne_nil _ _, rfl⟩, hc]
      exact congrArg (0x22 :: ·) ih
    · rw [if_neg hc, strReplaceAll_cons, if_neg, ih]
      rintro ⟨-, hbegins⟩
      -- the quote would have to come right behind the backslash
      obtain ⟨t, ht⟩ := List.isPrefixOf_iff_prefix.1 hbegins
      refine head_escape s ?_
      rw [← (List.cons.inj ht).2]
      rfl

section

variable {doubleText : Bytes → Str} {x : Value}

theorem var2Str_text (hx : IsText x.1) : var2Str doubleText x = 0x22 :: (escape (asStr doubleText x) ++ [0x22]) := by
  unfold var2Str
  rw [if_pos hx]
  rfl

/-- A quoted text is read as what is between the quotes. -/
theorem str2Var_quoted (s : Str) : str2Var (0x22 :: (s ++ [0x22])) = assignStr (unescape s) := by
  have hlast : (0x22 :: (s ++ [0x22])).getLast? = some (0x22 : UInt16) := by
    rw [← List.cons_append, List.getLast?_concat]
  unfold str2Var
  rw [if_neg (List.cons_ne_nil _ _), if_pos ⟨rfl, hlast⟩, List.tail_cons, List.dropLast_concat]
  rfl

theorem comesBack_text (hx : IsText x.1) : ComesBack doubleText x ↔ 2 * (asStr doubleText x).length < 2 ^ 32 := by
  unfold ComesBack
  rw [var2Str_text hx, str2Var_quoted, unescape_escape]
  unfold assignStr
  by_cases hlen : 2 * (asStr doubleText x).length < 2 ^ 32
  · rw [if_pos hlen]
    refine iff_of_true ⟨_, rfl, .text hx (.inr (.inr rfl)) ?_⟩ hlen
    exact asStr_str _ _
  · rw [if_neg hlen]
    refine iff_of_false ?_ hlen
    rintro ⟨y, hy, -⟩
    cases hy

/-! ## Numbers and their texts -/

theorem valueNumber_sInt (h : x.1 = varTypeSInt) : valueNumber x = signedLE x.2 := by
  rw [valueNumber, number, if_pos (decide_eq_true h)]

theorem getInt64_eq {width : Width} (h : IsInteger x.1 x.2 width) : getInt64 x.1 x.2 = toLE 8 (ofLE x.2) := by
  have hlt := ofLE_lt x.2
  have hpow : 256 ^ x.2.length ≤ 256 ^ 8 := Nat.pow_le_pow_right (by decide) (by rw [h.length]; cases width <;> decide)
  rw [getInt64, getInt_eq h, if_neg (by omega)]

/-- The text of a number is that of its bytes up to the 64th bit, as a number without sign where they are fewer. -/
theorem asStr_number {width : Width} (h : IsInteger x.1 x.2 width) :
    ∃ n, asStr doubleText x = wideDecimal n ∧ if 0 ≤ valueNumber x ∨ x.2.length = 8 then n = valueNumber x else 0 ≤ n := by
  have hlt := ofLE_lt x.2
  have hpow : 256 ^ x.2.length ≤ 256 ^ 8 := Nat.pow_le_pow_right (by decide) (by rw [h.length]; cases width <;> decide)
  have hvalue : ofLE (toLE 8 (ofLE x.2)) = ofLE x.2 := ofLE_toLE_of_lt (by omega)
  have hbytes := getInt64_eq h
  obtain ⟨type, payload⟩ := x
  dsimp only at hlt hvalue hbytes ⊢
  obtain rfl | rfl := h.type
  · refine ⟨ofLE payload, ?_, ?_⟩
    · have htext : ¬ (varTypeUInt = varTypeAscii ∨ varTypeUInt = varTypeBytes ∨ varTypeUInt = varTypeUtf8 ∨
          varTypeUInt = varTypeUnicode) := by decide
      rw [asStr, if_neg htext, if_neg (by decide), if_pos rfl, hbytes, hvalue]
    · have hnumber : valueNumber (varTypeUInt, payload) = ofLE payload := rfl
      rw [hnumber, if_pos (.inl (by omega))]
  · refine ⟨signedLE (toLE 8 (ofLE payload)), ?_, ?_⟩
    · have htext : ¬ (varTypeSInt = varTypeAscii ∨ varTypeSInt = varTypeBytes ∨ varTypeSInt = varTypeUtf8 ∨
          varTypeSInt = varTypeUnicode) := by decide
      rw [asStr, if_neg htext, if_pos rfl, hbytes]
    · rw [valueNumber_sInt rfl]
      by_cases h8 : payload.length = 8
      · have hsame := toLE_ofLE payload
        rw [h8] at hsame
        rw [if_pos (.inr h8), hsame]
      · -- fewer bytes are filled up with zeros
        have hfew : payload.length ≤ 4 := by
          have hlength := h.length
          dsimp only at hlength
          rw [hlength] at h8 ⊢
          cases width <;> simp_all [Width.bytes]
        have hpow4 : 256 ^ payload.length ≤ 256 ^ 4 := Nat.pow_le_pow_right (by decide) hfew
        have hhalf : signedLE (toLE 8 (ofLE payload)) = ofLE payload := by
          rw [signedLE_of_lt (by rw [hvalue, length_toLE]; omega), hvalue]
        rw [hhalf]
        split
        · next hsign => exact (signedLE_nonneg (hsign.resolve_right h8)).symm
        · exact Int.natCast_nonneg _

theorem str2Var_wideDecimal (n : Int) :
    str2Var (wideDecimal n) = some (.sint32 (.ofInt (max (-0x80000000) (min n 0x7FFFFFFF)))) := by
  obtain ⟨c, rest, heq, hdigit⟩ := decimal_eq_cons n.natAbs
  have hquote : (0x22 : UInt16) ∉ wideDecimal n := by
    rw [wideDecimal, List.mem_append, not_or]
    constructor
    · split <;> decide
    · rw [← wideDecimal_ofNat]
      exact not_mem_wideDecimal rfl
  have hne : wideDecimal n ≠ [] := by
    rw [wideDecimal, heq]
    exact List.append_ne_nil_of_right_ne_nil _ (List.cons_ne_nil _ _)
  rw [str2Var, if_neg hne, if_neg fun h => hquote (List.mem_of_head? h.1), wtoi_wideDecimal]

theorem valueNumber_sint32 {n : Int} (hlow : -0x80000000 ≤ n) (hhigh : n ≤ 0x7FFFFFFF) :
    valueNumber (.sint32 (.ofInt n)) = n := by
  have hlt : (Int32.ofInt n).toUInt32.toNat < 256 ^ 4 := (Int32.ofInt n).toUInt32.toNat_lt
  have hself : (Int32.ofInt n).toInt = n := Int32.toInt_ofInt_of_le (by omega) (by omega)
  have hbits : (Int32.ofInt n).toInt = Int.bmod (Int32.ofInt n).toUInt32.toNat (2 ^ 32) := BitVec.toInt_eq_toNat_bmod _
  have hpow : 256 ^ 4 = 2 ^ 32 := by norm_num
  rw [valueNumber_sInt rfl, Value.sint32]
  dsimp only
  rw [signedLE, length_toLE, ofLE_toLE_of_lt hlt, hpow, ← hbits, hself]

theorem comesBack_number {width : Width} (h : IsInteger x.1 x.2 width) : ComesBack doubleText x ↔
    (0 ≤ valueNumber x ∨ x.2.length = 8) ∧ -0x80000000 ≤ valueNumber x ∧ valueNumber x ≤ 0x7FFFFFFF := by
  have htext : ¬ IsText x.1 := by
    obtain htype | htype := h.type
    · rw [htype]; decide
    · rw [htype]; decide
  obtain ⟨n, hn, hvalue⟩ := @asStr_number doubleText x width h
  have hback : str2Var (var2Str doubleText x) = some (.sint32 (.ofInt (max (-0x80000000) (min n 0x7FFFFFFF)))) := by
    rw [var2Str, if_neg htext, if_pos h.type, hn, str2Var_wideDecimal]
  have hread : valueNumber (.sint32 (.ofInt (max (-0x80000000) (min n 0x7FFFFFFF)))) = max (-0x80000000) (min n 0x7FFFFFFF) :=
    valueNumber_sint32 (by omega) (by omega)
  have hiff : ComesBack doubleText x ↔ max (-0x80000000) (min n 0x7FFFFFFF) = valueNumber x := by
    unfold ComesBack
    rw [hback]
    constructor
    · rintro ⟨y, hy, hsame⟩
      obtain rfl := Option.some.inj hy
      cases hsame with
      | text hx => exact absurd hx htext
      | number _ _ hsame => exact hread.symm.trans hsame
    · exact fun hsame => ⟨_, rfl, .number h.type (.inr rfl) (hread.trans hsame)⟩
  rw [hiff]
  split at hvalue
  · next hsign =>
    rw [hvalue, and_iff_right hsign]
    omega
  · next hsign => omega

end

/-! ## What comes back -/

/-- A range of versions comes back just if it is for any edition, and a value as its size and its range allow. -/
theorem tweakText_iff (doubleText : Bytes → Str) (v : SWinVer) (x : TweakValue) :
    (str2Ver (ver2Str v) = .ok v ↔ v.Win10Ed = .any) ∧ (ComesBack doubleText x.value ↔ Survives doubleText x.value) := by
  constructor
  · rw [str2Ver_ver2Str]
    constructor
    · intro h
      rw [← Except.ok.inj h]
    · intro h
      rw [← h]
  · unfold Survives
    obtain htext | ⟨width, hnumber⟩ := x.kind
    · rw [if_pos htext]
      exact comesBack_text htext
    · rw [if_neg]
      · exact comesBack_number hnumber
      · obtain htype | htype := hnumber.type
        · rw [htype]; decide
        · rw [htype]; decide

/-- A tweak for the Enterprise edition is read back as one for every edition, and -1 as the largest `int`. -/
theorem tweakText_iff_enterprise :
    str2Ver (ver2Str { MinBuild := 10000, Win10Ed := .enterprise }) ≠ .ok { MinBuild := 10000, Win10Ed := .enterprise } ∧
      ¬ ComesBack (fun _ => []) (.sint32 (.ofInt (-1))) := by
  constructor
  · rw [str2Ver_ver2Str]
    intro h
    cases h
  · have hinteger : IsInteger (Value.sint32 (.ofInt (-1))).1 (Value.sint32 (.ofInt (-1))).2 .w32 := ⟨.inr rfl, rfl⟩
    have hnumber : valueNumber (.sint32 (.ofInt (-1))) = -1 := valueNumber_sint32 (by omega) (by omega)
    rw [comesBack_number hinteger, hnumber]
    rintro ⟨hsign | hlength, -⟩
    · omega
    · cases hlength

end MajorPrivacy.Tweaks

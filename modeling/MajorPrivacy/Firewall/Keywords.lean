/-
The keywords of the address lists name no address, and the networks they stand for are written without
keywords: a search calls itself once at most.
-/
import MajorPrivacy.Firewall.Matching

namespace MajorPrivacy.Firewall

open LittleEndian MajorPrivacy.Variant

/-! ## Keywords -/

/-- The keywords that stand for networks, in lowercase. -/
def keywords : List Str := ["localsubnet", "localintranet", "internet", "dns", "dhcp", "wins", "defaultgateway"].map wide

theorem getSpecialNet_of_not_keyword {subNet : Str} (h : (cStr subNet).map towlower ∉ keywords) (nicInfo : Option SAdapterInfo) :
    getSpecialNet subNet nicInfo = some [] := by
  have hkeyword : ∀ keyword : Str, (cStr keyword).map towlower ∈ keywords → wcsicmp subNet keyword = false := fun keyword hmem =>
    decide_eq_false fun heq => h (heq ▸ hmem)
  unfold getSpecialNet
  rw [hkeyword (wide "LocalSubnet") (by decide), hkeyword (wide "LocalIntranet") (by decide), hkeyword (wide "Internet") (by decide),
    hkeyword (wide "DNS") (by decide), hkeyword (wide "DHCP") (by decide), hkeyword (wide "WINS") (by decide),
    hkeyword (wide "DefaultGateway") (by decide)]
  rfl

/-! ## A keyword as an address -/

theorem parseDigit_towlower (c : UInt16) : parseDigit (towlower c) = parseDigit c := by
  have hle : ∀ a b : UInt16, a ≤ b ↔ a.toNat ≤ b.toNat := fun a b => UInt16.le_iff_toNat_le
  by_cases hupper : 65 ≤ c ∧ c ≤ 90
  · have h65 := (hle _ _).1 hupper.1
    have h90 := (hle _ _).1 hupper.2
    have hsum : (c + 32).toNat = c.toNat + 32 := by
      rw [UInt16.toNat_add]
      simp at h65 h90 ⊢
      omega
    have hlow : towlower c = c + 32 := if_pos hupper
    have hidem : towlower (c + 32) = c + 32 := by
      refine if_neg fun h => ?_
      have h' := (hle _ _).1 h.2
      rw [hsum] at h'
      simp at h65 h'
      omega
    have hdigit : ∀ d : UInt16, 58 ≤ d.toNat → ¬ (48 ≤ d ∧ d ≤ 57) := by
      rintro d hd ⟨-, h⟩
      have h' := (hle _ _).1 h
      simp at h'
      omega
    unfold parseDigit
    simp at h65
    rw [hlow, hidem, if_neg (hdigit _ (by omega)), if_neg (hdigit _ (by omega))]
  · have hlow : towlower c = c := if_neg hupper
    rw [hlow]

theorem eq_of_towlower {c k : UInt16} (h : towlower c = k) : c = k ∨ c = k - 32 := by
  unfold towlower at h
  split at h
  · exact .inr (h ▸ (UInt16.add_sub_cancel c 32).symm)
  · exact .inl h

theorem drop_length_takeWhile {α : Type} (p : α → Bool) (l : List α) : l.drop (l.takeWhile p).length = l.dropWhile p := by
  calc l.drop (l.takeWhile p).length
    _ = (l.takeWhile p ++ l.dropWhile p).drop (l.takeWhile p).length := by rw [List.takeWhile_append_dropWhile]
    _ = l.dropWhile p := List.drop_left

/-- No number of base ten begins with one of these letters; one of base 16 ends at the first other letter. -/
theorem wcstoul_letter {c : UInt16} (hc : c ∈ (wide "dDiIlLwW")) (s : Str) :
    wcstoul 0 (c :: s) = (0, c :: s) ∧ (wcstoul 16 (c :: s)).2 = (c :: s).dropWhile fun c => parseDigit c < 16 := by
  have hall : ∀ c ∈ wide "dDiIlLwW", isSpace (narrow c) = false ∧ c ≠ 0x2D ∧ c ≠ 0x2B ∧ c ≠ 0x30 ∧ ¬ parseDigit c < 10 :=
    forall_of_all (by decide)
  rcases hall c hc with ⟨hspace, hminus, hplus, hzero, hdigit⟩
  have hbody : (c :: s).dropWhile (fun c => isSpace (narrow c)) = c :: s := List.dropWhile_cons_of_neg (by simp [hspace])
  constructor
  · unfold wcstoul
    rw [hbody]
    simp [hminus, hplus, hzero, hdigit]
  · unfold wcstoul
    rw [hbody]
    simp only [List.cons.injEq, hminus, false_and, imp_self, implies_true, hplus, hzero, OfNat.ofNat_ne_zero,
      ↓reduceIte, Nat.reducePow, ge_iff_le, Bool.false_eq_true]
    split
    · rename_i hnil
      rw [← drop_length_takeWhile, hnil]
      rfl
    · exact drop_length_takeWhile _ _

/-- The first letters of the keywords, and the first one behind the digits of those that begin like a number. -/
theorem letters_of_keyword {s : Str} (h : s.map towlower ∈ keywords) : (∃ c rest, s = c :: rest ∧ c ∈ wide "dDiIlLwW") ∧
    ∃ c ∈ wide "hHiIlLnNuUwW", (s.dropWhile fun c => parseDigit c < 16).head? = some c := by
  have hhead : ∀ keyword ∈ keywords, ((wide "dilw").any fun k => keyword.head? = some k) = true := forall_of_all (by decide)
  have hrest : ∀ keyword ∈ keywords, ((wide "hilnuw").any fun k => (keyword.dropWhile fun c => parseDigit c < 16).head? = some k) = true :=
    forall_of_all (by decide)
  constructor
  · rcases List.any_eq_true.1 (hhead _ h) with ⟨k, hk, hs⟩
    rcases s with _ | ⟨c, rest⟩
    · cases hs
    · refine ⟨c, rest, rfl, ?_⟩
      have hcases : ∀ k ∈ wide "dilw", k ∈ wide "dDiIlLwW" ∧ k - 32 ∈ wide "dDiIlLwW" := forall_of_all (by decide)
      rcases eq_of_towlower (Option.some.inj (of_decide_eq_true hs)) with rfl | rfl
      · exact (hcases _ hk).1
      · exact (hcases _ hk).2
  · rcases List.any_eq_true.1 (hrest _ h) with ⟨k, hk, hs⟩
    rw [decide_eq_true_eq, List.dropWhile_map, List.head?_map] at hs
    have hcases : ∀ k ∈ wide "hilnuw", k ∈ wide "hHiIlLnNuUwW" ∧ k - 32 ∈ wide "hHiIlLnNuUwW" := forall_of_all (by decide)
    have hdigit : ((fun c => decide (parseDigit c < 16)) ∘ towlower) = fun c => decide (parseDigit c < 16) := by
      funext c
      simp only [Function.comp, parseDigit_towlower]
    rw [hdigit] at hs
    rcases Option.map_eq_some_iff.1 hs with ⟨c, hc, hlower⟩
    refine ⟨c, ?_, hc⟩
    rcases eq_of_towlower hlower with rfl | rfl
    · exact (hcases _ hk).1
    · exact (hcases _ hk).2

theorem aton_keyword {s : Str} (h : s.map towlower ∈ keywords) : CAddress.aton s = [0, 0, 0, 0] := by
  rcases (letters_of_keyword h).1 with ⟨c, rest, rfl, hc⟩
  have hparts : CAddress.atonParts 4 (c :: rest) = (false, []) := by
    unfold CAddress.atonParts
    rw [(wcstoul_letter hc rest).1]
    simp
  rw [CAddress.aton, hparts]
  rfl

theorem pton6_keyword {s : Str} (h : s.map towlower ∈ keywords) : CAddress.pton6 s = List.replicate 16 0 := by
  rcases letters_of_keyword h with ⟨⟨c, rest, rfl, hc⟩, d, hd, hhead⟩
  have hdelim : ∀ d ∈ wide "hHiIlLnNuUwW", d ≠ 0x3A ∧ CAddress.delimchar (some d) = false := forall_of_all (by decide)
  rcases hdelim d hd with ⟨hcolon, hdelim⟩
  have hloop : ∃ ok p, CAddress.ptonLoop 8 0 0 (c :: rest) = (ok, [], 0, p) ∧ (ok = true → p = c :: rest) := by
    unfold CAddress.ptonLoop
    split
    · exact ⟨true, _, rfl, fun _ => rfl⟩
    · rcases hnumber : wcstoul 16 (c :: rest) with ⟨x, p⟩
      have hp : p.head? = some d := by rw [← hhead, ← (wcstoul_letter hc rest).2, hnumber]
      refine ⟨false, p, ?_, fun h => by cases h⟩
      exact if_pos (.inr ⟨fun h => hcolon (Option.some.inj (hp.symm.trans h)), by simp [hp, hdelim]⟩)
  rcases hloop with ⟨ok, p, hloop, hp⟩
  unfold CAddress.pton6
  rw [hloop]
  cases ok with
  | false => rfl
  | true =>
    rw [hp rfl]
    exact if_pos (.inr (.inl rfl))

/-- A text that is a keyword names no address. -/
theorem isNull_of_keyword {s : Str} (h : (cStr s).map towlower ∈ keywords) : (CAddress.fromWString s).isNull := by
  unfold CAddress.fromWString
  split
  · rw [aton_keyword h]
    rfl
  · split
    · rw [pton6_keyword h]
      rfl
    · rfl

/-! ## The depth of the search -/

/-- None of the texts is a keyword. -/
def NoKeyword (ranges : List Str) : Prop := ∀ range ∈ ranges, ∀ single, range.splitOn 0x2D = [single] → (cStr single).map towlower ∉ keywords

/-- The characters of addresses and of ranges of them. -/
def isAddressChar (c : UInt16) : Bool := 42 ≤ c && c ≤ 58 || 97 ≤ c && c ≤ 102

theorem towlower_addressChar {c : UInt16} (h : isAddressChar c) : towlower c = c := by
  have hle : ∀ a b : UInt16, a ≤ b ↔ a.toNat ≤ b.toNat := fun a b => UInt16.le_iff_toNat_le
  simp [isAddressChar, hle] at h
  refine if_neg fun hupper => ?_
  simp [hle] at hupper
  omega

theorem noKeyword_of_chars {ranges : List Str} (h : ∀ range ∈ ranges, ∀ c ∈ range, isAddressChar c) : NoKeyword ranges := by
  rintro range hrange single hsplit hkeyword
  have hsingle : single = range := by
    have hjoin := @List.intercalate_splitOn _ range _ _ 0x2D
    rw [hsplit] at hjoin
    simpa using hjoin
  have hother : ∀ keyword ∈ keywords, (keyword.any fun k => !isAddressChar k) = true := forall_of_all (by decide)
  rcases List.any_eq_true.1 (hother _ hkeyword) with ⟨k, hk, hnot⟩
  rw [Bool.not_eq_true'] at hnot
  rcases List.mem_map.1 hk with ⟨c, hc, rfl⟩
  have hchar := h range hrange c (hsingle ▸ List.takeWhile_subset _ hc)
  rw [towlower_addressChar hchar, hchar] at hnot
  cases hnot

theorem noKeyword_of_all {ranges : List Str} (h : (ranges.all fun range => range.all isAddressChar) = true) : NoKeyword ranges :=
  noKeyword_of_chars fun range hrange => List.all_eq_true.1 (List.all_eq_true.1 h range hrange)

theorem mem_digits {base n : Nat} {c : UInt16} (hc : c ∈ CAddress.digits base n) : isAddressChar c := by
  have hdigit : ∀ d, isAddressChar (UInt16.ofNat (Nat.digitChar d).toNat) := by
    intro d
    have hall : ∀ d < 16, isAddressChar (UInt16.ofNat (Nat.digitChar d).toNat) := by decide
    by_cases hd : d < 16
    · exact hall d hd
    · have hstar : Nat.digitChar d = '*' := by
        unfold Nat.digitChar
        repeat rw [if_neg (by omega)]
      rw [hstar]
      decide
  have hcore : ∀ (fuel n : Nat) (ds : List Char), (∀ c ∈ ds, isAddressChar (UInt16.ofNat c.toNat)) →
      ∀ c ∈ Nat.toDigitsCore base fuel n ds, isAddressChar (UInt16.ofNat c.toNat) := by
    intro fuel
    induction fuel with
    | zero => exact fun _ _ h => h
    | succ fuel ih =>
      rintro n ds h
      have hcons : ∀ c ∈ Nat.digitChar (n % base) :: ds, isAddressChar (UInt16.ofNat c.toNat) :=
        List.forall_mem_cons.2 ⟨hdigit _, h⟩
      unfold Nat.toDigitsCore
      dsimp only
      split
      · exact hcons
      · exact ih _ _ hcons
  rcases List.mem_map.1 hc with ⟨d, hd, rfl⟩
  exact hcore _ _ _ (fun c hc => by cases hc) d hd

theorem mem_intercalate {sep : UInt16} (hsep : isAddressChar sep) : ∀ {xs : List Str}, (∀ x ∈ xs, ∀ c ∈ x, isAddressChar c) →
    ∀ c ∈ [sep].intercalate xs, isAddressChar c
  | [], _, c, hc => by cases hc
  | [x], h, c, hc => h x List.mem_cons_self c (by simpa using hc)
  | x :: y :: xs, h, c, hc => by
    rw [List.intercalate_cons_cons, List.append_assoc] at hc
    rcases List.mem_append.1 hc with hc | hc
    · exact h x List.mem_cons_self c hc
    · rcases List.mem_append.1 hc with hc | hc
      · exact List.mem_singleton.1 hc ▸ hsep
      · exact mem_intercalate hsep (fun z hz => h z (List.mem_cons_of_mem _ hz)) c hc

theorem mem_toWString {a : CAddress} : ∀ c ∈ a.toWString, isAddressChar c := by
  unfold CAddress.toWString
  split
  · exact fun c hc => (by cases hc)
  · refine mem_intercalate (by decide) fun x hx => ?_
    rcases List.mem_map.1 hx with ⟨b, -, rfl⟩
    exact fun c => mem_digits
  · refine mem_intercalate (by decide) fun x hx => ?_
    rcases List.mem_map.1 hx with ⟨i, -, rfl⟩
    exact fun c => mem_digits

/-- The networks of a keyword hold no keyword. -/
theorem noKeyword_getSpecialNet {subNet : Str} {nicInfo : Option SAdapterInfo} {nets : List Str}
    (h : getSpecialNet subNet nicInfo = some nets) : NoKeyword nets := by
  have hlocal : (localNets ++ internetNets).all (·.all isAddressChar) = true := by decide +kernel
  have hnet : ∀ range ∈ localNets ++ internetNets, ∀ c ∈ range, isAddressChar c := fun range hrange =>
    List.all_eq_true.1 (List.all_eq_true.1 hlocal range hrange)
  have hnic : ∀ addresses : SAdapterInfo → List CAddress, (nicInfo.map fun nic => (addresses nic).map (·.toWString)) = some nets →
      NoKeyword nets := by
    rintro addresses hmap
    rcases Option.map_eq_some_iff.1 hmap with ⟨nic, -, rfl⟩
    refine noKeyword_of_chars fun range hrange => ?_
    rcases List.mem_map.1 hrange with ⟨a, -, rfl⟩
    exact mem_toWString
  unfold getSpecialNet at h
  split_ifs at h
  · cases h
    exact noKeyword_of_chars fun range hrange => hnet range (List.mem_append_left _ hrange)
  · cases h
    exact noKeyword_of_chars fun range hrange => hnet range (List.mem_append_right _ hrange)
  · exact hnic _ h
  · exact hnic _ h
  · exact hnic _ h
  · exact hnic _ h
  · cases h
    exact fun range hrange => (by cases hrange)

end MajorPrivacy.Firewall

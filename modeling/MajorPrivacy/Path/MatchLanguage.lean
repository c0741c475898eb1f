/-
What a pattern means and what the matcher finds. `Set` cuts a lowered pattern into its pieces, the
matcher computes the leftmost parse, and so `Match` answers for the language of the pattern just
where a string of the language has a leftmost parse.
-/
import MajorPrivacy.Path.SmartPattern
import MajorPrivacy.Lib.Glob
import Mathlib.Data.List.Forall2

namespace MajorPrivacy.Path

open Glob CSmartPattern

/-! ## The language of a pattern -/

/-- A pattern as wildcards and characters. -/
def tokens : Str → List (Token WChar)
  | [] => []
  | c :: rest =>
    if c = asterisk then
      match rest with
      | d :: rest' => if d = asterisk then .dblStar :: tokens rest' else .star :: tokens (d :: rest')
      | [] => [.star]
    else if c = questionMark then .any :: tokens rest
    else .lit c :: tokens rest
termination_by structural rest => rest

/-- The characters a single asterisk does not pass over: the separator, where one is set. -/
def stopAt (separator : WChar) (c : WChar) : Prop := separator ≠ 0 ∧ c = separator

/-- The lowered string belongs to the language of the lowered pattern. -/
def InLanguage (pattern : Str) (separator : WChar) (str : Str) : Prop :=
  Lang (stopAt separator) (fun _ => True) (tokens (makeLower pattern)) (makeLower str)

/-- The lowered string has a parse in which every wildcard in front of a text ends where the text
fits first. -/
def HasLeftmostParse (pattern : Str) (separator : WChar) (str : Str) : Prop :=
  Leftmost (stopAt separator) (pieces (tokens (makeLower pattern))) (makeLower str)

theorem HasLeftmostParse.inLanguage {pattern str : Str} {separator : WChar}
    (h : HasLeftmostParse pattern separator str) : InLanguage pattern separator str :=
  Leftmost.lang h

/-! ## Texts -/

/-- A text with its question marks as wildcards. -/
def textOf (text : Str) : List (Option WChar) := text.map fun c => if c = questionMark then none else some c

@[simp] theorem length_textOf (text : Str) : (textOf text).length = text.length := by
  simp [textOf]

theorem matchString_iff : ∀ text str : Str, matchString text str = true ↔ Fits (textOf text) str
  | [], _ => by simp [matchString, textOf, Fits]
  | _ :: _, [] => by simp [matchString, textOf, Fits]
  | l :: text, r :: str => by
    have ih := matchString_iff text str
    unfold matchString
    change _ ↔ (_ ∨ _) ∧ Fits (textOf text) str
    rw [← ih]
    by_cases hl : l = questionMark
    · simp [hl]
    · simp [hl]

theorem lower_eq_asterisk {c : WChar} : lower c = asterisk ↔ c = asterisk := by
  unfold lower asterisk
  split
  · rename_i h
    rw [UInt16.le_iff_toNat_le, UInt16.le_iff_toNat_le] at h
    rw [← UInt16.toNat_inj, ← UInt16.toNat_inj, UInt16.toNat_add]
    simp at h ⊢
    omega
  · rfl

theorem tokens_cons {c : WChar} (hc : c ≠ asterisk) (rest : Str) :
    pieces (tokens (c :: rest)) = consChar (if c = questionMark then none else some c) (pieces (tokens rest)) := by
  rw [tokens.eq_def]
  simp only [if_neg hc]
  by_cases hq : c = questionMark
  · rw [if_pos hq, if_pos hq, pieces]
  · rw [if_neg hq, if_neg hq, pieces]

theorem tokens_asterisk {rest : Str} (h : rest.head? ≠ some asterisk) :
    tokens (asterisk :: rest) = .star :: tokens rest := by
  cases rest with
  | nil => rfl
  | cons d rest =>
    have hd : d ≠ asterisk := fun e => h (by rw [e]; rfl)
    rw [tokens]
    simp [hd]

theorem tokens_dblAsterisk (rest : Str) : tokens (asterisk :: asterisk :: rest) = .dblStar :: tokens rest := by
  rw [tokens]
  simp

/-- What follows a text: nothing, or an asterisk. -/
def EndsText (rest : Str) : Prop := rest = [] ∨ rest.head? = some asterisk

theorem EndsText.pieces {rest : Str} (h : EndsText rest) (t : List (Option WChar)) (ps : List (Piece WChar)) :
    pieces (tokens rest) ≠ .text t :: ps := by
  rcases h with rfl | h
  · simp [tokens, Glob.pieces]
  · rcases rest with _ | ⟨d, rest⟩
    · cases h
    · cases h
      by_cases hr : rest.head? = some asterisk
      · rcases rest with _ | ⟨e, rest⟩
        · cases hr
        · cases hr
          simp [tokens_dblAsterisk, Glob.pieces]
      · simp [tokens_asterisk hr, Glob.pieces]

/-- A text without asterisks makes one piece, unless there is no text. -/
theorem pieces_text : ∀ (text : Str) {rest : Str}, asterisk ∉ text → EndsText rest →
    pieces (tokens (text ++ rest)) =
      if text = [] then pieces (tokens rest) else .text (textOf text) :: pieces (tokens rest)
  | [], rest, _, _ => by simp
  | c :: text, rest, hn, hr => by
    have hc : c ≠ asterisk := fun h => hn (h ▸ List.mem_cons_self)
    have ih := pieces_text text (fun h => hn (List.mem_cons_of_mem _ h)) hr
    rw [List.cons_append, tokens_cons hc, ih, if_neg (List.cons_ne_nil c text)]
    by_cases ht : text = []
    · subst ht
      rw [if_pos rfl]
      cases hp : pieces (tokens rest) with
      | nil => simp [consChar, textOf]
      | cons piece ps =>
        cases piece with
        | text t => exact absurd hp (hr.pieces t ps)
        | wild cross => simp [consChar, textOf]
    · rw [if_neg ht]
      simp [consChar, textOf]

/-! ## Set -/

/-- The fragment `Set` makes of a piece. -/
inductive Cut : SFragment → Piece WChar → Prop
  | text (text : Str) : Cut ⟨.eText, text⟩ (.text (textOf text))
  | asterisk : Cut ⟨.eAsterisk, []⟩ (.wild false)
  | dblAsterisk : Cut ⟨.eDblAsterisk, []⟩ (.wild true)

/-- The text up to an asterisk or the end becomes a fragment, and with it the piece it is. -/
theorem appendText_spec {p : CSmartPattern} {i j : Nat} {ps : List (Piece WChar)} {done rest : Str}
    (hp : p.pattern = done ++ rest) (hi : done.length = i) (hj : j ≤ i) (hps : List.Forall₂ Cut p.fragments ps)
    (hn : asterisk ∉ done.drop j) {tail : Str} (ht : EndsText tail) :
    ∃ ps', (p.appendText i j).pattern = p.pattern ∧ (p.appendText i j).separator = p.separator ∧
      List.Forall₂ Cut (p.appendText i j).fragments ps' ∧
      ps ++ pieces (tokens (done.drop j ++ tail)) = ps' ++ pieces (tokens tail) := by
  have htext : (p.pattern.drop j).take (i - j) = done.drop j := by
    rw [hp, List.drop_append_of_le_length (by omega), List.take_append_of_le_length (by simp; omega),
      List.take_of_length_le (by simp; omega)]
  rw [pieces_text _ hn ht]
  unfold appendText
  by_cases hij : i > j
  · have hne : done.drop j ≠ [] := by
      rw [Ne, List.drop_eq_nil_iff]; omega
    rw [if_pos hij, if_neg hne]
    refine ⟨ps ++ [.text (textOf (done.drop j))], rfl, rfl, ?_, by simp⟩
    simp only [htext]
    exact List.rel_append hps (.cons (.text _) .nil)
  · have he : done.drop j = [] := by
      rw [List.drop_eq_nil_iff]; omega
    rw [if_neg hij, if_pos he]
    exact ⟨ps, rfl, rfl, hps, rfl⟩

theorem setLoop_char {c : WChar} (hc : c ≠ asterisk) (rest : Str) (i j : Nat) (p : CSmartPattern) :
    setLoop (c :: rest) i j p =
      if isRejected c then (-4, { p with pattern := p.pattern.set i (lower c) })
      else setLoop rest (i + 1) j (if c = questionMark then
        { p with pattern := p.pattern.set i (lower c), info := p.info.addQuestionMark i }
        else { p with pattern := p.pattern.set i (lower c) }) := by
  rw [setLoop.eq_def]
  simp only [if_neg hc]

theorem setLoop_asterisk {rest : Str} (h : rest.head? ≠ some asterisk) (i j : Nat) (p : CSmartPattern) :
    setLoop (asterisk :: rest) i j p = setLoop rest (i + 1) (i + 1) { p.appendText i j with
      info := (p.appendText i j).info.addAsterisk i
      fragments := (p.appendText i j).fragments ++ [⟨.eAsterisk, []⟩] } := by
  cases rest with
  | nil => rw [setLoop.eq_def]; simp only [if_true]
  | cons d rest =>
    have hd : d ≠ asterisk := fun e => h (by rw [e]; rfl)
    rw [setLoop.eq_def]
    simp only [if_true, if_neg hd]

theorem setLoop_dblAsterisk (rest : Str) (i j : Nat) (p : CSmartPattern) :
    setLoop (asterisk :: asterisk :: rest) i j p =
      if rest.head? = some asterisk then (-2, p.appendText i j)
      else setLoop rest (i + 2) (i + 2) { p.appendText i j with
        info := (p.appendText i j).info.addDblAsterisk i
        fragments := (p.appendText i j).fragments ++ [⟨.eDblAsterisk, []⟩] } := by
  rw [setLoop.eq_def]
  simp only [if_true]

/-- The loop of `Set`: behind the lowered part of the pattern, the pieces of the rest are appended. -/
theorem setLoop_spec : ∀ (n : Nat) (rest done : Str) (i j : Nat) (p : CSmartPattern) (ps : List (Piece WChar)),
    rest.length ≤ n → p.pattern = done ++ rest → done.length = i → j ≤ i → List.Forall₂ Cut p.fragments ps →
    asterisk ∉ done.drop j → (setLoop rest i j p).1 = 0 →
    (setLoop rest i j p).2.pattern = done ++ makeLower rest ∧ (setLoop rest i j p).2.separator = p.separator ∧
    List.Forall₂ Cut (setLoop rest i j p).2.fragments (ps ++ pieces (tokens (done.drop j ++ makeLower rest)))
  | _, [], done, i, j, p, ps, _, hp, hi, hj, hps, hn, _ => by
    obtain ⟨ps', hpat, hsep, hcut, heq⟩ := appendText_spec hp hi hj hps hn (.inl rfl)
    rw [setLoop, show makeLower [] = [] from rfl, heq]
    exact ⟨hpat.trans hp, hsep, by simpa [tokens, pieces] using hcut⟩
  | 0, _ :: _, _, _, _, _, _, hlen, _, _, _, _, _, _ => by simp at hlen
  | n + 1, c :: rest, done, i, j, p, ps, hlen, hp, hi, hj, hps, hn, hok => by
    rw [List.length_cons] at hlen
    by_cases hc : c = asterisk
    · subst hc
      have hlow : lower asterisk = asterisk := lower_eq_asterisk.2 rfl
      have hends : EndsText (makeLower (asterisk :: rest)) := .inr (by simp [makeLower, hlow])
      obtain ⟨ps', hpat, hsep, hcut, heq⟩ := appendText_spec hp hi hj hps hn hends
      rw [heq]
      by_cases hr : rest.head? = some asterisk
      · -- a double asterisk
        obtain ⟨rest, rfl⟩ : ∃ rest', rest = asterisk :: rest' := by
          cases rest with
          | nil => cases hr
          | cons d rest => cases hr; exact ⟨rest, rfl⟩
        rw [setLoop_dblAsterisk] at hok ⊢
        split at hok
        · cases hok
        rename_i hr'
        rw [if_neg hr']
        obtain ⟨h₁, h₂, h₃⟩ := setLoop_spec n rest (done ++ [asterisk, asterisk]) (i + 2) (i + 2) _ (ps' ++ [.wild true])
          (by rw [List.length_cons] at hlen; omega) (by rw [hpat, hp]; simp) (by simp [hi]) (Nat.le_refl _)
          (List.rel_append hcut (.cons .dblAsterisk .nil)) (by rw [List.drop_eq_nil_iff.2 (by simp [hi])]; simp) hok
        refine ⟨?_, h₂.trans hsep, ?_⟩
        · rw [h₁]; simp [makeLower, hlow]
        · have hdrop : (done ++ [asterisk, asterisk]).drop (i + 2) = [] := by
            rw [List.drop_eq_nil_iff]; simp [hi]
          rw [hdrop, List.nil_append] at h₃
          rw [show makeLower (asterisk :: asterisk :: rest) = asterisk :: asterisk :: makeLower rest by
            simp [makeLower, hlow], tokens_dblAsterisk]
          simpa [pieces] using h₃
      · -- a single one
        rw [setLoop_asterisk hr] at hok ⊢
        obtain ⟨h₁, h₂, h₃⟩ := setLoop_spec n rest (done ++ [asterisk]) (i + 1) (i + 1) _ (ps' ++ [.wild false])
          (by omega) (by rw [hpat, hp]; simp) (by simp [hi]) (Nat.le_refl _)
          (List.rel_append hcut (.cons .asterisk .nil)) (by rw [List.drop_eq_nil_iff.2 (by simp [hi])]; simp) hok
        refine ⟨?_, h₂.trans hsep, ?_⟩
        · rw [h₁]; simp [makeLower, hlow]
        · have hdrop : (done ++ [asterisk]).drop (i + 1) = [] := by
            rw [List.drop_eq_nil_iff]; simp [hi]
          have hhead : (makeLower rest).head? ≠ some asterisk := by
            intro he
            apply hr
            rcases rest with _ | ⟨d, rest⟩
            · cases he
            · simp only [makeLower, List.map_cons, List.head?_cons, Option.some.injEq] at he ⊢
              exact lower_eq_asterisk.1 he
          rw [hdrop, List.nil_append] at h₃
          rw [show makeLower (asterisk :: rest) = asterisk :: makeLower rest by simp [makeLower, hlow],
            tokens_asterisk hhead]
          simpa [pieces] using h₃
    · -- a character of a text
      rw [setLoop_char hc] at hok ⊢
      split at hok
      · cases hok
      rename_i hrej
      rw [if_neg hrej]
      have hset : p.pattern.set i (lower c) = (done ++ [lower c]) ++ rest := by
        rw [hp, ← hi]; simp
      have hdrop : (done ++ [lower c]).drop j = done.drop j ++ [lower c] := by
        rw [List.drop_append_of_le_length (by omega)]
      have hn' : asterisk ∉ (done ++ [lower c]).drop j := by
        rw [hdrop, List.mem_append, List.mem_singleton, not_or]
        exact ⟨hn, fun e => hc (lower_eq_asterisk.1 e.symm)⟩
      have hgoal : ∀ q : CSmartPattern, q.pattern = p.pattern.set i (lower c) → q.separator = p.separator →
          q.fragments = p.fragments → (setLoop rest (i + 1) j q).1 = 0 →
          (setLoop rest (i + 1) j q).2.pattern = done ++ makeLower (c :: rest) ∧
          (setLoop rest (i + 1) j q).2.separator = p.separator ∧
          List.Forall₂ Cut (setLoop rest (i + 1) j q).2.fragments
            (ps ++ pieces (tokens (done.drop j ++ makeLower (c :: rest)))) := by
        intro q hq₁ hq₂ hq₃ hq
        obtain ⟨h₁, h₂, h₃⟩ := setLoop_spec n rest (done ++ [lower c]) (i + 1) j q ps (by omega) (hq₁.trans hset)
          (by simp [hi]) (by omega) (hq₃ ▸ hps) hn' hq
        refine ⟨by rw [h₁]; simp [makeLower], h₂.trans hq₂, ?_⟩
        rw [hdrop] at h₃
        simpa [makeLower] using h₃
      by_cases hq : c = questionMark
      · rw [if_pos hq] at hok ⊢
        exact hgoal _ rfl rfl rfl hok
      · rw [if_neg hq] at hok ⊢
        exact hgoal _ rfl rfl rfl hok

/-- What `Set` accepts it cuts into the pieces of the lowered pattern. -/
theorem set_spec {p : CSmartPattern} {pattern : Str} (h : (p.set pattern).1 = 0) :
    (p.set pattern).2.pattern = makeLower pattern ∧ (p.set pattern).2.separator = p.separator ∧
      List.Forall₂ Cut (p.set pattern).2.fragments (pieces (tokens (makeLower pattern))) := by
  unfold CSmartPattern.set at h ⊢
  split at h
  · cases h
  · rename_i hne
    simp only [if_neg hne] at h ⊢
    obtain ⟨h₁, h₂, h₃⟩ := setLoop_spec pattern.length pattern [] 0 0
      { p with pattern := pattern, info := .cleared, fragments := [] } [] (Nat.le_refl _) rfl rfl (Nat.le_refl _) .nil
      (by simp) h
    exact ⟨by simpa using h₁, h₂, by simpa using h₃⟩

/-! ## The search for a text -/

/-- `CSmartPattern__MatchSuffix` finds the first place where a text fits. -/
theorem matchSuffix_iff (suffix : Str) (separator : WChar) : ∀ (str : Str) (n : Nat),
    matchSuffix suffix separator str = some n ↔ FirstFit (stopAt separator) false (textOf suffix) str n
  | [], n => by
    unfold matchSuffix
    rw [firstFit_nil]
    by_cases hs : suffix = []
    · simp [hs, textOf, eq_comm]
    · simp [hs, textOf]
  | c :: str, n => by
    unfold matchSuffix
    by_cases hshort : (c :: str).length < suffix.length
    · rw [if_pos hshort]
      constructor
      · intro h; cases h
      · intro h
        have hlen := fits_length h.fits
        rw [length_textOf, List.length_drop] at hlen
        omega
    · rw [if_neg hshort]
      by_cases hm : matchString suffix (c :: str) = true
      · rw [if_pos hm, firstFit_of_fits ((matchString_iff _ _).1 hm), Option.some.injEq, eq_comm]
      · rw [if_neg hm, firstFit_cons fun hf => hm ((matchString_iff _ _).2 hf)]
        by_cases hs : separator ≠ 0 ∧ c = separator
        · rw [if_pos hs]
          simp [stopAt, hs.1, hs.2]
        · rw [if_neg hs, Option.map_eq_some_iff]
          simp only [matchSuffix_iff suffix separator str]
          constructor
          · rintro ⟨m, h, rfl⟩; exact ⟨.inr hs, m, rfl, h⟩
          · rintro ⟨-, m, rfl, h⟩; exact ⟨m, h, rfl⟩

/-- Without a separator a wildcard passes over everything. -/
theorem firstFit_zero (separator : WChar) (t : List (Option WChar)) (str : Str) (n : Nat) :
    FirstFit (stopAt 0) false t str n ↔ FirstFit (stopAt separator) true t str n := by
  constructor
  · exact fun h => ⟨h.le, .inl rfl, h.fits, h.first⟩
  · exact fun h => ⟨h.le, .inr fun c _ hc => hc.1 rfl, h.fits, h.first⟩

/-! ## RawMatch -/

/-- The wildcard the last fragment was, if it was one. -/
def lastWild : FragmentType → List (Piece WChar)
  | .eAsterisk => [.wild false]
  | .eDblAsterisk => [.wild true]
  | _ => []

/-- The type of the last of some fragments. -/
def lastType (last : FragmentType) : List SFragment → FragmentType
  | [] => last
  | fragment :: fragments => lastType fragment.type fragments

/-- The search behind a wildcard, with the separator only for a single asterisk. -/
theorem matchSuffix_wild {last : FragmentType} (h : last = .eAsterisk ∨ last = .eDblAsterisk) (separator : WChar) :
    ∃ cross, lastWild last = [.wild cross] ∧ ∀ suffix str n,
      matchSuffix suffix (if last = .eAsterisk then separator else 0) str = some n ↔
        FirstFit (stopAt separator) cross (textOf suffix) str n := by
  rcases h with rfl | rfl
  · exact ⟨false, rfl, fun suffix str n => matchSuffix_iff suffix separator str n⟩
  · refine ⟨true, rfl, fun suffix str n => ?_⟩
    rw [if_neg (by decide), matchSuffix_iff, firstFit_zero]

/-- The loop of `RawMatch` computes the leftmost parse. -/
theorem rawMatchLoop_iff (separator : WChar) (str : Str) : ∀ (fragments : List SFragment) (ps : List (Piece WChar)),
    List.Forall₂ Cut fragments ps → ∀ (pos : Nat) (last : FragmentType), pos ≤ str.length → ∀ (q : Nat) (l : FragmentType),
    rawMatchLoop separator str fragments pos last = some (q, l) ↔
      (∃ n, q = pos + n ∧ LeftParse (stopAt separator) (lastWild last ++ ps) (str.drop pos) n) ∧ l = lastType last fragments
  | [], _, .nil, pos, last, hpos, q, l => by
    have hnil : ∀ n, LeftParse (stopAt separator) (lastWild last ++ []) (str.drop pos) n ↔ n = 0 := by
      intro n
      cases last <;> exact Iff.rfl
    simp only [rawMatchLoop, hnil, exists_eq_right, Nat.add_zero, lastType, Option.some.injEq, Prod.mk.injEq]
    exact and_congr eq_comm eq_comm
  | _ :: fragments, _ :: ps, .cons (.text text) hps, pos, last, hpos, q, l => by
    have ih := rawMatchLoop_iff separator str fragments ps hps
    simp only [rawMatchLoop, lastType]
    by_cases hw : last = .eAsterisk ∨ last = .eDblAsterisk
    · -- behind a wildcard the text is searched for
      obtain ⟨cross, hlw, hsuf⟩ := matchSuffix_wild hw separator
      rw [if_pos hw, hlw]
      simp only [List.singleton_append, LeftParse, ← hsuf, length_textOf]
      by_cases hshort : text.length > str.length - pos
      · rw [if_pos hshort]
        constructor
        · intro h; cases h
        · rintro ⟨⟨-, -, k, -, hk, -⟩, -⟩
          have hlen := fits_length ((hsuf _ _ _).1 hk).fits
          rw [length_textOf, List.length_drop, List.length_drop] at hlen
          omega
      · rw [if_neg hshort]
        cases hk : matchSuffix text (if last = .eAsterisk then separator else 0) (str.drop pos) with
        | none => simp
        | some k =>
          have hfit := (hsuf _ _ _).1 hk
          have hlen := fits_length hfit.fits
          have hle := hfit.le
          rw [length_textOf, List.length_drop, List.length_drop] at hlen
          rw [List.length_drop] at hle
          simp only [ih (pos + (k + text.length)) .eText (by omega), lastWild, List.nil_append, List.drop_drop,
            Option.some.injEq]
          constructor
          · rintro ⟨⟨m, rfl, hm⟩, hl⟩
            exact ⟨⟨k + text.length + m, by omega, k, m, rfl, rfl, hm⟩, hl⟩
          · rintro ⟨⟨-, rfl, _, m, rfl, rfl, hm⟩, hl⟩
            exact ⟨⟨m, by omega, hm⟩, hl⟩
    · -- at the beginning or behind a text it has to fit where it stands
      have hlw : lastWild last = [] := by
        cases last <;> simp_all [lastWild]
      rw [if_neg hw, hlw]
      simp only [List.nil_append, LeftParse, ← matchString_iff, length_textOf]
      by_cases hshort : text.length > str.length - pos
      · rw [if_pos hshort]
        constructor
        · intro h; cases h
        · rintro ⟨⟨-, -, hf, -⟩, -⟩
          have hlen := fits_length ((matchString_iff _ _).1 hf)
          rw [length_textOf, List.length_drop] at hlen
          omega
      · rw [if_neg hshort]
        by_cases hf : matchString text (str.drop pos) = true
        · rw [if_pos hf, ih (pos + text.length) .eText (by omega)]
          simp only [lastWild, List.nil_append, List.drop_drop, hf, true_and]
          constructor
          · rintro ⟨⟨m, rfl, hm⟩, hl⟩
            exact ⟨⟨text.length + m, by omega, m, rfl, hm⟩, hl⟩
          · rintro ⟨⟨-, rfl, m, rfl, hm⟩, hl⟩
            exact ⟨⟨m, by omega, hm⟩, hl⟩
        · simp [hf]
  | _ :: fragments, _ :: ps, .cons .asterisk hps, pos, last, hpos, q, l => by
    have ih := rawMatchLoop_iff separator str fragments ps hps pos .eAsterisk hpos q l
    cases last <;> exact ih
  | _ :: fragments, _ :: ps, .cons .dblAsterisk hps, pos, last, hpos, q, l => by
    have ih := rawMatchLoop_iff separator str fragments ps hps pos .eDblAsterisk hpos q l
    cases last <;> exact ih

/-! ## Match -/

/-- What `Match` accepts behind the position `RawMatch` reached. -/
theorem rest_iff (separator : WChar) (str : Str) : ∀ (fragments : List SFragment) (ps : List (Piece WChar)),
    List.Forall₂ Cut fragments ps → ∀ (last : FragmentType),
    Rest (stopAt separator) (lastWild last ++ ps) str ↔
      match lastType last fragments with
      | .eAsterisk => Allowed (stopAt separator) false str
      | .eDblAsterisk => True
      | _ => str = []
  | [], _, .nil, last => by
    cases last
    · exact Iff.rfl
    · exact Iff.rfl
    · exact iff_of_true (.inl rfl) trivial
    · exact Iff.rfl
  | _ :: fragments, _ :: ps, .cons (.text text) hps, last => by
    have ih := rest_iff separator str fragments ps hps .eText
    simp only [lastType]
    rw [← ih]
    cases last <;> exact rest_cons_text (textOf text) ps str
  | _ :: fragments, _ :: ps, .cons .asterisk hps, last => by
    have ih := rest_iff separator str fragments ps hps .eAsterisk
    cases last <;> exact ih
  | _ :: fragments, _ :: ps, .cons .dblAsterisk hps, last => by
    have ih := rest_iff separator str fragments ps hps .eDblAsterisk
    cases last <;> exact ih

/-- The end of `Match`, for a position inside the string. -/
theorem endOfMatch_iff {separator : WChar} {str : Str} {pos : Nat} (hpos : pos ≤ str.length) (last : FragmentType) :
    (if pos = str.length then true
      else if last = .eAsterisk ∨ last = .eDblAsterisk then
        if separator ≠ 0 ∧ last = .eAsterisk then !(str.drop pos).any (· = separator) else true
      else false) = true ↔
    match last with
    | .eAsterisk => Allowed (stopAt separator) false (str.drop pos)
    | .eDblAsterisk => True
    | _ => str.drop pos = [] := by
  by_cases hend : pos = str.length
  · have hnil : str.drop pos = [] := by rw [hend, List.drop_length]
    rw [if_pos hend, hnil]
    cases last <;> simp [Allowed]
  · have hne : str.drop pos ≠ [] := by
      rw [Ne, List.drop_eq_nil_iff]; omega
    rw [if_neg hend]
    cases last with
    | eText => simp [hne]
    | eExpression => simp [hne]
    | eDblAsterisk => simp
    | eAsterisk =>
      by_cases hs : separator = 0
      · simp [hs, Allowed, stopAt]
      · simp only [Allowed, stopAt, true_or, if_true, hs, ne_eq, not_false_iff, and_self, true_and, Bool.false_eq_true,
          false_or, Bool.not_eq_true', List.any_eq_false, decide_eq_true_eq]

/-- `Match` on an accepted pattern answers whether the string has a leftmost parse. -/
theorem match_iff_leftmost {separator : WChar} {pattern : Str} (h : ((new separator).set pattern).1 = 0) (str : Str) :
    ((new separator).set pattern).2.match str = true ↔ HasLeftmostParse pattern separator str := by
  obtain ⟨-, hsep, hcut⟩ := set_spec h
  change _ = separator at hsep
  generalize ((new separator).set pattern).2 = p at hsep hcut
  have hraw := rawMatchLoop_iff separator (makeLower str) p.fragments _ hcut 0 .eText (Nat.zero_le _)
  have hrest := fun s => rest_iff separator s p.fragments _ hcut .eText
  simp only [lastWild, List.nil_append, List.drop_zero, Nat.zero_add, exists_eq_left'] at hraw hrest
  unfold CSmartPattern.match rawMatch HasLeftmostParse Leftmost
  rw [hsep]
  cases hm : rawMatchLoop separator (makeLower str) p.fragments 0 .eText with
  | none =>
    simp only [hm]
    constructor
    · intro hf; cases hf
    · rintro ⟨n, hn, -⟩
      rw [(hraw n _).2 ⟨hn, rfl⟩] at hm
      cases hm
  | some x =>
    obtain ⟨pos, last⟩ := x
    obtain ⟨hn, rfl⟩ := (hraw pos last).1 hm
    simp only [hm]
    refine (@endOfMatch_iff separator _ _ (leftParse_le hn) (lastType .eText p.fragments)).trans ?_
    rw [← hrest]
    constructor
    · exact fun hr => ⟨pos, hn, hr⟩
    · rintro ⟨n, hn', hr⟩
      have := (hraw n _).2 ⟨hn', rfl⟩
      rw [hm] at this
      cases this
      exact hr

/-- `Match` decides the language on a string. -/
def MatchDecides (pattern : Str) (separator : WChar) (str : Str) : Prop :=
  ((new separator).set pattern).2.match str = true ↔ InLanguage pattern separator str

/-- `Match` decides the language just on the strings that are not in it, or have a leftmost parse. -/
theorem matchDecides_iff {separator : WChar} {pattern : Str} (h : ((new separator).set pattern).1 = 0) (str : Str) :
    MatchDecides pattern separator str ↔
      ¬ InLanguage pattern separator str ∨ HasLeftmostParse pattern separator str := by
  unfold MatchDecides
  rw [match_iff_leftmost h]
  constructor
  · intro hiff
    by_cases hl : InLanguage pattern separator str
    · exact .inr (hiff.2 hl)
    · exact .inl hl
  · rintro (hl | hp)
    · exact iff_of_false (fun hp => hl hp.inLanguage) hl
    · exact iff_of_true hp hp.inLanguage

/-- What the pattern for files with an extension says of a name that has it once, and of one that has it twice. -/
theorem match_extension : ((new backslash).set [0x2A, 0x2E, 0x65, 0x78, 0x65]).1 = 0 ∧
    ((new backslash).set [0x2A, 0x2E, 0x65, 0x78, 0x65]).2.match [0x41, 0x2E, 0x45, 0x58, 0x45] = true ∧
    ((new backslash).set [0x2A, 0x2E, 0x65, 0x78, 0x65]).2.match [0x61, 0x2E, 0x65, 0x78, 0x65, 0x2E, 0x65, 0x78, 0x65] = false := by
  decide +kernel

theorem matchDecides_extension :
    MatchDecides [0x2A, 0x2E, 0x65, 0x78, 0x65] backslash [0x41, 0x2E, 0x45, 0x58, 0x45] :=
  (matchDecides_iff match_extension.1 _).2 (.inr ((match_iff_leftmost match_extension.1 _).1 match_extension.2.1))

/-- The same pattern on a name that has the extension twice: the search for the text stops at the
first one, and what is left behind it is not the end. -/
theorem match_misses_second_extension :
    ¬ ∀ (separator : WChar) (pattern str : Str), ((new separator).set pattern).1 = 0 →
      MatchDecides pattern separator str := by
  intro h
  have hdec := h backslash [0x2A, 0x2E, 0x65, 0x78, 0x65] [0x61, 0x2E, 0x65, 0x78, 0x65, 0x2E, 0x65, 0x78, 0x65] match_extension.1
  have hin : InLanguage [0x2A, 0x2E, 0x65, 0x78, 0x65] backslash [0x61, 0x2E, 0x65, 0x78, 0x65, 0x2E, 0x65, 0x78, 0x65] :=
    ⟨[0x61, 0x2E, 0x65, 0x78, 0x65], [0x2E, 0x65, 0x78, 0x65], rfl, .inr (by simp [stopAt, backslash]),
      _, rfl, _, rfl, _, rfl, _, rfl, rfl⟩
  have hmatch := hdec.2 hin
  rw [match_extension.2.2] at hmatch
  cases hmatch

end MajorPrivacy.Path

/-
Wildcard patterns over any alphabet: characters, one-character wildcards, and wildcards for
sequences, of which one kind stops in front of certain characters. The language of a pattern is a
set of strings; the leftmost parse is what a search from left to right finds that never goes back,
and every string with a leftmost parse is in the language.
-/
import Mathlib.Data.List.Basic

namespace Glob

/-- An element of a pattern. -/
inductive Token (α : Type)
  | lit (c : α)
  | any
  | star
  | dblStar
  deriving DecidableEq

/-- A pattern cut at its wildcards for sequences: a text, in which `none` is any character, or a
wildcard and whether it may pass over the stopping characters. -/
inductive Piece (α : Type)
  | text (t : List (Option α))
  | wild (cross : Bool)
  deriving DecidableEq

section Language

variable {α : Type} (stop : α → Prop)

/-- What a wildcard may stand for. -/
def Allowed (cross : Bool) (s : List α) : Prop := cross = true ∨ ∀ c ∈ s, ¬ stop c

/-- The language of a pattern; `one` is what a wildcard for one character may stand for. -/
def Lang (one : α → Prop) : List (Token α) → List α → Prop
  | [], s => s = []
  | .lit c :: p, s => ∃ s', s = c :: s' ∧ Lang one p s'
  | .any :: p, s => ∃ c s', s = c :: s' ∧ one c ∧ Lang one p s'
  | .star :: p, s => ∃ u v, s = u ++ v ∧ Allowed stop false u ∧ Lang one p v
  | .dblStar :: p, s => ∃ u v, s = u ++ v ∧ Lang one p v

/-- A text fits at the beginning of a string. -/
def Fits : List (Option α) → List α → Prop
  | [], _ => True
  | _ :: _, [] => False
  | a :: t, c :: s => (a = none ∨ a = some c) ∧ Fits t s

/-- The language of a pattern in pieces. -/
def PieceLang : List (Piece α) → List α → Prop
  | [], s => s = []
  | .text t :: ps, s => Fits t s ∧ PieceLang ps (s.drop t.length)
  | .wild cross :: ps, s => ∃ u v, s = u ++ v ∧ Allowed stop cross u ∧ PieceLang ps v

/-- A first character lengthens the text behind it, or is a text in front of a wildcard. -/
def consChar (a : Option α) : List (Piece α) → List (Piece α)
  | .text t :: ps => .text (a :: t) :: ps
  | ps => .text [a] :: ps

/-- The pieces of a pattern. -/
def pieces : List (Token α) → List (Piece α)
  | [] => []
  | .lit c :: p => consChar (some c) (pieces p)
  | .any :: p => consChar none (pieces p)
  | .star :: p => .wild false :: pieces p
  | .dblStar :: p => .wild true :: pieces p

/-- A wildcard in front of a text stops at the `n`-th character: it may stand for what is before,
the text fits there, and fits nowhere earlier. -/
structure FirstFit (cross : Bool) (t : List (Option α)) (s : List α) (n : Nat) : Prop where
  le : n ≤ s.length
  allowed : Allowed stop cross (s.take n)
  fits : Fits t (s.drop n)
  first : ∀ m, m < n → ¬ Fits t (s.drop m)

/-- The leftmost parse takes `n` characters of a string: every wildcard in front of a text stops
where the text fits first. A wildcard at the end takes nothing yet; of two in a row the second
counts. -/
def LeftParse : List (Piece α) → List α → Nat → Prop
  | [], _, n => n = 0
  | .text t :: ps, s, n => Fits t s ∧ ∃ m, n = t.length + m ∧ LeftParse ps (s.drop t.length) m
  | [.wild _], _, n => n = 0
  | .wild cross :: .text t :: ps, s, n =>
    ∃ k m, FirstFit stop cross t s k ∧ n = k + t.length + m ∧ LeftParse ps (s.drop (k + t.length)) m
  | .wild _ :: .wild cross :: ps, s, n => LeftParse (.wild cross :: ps) s n

/-- What may be left behind a leftmost parse: nothing, or what the last wildcard may stand for. -/
def Rest : List (Piece α) → List α → Prop
  | [], s => s = []
  | [.wild cross], s => Allowed stop cross s
  | _ :: ps, s => Rest ps s

/-- A string the leftmost parse takes as a whole. -/
def Leftmost (ps : List (Piece α)) (s : List α) : Prop := ∃ n, LeftParse stop ps s n ∧ Rest stop ps (s.drop n)

end Language

/-! ## Texts -/

section Facts

variable {α : Type} {stop : α → Prop}

theorem allowed_nil (cross : Bool) : Allowed stop cross [] := .inr (by simp)

theorem fits_length : ∀ {t : List (Option α)} {s : List α}, Fits t s → t.length ≤ s.length
  | [], _, _ => Nat.zero_le _
  | _ :: _, [], h => h.elim
  | _ :: _, _ :: _, h => Nat.succ_le_succ (fits_length h.2)

/-! ## The first place where a text fits -/

theorem firstFit_nil {cross : Bool} {t : List (Option α)} {n : Nat} :
    FirstFit stop cross t [] n ↔ n = 0 ∧ t = [] := by
  constructor
  · intro h
    have hlen := fits_length h.fits
    simp only [List.drop_nil, List.length_nil, Nat.le_zero_eq, List.length_eq_zero_iff] at hlen
    exact ⟨Nat.le_zero.1 h.le, hlen⟩
  · rintro ⟨rfl, rfl⟩
    exact ⟨Nat.le_refl 0, allowed_nil cross, trivial, by simp⟩

theorem firstFit_of_fits {cross : Bool} {t : List (Option α)} {s : List α} {n : Nat} (hf : Fits t s) :
    FirstFit stop cross t s n ↔ n = 0 := by
  constructor
  · intro h
    by_contra hn
    exact h.first 0 (Nat.pos_of_ne_zero hn) hf
  · rintro rfl
    exact ⟨Nat.zero_le _, allowed_nil cross, hf, by simp⟩

/-- Where the text does not fit, the search goes one character on, if it may. -/
theorem firstFit_cons {cross : Bool} {t : List (Option α)} {c : α} {s : List α} {n : Nat} (hf : ¬ Fits t (c :: s)) :
    FirstFit stop cross t (c :: s) n ↔
      (cross = true ∨ ¬ stop c) ∧ ∃ m, n = m + 1 ∧ FirstFit stop cross t s m := by
  constructor
  · intro h
    rcases n with _ | m
    · exact absurd h.fits hf
    · have hfirst : ∀ k, k < m → ¬ Fits t (s.drop k) := fun k hk => h.first (k + 1) (by omega)
      rcases h.allowed with hx | hall
      · exact ⟨.inl hx, m, rfl, Nat.le_of_succ_le_succ h.le, .inl hx, h.fits, hfirst⟩
      · exact ⟨.inr (hall c List.mem_cons_self), m, rfl, Nat.le_of_succ_le_succ h.le,
          .inr fun d hd => hall d (List.mem_cons_of_mem _ hd), h.fits, hfirst⟩
  · rintro ⟨hc, m, rfl, h⟩
    refine ⟨Nat.succ_le_succ h.le, ?_, h.fits, ?_⟩
    · rcases hc with hx | hc
      · exact .inl hx
      · rcases h.allowed with hx | hall
        · exact .inl hx
        · refine .inr fun d hd => ?_
          rcases List.mem_cons.1 hd with rfl | hd
          · exact hc
          · exact hall d hd
    · intro k hk
      rcases k with _ | k
      · exact hf
      · exact h.first k (by omega)

/-! ## The language of a pattern and of its pieces -/

theorem pieceLang_consChar {a : Option α} {ps : List (Piece α)} {s : List α} :
    PieceLang stop (consChar a ps) s ↔ ∃ c s', s = c :: s' ∧ (a = none ∨ a = some c) ∧ PieceLang stop ps s' := by
  unfold consChar
  cases s with
  | nil =>
    split <;> simp [PieceLang, Fits]
  | cons c s =>
    split
    · simp [PieceLang, Fits, and_assoc]
    · simp [PieceLang, Fits]

theorem lang_iff_pieces : ∀ (p : List (Token α)) (s : List α),
    Lang stop (fun _ => True) p s ↔ PieceLang stop (pieces p) s
  | [], _ => Iff.rfl
  | .lit c :: p, s => by
    unfold pieces
    rw [pieceLang_consChar]
    simp only [Lang, reduceCtorEq, false_or, Option.some.injEq]
    constructor
    · rintro ⟨s', rfl, h⟩
      exact ⟨c, s', rfl, rfl, (lang_iff_pieces p s').1 h⟩
    · rintro ⟨_, s', rfl, rfl, h⟩
      exact ⟨s', rfl, (lang_iff_pieces p s').2 h⟩
  | .any :: p, s => by
    unfold pieces
    rw [pieceLang_consChar]
    simp only [Lang, true_or, true_and]
    constructor
    · rintro ⟨c, s', rfl, h⟩
      exact ⟨c, s', rfl, (lang_iff_pieces p s').1 h⟩
    · rintro ⟨c, s', rfl, h⟩
      exact ⟨c, s', rfl, (lang_iff_pieces p s').2 h⟩
  | .star :: p, s => by
    simp only [Lang, pieces, PieceLang, lang_iff_pieces p]
  | .dblStar :: p, s => by
    simp only [Lang, pieces, PieceLang, lang_iff_pieces p, Allowed, true_or, true_and]

/-! ## The leftmost parse is sound -/

theorem leftParse_le : ∀ {ps : List (Piece α)} {s : List α} {n : Nat}, LeftParse stop ps s n → n ≤ s.length
  | [], s, n, h => by
    change n = 0 at h
    omega
  | .text t :: ps, s, n, h => by
    obtain ⟨hf, m, rfl, hm⟩ := h
    have h₁ := fits_length hf
    have h₂ := leftParse_le hm
    rw [List.length_drop] at h₂
    omega
  | [.wild _], s, n, h => by
    change n = 0 at h
    omega
  | .wild cross :: .text t :: ps, s, n, h => by
    obtain ⟨k, m, hk, rfl, hm⟩ := h
    have h₁ := fits_length hk.fits
    have h₂ := leftParse_le hm
    have h₃ := hk.le
    rw [List.length_drop] at h₁ h₂
    omega
  | .wild _ :: .wild cross :: ps, s, n, h => by
    have h' : LeftParse stop (.wild cross :: ps) s n := h
    exact leftParse_le h'

theorem rest_cons_text (t : List (Option α)) (ps : List (Piece α)) (s : List α) :
    Rest stop (.text t :: ps) s ↔ Rest stop ps s := by
  cases ps <;> rfl

/-- Every string with a leftmost parse is in the language. -/
theorem pieceLang_of_leftParse : ∀ {ps : List (Piece α)} {s : List α} {n : Nat}, LeftParse stop ps s n →
    Rest stop ps (s.drop n) → PieceLang stop ps s
  | [], s, n, h, hr => by
    change n = 0 at h
    subst h
    exact hr
  | .text t :: ps, s, n, h, hr => by
    obtain ⟨hf, m, rfl, hm⟩ := h
    rw [rest_cons_text, ← List.drop_drop] at hr
    exact ⟨hf, pieceLang_of_leftParse hm hr⟩
  | [.wild cross], s, n, h, hr => by
    change n = 0 at h
    subst h
    exact ⟨s, [], (List.append_nil s).symm, hr, rfl⟩
  | .wild cross :: .text t :: ps, s, n, h, hr => by
    obtain ⟨k, m, hk, rfl, hm⟩ := h
    change Rest stop (.text t :: ps) _ at hr
    rw [rest_cons_text, ← List.drop_drop] at hr
    refine ⟨s.take k, s.drop k, (List.take_append_drop k s).symm, hk.allowed, hk.fits, ?_⟩
    rw [List.drop_drop]
    exact pieceLang_of_leftParse hm hr
  | .wild x :: .wild cross :: ps, s, n, h, hr => by
    have h' : LeftParse stop (.wild cross :: ps) s n := h
    have hr' : Rest stop (.wild cross :: ps) (s.drop n) := hr
    exact ⟨[], s, rfl, allowed_nil x, pieceLang_of_leftParse h' hr'⟩

theorem Leftmost.lang {p : List (Token α)} {s : List α} (h : Leftmost stop (pieces p) s) :
    Lang stop (fun _ => True) p s := by
  obtain ⟨n, hn, hr⟩ := h
  exact (lang_iff_pieces p s).2 (pieceLang_of_leftParse hn hr)

end Facts

end Glob

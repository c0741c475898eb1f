/-
`wildcmpex` (Strings.h): a pattern with `*` and `?` against a text, with one place to start again from.
Pointers are positions; whatever is read or restarted from where it may not be is a fault.
-/
import Mathlib.Data.List.Forall2
import MajorPrivacy.Lib.Glob

namespace MajorPrivacy.Strings

open Glob

/-- The three characters that count, in a type of characters. -/
structure Chars (T : Type) where
  nul : T
  star : T
  question : T
  star_ne_nul : star ≠ nul
  question_ne_nul : question ≠ nul
  question_ne_star : question ≠ star

/-- A text in front of its terminator. -/
structure CString {T : Type} (k : Chars T) where
  chars : List T
  nul_not_mem : k.nul ∉ chars

section

variable {T : Type} [DecidableEq T] {k : Chars T}

/-! ## The loops -/

/-- Reading behind the terminator is a fault. -/
def CString.read (s : CString k) (i : Nat) : Option T := if i = s.chars.length then some k.nul else s.chars[i]?

/-- Which loop runs. -/
inductive Loop
  | first | second | last

structure Matcher where
  loop : Loop
  Wild : Nat
  Str : Nat
  cp : Option Nat
  mp : Option Nat

inductive Progress
  | running (m : Matcher)
  | returned (result : Option Nat)
  | fault

/-- One round of the first loop. -/
def firstStep (Wild Str : CString k) (m : Matcher) : Progress :=
  match Str.read m.Str, Wild.read m.Wild with
  | some c, some w =>
    if c = k.nul ∨ w = k.star then .running { m with loop := .second }
    else if w ≠ c ∧ w ≠ k.question then .returned none
    else .running { m with Wild := m.Wild + 1, Str := m.Str + 1 }
  | some c, none => if c = k.nul then .running { m with loop := .second } else .fault
  | none, _ => .fault

/-- One round of the second loop. -/
def secondStep (Wild Str : CString k) (m : Matcher) : Progress :=
  match Str.read m.Str with
  | none => .fault
  | some c =>
    if c = k.nul then .running { m with loop := .last }
    else
      match Wild.read m.Wild with
      | none => .fault
      | some w =>
        if w = k.star then
          match Wild.read (m.Wild + 1) with
          | none => .fault
          | some w' =>
            if w' = k.nul then .returned (some m.Str)
            else .running { m with Wild := m.Wild + 1, mp := some (m.Wild + 1), cp := some (m.Str + 1) }
        else if w = c ∨ w = k.question then .running { m with Wild := m.Wild + 1, Str := m.Str + 1 }
        else
          match m.mp, m.cp with
          | some mp, some cp => .running { m with Wild := mp, Str := cp, cp := some (cp + 1) }
          | _, _ => .fault

/-- One round of the last loop, and the end. -/
def lastStep (Wild : CString k) (m : Matcher) : Progress :=
  match Wild.read m.Wild with
  | none => .fault
  | some w =>
    if w = k.star then .running { m with Wild := m.Wild + 1 }
    else .returned (if w = k.nul then some m.Str else none)

def step (Wild Str : CString k) (m : Matcher) : Progress :=
  match m.loop with
  | .first => firstStep Wild Str m
  | .second => secondStep Wild Str m
  | .last => lastStep Wild m

def run (Wild Str : CString k) : Nat → Matcher → Progress
  | 0, m => .running m
  | fuel + 1, m =>
    match step Wild Str m with
    | .running m => run Wild Str fuel m
    | result => result

/-- `wildcmpex`, for so many rounds. -/
def wildcmpex (fuel : Nat) (Wild Str : CString k) : Progress := run Wild Str fuel ⟨.first, 0, 0, none, none⟩

/-! ## The language -/

def token (k : Chars T) (c : T) : Token T := if c = k.star then .dblStar else if c = k.question then .any else .lit c

/-- A `*` stands for any sequence, a `?` for any character. -/
def InLanguage (k : Chars T) (pattern text : List T) : Prop :=
  Lang (fun _ => False) (fun _ => True) (pattern.map (token k)) text

/-- A character of the pattern stands for one of the text. -/
def Stands (k : Chars T) (w c : T) : Prop := w = c ∨ w = k.question

theorem inLanguage_nil {s : List T} : InLanguage k [] s ↔ s = [] := Iff.rfl

theorem inLanguage_star {p s : List T} : InLanguage k (k.star :: p) s ↔ ∃ u v, s = u ++ v ∧ InLanguage k p v := by
  unfold InLanguage
  rw [List.map_cons, token, if_pos rfl]
  rfl

theorem inLanguage_cons {w : T} (hw : w ≠ k.star) {p s : List T} :
    InLanguage k (w :: p) s ↔ ∃ c s', s = c :: s' ∧ Stands k w c ∧ InLanguage k p s' := by
  unfold InLanguage Stands
  rw [List.map_cons, token, if_neg hw]
  by_cases hq : w = k.question
  · rw [if_pos hq]
    simp only [Lang, true_and, hq, or_true]
  · rw [if_neg hq]
    simp only [Lang, hq, or_false]
    constructor
    · rintro ⟨s', rfl, h⟩
      exact ⟨w, s', rfl, rfl, h⟩
    · rintro ⟨c, s', rfl, rfl, h⟩
      exact ⟨s', rfl, h⟩

/-- A `*` in front stands for a beginning of the text, or for nothing. -/
theorem inLanguage_star_cons {p : List T} {c : T} {s : List T} :
    InLanguage k (k.star :: p) (c :: s) ↔ InLanguage k p (c :: s) ∨ InLanguage k (k.star :: p) s := by
  rw [inLanguage_star, inLanguage_star]
  constructor
  · rintro ⟨u, v, heq, h⟩
    cases u with
    | nil => exact .inl (by rw [heq]; exact h)
    | cons d u =>
      obtain ⟨-, rfl⟩ := List.cons.inj heq
      exact .inr ⟨u, v, rfl, h⟩
  · rintro (h | ⟨u, v, rfl, h⟩)
    · exact ⟨[], c :: s, rfl, h⟩
    · exact ⟨c :: u, v, rfl, h⟩

theorem inLanguage_star_append {p : List T} (u : List T) {v : List T} (h : InLanguage k (k.star :: p) v) :
    InLanguage k (k.star :: p) (u ++ v) := by
  obtain ⟨u', v', rfl, h'⟩ := inLanguage_star.1 h
  exact inLanguage_star.2 ⟨u ++ u', v', (List.append_assoc _ _ _).symm, h'⟩

/-- A stretch of the pattern without `*` that stands for a stretch of the text is done with. -/
theorem inLanguage_append {seg u : List T} (h : List.Forall₂ (Stands k) seg u) (hstar : k.star ∉ seg) {p v : List T} :
    InLanguage k (seg ++ p) (u ++ v) ↔ InLanguage k p v := by
  induction h with
  | nil => exact Iff.rfl
  | @cons w c seg u hstands _ ih =>
    obtain ⟨hw, hseg⟩ := not_or.1 (mt List.mem_cons.2 hstar)
    rw [List.cons_append, List.cons_append, inLanguage_cons (Ne.symm hw)]
    constructor
    · rintro ⟨c', s', heq, -, h⟩
      obtain ⟨-, rfl⟩ := List.cons.inj heq
      exact (ih hseg).1 h
    · exact fun h => ⟨c, u ++ v, rfl, hstands, (ih hseg).2 h⟩

/-- Such a stretch takes as many characters as it has. -/
theorem inLanguage_append_split {seg : List T} (hstar : k.star ∉ seg) {p s : List T} (h : InLanguage k (seg ++ p) s) :
    ∃ u v, s = u ++ v ∧ u.length = seg.length ∧ InLanguage k p v := by
  induction seg generalizing s with
  | nil => exact ⟨[], s, rfl, rfl, h⟩
  | cons w seg ih =>
    obtain ⟨hw, hseg⟩ := not_or.1 (mt List.mem_cons.2 hstar)
    obtain ⟨c, s', rfl, -, h'⟩ := (inLanguage_cons (Ne.symm hw)).1 h
    obtain ⟨u, v, rfl, hlen, hv⟩ := ih hseg h'
    exact ⟨c :: u, v, rfl, congrArg (· + 1) hlen, hv⟩

/-! ## Reading -/

namespace CString

variable {s : CString k} {front : List T}

omit [DecidableEq T] in
theorem read_end (h : s.chars = front) : s.read front.length = some k.nul := by
  unfold read
  rw [h, if_pos rfl]

omit [DecidableEq T] in
theorem read_append {c : T} {rest : List T} (h : s.chars = front ++ c :: rest) : s.read front.length = some c ∧ c ≠ k.nul := by
  constructor
  · unfold read
    rw [h, if_neg (by simp), List.getElem?_append_right (Nat.le_refl _), Nat.sub_self]
    rfl
  · rintro rfl
    exact s.nul_not_mem (by rw [h]; simp)

end CString

/-! ## The steps of the second loop -/

section

variable {Wild Str : CString k} {m : Matcher}

theorem secondStep_end (hstr : Str.read m.Str = some k.nul) :
    secondStep Wild Str m = .running { m with loop := .last } := by
  unfold secondStep
  rw [hstr]
  exact if_pos rfl

theorem secondStep_star {c w : T} (hstr : Str.read m.Str = some c) (hc : c ≠ k.nul) (hwild : Wild.read m.Wild = some k.star)
    (hnext : Wild.read (m.Wild + 1) = some w) :
    secondStep Wild Str m = if w = k.nul then .returned (some m.Str)
      else .running { m with Wild := m.Wild + 1, mp := some (m.Wild + 1), cp := some (m.Str + 1) } := by
  unfold secondStep
  rw [hstr]
  dsimp only
  rw [if_neg hc, hwild]
  dsimp only
  rw [if_pos rfl, hnext]

theorem secondStep_same {c w : T} (hstr : Str.read m.Str = some c) (hc : c ≠ k.nul) (hwild : Wild.read m.Wild = some w)
    (hw : w ≠ k.star) (h : Stands k w c) :
    secondStep Wild Str m = .running { m with Wild := m.Wild + 1, Str := m.Str + 1 } := by
  unfold secondStep
  rw [hstr]
  dsimp only
  rw [if_neg hc, hwild]
  dsimp only
  rw [if_neg hw]
  exact if_pos h

theorem secondStep_other {c w : T} (hstr : Str.read m.Str = some c) (hc : c ≠ k.nul) (hwild : Wild.read m.Wild = some w)
    (hw : w ≠ k.star) (h : ¬ Stands k w c) {mp cp : Nat} (hmp : m.mp = some mp) (hcp : m.cp = some cp) :
    secondStep Wild Str m = .running { m with Wild := mp, Str := cp, cp := some (cp + 1) } := by
  unfold secondStep
  rw [hstr]
  dsimp only
  rw [if_neg hc, hwild]
  dsimp only
  rw [if_neg hw, hmp, hcp]
  exact if_neg h

end

/-! ## Correctness -/

section

variable {Wild Str : CString k}

/-- The matcher stops without a fault, and with a pointer just if the text is in the language. -/
def Decides (Wild Str : CString k) (m : Matcher) : Prop :=
  ∃ fuel result, run Wild Str fuel m = .returned result ∧ (result.isSome = true ↔ InLanguage k Wild.chars Str.chars)

theorem decides_of_returned {m : Matcher} {result : Option Nat} (h : step Wild Str m = .returned result)
    (hiff : result.isSome = true ↔ InLanguage k Wild.chars Str.chars) : Decides Wild Str m :=
  ⟨1, result, by unfold run; rw [h], hiff⟩

theorem decides_of_running {m m' : Matcher} (h : step Wild Str m = .running m') (hm : Decides Wild Str m') :
    Decides Wild Str m := by
  obtain ⟨fuel, result, hrun, hiff⟩ := hm
  refine ⟨fuel + 1, result, ?_, hiff⟩
  unfold run
  rw [h]
  exact hrun

theorem lastStep_eq {m : Matcher} {w : T} (hwild : Wild.read m.Wild = some w) :
    lastStep Wild m = if w = k.star then .running { m with Wild := m.Wild + 1 }
      else .returned (if w = k.nul then some m.Str else none) := by
  unfold lastStep
  rw [hwild]

/-- At the end of the text, what is left of the pattern may only be stars. -/
theorem decides_last {front : List T} : ∀ {rest : List T} {i : Nat} {cp mp : Option Nat}, Wild.chars = front ++ rest →
    (InLanguage k Wild.chars Str.chars ↔ InLanguage k rest []) → Decides Wild Str ⟨.last, front.length, i, cp, mp⟩
  | [], i, cp, mp, hwild, hiff => by
    have hread := CString.read_end (hwild.trans (List.append_nil front))
    have hstep : step Wild Str ⟨.last, front.length, i, cp, mp⟩ = .returned (some i) := by
      refine (lastStep_eq hread).trans ?_
      rw [if_neg (Ne.symm k.star_ne_nul), if_pos rfl]
    refine decides_of_returned hstep ?_
    constructor
    · exact fun _ => hiff.2 (inLanguage_nil.2 rfl)
    · exact fun _ => rfl
  | w :: rest, i, cp, mp, hwild, hiff => by
    obtain ⟨hread, hnul⟩ := CString.read_append hwild
    by_cases hstar : w = k.star
    · have hstep : step Wild Str ⟨.last, front.length, i, cp, mp⟩ = .running ⟨.last, (front ++ [w]).length, i, cp, mp⟩ := by
        refine (lastStep_eq hread).trans ?_
        rw [if_pos hstar, List.length_append]
        rfl
      refine decides_of_running hstep (decides_last (by simpa using hwild) ?_)
      rw [hiff, hstar, inLanguage_star]
      constructor
      · rintro ⟨u, v, heq, h⟩
        obtain ⟨-, rfl⟩ := List.append_eq_nil_iff.1 heq.symm
        exact h
      · exact fun h => ⟨[], [], rfl, h⟩
    · have hstep : step Wild Str ⟨.last, front.length, i, cp, mp⟩ = .returned none := by
        refine (lastStep_eq hread).trans ?_
        rw [if_neg hstar, if_neg hnul]
      refine decides_of_returned hstep ?_
      rw [hiff, inLanguage_cons hstar]
      constructor
      · intro h
        cases h
      · rintro ⟨c, s, h, -⟩
        cases h

/-- The last `*` of the pattern read so far stands behind `front`, and takes at least `pre`: since then `seg` has stood for
`u`. That one star is enough to start again from, since what an earlier one could leave over it can take itself. -/
structure Restarts (Wild Str : CString k) (front seg rest pre u v : List T) (m : Matcher) : Prop where
  wild : Wild.chars = front ++ seg ++ rest
  str : Str.chars = pre ++ u ++ v
  state : m = ⟨.second, (front ++ seg).length, (pre ++ u).length, some (pre.length + 1), some front.length⟩
  stands : List.Forall₂ (Stands k) seg u
  star : k.star ∉ seg
  iff : InLanguage k Wild.chars Str.chars ↔ InLanguage k (k.star :: (seg ++ rest)) (u ++ v)

namespace Restarts

variable {front seg rest pre u v : List T} {m : Matcher}

/-- Behind the stretch that stands, the star may still take what it likes. -/
theorem star_iff (h : Restarts Wild Str front seg rest pre u v m) (p : List T) :
    InLanguage k (k.star :: (seg ++ k.star :: p)) (u ++ v) ↔ InLanguage k (k.star :: p) v := by
  rw [inLanguage_star]
  constructor
  · rintro ⟨u₁, v₁, heq, hv₁⟩
    obtain ⟨a, b, rfl, hlen, hb⟩ := inLanguage_append_split h.star hv₁
    -- what is left begins no earlier than `v`
    have hle : u.length ≤ (u₁ ++ a).length := by
      rw [List.length_append, hlen, h.stands.length_eq]
      exact Nat.le_add_left _ _
    rw [← List.append_assoc] at heq
    obtain ⟨x, -, rfl⟩ | ⟨x, hx, rfl⟩ := List.append_eq_append_iff.1 heq
    · exact inLanguage_star_append x hb
    · have hx0 : x = [] := by
        have := congrArg List.length hx
        rw [List.length_append] at this
        exact List.length_eq_zero_iff.1 (by omega)
      subst hx0
      exact hb
  · intro hv
    exact ⟨[], u ++ v, rfl, (inLanguage_append h.stands h.star).2 hv⟩

/-- At the end of the text the star has taken all it may. -/
theorem end_iff (h : Restarts Wild Str front seg rest pre u [] m) :
    InLanguage k Wild.chars Str.chars ↔ InLanguage k rest [] := by
  rw [h.iff, inLanguage_star]
  constructor
  · rintro ⟨u₁, v₁, heq, hv₁⟩
    obtain ⟨a, b, rfl, hlen, hb⟩ := inLanguage_append_split h.star hv₁
    have hb0 : b = [] := by
      have := congrArg List.length heq
      have := h.stands.length_eq
      simp only [List.length_append, List.length_nil] at *
      exact List.length_eq_zero_iff.1 (by omega)
    rw [← hb0]
    exact hb
  · intro hnil
    exact ⟨[], u ++ [], rfl, (inLanguage_append h.stands h.star).2 hnil⟩

/-- One character more stands. -/
theorem same {w c : T} {rest v : List T} (h : Restarts Wild Str front seg (w :: rest) pre u (c :: v) m) (hw : w ≠ k.star)
    (hstands : Stands k w c) : Restarts Wild Str front (seg ++ [w]) rest pre (u ++ [c]) v
      { m with Wild := m.Wild + 1, Str := m.Str + 1 } := by
  refine ⟨?_, ?_, ?_, List.rel_append h.stands (.cons hstands .nil), ?_, ?_⟩
  · rw [h.wild]
    simp
  · rw [h.str]
    simp
  · rw [h.state]
    simp [Nat.add_assoc]
  · rw [List.mem_append, not_or]
    exact ⟨h.star, by simpa using Ne.symm hw⟩
  · rw [h.iff]
    simp

/-- At a further star the earlier one is given up. -/
theorem atStar {rest : List T} (h : Restarts Wild Str front seg (k.star :: rest) pre u v m) :
    Restarts Wild Str (front ++ seg ++ [k.star]) [] rest (pre ++ u) [] v
      { m with Wild := m.Wild + 1, mp := some (m.Wild + 1), cp := some (m.Str + 1) } := by
  refine ⟨?_, ?_, ?_, .nil, List.not_mem_nil, ?_⟩
  · rw [h.wild]
    simp
  · rw [h.str, List.append_nil]
  · rw [h.state]
    simp [Nat.add_assoc]
  · rw [h.iff, h.star_iff]
    rfl

theorem step_eq (h : Restarts Wild Str front seg rest pre u v m) : step Wild Str m = secondStep Wild Str m := by
  rw [h.state]
  rfl

theorem wild_eq (h : Restarts Wild Str front seg rest pre u v m) : m.Wild = (front ++ seg).length := by
  rw [h.state]

theorem read_wild {w : T} {rest : List T} (h : Restarts Wild Str front seg (w :: rest) pre u v m) :
    Wild.read m.Wild = some w := by
  rw [h.wild_eq]
  exact (CString.read_append h.wild).1

theorem read_str {c : T} {v : List T} (h : Restarts Wild Str front seg rest pre u (c :: v) m) :
    Str.read m.Str = some c ∧ c ≠ k.nul := by
  rw [h.state]
  exact CString.read_append h.str

/-- At the end of the text the last loop decides. -/
theorem decides_end (h : Restarts Wild Str front seg rest pre u [] m) : Decides Wild Str m := by
  have hstr : Str.read m.Str = some k.nul := by
    rw [h.state]
    exact CString.read_end (h.str.trans (List.append_nil _))
  refine decides_of_running (h.step_eq.trans (secondStep_end hstr)) ?_
  rw [h.state]
  exact decides_last h.wild h.end_iff

/-- Where what is left of the pattern does not stand here, the star takes one character more. -/
theorem step_other {c w : T} {v : List T} (h : Restarts Wild Str front seg rest pre u (c :: v) m)
    (hwild : Wild.read m.Wild = some w) (hw : w ≠ k.star) (hstands : ¬ Stands k w c) (hrest : ¬ InLanguage k rest (c :: v)) :
    ∃ d t m', u ++ c :: v = d :: t ∧ step Wild Str m = .running m' ∧
      Restarts Wild Str front [] (seg ++ rest) (pre ++ [d]) [] t m' := by
  obtain ⟨hstr, hc⟩ := h.read_str
  have hmp : m.mp = some front.length := by rw [h.state]
  have hcp : m.cp = some (pre.length + 1) := by rw [h.state]
  obtain ⟨d, t, heq⟩ := List.exists_cons_of_ne_nil (List.append_ne_nil_of_right_ne_nil u (List.cons_ne_nil c v))
  refine ⟨d, t, _, heq, h.step_eq.trans (secondStep_other hstr hc hwild hw hstands hmp hcp), ?_, ?_, ?_, .nil,
    List.not_mem_nil, ?_⟩
  · rw [h.wild, List.append_nil, List.append_assoc]
  · rw [h.str, List.append_nil, List.append_assoc, heq, List.append_assoc]
    rfl
  · rw [h.state]
    simp
  · rw [h.iff, heq, inLanguage_star_cons, ← heq, inLanguage_append h.stands h.star]
    exact or_iff_right hrest

/-- A star at the end of the pattern takes the rest. -/
theorem decides_star {c : T} {v : List T} (h : Restarts Wild Str front seg [k.star] pre u (c :: v) m) : Decides Wild Str m := by
  obtain ⟨hstr, hc⟩ := h.read_str
  have hnext : Wild.read (m.Wild + 1) = some k.nul := by
    have hend := CString.read_end h.wild
    rw [List.length_append, ← h.wild_eq] at hend
    exact hend
  have hstep := h.step_eq.trans (secondStep_star hstr hc h.read_wild hnext)
  rw [if_pos rfl] at hstep
  refine decides_of_returned hstep ?_
  have hin : InLanguage k [k.star] (c :: v) := inLanguage_star.2 ⟨c :: v, [], (List.append_nil _).symm, rfl⟩
  constructor
  · exact fun _ => h.iff.2 ((h.star_iff []).2 hin)
  · exact fun _ => rfl

theorem step_star {c w : T} {v rest : List T} (h : Restarts Wild Str front seg (k.star :: w :: rest) pre u (c :: v) m) :
    step Wild Str m = .running { m with Wild := m.Wild + 1, mp := some (m.Wild + 1), cp := some (m.Str + 1) } := by
  obtain ⟨hstr, hc⟩ := h.read_str
  have hwild : Wild.chars = front ++ seg ++ [k.star] ++ w :: rest := by
    rw [h.wild]
    simp
  obtain ⟨hnext, hw⟩ := CString.read_append hwild
  rw [List.length_append, ← h.wild_eq] at hnext
  have hstep := h.step_eq.trans (secondStep_star hstr hc h.read_wild hnext)
  rw [if_neg hw] at hstep
  exact hstep

/-- Each round of the second loop gives up a character of the pattern, or starts again with one character of the text
less. -/
theorem decides {n : Nat} (hn : u.length + v.length ≤ n) (h : Restarts Wild Str front seg rest pre u v m) :
    Decides Wild Str m := by
  induction n using Nat.strongRecOn generalizing front seg rest pre u v m with
  | ind n ih =>
    -- starting again takes from the text what all else leaves alone
    have hagain : ∀ {front seg rest pre u : List T} {c w : T} {v : List T} {m : Matcher}, u.length + (c :: v).length ≤ n →
        Restarts Wild Str front seg rest pre u (c :: v) m → Wild.read m.Wild = some w → w ≠ k.star → ¬ Stands k w c →
        ¬ InLanguage k rest (c :: v) → Decides Wild Str m := by
      intro front seg rest pre u c w v m hn h hwild hw hstands hrest
      obtain ⟨d, t, m', heq, hstep, hnext⟩ := h.step_other hwild hw hstands hrest
      have hlen : u.length + (c :: v).length = t.length + 1 := by
        rw [← List.length_append, heq, List.length_cons]
      refine decides_of_running hstep (ih t.length (by omega) ?_ hnext)
      exact Nat.le_of_eq (Nat.zero_add _)
    induction rest generalizing front seg pre u v m with
    | nil =>
      cases v with
      | nil => exact h.decides_end
      | cons c v =>
        have hwild : Wild.read m.Wild = some k.nul := by
          rw [h.wild_eq]
          exact CString.read_end (h.wild.trans (List.append_nil _))
        refine hagain hn h hwild (Ne.symm k.star_ne_nul) ?_ ?_
        · rintro (heq | heq)
          · exact h.read_str.2 heq.symm
          · exact k.question_ne_nul heq.symm
        · exact fun hnil => List.cons_ne_nil c v (inLanguage_nil.1 hnil)
    | cons w rest ihrest =>
      cases v with
      | nil => exact h.decides_end
      | cons c v =>
        by_cases hw : w = k.star
        · subst hw
          cases rest with
          | nil => exact h.decides_star
          | cons w rest =>
            refine decides_of_running h.step_star (ihrest ?_ h.atStar)
            rw [List.length_nil]
            omega
        · by_cases hstands : Stands k w c
          · obtain ⟨hstr, hc⟩ := h.read_str
            refine decides_of_running (h.step_eq.trans (secondStep_same hstr hc h.read_wild hw hstands))
              (ihrest ?_ (h.same hw hstands))
            rw [List.length_append, Nat.add_assoc, Nat.add_comm [c].length]
            exact hn
          · refine hagain hn h h.read_wild hw hstands ?_
            rw [inLanguage_cons hw]
            rintro ⟨c', s', heq, hst, -⟩
            obtain ⟨rfl, -⟩ := List.cons.inj heq
            exact hstands hst

end Restarts

/-! ### The first loop -/

theorem firstStep_end {m : Matcher} (hstr : Str.read m.Str = some k.nul) (hwild : (Wild.read m.Wild).isSome = true) :
    firstStep Wild Str m = .running { m with loop := .second } := by
  obtain ⟨w, hw⟩ := Option.isSome_iff_exists.1 hwild
  unfold firstStep
  rw [hstr, hw]
  exact if_pos (.inl rfl)

theorem firstStep_eq {m : Matcher} {c w : T} (hstr : Str.read m.Str = some c) (hc : c ≠ k.nul)
    (hwild : Wild.read m.Wild = some w) (hw : w ≠ k.star) :
    firstStep Wild Str m = if w ≠ c ∧ w ≠ k.question then .returned none
      else .running { m with Wild := m.Wild + 1, Str := m.Str + 1 } := by
  unfold firstStep
  rw [hstr, hwild]
  exact if_neg (not_or.2 ⟨hc, hw⟩)

theorem firstStep_star {m : Matcher} {c : T} (hstr : Str.read m.Str = some c) (hwild : Wild.read m.Wild = some k.star) :
    firstStep Wild Str m = .running { m with loop := .second } := by
  unfold firstStep
  rw [hstr, hwild]
  exact if_pos (.inr rfl)

/-- The second loop may also be where no star has been met: at one, or with no text left. -/
theorem decides_first_end {front rest pre : List T} (hwild : Wild.chars = front ++ rest) (hstr : Str.chars = pre)
    (hiff : InLanguage k Wild.chars Str.chars ↔ InLanguage k rest []) :
    Decides Wild Str ⟨.first, front.length, pre.length, none, none⟩ := by
  have hend : Str.read pre.length = some k.nul := CString.read_end hstr
  have hsome : (Wild.read front.length).isSome = true := by
    cases rest with
    | nil => rw [CString.read_end (hwild.trans (List.append_nil _))]; rfl
    | cons w rest => rw [(CString.read_append hwild).1]; rfl
  have hfirst : step Wild Str ⟨.first, front.length, pre.length, none, none⟩ =
      .running ⟨.second, front.length, pre.length, none, none⟩ := firstStep_end hend hsome
  have hsecond : step Wild Str ⟨.second, front.length, pre.length, none, none⟩ =
      .running ⟨.last, front.length, pre.length, none, none⟩ := secondStep_end hend
  exact decides_of_running hfirst (decides_of_running hsecond (decides_last hwild hiff))

/-- The first star is where to start again from. -/
theorem decides_first_star {front rest pre t : List T} {c : T} (hwild : Wild.chars = front ++ k.star :: rest)
    (hstr : Str.chars = pre ++ c :: t) (hiff : InLanguage k Wild.chars Str.chars ↔ InLanguage k (k.star :: rest) (c :: t)) :
    Decides Wild Str ⟨.first, front.length, pre.length, none, none⟩ := by
  obtain ⟨hreadStr, hc⟩ := CString.read_append hstr
  have hreadWild := (CString.read_append hwild).1
  have hwild' : Wild.chars = front ++ [k.star] ++ rest := by
    rw [hwild, List.append_assoc]
    rfl
  have hat : (front ++ [k.star]).length = front.length + 1 := List.length_append
  have hfirst : step Wild Str ⟨.first, front.length, pre.length, none, none⟩ =
      .running ⟨.second, front.length, pre.length, none, none⟩ := firstStep_star hreadStr hreadWild
  refine decides_of_running hfirst ?_
  cases rest with
  | nil =>
    have hnext := CString.read_end (hwild'.trans (List.append_nil _))
    rw [hat] at hnext
    have hstep : step Wild Str ⟨.second, front.length, pre.length, none, none⟩ = .returned (some pre.length) := by
      refine (secondStep_star hreadStr hc hreadWild hnext).trans ?_
      rw [if_pos rfl]
    refine decides_of_returned hstep ?_
    constructor
    · exact fun _ => hiff.2 (inLanguage_star.2 ⟨c :: t, [], (List.append_nil _).symm, rfl⟩)
    · exact fun _ => rfl
  | cons w rest =>
    obtain ⟨hnext, hw⟩ := CString.read_append hwild'
    rw [hat] at hnext
    have hstep : step Wild Str ⟨.second, front.length, pre.length, none, none⟩ =
        .running ⟨.second, front.length + 1, pre.length, some (pre.length + 1), some (front.length + 1)⟩ := by
      refine (secondStep_star hreadStr hc hreadWild hnext).trans ?_
      rw [if_neg hw]
    have hrestarts : Restarts Wild Str (front ++ [k.star]) [] (w :: rest) pre [] (c :: t)
        ⟨.second, front.length + 1, pre.length, some (pre.length + 1), some (front.length + 1)⟩ := by
      refine ⟨?_, ?_, ?_, .nil, List.not_mem_nil, hiff⟩
      · rw [hwild', List.append_nil]
      · rw [hstr, List.append_nil]
      · simp
    exact decides_of_running hstep (hrestarts.decides (Nat.le_refl _))

/-- In front of the first star, character for character. -/
theorem decides_first {front rest pre t : List T} (hwild : Wild.chars = front ++ rest) (hstr : Str.chars = pre ++ t)
    (hiff : InLanguage k Wild.chars Str.chars ↔ InLanguage k rest t) :
    Decides Wild Str ⟨.first, front.length, pre.length, none, none⟩ := by
  induction t generalizing front rest pre with
  | nil => exact decides_first_end hwild (hstr.trans (List.append_nil _)) hiff
  | cons c t ih =>
    obtain ⟨hreadStr, hc⟩ := CString.read_append hstr
    cases rest with
    | nil =>
      have hreadWild := CString.read_end (hwild.trans (List.append_nil _))
      have hstep : step Wild Str ⟨.first, front.length, pre.length, none, none⟩ = .returned none := by
        refine (firstStep_eq hreadStr hc hreadWild (Ne.symm k.star_ne_nul)).trans ?_
        exact if_pos ⟨Ne.symm hc, Ne.symm k.question_ne_nul⟩
      refine decides_of_returned hstep ?_
      rw [hiff, inLanguage_nil]
      constructor
      · intro h
        cases h
      · intro h
        cases h
    | cons w rest =>
      by_cases hw : w = k.star
      · subst hw
        exact decides_first_star hwild hstr hiff
      · have hreadWild := (CString.read_append hwild).1
        have hstep : step Wild Str ⟨.first, front.length, pre.length, none, none⟩ = _ := firstStep_eq hreadStr hc hreadWild hw
        rw [inLanguage_cons hw] at hiff
        by_cases hstands : Stands k w c
        · rw [if_neg (fun hne => hstands.elim hne.1 hne.2)] at hstep
          have hnext : Decides Wild Str ⟨.first, (front ++ [w]).length, (pre ++ [c]).length, none, none⟩ := by
            refine ih (by simpa using hwild) (by simpa using hstr) ?_
            rw [hiff]
            constructor
            · rintro ⟨c', s', heq, -, h⟩
              obtain ⟨-, rfl⟩ := List.cons.inj heq
              exact h
            · exact fun h => ⟨c, t, rfl, hstands, h⟩
          rw [List.length_append, List.length_append] at hnext
          exact decides_of_running hstep hnext
        · rw [if_pos (not_or.1 hstands)] at hstep
          refine decides_of_returned hstep ?_
          rw [hiff]
          constructor
          · intro h
            cases h
          · rintro ⟨c', s', heq, h, -⟩
            obtain ⟨rfl, -⟩ := List.cons.inj heq
            exact absurd h hstands

/-! ## The whole run -/

/-- Once the matcher has stopped, more rounds change nothing. -/
theorem run_add {fuel : Nat} {m : Matcher} {result : Progress} (h : run Wild Str fuel m = result)
    (hstopped : ∀ m', result ≠ .running m') (more : Nat) : run Wild Str (fuel + more) m = result := by
  induction fuel generalizing m with
  | zero => exact absurd h.symm (hstopped m)
  | succ fuel ih =>
    rw [Nat.add_right_comm]
    unfold run at h ⊢
    cases hstep : step Wild Str m with
    | running m' =>
      rw [hstep] at h
      exact ih h
    | returned result' =>
      rw [hstep] at h
      exact h
    | fault =>
      rw [hstep] at h
      exact h

end

/-- `wildcmpex` ends, never reads where it may not, and finds just the texts of the language. -/
theorem wildcmpex_decides (Wild Str : CString k) :
    (∃ fuel result, wildcmpex fuel Wild Str = .returned result ∧ (result.isSome = true ↔ InLanguage k Wild.chars Str.chars)) ∧
      ∀ fuel, wildcmpex fuel Wild Str ≠ .fault := by
  have hdecides : Decides Wild Str ⟨.first, 0, 0, none, none⟩ :=
    decides_first (List.nil_append _).symm (List.nil_append _).symm Iff.rfl
  obtain ⟨fuel, result, hrun, hiff⟩ := hdecides
  refine ⟨⟨fuel, result, hrun, hiff⟩, ?_⟩
  intro fuel' hfault
  -- both would be the result of as many rounds together
  have hreturned := run_add hrun (by simp) fuel'
  have hfaulty := run_add hfault (by simp) fuel
  rw [Nat.add_comm, hreturned] at hfaulty
  cases hfaulty

end

end MajorPrivacy.Strings

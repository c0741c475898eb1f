/-
Binary trees with coloured nodes, as a program with parent pointers walks them: a place in a tree is the
subtree there and the path of its ancestors. Steps to the next and to the previous entry, rotations, and
the balance of red-black trees with a hole in them.
-/
import Mathlib.Algebra.Group.Nat.Defs
import Mathlib.Data.List.Basic

namespace ColoredTree

inductive Color where
  | black
  | red
  deriving Repr, DecidableEq

inductive Side where
  | left
  | right
  deriving Repr, DecidableEq

def Side.other : Side → Side
  | left => right
  | right => left

inductive ColorTree (α : Type) where
  | nil
  | node (color : Color) (left : ColorTree α) (entry : α) (right : ColorTree α)
  deriving Repr, DecidableEq

/-- The parent of a place: the side the place is on, and what the parent has besides. -/
structure Frame (α : Type) where
  side : Side
  color : Color
  entry : α
  sibling : ColorTree α
  deriving Repr, DecidableEq

/-- The ancestors of a place, the parent first. -/
abbrev Path (α : Type) := List (Frame α)

/-- A node of a tree. -/
structure Spot (α : Type) where
  color : Color
  left : ColorTree α
  entry : α
  right : ColorTree α
  path : Path α
  deriving Repr, DecidableEq

variable {α : Type}

namespace ColorTree

/-- The empty tree is black. -/
def color : ColorTree α → Color
  | nil => .black
  | node c _ _ _ => c

def paint (c : Color) : ColorTree α → ColorTree α
  | nil => nil
  | node _ l e r => node c l e r

/-- The entries in order. -/
def toList : ColorTree α → List α
  | nil => []
  | node _ l e r => l.toList ++ e :: r.toList

/-- A node with its child on one side first. -/
def join (s : Side) (c : Color) (near : ColorTree α) (e : α) (far : ColorTree α) : ColorTree α :=
  match s with
  | .left => node c near e far
  | .right => node c far e near

def child (s : Side) : ColorTree α → ColorTree α
  | nil => nil
  | node _ l _ r =>
    match s with
    | .left => l
    | .right => r

/-- The node goes down to a side, its other child comes up; there has to be one. -/
def rotate : Side → ColorTree α → Option (ColorTree α)
  | .left, node c l e (node c' l' e' r') => some (node c' (node c l e l') e' r')
  | .right, node c (node c' l' e' r') e r => some (node c' l' e' (node c r' e r))
  | _, _ => none

end ColorTree

open ColorTree

/-- The tree with `t` at a place. -/
def fill : Path α → ColorTree α → ColorTree α
  | [], t => t
  | f :: path, t => fill path (join f.side f.color t f.entry f.sibling)

namespace Frame

/-- The entries of the parent and the sibling that come before the place. -/
def before (f : Frame α) : List α :=
  match f.side with
  | .left => []
  | .right => f.sibling.toList ++ [f.entry]

def after (f : Frame α) : List α :=
  match f.side with
  | .left => f.entry :: f.sibling.toList
  | .right => []

end Frame

namespace Path

/-- The entries before a place. -/
def before : Path α → List α
  | [] => []
  | f :: path => before path ++ f.before

def after : Path α → List α
  | [] => []
  | f :: path => f.after ++ after path

end Path

/-! ## Entries in order -/

@[simp] theorem toList_nil : (nil : ColorTree α).toList = [] := rfl

@[simp] theorem toList_node (c : Color) (l : ColorTree α) (e : α) (r : ColorTree α) :
    (node c l e r).toList = l.toList ++ e :: r.toList := rfl

@[simp] theorem toList_paint (c : Color) (t : ColorTree α) : (t.paint c).toList = t.toList := by
  cases t <;> rfl

theorem toList_join (f : Frame α) (c : Color) (t : ColorTree α) :
    (join f.side c t f.entry f.sibling).toList = f.before ++ t.toList ++ f.after := by
  unfold join Frame.before Frame.after
  cases f.side <;> simp

theorem toList_fill : ∀ (path : Path α) (t : ColorTree α), (fill path t).toList = Path.before path ++ t.toList ++ Path.after path
  | [], t => by simp [fill, Path.before, Path.after]
  | _ :: path, _ => by
    rw [fill, toList_fill path, toList_join, Path.before, Path.after]
    simp only [List.append_assoc]

theorem fill_append : ∀ (inner outer : Path α) (t : ColorTree α), fill (inner ++ outer) t = fill outer (fill inner t)
  | [], _, _ => rfl
  | _ :: inner, outer, _ => fill_append inner outer _

/-- What the place holds decides the entries, whatever the shape. -/
theorem toList_fill_congr (path : Path α) {t t' : ColorTree α} (h : t.toList = t'.toList) :
    (fill path t).toList = (fill path t').toList := by
  rw [toList_fill, toList_fill, h]

theorem toList_rotate {s : Side} {t t' : ColorTree α} (h : rotate s t = some t') : t'.toList = t.toList := by
  unfold rotate at h
  split at h
  · cases h
    simp
  · cases h
    simp
  · cases h

theorem rotate_join (s : Side) (c c' : Color) (e e' : α) (t near far : ColorTree α) :
    rotate s (join s c t e (join s c' near e' far)) = some (join s c' (join s c t e near) e' far) := by
  cases s <;> rfl

/-- The other child comes up on its own side. -/
theorem rotate_join_other (s : Side) (c c' : Color) (e e' : α) (t near far : ColorTree α) :
    rotate s.other (join s c (join s c' near e' far) e t) = some (join s c' near e' (join s c far e t)) := by
  cases s <;> rfl

theorem join_other (s : Side) (c : Color) (t t' : ColorTree α) (e : α) : join s.other c t e t' = join s c t' e t := by
  cases s <;> rfl

@[simp] theorem paint_join (s : Side) (c c' : Color) (t t' : ColorTree α) (e : α) : (join s c t e t').paint c' = join s c' t e t' := by
  cases s <;> rfl

@[simp] theorem child_join (s : Side) (c : Color) (t t' : ColorTree α) (e : α) : (join s c t e t').child s = t := by
  cases s <;> rfl

@[simp] theorem child_join_other (s : Side) (c : Color) (t t' : ColorTree α) (e : α) : (join s c t e t').child s.other = t' := by
  cases s <;> rfl

@[simp] theorem other_ne (s : Side) : s.other ≠ s := by
  cases s <;> exact Side.noConfusion

theorem side_eq_or (s s' : Side) : s = s' ∨ s = s'.other := by
  cases s <;> cases s' <;> simp [Side.other]

/-! ## Steps -/

namespace Spot

variable (s : Spot α)

def tree : ColorTree α := node s.color s.left s.entry s.right

/-- The whole tree. -/
def root : ColorTree α := fill s.path s.tree

def before : List α := Path.before s.path ++ s.left.toList

def after : List α := s.right.toList ++ Path.after s.path

theorem toList_root : s.root.toList = s.before ++ s.entry :: s.after := by
  unfold root tree before after
  rw [toList_fill, toList_node]
  simp only [List.append_assoc, List.cons_append]

end Spot

/-- The parent of a place, as a node. -/
def Frame.spot (f : Frame α) (t : ColorTree α) (path : Path α) : Spot α :=
  match f.side with
  | .left => ⟨f.color, t, f.entry, f.sibling, path⟩
  | .right => ⟨f.color, f.sibling, f.entry, t, path⟩

/-- The first node of a tree. -/
def leftmost : ColorTree α → Path α → Option (Spot α)
  | nil, _ => none
  | node c l e r, path =>
    match l with
    | nil => some ⟨c, nil, e, r, path⟩
    | node _ _ _ _ => leftmost l (⟨.left, c, e, r⟩ :: path)

/-- The last node of a tree. -/
def rightmost : ColorTree α → Path α → Option (Spot α)
  | nil, _ => none
  | node c l e r, path =>
    match r with
    | nil => some ⟨c, l, e, nil, path⟩
    | node _ _ _ _ => rightmost r (⟨.right, c, e, l⟩ :: path)

/-- The first ancestor of a place that is not on the given side of its own child. -/
def climb (s : Side) : ColorTree α → Path α → Option (Spot α)
  | _, [] => none
  | t, f :: path =>
    if f.side = s then climb s (join f.side f.color t f.entry f.sibling) path else some (f.spot t path)

def Spot.next (s : Spot α) : Option (Spot α) :=
  match s.right with
  | nil => climb .right s.tree s.path
  | node _ _ _ _ => leftmost s.right (⟨.right, s.color, s.entry, s.left⟩ :: s.path)

def Spot.previous (s : Spot α) : Option (Spot α) :=
  match s.left with
  | nil => climb .left s.tree s.path
  | node _ _ _ _ => rightmost s.left (⟨.left, s.color, s.entry, s.right⟩ :: s.path)

theorem leftmost_nil {t : ColorTree α} {path : Path α} (h : leftmost t path = none) : t = nil := by
  induction t generalizing path with
  | nil => rfl
  | node c l e r ihl =>
    unfold leftmost at h
    cases l with
    | nil => cases h
    | node c' l' e' r' => cases ihl h

theorem leftmost_spec : ∀ {t : ColorTree α} {path : Path α} {s : Spot α}, leftmost t path = some s →
    s.root = fill path t ∧ s.before = Path.before path ∧ s.entry :: s.after = t.toList ++ Path.after path ∧ s.left = nil
  | nil, _, _, h => by cases h
  | node c nil e r, path, s, h => by
    cases h
    exact ⟨rfl, List.append_nil _, rfl, rfl⟩
  | node c (node c' l' e' r') e r, path, s, h => by
    obtain ⟨hroot, hbefore, hafter, hleft⟩ := leftmost_spec (t := node c' l' e' r') h
    refine ⟨hroot, ?_, ?_, hleft⟩
    · rw [hbefore, Path.before, Frame.before, List.append_nil]
    · rw [hafter, Path.after, Frame.after, toList_node c]
      simp only [List.append_assoc, List.cons_append]

theorem root_spot (f : Frame α) (t : ColorTree α) (path : Path α) :
    (f.spot t path).root = fill path (join f.side f.color t f.entry f.sibling) := by
  obtain ⟨side, c, e, sibling⟩ := f
  cases side <;> rfl

theorem climb_right_spec : ∀ (path : Path α) (t : ColorTree α),
    (climb .right t path = none → Path.after path = []) ∧
      ∀ s, climb .right t path = some s → s.root = fill path t ∧ s.before = Path.before path ++ t.toList ∧
        s.entry :: s.after = Path.after path
  | [], t => ⟨fun _ => rfl, fun s h => by cases h⟩
  | ⟨.left, c, e, r⟩ :: path, t => by
    refine ⟨fun h => (by cases h), fun s h => ?_⟩
    cases h
    exact ⟨root_spot ⟨.left, c, e, r⟩ t path, by rw [Path.before, Frame.before, List.append_nil]; rfl, rfl⟩
  | ⟨.right, c, e, l⟩ :: path, t => by
    obtain ⟨hnone, hsome⟩ := climb_right_spec path (join .right c t e l)
    refine ⟨hnone, fun s h => ?_⟩
    obtain ⟨hroot, hbefore, hafter⟩ := hsome s h
    refine ⟨hroot, ?_, hafter⟩
    rw [hbefore, Path.before, Frame.before, join, toList_node]
    simp only [List.append_assoc, List.cons_append, List.nil_append]

/-- The entry behind a node, if there is one. -/
theorem next_spec (s : Spot α) : (s.next = none → s.after = []) ∧
    ∀ s', s.next = some s' → s'.root = s.root ∧ s'.before = s.before ++ [s.entry] ∧ s'.entry :: s'.after = s.after := by
  obtain ⟨c, l, e, r, path⟩ := s
  cases r with
  | nil =>
    obtain ⟨hnone, hsome⟩ := climb_right_spec path (node c l e nil)
    refine ⟨hnone, fun s' h => ?_⟩
    obtain ⟨hroot, hbefore, hafter⟩ := hsome s' h
    exact ⟨hroot, by rw [hbefore]; exact (List.append_assoc _ _ _).symm, hafter⟩
  | node c' l' e' r' =>
    refine ⟨fun h => (by cases leftmost_nil h), fun s' h => ?_⟩
    obtain ⟨hroot, hbefore, hafter, -⟩ := leftmost_spec (t := node c' l' e' r') h
    refine ⟨hroot, ?_, ?_⟩
    · rw [hbefore, Path.before, Frame.before]
      exact (List.append_assoc _ _ _).symm
    · rw [hafter, Path.after, Frame.after, List.nil_append]
      rfl

/-- A walk from a node on visits these entries and then ends. -/
def Visits : Option (Spot α) → List α → Prop
  | none, l => l = []
  | some _, [] => False
  | some s, e :: l => s.entry = e ∧ Visits s.next l

theorem visits_after : ∀ (l : List α) (s : Spot α), s.after = l → Visits s.next l
  | [], s, h => by
    cases hn : s.next with
    | none => rfl
    | some s' =>
      have := ((next_spec s).2 s' hn).2.2
      rw [h] at this
      cases this
  | e :: l, s, h => by
    cases hn : s.next with
    | none =>
      have := (next_spec s).1 hn
      rw [h] at this
      cases this
    | some s' =>
      have := ((next_spec s).2 s' hn).2.2
      rw [h] at this
      obtain ⟨rfl, hafter⟩ := List.cons.inj this
      exact ⟨rfl, visits_after l s' hafter⟩

/-! ## Balance -/

/-- No red node has a red child, and every way down meets as many black nodes. -/
def Balanced : ColorTree α → Nat → Prop
  | nil, n => n = 0
  | node .black l _ r, n => ∃ m, n = m + 1 ∧ Balanced l m ∧ Balanced r m
  | node .red l _ r, n => l.color = .black ∧ r.color = .black ∧ Balanced l n ∧ Balanced r n

/-- A path that takes a tree of this colour and this height. The root is black. -/
def Fits : Path α → Color → Nat → Prop
  | [], c, _ => c = .black
  | ⟨_, .black, _, sibling⟩ :: path, _, n => Balanced sibling n ∧ Fits path .black (n + 1)
  | ⟨_, .red, _, sibling⟩ :: path, c, n => c = .black ∧ sibling.color = .black ∧ Balanced sibling n ∧ Fits path .red n

theorem balanced_nil : Balanced (nil : ColorTree α) 0 := rfl

theorem balanced_black {l r : ColorTree α} {e : α} {n : Nat} (hl : Balanced l n) (hr : Balanced r n) :
    Balanced (node .black l e r) (n + 1) := ⟨n, rfl, hl, hr⟩

theorem balanced_red {l r : ColorTree α} {e : α} {n : Nat} (hl : Balanced l n) (hr : Balanced r n) (hcl : l.color = .black)
    (hcr : r.color = .black) : Balanced (node .red l e r) n := ⟨hcl, hcr, hl, hr⟩

theorem balanced_join_black {s : Side} {t t' : ColorTree α} {e : α} {n : Nat} (h : Balanced t n) (h' : Balanced t' n) :
    Balanced (join s .black t e t') (n + 1) := by
  cases s
  · exact balanced_black h h'
  · exact balanced_black h' h

theorem balanced_join_red {s : Side} {t t' : ColorTree α} {e : α} {n : Nat} (h : Balanced t n) (h' : Balanced t' n)
    (hc : t.color = .black) (hc' : t'.color = .black) : Balanced (join s .red t e t') n := by
  cases s
  · exact balanced_red h h' hc hc'
  · exact balanced_red h' h hc' hc

@[simp] theorem color_join (s : Side) (c : Color) (t t' : ColorTree α) (e : α) : (join s c t e t').color = c := by
  cases s <;> rfl

theorem paint_of_color {t : ColorTree α} {c : Color} (h : t.color = c) : t.paint c = t := by
  cases t with
  | nil => rfl
  | node c' l e r =>
    cases h
    rfl

theorem color_eq_black {t : ColorTree α} (h : t.color ≠ .red) : t.color = .black := by
  cases hc : t.color with
  | black => rfl
  | red => exact absurd hc h

theorem color_paint_black (t : ColorTree α) : (t.paint .black).color = .black := by
  cases t <;> rfl

/-- A black tree may stand where a red one may. -/
theorem fits_black {path : Path α} {n : Nat} {c : Color} (h : Fits path c n) : Fits path .black n := by
  cases path with
  | nil => rfl
  | cons f path =>
    obtain ⟨side, c', e, sibling⟩ := f
    cases c' with
    | black => exact h
    | red => exact ⟨rfl, h.2⟩

theorem balanced_fill : ∀ {path : Path α} {t : ColorTree α} {n : Nat}, Balanced t n → Fits path t.color n →
    (∃ m, Balanced (fill path t) m) ∧ (fill path t).color = .black
  | [], _, n, ht, hf => ⟨⟨n, ht⟩, hf⟩
  | ⟨side, .black, e, t'⟩ :: path, t, n, ht, hf => by
    have hpath : Fits path (join side .black t e t').color (n + 1) := by
      rw [color_join]
      exact hf.2
    have hb : Balanced (join side .black t e t') (n + 1) := balanced_join_black ht hf.1
    exact @balanced_fill path _ _ hb hpath
  | ⟨side, .red, e, t'⟩ :: path, t, n, ht, hf => by
    have hpath : Fits path (join side .red t e t').color n := by
      rw [color_join]
      exact hf.2.2.2
    have hb : Balanced (join side .red t e t') n := balanced_join_red ht hf.2.2.1 hf.1 hf.2.1
    exact @balanced_fill path _ _ hb hpath

/-- A node with two children of the same colour rules in a balanced tree, taken apart. -/
theorem balanced_join {s : Side} {c : Color} {t t' : ColorTree α} {e : α} {n : Nat} (h : Balanced (join s c t e t') n) :
    (c = .black ∧ ∃ m, n = m + 1 ∧ Balanced t m ∧ Balanced t' m) ∨
      (c = .red ∧ t.color = .black ∧ t'.color = .black ∧ Balanced t n ∧ Balanced t' n) := by
  cases s <;> cases c
  · exact .inl ⟨rfl, h⟩
  · exact .inr ⟨rfl, h⟩
  · obtain ⟨m, hn, hl, hr⟩ := h
    exact .inl ⟨rfl, m, hn, hr, hl⟩
  · exact .inr ⟨rfl, h.2.1, h.1, h.2.2.2, h.2.2.1⟩

/-- The tree at a place and the path to it, from the balance of the whole. -/
theorem fits_join {f : Frame α} {path : Path α} {t : ColorTree α} {n : Nat}
    (hb : Balanced (join f.side f.color t f.entry f.sibling) n) (hf : Fits path f.color n) :
    ∃ m, Balanced t m ∧ Fits (f :: path) t.color m := by
  obtain ⟨side, c, e, sibling⟩ := f
  obtain ⟨hc, m, hn, ht, hs⟩ | ⟨hc, hct, hcs, ht, hs⟩ := balanced_join hb
  · cases hc
    cases hn
    exact ⟨m, ht, hs, hf⟩
  · cases hc
    exact ⟨n, ht, hct, hcs, hs, hf⟩

theorem fits_fill : ∀ {path : Path α} {t : ColorTree α} {n : Nat}, Balanced (fill path t) n → (fill path t).color = .black →
    ∃ m, Balanced t m ∧ Fits path t.color m
  | [], _, n, hb, hc => ⟨n, hb, hc⟩
  | f :: path, t, n, hb, hc => by
    obtain ⟨m, hb', hf⟩ := @fits_fill path _ n hb hc
    rw [color_join] at hf
    exact fits_join hb' hf

/-- A tree that is balanced under a black root. -/
def RedBlack (t : ColorTree α) : Prop := (∃ n, Balanced t n) ∧ t.color = .black

theorem redBlack_nil : RedBlack (nil : ColorTree α) := ⟨⟨0, balanced_nil⟩, rfl⟩

theorem redBlack_fill {path : Path α} {t : ColorTree α} {n : Nat} (ht : Balanced t n) (hf : Fits path t.color n) :
    RedBlack (fill path t) := balanced_fill ht hf

theorem redBlack_paint {t : ColorTree α} (h : RedBlack t) : RedBlack (t.paint .black) := by
  rw [paint_of_color h.2]
  exact h

/-- A red tree turned black is one higher. -/
theorem balanced_paint_black {t : ColorTree α} {n : Nat} (h : Balanced t n) (hc : t.color = .red) :
    Balanced (t.paint .black) (n + 1) := by
  cases t with
  | nil => cases hc
  | node c l e r =>
    cases hc
    exact balanced_black h.2.2.1 h.2.2.2

theorem red_cases {t : ColorTree α} {n : Nat} (hb : Balanced t n) (hc : t.color = .red) (s : Side) :
    ∃ e near far, t = join s .red near e far ∧ Balanced near n ∧ Balanced far n ∧ near.color = .black ∧ far.color = .black := by
  cases t with
  | nil => cases hc
  | node c l e r =>
    cases hc
    cases s
    · exact ⟨e, l, r, rfl, hb.2.2.1, hb.2.2.2, hb.1, hb.2.1⟩
    · exact ⟨e, r, l, rfl, hb.2.2.2, hb.2.2.1, hb.2.1, hb.1⟩

theorem black_cases {t : ColorTree α} {n : Nat} (hb : Balanced t (n + 1)) (hc : t.color = .black) (s : Side) :
    ∃ e near far, t = join s .black near e far ∧ Balanced near n ∧ Balanced far n := by
  cases t with
  | nil => cases hb
  | node c l e r =>
    cases hc
    obtain ⟨m, hm, hl, hr⟩ := hb
    cases hm
    cases s
    · exact ⟨e, l, r, rfl, hl, hr⟩
    · exact ⟨e, r, l, rfl, hr, hl⟩

/-! ## Height -/

/-- The number of nodes on the longest way down. -/
def ColorTree.height : ColorTree α → Nat
  | nil => 0
  | node _ l _ r => max l.height r.height + 1

theorem height_fill : ∀ (path : Path α) (t : ColorTree α), path.length + t.height ≤ (fill path t).height
  | [], t => Nat.le_of_eq (Nat.zero_add _)
  | f :: path, t => by
    have hparent : t.height + 1 ≤ (join f.side f.color t f.entry f.sibling).height := by
      cases f.side <;> simp only [join, height] <;> omega
    have hrest := height_fill path (join f.side f.color t f.entry f.sibling)
    rw [List.length_cons, fill]
    omega

/-- Half of the nodes on a way down are black, so the tree is full that far. -/
theorem Balanced.bounds : ∀ {t : ColorTree α} {n : Nat}, Balanced t n →
    t.height ≤ 2 * n + (if t.color = .red then 1 else 0) ∧ 2 ^ n ≤ t.toList.length + 1
  | nil, _, rfl => by simp [height, color, toList]
  | node .black l e r, _, ⟨n, rfl, hl, hr⟩ => by
    rcases hl.bounds with ⟨hlh, hls⟩
    rcases hr.bounds with ⟨hrh, hrs⟩
    simp only [height, color, toList, List.length_append, List.length_cons, Nat.pow_succ]
    split_ifs at hlh hrh <;> simp <;> omega
  | node .red l e r, n, ⟨hcl, hcr, hl, hr⟩ => by
    rcases hl.bounds with ⟨hlh, hls⟩
    rcases hr.bounds with ⟨hrh, hrs⟩
    rw [hcl] at hlh
    rw [hcr] at hrh
    simp only [height, color, toList, List.length_append, List.length_cons]
    simp at hlh hrh ⊢
    omega

theorem RedBlack.two_pow_height {t : ColorTree α} (h : RedBlack t) : 2 ^ t.height ≤ (t.toList.length + 1) ^ 2 := by
  rcases h with ⟨⟨n, hb⟩, hc⟩
  rcases hb.bounds with ⟨hheight, hsize⟩
  rw [hc] at hheight
  calc 2 ^ t.height ≤ 2 ^ (n * 2) := Nat.pow_le_pow_right (by decide) (by simpa [Nat.mul_comm] using hheight)
    _ = (2 ^ n) ^ 2 := Nat.pow_mul 2 n 2
    _ ≤ _ := Nat.pow_le_pow_left hsize 2

end ColoredTree

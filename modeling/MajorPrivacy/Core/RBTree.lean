/-
The red-black tree under `FW::Map` (Map.h): insertion, removal, look-ups, with a place in the tree for a node
pointer. `none` for a tree is a rotation without a child to come up, which writes to the null node.
-/
import MajorPrivacy.Lib.ColoredTree
import Mathlib.Order.Defs.LinearOrder
import Mathlib.Data.List.Sort

namespace MajorPrivacy.Core

open ColoredTree ColorTree

/-! ## Insertion and removal -/

section Shape

variable {α : Type}

/-- The loop of `rbtree_insert_fixup`, at a red node. -/
def rbtreeInsertFixup : ColorTree α → Path α → Option (ColorTree α)
  | t, [] => some (t.paint .black)
  | t, [parent] => if parent.color = .black then some ((fill [parent] t).paint .black) else none
  | t, parent :: grand :: path =>
    if parent.color = .black then some ((fill (parent :: grand :: path) t).paint .black)
    else if grand.sibling.color = .red then
      -- the red uncle turns black with the parent, and the grandparent is looked at next
      rbtreeInsertFixup (join grand.side .red (join parent.side .black t parent.entry parent.sibling) grand.entry
        (grand.sibling.paint .black)) path
    else
      let child := join parent.side .red t parent.entry parent.sibling
      (if parent.side = grand.side then some child else rotate grand.side child).bind fun child =>
        (rotate grand.side.other (join grand.side .red (child.paint .black) grand.entry grand.sibling)).map fun tree =>
          (fill path tree).paint .black

def paintChild (s : Side) (c : Color) : ColorTree α → ColorTree α
  | nil => nil
  | node c' l e r =>
    match s with
    | .left => node c' (l.paint c) e r
    | .right => node c' l e (r.paint c)

/-- `rbtree_delete_fixup` behind its loop: the parent has another child that is black. -/
def rbtreeRebalance (child : ColorTree α) (parent : Frame α) (path : Path α) : Option (ColorTree α) :=
  let sibling := parent.sibling
  let near := sibling.child parent.side
  let far := sibling.child parent.side.other
  if parent.color = .red ∧ sibling.color = .black ∧ near.color = .black ∧ far.color = .black then
    some (fill path (join parent.side .black child parent.entry (sibling.paint .red)))
  else
    (if sibling.color = .black ∧ near.color = .red ∧ far.color = .black then
        rotate parent.side.other ((paintChild parent.side .black sibling).paint .red)
      else some sibling).bind fun sibling =>
        let sibling := paintChild parent.side.other .black (sibling.paint parent.color)
        (rotate parent.side (join parent.side .black child parent.entry sibling)).map (fill path)

/-- `rbtree_delete_fixup`, at a place that is one black node short. -/
def rbtreeDeleteFixup : ColorTree α → Path α → Option (ColorTree α)
  | child, [] => some child
  | child, parent :: path =>
    match parent.sibling with
    | node .red l e r =>
      -- the parent turns red and goes down, so the loop ends here
      let sibling := node .red l e r
      rbtreeRebalance child ⟨parent.side, .red, parent.entry, sibling.child parent.side⟩
        (⟨parent.side, .black, e, sibling.child parent.side.other⟩ :: path)
    | sibling =>
      if parent.color = .black ∧ (sibling.child .left).color = .black ∧ (sibling.child .right).color = .black then
        rbtreeDeleteFixup (join parent.side .black child parent.entry (sibling.paint .red)) path
      else rbtreeRebalance child parent path

/-- A node with at most one child is replaced by it. -/
def rbtreeUnlink (color : Color) (child : ColorTree α) (path : Path α) : Option (ColorTree α) :=
  if color = .red then some (fill path child)
  else if child.color = .red then some (fill path (child.paint .black))
  else rbtreeDeleteFixup child path

def rbtreeDelete (toDelete : Spot α) : Option (ColorTree α) :=
  match toDelete.left, toDelete.right with
  | nil, child => rbtreeUnlink toDelete.color child toDelete.path
  | child, nil => rbtreeUnlink toDelete.color child toDelete.path
  | left, right =>
    -- the smallest of the right subtree takes its place, with its colour
    (leftmost right []).bind fun smright =>
      rbtreeUnlink smright.color smright.right
        (smright.path ++ ⟨.right, toDelete.color, smright.entry, left⟩ :: toDelete.path)

end Shape

/-! ## Keys -/

section Keys

variable {K V : Type} [LinearOrder K]

def rbtreeInsert (data : K × V) : ColorTree (K × V) → Path (K × V) → Option (ColorTree (K × V))
  | nil, path => rbtreeInsertFixup (node .red nil data nil) path
  | node c l e r, path =>
    if data.1 < e.1 then rbtreeInsert data l (⟨.left, c, e, r⟩ :: path) else rbtreeInsert data r (⟨.right, c, e, l⟩ :: path)

/-- The result is the node found, a null pointer if the descent set none. -/
def rbtreeFindLessEqual (key : K) : ColorTree (K × V) → Path (K × V) → Option (Spot (K × V)) → Bool × Option (Spot (K × V))
  | nil, _, result => (false, result)
  | node c l e r, path, result =>
    if key < e.1 then rbtreeFindLessEqual key l (⟨.left, c, e, r⟩ :: path) result
    else if e.1 < key then rbtreeFindLessEqual key r (⟨.right, c, e, l⟩ :: path) (some ⟨c, l, e, r, path⟩)
    else (true, some ⟨c, l, e, r, path⟩)

def rbtreeFindGreaterEqual (key : K) : ColorTree (K × V) → Path (K × V) → Bool × Option (Spot (K × V))
  | nil, _ => (false, none)
  | node c l e r, path =>
    if key < e.1 then (false, some ⟨c, l, e, r, path⟩)
    else if e.1 < key then rbtreeFindGreaterEqual key r (⟨.right, c, e, l⟩ :: path)
    else (true, some ⟨c, l, e, r, path⟩)

def rbtreeSearch (root : ColorTree (K × V)) (key : K) : Option (Spot (K × V)) :=
  match rbtreeFindLessEqual key root [] none with
  | (true, result) => result
  | (false, _) => none

end Keys

/-! ## Entries -/

section Entries

variable {α : Type}

theorem toList_paintChild (s : Side) (c : Color) (t : ColorTree α) : (paintChild s c t).toList = t.toList := by
  cases t with
  | nil => rfl
  | node c' l e r => cases s <;> simp [paintChild]

theorem toList_join_congr (s : Side) (c c' : Color) (e : α) {t t' u u' : ColorTree α} (h : t.toList = t'.toList)
    (h' : u.toList = u'.toList) : (join s c t e u).toList = (join s c' t' e u').toList := by
  cases s <;> simp [join, h, h']

theorem toList_rbtreeInsertFixup : ∀ {path : Path α} {t t' : ColorTree α}, rbtreeInsertFixup t path = some t' →
    t'.toList = (fill path t).toList
  | [], t, t', h => by
    cases h
    exact toList_paint _ _
  | [parent], t, t', h => by
    unfold rbtreeInsertFixup at h
    split at h
    · cases h
      exact toList_paint _ _
    · cases h
  | parent :: grand :: path, t, t', h => by
    unfold rbtreeInsertFixup at h
    split at h
    · cases h
      exact toList_paint _ _
    split at h
    · rw [toList_rbtreeInsertFixup h, fill, fill]
      exact toList_fill_congr path (toList_join_congr _ _ _ _ (toList_join_congr _ _ _ _ rfl rfl) (toList_paint _ _))
    · obtain ⟨child, hchild, h⟩ := Option.bind_eq_some_iff.1 h
      obtain ⟨tree, htree, rfl⟩ := Option.map_eq_some_iff.1 h
      have hl : child.toList = (join parent.side parent.color t parent.entry parent.sibling).toList := by
        split at hchild
        · cases hchild
          exact toList_join_congr _ _ _ _ rfl rfl
        · rw [toList_rotate hchild]
          exact toList_join_congr _ _ _ _ rfl rfl
      rw [toList_paint, fill, fill]
      refine toList_fill_congr path ?_
      rw [toList_rotate htree]
      exact toList_join_congr _ _ _ _ ((toList_paint _ _).trans hl) rfl

theorem toList_rbtreeRebalance {child t : ColorTree α} {parent : Frame α} {path : Path α}
    (h : rbtreeRebalance child parent path = some t) : t.toList = (fill (parent :: path) child).toList := by
  unfold rbtreeRebalance at h
  simp only at h
  split at h
  · cases h
    exact toList_fill_congr path (toList_join_congr _ _ _ _ rfl (toList_paint _ _))
  · obtain ⟨sibling, hsibling, h⟩ := Option.bind_eq_some_iff.1 h
    obtain ⟨tree, htree, rfl⟩ := Option.map_eq_some_iff.1 h
    have hl : sibling.toList = parent.sibling.toList := by
      split at hsibling
      · rw [toList_rotate hsibling, toList_paint, toList_paintChild]
      · cases hsibling
        rfl
    refine toList_fill_congr path ?_
    rw [toList_rotate htree]
    refine toList_join_congr _ _ _ _ rfl ?_
    rw [toList_paintChild, toList_paint, hl]

theorem toList_rbtreeDeleteFixup : ∀ {path : Path α} {child t : ColorTree α}, rbtreeDeleteFixup child path = some t →
    t.toList = (fill path child).toList
  | [], child, t, h => by
    cases h
    rfl
  | parent :: path, child, t, h => by
    unfold rbtreeDeleteFixup at h
    split at h
    · rename_i l e r hs
      rw [toList_rbtreeRebalance h, fill, fill, fill]
      refine toList_fill_congr path ?_
      rw [hs]
      cases parent.side <;> simp [join, ColorTree.child, Side.other]
    · split at h
      · rw [toList_rbtreeDeleteFixup h, fill]
        exact toList_fill_congr path (toList_join_congr _ _ _ _ rfl (toList_paint _ _))
      · exact toList_rbtreeRebalance h

theorem toList_rbtreeUnlink {color : Color} {child t : ColorTree α} {path : Path α} (h : rbtreeUnlink color child path = some t) :
    t.toList = (fill path child).toList := by
  unfold rbtreeUnlink at h
  split at h
  · cases h
    rfl
  split at h
  · cases h
    exact toList_fill_congr path (toList_paint _ _)
  · exact toList_rbtreeDeleteFixup h

/-- A removal takes out the entry of its node. -/
theorem toList_rbtreeDelete {s : Spot α} {t : ColorTree α} (h : rbtreeDelete s = some t) : t.toList = s.before ++ s.after := by
  obtain ⟨c, l, e, r, path⟩ := s
  unfold rbtreeDelete at h
  simp only at h
  unfold Spot.before Spot.after
  split at h
  · rw [toList_rbtreeUnlink h, toList_fill]
    simp
  · rw [toList_rbtreeUnlink h, toList_fill]
    simp
  · obtain ⟨m, hm, h⟩ := Option.bind_eq_some_iff.1 h
    obtain ⟨-, hbefore, hafter, hleft⟩ := leftmost_spec hm
    unfold Spot.before at hbefore
    unfold Spot.after at hafter
    rw [hleft, toList_nil, List.append_nil, Path.before] at hbefore
    rw [Path.after, List.append_nil] at hafter
    rw [toList_rbtreeUnlink h, fill_append, fill, toList_fill, toList_join ⟨.right, c, m.entry, l⟩, toList_fill, hbefore,
      ← hafter, Frame.before, Frame.after]
    simp only [List.nil_append, List.append_nil, List.append_assoc, List.cons_append]

end Entries

/-! ## Balance -/

section Balance

variable {α : Type}

/-- A red node under a red parent is put right, on the way up. -/
theorem redBlack_rbtreeInsertFixup : ∀ {path : Path α} {t : ColorTree α} {n : Nat}, Balanced t n → t.color = .red →
    Fits path .black n → ∃ t', rbtreeInsertFixup t path = some t' ∧ RedBlack t'
  | [], t, n, hb, hc, _ => ⟨_, rfl, ⟨n + 1, balanced_paint_black hb hc⟩, color_paint_black t⟩
  | [⟨side, c, e, sibling⟩], t, n, hb, hc, hf => by
    cases c with
    | black => exact ⟨_, if_pos rfl, redBlack_paint (redBlack_fill hb hf)⟩
    | red => cases hf.2.2.2
  | ⟨side, .black, e, sibling⟩ :: grand :: path, t, n, hb, _, hf =>
    ⟨_, if_pos rfl, redBlack_paint (redBlack_fill hb hf)⟩
  | ⟨side, .red, e, sibling⟩ :: ⟨side', .red, e', uncle⟩ :: path, t, n, hb, hc, hf => by
    cases hf.2.2.2.1
  | ⟨side, .red, e, sibling⟩ :: ⟨side', .black, e', uncle⟩ :: path, t, n, hb, hc, hf => by
    obtain ⟨-, hcs, hs, hu, hf⟩ := hf
    unfold rbtreeInsertFixup
    rw [if_neg (by exact Color.noConfusion)]
    simp only
    by_cases hred : uncle.color = .red
    · rw [if_pos hred]
      refine redBlack_rbtreeInsertFixup (balanced_join_red (balanced_join_black hb hs) (balanced_paint_black hu hred) ?_ ?_) ?_ hf
      · exact color_join _ _ _ _ _
      · exact color_paint_black uncle
      · exact color_join _ _ _ _ _
    · rw [if_neg hred]
      have hblack := color_eq_black hred
      obtain ⟨e₁, near, far, rfl, hnear, hfar, hcn, hcf⟩ := red_cases hb hc side'
      obtain rfl | rfl := side_eq_or side side'
      · -- the node is on the outer side, its parent takes the place of the grandparent
        rw [if_pos rfl, Option.bind_some, paint_join, rotate_join_other, Option.map_some]
        refine ⟨_, rfl, redBlack_paint (redBlack_fill (balanced_join_black hb ?_) (by rw [color_join]; exact hf))⟩
        exact balanced_join_red hs hu hcs hblack
      · -- the node is on the inner side, it takes the place itself
        rw [if_neg (other_ne side'), join_other, rotate_join, Option.bind_some, paint_join, rotate_join_other, Option.map_some]
        refine ⟨_, rfl, redBlack_paint (redBlack_fill (balanced_join_black ?_ ?_) (by rw [color_join]; exact hf))⟩
        · exact balanced_join_red hs hnear hcs hcn
        · exact balanced_join_red hfar hu hcf hblack

@[simp] theorem paintChild_join (s : Side) (c c' : Color) (t t' : ColorTree α) (e : α) :
    paintChild s c' (join s c t e t') = join s c (t.paint c') e t' := by
  cases s <;> rfl

@[simp] theorem paintChild_join_other (s : Side) (c c' : Color) (t t' : ColorTree α) (e : α) :
    paintChild s.other c' (join s c t e t') = join s c t e (t'.paint c') := by
  cases s <;> rfl

/-- The top of a balanced tree with two black children takes any colour. -/
theorem redBlack_top {f : Frame α} {path : Path α} {n : Nat} (hf : Fits (f :: path) .black (n + 1)) {s : Side} {t t' : ColorTree α}
    {e : α} (ht : Balanced t (n + 1)) (ht' : Balanced t' (n + 1)) (hc : t.color = .black) (hc' : t'.color = .black) :
    RedBlack (fill path (join s f.color t e t')) := by
  obtain ⟨side, c, e', sibling⟩ := f
  cases c with
  | black => exact redBlack_fill (balanced_join_black ht ht') (by rw [color_join]; exact hf.2)
  | red => exact redBlack_fill (balanced_join_red ht ht' hc hc') (by rw [color_join]; exact hf.2.2.2)

/-- A place that is one black node short is put right, if there is a red node beside it. -/
theorem redBlack_rbtreeRebalance {child : ColorTree α} {parent : Frame α} {path : Path α} {n : Nat} (hb : Balanced child n)
    (hf : Fits (parent :: path) .black (n + 1)) (hs : Balanced parent.sibling (n + 1)) (hsc : parent.sibling.color = .black)
    (hc : child.color = .black) (hred : parent.color = .black → (parent.sibling.child parent.side).color = .red ∨
      (parent.sibling.child parent.side.other).color = .red) :
    ∃ t, rbtreeRebalance child parent path = some t ∧ RedBlack t := by
  obtain ⟨side, c, e, sibling⟩ := parent
  obtain ⟨e', near, far, rfl, hnear, hfar⟩ := black_cases hs hsc side
  unfold rbtreeRebalance
  simp only [child_join, child_join_other, color_join, true_and, paint_join, paintChild_join] at hred ⊢
  by_cases hall : c = .red ∧ near.color = .black ∧ far.color = .black
  · rw [if_pos hall]
    obtain ⟨rfl, hcn, hcf⟩ := hall
    exact ⟨_, rfl, redBlack_fill (balanced_join_black hb (balanced_join_red hnear hfar hcn hcf))
      (by rw [color_join]; exact fits_black hf.2.2.2)⟩
  rw [if_neg hall]
  by_cases hinner : near.color = .red ∧ far.color = .black
  · -- the near child comes up first
    obtain ⟨e₁, x, z, rfl, hx, hz, hcx, hcz⟩ := red_cases hnear hinner.1 side
    rw [if_pos hinner, paint_join, rotate_join_other, Option.bind_some, paint_join, paintChild_join_other, paint_join,
      rotate_join, Option.map_some]
    exact ⟨_, rfl, redBlack_top hf (balanced_join_black hb hx) (balanced_join_black hz hfar) (color_join _ _ _ _ _)
      (color_join _ _ _ _ _)⟩
  · have hcf : far.color = .red := by
      by_contra hne
      have hcf := color_eq_black hne
      have hcn := color_eq_black fun hcn => hinner ⟨hcn, hcf⟩
      cases c with
      | red => exact hall ⟨rfl, hcn, hcf⟩
      | black =>
        obtain h | h := hred rfl
        · rw [hcn] at h
          cases h
        · exact hne h
    rw [if_neg hinner, Option.bind_some, paint_join, paintChild_join_other, rotate_join, Option.map_some]
    exact ⟨_, rfl, redBlack_top hf (balanced_join_black hb hnear) (balanced_paint_black hfar hcf) (color_join _ _ _ _ _)
      (color_paint_black far)⟩

theorem redBlack_rbtreeDeleteFixup : ∀ {path : Path α} {child : ColorTree α} {n : Nat}, Balanced child n → child.color = .black →
    Fits path .black (n + 1) → ∃ t, rbtreeDeleteFixup child path = some t ∧ RedBlack t
  | [], child, n, hb, hc, _ => ⟨child, rfl, ⟨n, hb⟩, hc⟩
  | ⟨side, c, e, sibling⟩ :: path, child, n, hb, hc, hf => by
    have hs : Balanced sibling (n + 1) := by
      cases c with
      | black => exact hf.1
      | red => exact hf.2.2.1
    unfold rbtreeDeleteFixup
    simp only
    split
    · rename_i l e' r
      -- the sibling is red: the parent is black, and so are the children of the sibling
      cases c with
      | red => cases hf.2.1
      | black =>
        obtain ⟨hcl, hcr, hl, hr⟩ := hs
        have hkids : ∀ s, Balanced ((node .red l e' r).child s) (n + 1) ∧ ((node .red l e' r).child s).color = .black := by
          intro s
          cases s
          · exact ⟨hl, hcl⟩
          · exact ⟨hr, hcr⟩
        refine redBlack_rbtreeRebalance hb ?_ (hkids side).1 (hkids side).2 hc fun hcon => Color.noConfusion hcon
        exact ⟨rfl, (hkids side).2, (hkids side).1, (hkids side.other).1, hf.2⟩
    · rename_i hblack
      have hsc : sibling.color = .black := by
        cases sibling with
        | nil => rfl
        | node c' l e' r =>
          cases c' with
          | black => rfl
          | red => exact absurd rfl (hblack l e' r)
      by_cases hall : c = .black ∧ (sibling.child .left).color = .black ∧ (sibling.child .right).color = .black
      · rw [if_pos hall]
        obtain ⟨rfl, hcl, hcr⟩ := hall
        obtain ⟨e', l, r, rfl, hl, hr⟩ := black_cases hs hsc .left
        exact redBlack_rbtreeDeleteFixup
          (balanced_join_black hb (balanced_red hl hr hcl hcr)) (color_join _ _ _ _ _) hf.2
      · rw [if_neg hall]
        refine redBlack_rbtreeRebalance hb hf hs hsc hc fun hcb => ?_
        by_contra hno
        obtain ⟨hn, hfr⟩ := not_or.1 hno
        have hn := color_eq_black hn
        have hfr := color_eq_black hfr
        refine hall ⟨hcb, ?_⟩
        cases side with
        | left => exact ⟨hn, hfr⟩
        | right => exact ⟨hfr, hn⟩

/-- What is left of a node with at most one child. -/
theorem redBlack_rbtreeUnlink {color : Color} {child : ColorTree α} {path : Path α} {n : Nat} (hb : Balanced child n)
    (hf : Fits path color (if color = .black then n + 1 else n)) (hc : color = .red → child.color = .black) :
    ∃ t, rbtreeUnlink color child path = some t ∧ RedBlack t := by
  unfold rbtreeUnlink
  cases color with
  | red =>
    refine ⟨_, if_pos rfl, redBlack_fill hb ?_⟩
    rw [hc rfl]
    exact fits_black hf
  | black =>
    rw [if_neg Color.noConfusion]
    rw [if_pos rfl] at hf
    by_cases hred : child.color = .red
    · rw [if_pos hred]
      refine ⟨_, rfl, redBlack_fill (balanced_paint_black hb hred) ?_⟩
      rw [color_paint_black]
      exact hf
    · rw [if_neg hred]
      exact redBlack_rbtreeDeleteFixup hb (color_eq_black hred) hf

/-- A node of a red-black tree whose one child is missing. -/
theorem unlink_of_node {c : Color} {l r child : ColorTree α} {e : α} {path : Path α} {n : Nat} (hb : Balanced (node c l e r) n)
    (hf : Fits path c n) (hchild : child = l ∨ child = r) : ∃ m, Balanced child m ∧
      Fits path c (if c = .black then m + 1 else m) ∧ (c = .red → child.color = .black) := by
  cases c with
  | black =>
    obtain ⟨m, rfl, hl, hr⟩ := hb
    refine ⟨m, ?_, hf, fun h => (by cases h)⟩
    obtain rfl | rfl := hchild
    · exact hl
    · exact hr
  | red =>
    obtain ⟨hcl, hcr, hl, hr⟩ := hb
    refine ⟨n, ?_, hf, fun _ => ?_⟩
    · obtain rfl | rfl := hchild
      · exact hl
      · exact hr
    · obtain rfl | rfl := hchild
      · exact hcl
      · exact hcr

/-- A removal leaves a red-black tree. -/
theorem redBlack_rbtreeDelete {s : Spot α} (h : RedBlack s.root) : ∃ t, rbtreeDelete s = some t ∧ RedBlack t := by
  obtain ⟨c, l, e, r, path⟩ := s
  obtain ⟨⟨n, hb⟩, hc⟩ := h
  obtain ⟨m, hb', hf⟩ := @fits_fill _ path (node c l e r) n hb hc
  have hone : ∀ {child : ColorTree α}, child = l ∨ child = r → ∃ t, rbtreeUnlink c child path = some t ∧ RedBlack t := by
    intro child hchild
    obtain ⟨k, hk, hfk, hck⟩ := unlink_of_node hb' hf hchild
    exact redBlack_rbtreeUnlink hk hfk hck
  unfold rbtreeDelete
  simp only
  split
  · exact hone (.inr rfl)
  · exact hone (.inl rfl)
  · rename_i hl hr
    cases hm : leftmost r [] with
    | none => exact absurd (leftmost_nil hm) hr
    | some k =>
      obtain ⟨hroot, -⟩ := leftmost_spec hm
      have hfill : fill (k.path ++ ⟨.right, c, k.entry, l⟩ :: path) k.tree = fill path (node c l k.entry r) := by
        rw [fill_append, fill]
        change fill path (node c l k.entry k.root) = _
        rw [hroot, fill]
      have hsame : Balanced (node c l k.entry r) m := by
        cases c <;> exact hb'
      obtain ⟨⟨n', hb''⟩, hc''⟩ := redBlack_fill hsame hf
      obtain ⟨m', hk, hfk⟩ := fits_fill (hfill ▸ hb'') (hfill ▸ hc'')
      obtain ⟨j, hj, hfj, hcj⟩ := unlink_of_node hk hfk (.inr rfl)
      exact redBlack_rbtreeUnlink hj hfj hcj

end Balance

/-! ## Order -/

section Order

variable {K V : Type} [LinearOrder K]

/-- The entries by key. -/
abbrev Ordered (l : List (K × V)) : Prop := l.Pairwise fun a b => a.1 ≤ b.1

/-- A new entry goes behind those with its key. -/
abbrev putIn (data : K × V) (l : List (K × V)) : List (K × V) := l.orderedInsert (fun a b => a.1 < b.1) data

theorem redBlack_rbtreeInsert (data : K × V) : ∀ (t : ColorTree (K × V)) (path : Path (K × V)), RedBlack (fill path t) →
    ∃ t', rbtreeInsert data t path = some t' ∧ RedBlack t'
  | nil, path, h => by
    obtain ⟨⟨n, hb⟩, hc⟩ := h
    obtain ⟨m, rfl, hf⟩ := fits_fill hb hc
    exact redBlack_rbtreeInsertFixup (balanced_red balanced_nil balanced_nil rfl rfl) rfl hf
  | node c l e r, path, h => by
    unfold rbtreeInsert
    split
    · exact redBlack_rbtreeInsert data l _ h
    · exact redBlack_rbtreeInsert data r _ h

theorem ordered_append {l l' : List (K × V)} {e : K × V} (h : Ordered (l ++ e :: l')) :
    Ordered l ∧ Ordered l' ∧ (∀ a ∈ l, a.1 ≤ e.1) ∧ ∀ b ∈ l', e.1 ≤ b.1 := by
  obtain ⟨hl, hr, hlr⟩ := List.pairwise_append.1 h
  obtain ⟨he, hr⟩ := List.pairwise_cons.1 hr
  exact ⟨hl, hr, fun a ha => hlr a ha e List.mem_cons_self, he⟩

theorem putIn_append_left {data e : K × V} (l' : List (K × V)) (h : data.1 < e.1) : ∀ l : List (K × V),
    putIn data (l ++ e :: l') = putIn data l ++ e :: l'
  | [] => if_pos h
  | a :: l => by
    have ih := putIn_append_left l' h l
    unfold putIn at ih ⊢
    by_cases ha : data.1 < a.1
    · simp [List.orderedInsert, ha]
    · simp [List.orderedInsert, ha, ih]

theorem putIn_append_right {data : K × V} (l' : List (K × V)) : ∀ l : List (K × V), (∀ a ∈ l, ¬ data.1 < a.1) →
    putIn data (l ++ l') = l ++ putIn data l'
  | [], _ => rfl
  | a :: l, h => by
    have ih := putIn_append_right l' l fun b hb => h b (List.mem_cons_of_mem a hb)
    unfold putIn at ih ⊢
    simp [h a List.mem_cons_self, ih]

theorem ordered_putIn {data : K × V} : ∀ {l : List (K × V)}, Ordered l → Ordered (putIn data l)
  | [], _ => List.pairwise_singleton _ _
  | a :: l, h => by
    obtain ⟨ha, hl⟩ := List.pairwise_cons.1 h
    have ih : Ordered (putIn data l) := ordered_putIn hl
    unfold putIn at ih ⊢
    by_cases hlt : data.1 < a.1
    · rw [List.orderedInsert, if_pos hlt]
      refine List.pairwise_cons.2 ⟨fun b hb => ?_, h⟩
      obtain rfl | hb := List.mem_cons.1 hb
      · exact le_of_lt hlt
      · exact le_trans (le_of_lt hlt) (ha b hb)
    · rw [List.orderedInsert, if_neg hlt]
      refine List.pairwise_cons.2 ⟨fun b hb => ?_, ih⟩
      obtain rfl | hb := List.mem_cons.1 ((List.perm_orderedInsert _ data l).mem_iff.1 hb)
      · exact le_of_not_gt hlt
      · exact ha b hb

theorem toList_rbtreeInsert {data : K × V} : ∀ {t : ColorTree (K × V)} {path : Path (K × V)} {t' : ColorTree (K × V)},
    Ordered t.toList → rbtreeInsert data t path = some t' →
      t'.toList = Path.before path ++ putIn data t.toList ++ Path.after path
  | nil, path, t', _, h => by
    rw [toList_rbtreeInsertFixup h, toList_fill]
    rfl
  | node c l e r, path, t', ho, h => by
    obtain ⟨hl, hr, hle, hge⟩ := ordered_append ho
    unfold rbtreeInsert at h
    by_cases hlt : data.1 < e.1
    · rw [if_pos hlt] at h
      rw [toList_rbtreeInsert hl h, toList_node, putIn_append_left _ hlt, Path.before, Path.after, Frame.before, Frame.after]
      simp only [List.append_assoc, List.cons_append, List.nil_append]
    · rw [if_neg hlt] at h
      have hskip : ∀ a ∈ l.toList ++ [e], ¬ data.1 < a.1 := by
        intro a ha hlt'
        obtain ha | ha := List.mem_append.1 ha
        · exact hlt (lt_of_lt_of_le hlt' (hle a ha))
        · rw [List.mem_singleton.1 ha] at hlt'
          exact hlt hlt'
      have hput : putIn data (l.toList ++ e :: r.toList) = l.toList ++ [e] ++ putIn data r.toList := by
        rw [← putIn_append_right _ _ hskip, List.append_assoc, List.singleton_append]
      rw [toList_rbtreeInsert hr h, toList_node, hput, Path.before, Path.after, Frame.before, Frame.after]
      simp only [List.append_assoc, List.nil_append]

/-! ## Look-ups -/

omit [LinearOrder K] in
/-- What holds of the left subtree, of the entry and of the right subtree. -/
theorem forall_mem_node {c : Color} {l r : ColorTree (K × V)} {e : K × V} {P : K × V → Prop} :
    (∀ a ∈ (node c l e r).toList, P a) ↔ (∀ a ∈ l.toList, P a) ∧ P e ∧ ∀ a ∈ r.toList, P a := by
  simp [or_imp, forall_and]

/-- A node with the key, or without one the last node with a smaller key, or what was there before. -/
theorem rbtreeFindLessEqual_spec (key : K) : ∀ (t : ColorTree (K × V)) (path : Path (K × V)) (result : Option (Spot (K × V))),
    Ordered t.toList →
      (∃ s, rbtreeFindLessEqual key t path result = (true, some s) ∧ s.root = fill path t ∧ s.entry.1 = key) ∨
        (∀ e ∈ t.toList, e.1 ≠ key) ∧
          ((∀ e ∈ t.toList, key < e.1) ∧ rbtreeFindLessEqual key t path result = (false, result) ∨
            ∃ s, rbtreeFindLessEqual key t path result = (false, some s) ∧ s.root = fill path t ∧ s.entry ∈ t.toList ∧
              s.entry.1 < key ∧ ∀ e ∈ t.toList, e.1 < key → e.1 ≤ s.entry.1)
  | nil, path, result, _ => .inr ⟨fun e he => (by cases he), .inl ⟨fun e he => (by cases he), rfl⟩⟩
  | node c l e r, path, result, ho => by
    obtain ⟨hl, hr, hle, hge⟩ := ordered_append ho
    unfold rbtreeFindLessEqual
    by_cases hlt : key < e.1
    · rw [if_pos hlt]
      have hright : ∀ a ∈ r.toList, key < a.1 := fun a ha => lt_of_lt_of_le hlt (hge a ha)
      have hne : (∀ a ∈ l.toList, a.1 ≠ key) → ∀ a ∈ (node c l e r).toList, a.1 ≠ key := fun h =>
        forall_mem_node.2 ⟨h, ne_of_gt hlt, fun a ha => ne_of_gt (hright a ha)⟩
      obtain ⟨s, hrun, hroot, hkey⟩ | ⟨hnone, ⟨hall, hrun⟩ | ⟨s, hrun, hroot, hmem, hs, hbest⟩⟩ :=
        rbtreeFindLessEqual_spec key l (⟨.left, c, e, r⟩ :: path) result hl
      · exact .inl ⟨s, hrun, hroot, hkey⟩
      · exact .inr ⟨hne hnone, .inl ⟨forall_mem_node.2 ⟨hall, hlt, hright⟩, hrun⟩⟩
      · refine .inr ⟨hne hnone, .inr ⟨s, hrun, hroot, List.mem_append_left _ hmem, hs,
          forall_mem_node.2 ⟨hbest, fun h => ?_, fun a ha h => ?_⟩⟩⟩
        · exact absurd h (not_lt_of_gt hlt)
        · exact absurd h (not_lt_of_gt (hright a ha))
    rw [if_neg hlt]
    by_cases hgt : e.1 < key
    · rw [if_pos hgt]
      have hleft : ∀ a ∈ l.toList, a.1 < key := fun a ha => lt_of_le_of_lt (hle a ha) hgt
      have hne : (∀ a ∈ r.toList, a.1 ≠ key) → ∀ a ∈ (node c l e r).toList, a.1 ≠ key := fun h =>
        forall_mem_node.2 ⟨fun a ha => ne_of_lt (hleft a ha), ne_of_lt hgt, h⟩
      obtain ⟨s, hrun, hroot, hkey⟩ | ⟨hnone, ⟨hall, hrun⟩ | ⟨s, hrun, hroot, hmem, hs, hbest⟩⟩ :=
        rbtreeFindLessEqual_spec key r (⟨.right, c, e, l⟩ :: path) (some ⟨c, l, e, r, path⟩) hr
      · exact .inl ⟨s, hrun, hroot, hkey⟩
      · -- this node is the last one that is smaller
        refine .inr ⟨hne hnone, .inr ⟨_, hrun, rfl, List.mem_append_right _ List.mem_cons_self, hgt, forall_mem_node.2 ⟨fun a ha _ => hle a ha, fun _ => le_refl _, fun a ha h => ?_⟩⟩⟩
        exact absurd h (not_lt_of_gt (hall a ha))
      · have hes : e.1 ≤ s.entry.1 := hge _ hmem
        exact .inr ⟨hne hnone, .inr ⟨s, hrun, hroot, List.mem_append_right _ (List.mem_cons_of_mem _ hmem), hs, forall_mem_node.2
          ⟨fun a ha _ => le_trans (hle a ha) hes, fun _ => hes, hbest⟩⟩⟩
    · rw [if_neg hgt]
      exact .inl ⟨_, rfl, rfl, le_antisymm (le_of_not_gt hlt) (le_of_not_gt hgt)⟩

end Order

end MajorPrivacy.Core

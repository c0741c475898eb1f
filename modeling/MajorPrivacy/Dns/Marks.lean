/-
What the map of `write_name` stands for: names written before and the rests of them, each with the
place it starts at. As long as the entry that is found under the text of a name was made for the same
labels, a name is written so that it is read back.
-/
import MajorPrivacy.Dns.Names

namespace MajorPrivacy.Dns

open LittleEndian Outcome

/-! ## Marks -/

/-- A name, or the rest of one, that was written: its labels, where they start, and the last byte of
the row they start in. -/
structure Mark where
  labels : Name
  off : UInt16
  last : Nat

/-- The entry of the map. -/
def Mark.entry (mark : Mark) : Bytes × UInt16 := (buildName mark.labels, mark.off)

/-- The labels of a name that are placed, and the mark behind them if there is one under the text of
the rest. -/
def placed (marks : List Mark) : Name → Name × Option Mark
  | [] => ([], none)
  | label :: rest =>
    match marks.find? fun mark => buildName mark.labels = buildName (label :: rest) with
    | some mark => ([], some mark)
    | none => (label :: (placed marks rest).1, (placed marks rest).2)

/-- The marks of the first labels of a name. -/
def newMarks (last : Nat) : Nat → Name → Nat → List Mark
  | size, label :: rest, n + 1 =>
    newMarks last (size + 1 + label.length) rest n ++ if size ≤ 0x3fff then [⟨label :: rest, .ofNat size, last⟩] else []
  | _, _, _ => []

/-- The size of the packet behind a name. -/
def sizeBehind (size : Nat) (name : Name) (marks : List Mark) : Nat :=
  size + (labels (placed marks name).1).length + if (placed marks name).2.isSome then 2 else 1

/-- The marks once a name is written. -/
def addMarks (size : Nat) (name : Name) (marks : List Mark) : List Mark :=
  newMarks (sizeBehind size name marks - 1) size name (placed marks name).1.length ++ marks

/-- The mark that is found was made for the same labels, in a row within the first 64 KiB. -/
def Clear (marks : List Mark) (name : Name) : Prop :=
  ∀ mark, (placed marks name).2 = some mark → (placed marks name).1 ++ mark.labels = name ∧ mark.last ≤ 0xffff

section Placed
variable {marks : List Mark} {label : Bytes} {rest : Name}

theorem placed_cons_none (h : (marks.find? fun mark => buildName mark.labels = buildName (label :: rest)) = none) :
    placed marks (label :: rest) = (label :: (placed marks rest).1, (placed marks rest).2) := by
  simp only [placed, h]

theorem placed_cons_some {mark : Mark}
    (h : (marks.find? fun mark => buildName mark.labels = buildName (label :: rest)) = some mark) :
    placed marks (label :: rest) = ([], some mark) := by
  simp only [placed, h]

end Placed

theorem placed_of_none {marks : List Mark} : ∀ {name : Name}, (placed marks name).2 = none → (placed marks name).1 = name
  | [], _ => rfl
  | label :: rest, h => by
    rcases hfind : marks.find? fun mark => buildName mark.labels = buildName (label :: rest) with _ | mark
    · rw [placed_cons_none hfind] at h ⊢
      rw [placed_of_none h]
    · rw [placed_cons_some hfind] at h
      cases h

theorem placed_of_some {marks : List Mark} {mark : Mark} : ∀ {name : Name}, (placed marks name).2 = some mark → mark ∈ marks
  | [], h => by cases h
  | label :: rest, h => by
    rcases hfind : marks.find? fun mark => buildName mark.labels = buildName (label :: rest) with _ | found
    · rw [placed_cons_none hfind] at h
      exact placed_of_some h
    · rw [placed_cons_some hfind] at h
      cases h
      exact List.mem_of_find?_eq_some hfind

theorem placed_subset {marks : List Mark} : ∀ {name : Name}, (placed marks name).1 ⊆ name
  | [] => List.Subset.refl _
  | label :: rest => by
    rcases hfind : marks.find? fun mark => buildName mark.labels = buildName (label :: rest) with _ | mark
    · rw [placed_cons_none hfind]
      exact List.cons_subset_cons label placed_subset
    · rw [placed_cons_some hfind]
      exact List.nil_subset _

theorem mem_newMarks {last : Nat} {rest : Name} {mark : Mark} : ∀ {first : Name} {size : Nat},
    mark ∈ newMarks last size (first ++ rest) first.length → ∃ a b, first = a ++ b ∧ b ≠ [] ∧
      mark = ⟨b ++ rest, .ofNat (size + (labels a).length), last⟩ ∧ size + (labels a).length ≤ 0x3fff
  | [], size, h => by
    cases rest <;> simp [newMarks] at h
  | label :: first, size, h => by
    rw [List.cons_append, List.length_cons, newMarks, List.mem_append] at h
    rcases h with h | h
    · rcases mem_newMarks h with ⟨a, b, hab, hb, hmark, hnear⟩
      refine ⟨label :: a, b, by rw [hab]; rfl, hb, ?_, ?_⟩
      · rw [hmark, labels_cons]
        congr 2
        simp
        omega
      · rw [labels_cons, List.length_cons, List.length_append]
        omega
    · split at h
      · rename_i hle
        rw [List.mem_singleton] at h
        exact ⟨[], label :: first, rfl, by simp, h, hle⟩
      · cases h

/-! ## The map -/

theorem lookup_entries (key : Bytes) : ∀ marks : List Mark,
    (marks.map Mark.entry).lookup key = (marks.find? fun mark => buildName mark.labels = key).map Mark.off
  | [] => rfl
  | mark :: marks => by
    rw [List.map_cons, Mark.entry, List.lookup_cons, List.find?_cons, lookup_entries key marks]
    by_cases h : buildName mark.labels = key
    · simp [h]
    · have h' : (key == buildName mark.labels) = false := beq_false_of_ne fun he => h he.symm
      simp [h, h']

theorem lookup_append_of_short {key : Bytes} {entries : NameMap} : ∀ {pending : NameMap},
    (∀ entry ∈ pending, key.length < entry.1.length) → (pending ++ entries).lookup key = entries.lookup key
  | [], _ => rfl
  | entry :: pending, h => by
    have hne : (key == entry.1) = false := by
      apply beq_false_of_ne
      rintro rfl
      exact absurd (h entry List.mem_cons_self) (Nat.lt_irrefl _)
    rw [List.cons_append, List.lookup_cons, hne]
    exact lookup_append_of_short fun e he => h e (List.mem_cons_of_mem _ he)

/-- The text of a rest is shorter. -/
theorem length_buildName_lt (label : Bytes) {rest : Name} (h : rest ≠ []) :
    (buildName rest).length < (buildName (label :: rest)).length := by
  cases rest with
  | nil => exact absurd rfl h
  | cons next rest =>
    have heq : buildName (label :: next :: rest) = label ++ 0x2e :: buildName (next :: rest) := rfl
    rw [heq, List.length_append, List.length_cons]
    omega

theorem and_3fff (n : Nat) : n &&& 0x3fff = n ↔ n ≤ 0x3fff := by
  rw [show 0x3fff = 2 ^ 14 - 1 by norm_num, Nat.and_two_pow_sub_one_eq_mod]
  omega

/-- `write_name` by the marks. Entries that the name made itself have longer texts and are not found. -/
theorem writeName_eq (marks : List Mark) (last : Nat) : ∀ (name : Name) (blob : Bytes) (pending : NameMap),
    (name ≠ [] → ∀ entry ∈ pending, (buildName name).length < entry.1.length) →
    writeName blob name (pending ++ marks.map Mark.entry) =
      (blob ++ labels (placed marks name).1 ++ (placed marks name).2.elim [0] fun mark => pointer mark.off,
        (newMarks last blob.length name (placed marks name).1.length).map Mark.entry ++ pending ++ marks.map Mark.entry)
  | [], blob, pending, _ => by simp [writeName, placed, newMarks]
  | label :: rest, blob, pending, h => by
    have hlookup : (pending ++ marks.map Mark.entry).lookup (buildName (label :: rest)) = _ :=
      lookup_append_of_short (h (by simp))
    rw [lookup_entries] at hlookup
    unfold writeName
    rcases hfind : marks.find? fun mark => buildName mark.labels = buildName (label :: rest) with _ | mark
    · rw [hfind, Option.map_none] at hlookup
      simp only [hlookup, and_3fff, placed_cons_none hfind]
      by_cases hnear : blob.length ≤ 0x3fff
      · rw [if_pos hnear, ← List.cons_append, writeName_eq marks last rest]
        · simp [newMarks, hnear, Mark.entry, Nat.add_assoc, Nat.add_comm 1]
        · rintro hne entry he
          have hlt := length_buildName_lt label hne
          rcases List.mem_cons.1 he with rfl | he
          · exact hlt
          · exact hlt.trans (h (by simp) entry he)
      · rw [if_neg hnear, writeName_eq marks last rest]
        · simp [newMarks, hnear, Nat.add_assoc, Nat.add_comm 1]
        · rintro hne entry he
          exact (length_buildName_lt label hne).trans (h (by simp) entry he)
    · rw [hfind, Option.map_some] at hlookup
      simp only [hlookup, placed_cons_some hfind, Option.elim_some, labels_nil, List.append_nil, List.length_nil, newMarks]
      rfl

/-! ## Writing a name -/

/-- Every mark is of a name that stands there. -/
def Marked (blob : Bytes) (marks : List Mark) : Prop :=
  ∀ mark ∈ marks, Spelled blob mark.off.toNat mark.labels mark.last ∧ mark.off.toNat ≤ 0x3fff

theorem Marked.append {blob : Bytes} {marks : List Mark} (h : Marked blob marks) (more : Bytes) : Marked (blob ++ more) marks :=
  fun mark hmark => ⟨(h mark hmark).1.append more, (h mark hmark).2⟩

theorem Spelled.lt_length {blob : Bytes} {off last : Nat} {name : Name} (h : Spelled blob off name last) : off < blob.length := by
  have hne : ∀ {row : Bytes}, row ≠ [] → row <+: blob.drop off → off < blob.length := by
    rintro row hrow hpre
    by_contra hlt
    rw [List.drop_eq_nil_of_le (by omega)] at hpre
    exact hrow (List.prefix_nil.1 hpre)
  cases h with
  | stop hok hrow => exact hne (by simp) hrow
  | jump hok hrow => exact hne (by simp [pointer]) hrow

theorem Marked.newMarks {blob : Bytes} {marks : List Mark} (hm : Marked blob marks) (row : Bytes) (first rest : Name) (last : Nat)
    (h : ∀ a b, first = a ++ b → Spelled (blob ++ row) (blob.length + (labels a).length) (b ++ rest) last) :
    Marked (blob ++ row) (newMarks last blob.length (first ++ rest) first.length ++ marks) := by
  rintro mark hmark
  rcases List.mem_append.1 hmark with hmark | hmark
  · rcases mem_newMarks hmark with ⟨a, b, hab, -, rfl, hnear⟩
    simp only [ofNat_toNat (show blob.length + (labels a).length ≤ 0xffff by omega)]
    exact ⟨h a b hab, hnear⟩
  · exact hm.append row mark hmark

/-- A name that meets no mark of other labels is written so that it is read back, and the marks of what
was written are right again. -/
theorem writeName_spec {blob : Bytes} {marks : List Mark} {name : Name} (hm : Marked blob marks)
    (hok : ∀ label ∈ name, LabelOk label) (hclear : Clear marks name) :
    ∃ row, writeName blob name (marks.map Mark.entry) = (blob ++ row, (addMarks blob.length name marks).map Mark.entry) ∧
      (blob ++ row).length = sizeBehind blob.length name marks ∧ Row blob row name ∧
      Marked (blob ++ row) (addMarks blob.length name marks) := by
  have hwrite := writeName_eq marks (sizeBehind blob.length name marks - 1) name blob [] (fun _ _ he => by cases he)
  rw [List.nil_append, List.append_nil, ← List.map_append, List.append_assoc] at hwrite
  rcases hfound : (placed marks name).2 with _ | mark
  · -- all labels are placed
    have hfirst := placed_of_none hfound
    have hsize : sizeBehind blob.length name marks = blob.length + (labels name).length + 1 := by
      unfold sizeBehind
      rw [hfound, hfirst]
      rfl
    rw [hfound, hfirst, Option.elim_none] at hwrite
    refine ⟨labels name ++ [0], ?_, ?_, .stop hok, ?_⟩
    · rw [hwrite, addMarks, hfirst]
    · rw [hsize]
      simp
      omega
    · have hmarks := hm.newMarks (labels name ++ [0]) name [] (blob.length + (labels name).length)
        fun a b hab => by
          have hrow : labels (a ++ b) ++ [0] <+: (blob ++ (labels name ++ [0])).drop blob.length := by
            simp only [List.drop_left, ← hab, List.prefix_refl]
          have hspelled := Spelled.stop (fun l hl => hok l (by rw [hab]; exact List.mem_append_right a hl)) (row_drop hrow)
          rw [List.append_nil, hab, labels_append, List.length_append, ← Nat.add_assoc, ← labels_append, ← hab]
          exact hspelled
      rw [List.append_nil] at hmarks
      rw [addMarks, hfirst, hsize]
      exact hmarks
  · -- the rest is a pointer to a mark, which was made for it
    rcases hclear mark hfound with ⟨hname, hlast⟩
    rcases hm mark (placed_of_some hfound) with ⟨hmark, hnear⟩
    generalize hfirst : (placed marks name).1 = first at hwrite hname
    have hok' : ∀ label ∈ first, LabelOk label := fun l hl => hok l (by rw [← hname]; exact List.mem_append_left _ hl)
    have hsize : sizeBehind blob.length name marks = blob.length + (labels first).length + 2 := by
      unfold sizeBehind
      rw [hfound, hfirst]
      rfl
    rw [hfound, Option.elim_some] at hwrite
    have hrow : Row blob (labels first ++ pointer mark.off) (first ++ mark.labels) := .jump hok' hnear hlast hmark
    rw [hname] at hrow
    refine ⟨labels first ++ pointer mark.off, ?_, ?_, hrow, ?_⟩
    · rw [hwrite, addMarks, hfirst]
    · rw [hsize]
      simp [pointer]
      omega
    · have hmarks := hm.newMarks (labels first ++ pointer mark.off) first mark.labels
        (blob.length + (labels first).length + 1) fun a b hab => by
          have hrow' : labels (a ++ b) ++ pointer mark.off <+: (blob ++ (labels first ++ pointer mark.off)).drop blob.length := by
            simp only [List.drop_left, ← hab, List.prefix_refl]
          have hback := hmark.lt_length
          have hspelled := Spelled.jump (fun l hl => hok' l (by rw [hab]; exact List.mem_append_right a hl)) (row_drop hrow')
            (by omega) hnear hlast (hmark.append _)
          rw [hab, labels_append, List.length_append, ← Nat.add_assoc, ← labels_append, ← hab]
          exact hspelled
      rw [addMarks, hfirst, hsize, ← hname]
      exact hmarks

end MajorPrivacy.Dns

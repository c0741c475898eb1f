/-
Names in a DNS packet: the labels from a place on, and where they go on behind a pointer. Reading a
name that stands somewhere gives its labels, whatever is written behind it.
-/
import MajorPrivacy.Dns.Packet

namespace MajorPrivacy.Dns

open LittleEndian Outcome

/-! ## Calls that come to an end -/

section Settles
variable {α β : Type}

/-- With steps enough a call ends with `a`. -/
def Settles (call : Nat → Outcome α) (a : α) : Prop := ∃ steps, ∀ fuel, steps ≤ fuel → call fuel = success a

theorem Settles.of_eq {call : Nat → Outcome α} {a : α} (h : ∀ fuel, call fuel = success a) : Settles call a :=
  ⟨0, fun fuel _ => h fuel⟩

theorem Settles.bind {call : Nat → Outcome α} {f : Nat → α → Outcome β} {a : α} {b : β} (h : Settles call a)
    (hf : Settles (fun fuel => f fuel a) b) : Settles (fun fuel => call fuel >>= f fuel) b := by
  rcases h with ⟨n, hn⟩
  rcases hf with ⟨m, hm⟩
  refine ⟨max n m, fun fuel hfuel => ?_⟩
  simp only [hn fuel (le_trans (le_max_left n m) hfuel), bind_success]
  exact hm fuel (le_trans (le_max_right n m) hfuel)

end Settles

/-! ## Labels and pointers -/

/-- A label with a length that is neither the end of a name nor a pointer. -/
def LabelOk (label : Bytes) : Prop := 0 < label.length ∧ label.length < 192

/-- The bytes of labels. -/
def labels (name : Name) : Bytes := name.flatMap fun label => .ofNat label.length :: label

def pointer (off : UInt16) : Bytes := [(0xc0 : UInt8) ||| (off >>> 8).toUInt8, off.toUInt8]

@[simp] theorem labels_nil : labels [] = [] := rfl

@[simp] theorem labels_cons (label : Bytes) (name : Name) :
    labels (label :: name) = .ofNat label.length :: (label ++ labels name) := rfl

theorem length_byte {label : Bytes} (h : LabelOk label) : (UInt8.ofNat label.length) &&& 0xc0 ≠ 0xc0 ∧
    UInt8.ofNat label.length ≠ 0 ∧ (UInt8.ofNat label.length).toNat = label.length := by
  have hall : ∀ n < 192, (UInt8.ofNat n) &&& 0xc0 ≠ 0xc0 ∧ (0 < n → UInt8.ofNat n ≠ 0) ∧ (UInt8.ofNat n).toNat = n := by
    decide +kernel
  rcases hall _ h.2 with ⟨h₁, h₂, h₃⟩
  exact ⟨h₁, h₂ h.1, h₃⟩

theorem pointer_bytes {off : UInt16} (h : off.toNat ≤ 0x3fff) :
    ((0xc0 : UInt8) ||| (off >>> 8).toUInt8) &&& 0xc0 = 0xc0 ∧
      pointerOffset ((0xc0 : UInt8) ||| (off >>> 8).toUInt8) off.toUInt8 = off := by
  have hall : ∀ n < 64, ((0xc0 : UInt8) ||| UInt8.ofNat n) &&& 0xc0 = 0xc0 ∧
      (((0xc0 : UInt8) ||| UInt8.ofNat n) &&& 0x3f).toNat = n := by
    decide
  have hhigh : (off >>> 8).toUInt8 = UInt8.ofNat (off.toNat / 256) := by
    apply UInt8.toNat_inj.1
    simp [Nat.shiftRight_eq_div_pow]
  rcases hall (off.toNat / 256) (by omega) with ⟨h₁, h₂⟩
  rw [hhigh]
  refine ⟨h₁, ?_⟩
  apply UInt16.toNat_inj.1
  unfold pointerOffset
  have hlow : off.toUInt8.toNat = off.toNat % 256 := by simp
  simp only [ofLE, h₂, hlow, UInt16.toNat_ofNat']
  omega

/-! ## Where names stand -/

/-- The labels of a name stand in a row from `off` on, with the end of the name or a pointer to the
rest of it behind them; `last` is where the row ends. -/
inductive Spelled (blob : Bytes) : Nat → Name → Nat → Prop
  | stop {off : Nat} {name : Name} (hok : ∀ label ∈ name, LabelOk label) (hrow : labels name ++ [0] <+: blob.drop off) :
    Spelled blob off name (off + (labels name).length)
  | jump {off : Nat} {name : Name} {target : UInt16} {rest : Name} {last : Nat} (hok : ∀ label ∈ name, LabelOk label)
    (hrow : labels name ++ pointer target <+: blob.drop off) (hback : target.toNat < off) (hnear : target.toNat ≤ 0x3fff)
    (hlast : last ≤ 0xffff) (hrest : Spelled blob target.toNat rest last) :
    Spelled blob off (name ++ rest) (off + (labels name).length + 1)

theorem drop_prefix_append {row blob : Bytes} {off : Nat} (h : row <+: blob.drop off) (hrow : row ≠ []) (more : Bytes) :
    row <+: (blob ++ more).drop off := by
  have hle : off ≤ blob.length := by
    by_contra hlt
    rw [List.drop_eq_nil_of_le (by omega)] at h
    exact hrow (List.prefix_nil.1 h)
  rw [List.drop_append_of_le_length hle]
  exact h.trans (List.prefix_append _ _)

/-- What is written behind a name does not change it. -/
theorem Spelled.append {blob : Bytes} {off last : Nat} {name : Name} (h : Spelled blob off name last) (more : Bytes) :
    Spelled (blob ++ more) off name last := by
  induction h with
  | stop hok hrow => exact .stop hok (drop_prefix_append hrow (by simp) more)
  | jump hok hrow hback hnear hlast _ ih => exact .jump hok (drop_prefix_append hrow (by simp [pointer]) more) hback hnear hlast ih

theorem labels_append (name rest : Name) : labels (name ++ rest) = labels name ++ labels rest := List.flatMap_append

/-- A row seen from one of its labels. -/
theorem row_drop {blob row : Bytes} {off : Nat} {name rest : Name} (h : labels (name ++ rest) ++ row <+: blob.drop off) :
    labels rest ++ row <+: blob.drop (off + (labels name).length) := by
  rcases h with ⟨more, hmore⟩
  refine ⟨more, ?_⟩
  rw [← List.drop_drop, ← hmore, labels_append, List.append_assoc, List.append_assoc, List.append_assoc, List.drop_left]

/-! ## Reading -/

theorem ofNat_toNat {n : Nat} (h : n ≤ 0xffff) : (UInt16.ofNat n).toNat = n := by
  rw [UInt16.toNat_ofNat']
  omega

theorem ofNat_add {n m : Nat} : UInt16.ofNat n + UInt16.ofNat m = UInt16.ofNat (n + m) := (UInt16.ofNat_add n m).symm

section Reading
variable {origin : Bytes}

theorem getElem?_of_drop {off : Nat} {b : UInt8} {more : Bytes} (h : b :: more = origin.drop off) :
    origin[off]? = some b ∧ origin.drop (off + 1) = more ∧ origin.length = off + 1 + more.length := by
  have hget := congrArg (·[0]?) h
  have hdrop := congrArg (List.drop 1) h
  have hlen := congrArg List.length h
  simp only [List.getElem?_cons_zero, List.getElem?_drop, Nat.add_zero] at hget
  rw [List.drop_drop, List.drop_one, List.tail_cons] at hdrop
  rw [List.length_cons, List.length_drop] at hlen
  exact ⟨hget.symm, hdrop.symm, by omega⟩

/-- `read_reference` over a row of labels. -/
theorem readReference_labels (fuel : Nat) (last_offset : UInt16) : ∀ {name : Name} {off : Nat} {row : Bytes} (acc : Name),
    (∀ label ∈ name, LabelOk label) → labels name ++ row = origin.drop off → off + (labels name).length ≤ 0xffff →
    readReference (fuel + name.length) (.ofNat off) last_offset origin acc =
      readReference fuel (.ofNat (off + (labels name).length)) last_offset origin (acc ++ name)
  | [], off, _, acc, _, _, _ => by simp
  | label :: name, off, row, acc, hok, hrow, hfit => by
    rcases List.forall_mem_cons.1 hok with ⟨hlabel, hname⟩
    rcases length_byte hlabel with ⟨hnot, hne, hlen⟩
    simp only [labels_cons, List.cons_append, List.append_assoc] at hrow
    simp only [labels_cons, List.length_cons, List.length_append] at hfit
    rcases getElem?_of_drop hrow with ⟨hget, hdrop, hlength⟩
    rw [List.length_append, List.length_append] at hlength
    have hnext : UInt16.ofNat off + 1 = UInt16.ofNat (off + 1) := ofNat_add
    have hbyte : (UInt8.ofNat label.length).toUInt16 = UInt16.ofNat label.length := by
      apply UInt16.toNat_inj.1
      rw [UInt8.toNat_toUInt16, hlen, ofNat_toNat (by omega)]
    have hskip : origin.drop (off + 1 + label.length) = labels name ++ row := by
      rw [← List.drop_drop, hdrop, List.drop_left]
    have hread : readReference (fuel + name.length + 1) (.ofNat off) last_offset origin acc =
        readReference (fuel + name.length) (.ofNat (off + 1 + label.length)) last_offset origin (acc ++ [label]) := by
      rw [readReference, ofNat_toNat (by omega), hget]
      simp only
      rw [if_neg hnot, if_neg hne, hnext, ofNat_toNat (by omega), hlen, if_neg (by omega), hdrop, List.take_left, hbyte, ofNat_add]
    rw [List.length_cons, ← Nat.add_assoc, hread, readReference_labels fuel last_offset (acc ++ [label]) hname hskip.symm (by omega)]
    congr 1
    · congr 1
      simp
      omega
    · simp

/-- `read_reference` to a name. -/
theorem Spelled.read {off last : Nat} {name : Name} (h : Spelled origin off name last) (hlast : last ≤ 0xffff) :
    ∀ (last_offset : UInt16) (acc : Name), last_offset = 0 ∨ off ≤ last_offset.toNat →
      Settles (fun fuel => readReference fuel (.ofNat off) last_offset origin acc) (acc ++ name) := by
  induction h with
  | @stop off name hok hrow =>
    rintro last_offset acc -
    rcases hrow with ⟨more, hmore⟩
    rw [List.append_assoc] at hmore
    refine ⟨name.length + 1, fun fuel hfuel => ?_⟩
    rcases Nat.exists_eq_add_of_le hfuel with ⟨k, rfl⟩
    have hend : [0] ++ more = origin.drop (off + (labels name).length) := by
      rw [← List.drop_drop, ← hmore, List.drop_left]
    rcases getElem?_of_drop hend with ⟨hget, -, -⟩
    beta_reduce
    rw [show name.length + 1 + k = k + 1 + name.length by omega, readReference_labels _ _ _ hok hmore hlast, readReference,
      ofNat_toNat hlast, hget]
    rfl
  | @jump off name target rest last hok hrow hback hnear hlast' hrest ih =>
    rintro last_offset acc hoff
    rcases hrow with ⟨more, hmore⟩
    rw [List.append_assoc] at hmore
    rcases pointer_bytes hnear with ⟨hptr, htarget⟩
    have hend : pointer target ++ more = origin.drop (off + (labels name).length) := by
      rw [← List.drop_drop, ← hmore, List.drop_left]
    rcases getElem?_of_drop hend with ⟨hget, hdrop, hlen⟩
    rcases getElem?_of_drop hdrop.symm with ⟨hget', -, -⟩
    rcases ih hlast' target (acc ++ name) (.inr le_rfl) with ⟨steps, hsteps⟩
    refine ⟨steps + name.length + 1, fun fuel hfuel => ?_⟩
    rcases Nat.exists_eq_add_of_le hfuel with ⟨k, rfl⟩
    have hnext : UInt16.ofNat (off + (labels name).length) + 1 = UInt16.ofNat (off + (labels name).length + 1) := ofNat_add
    have hguard : ¬ (last_offset ≠ 0 ∧ target = last_offset) := by
      rintro ⟨hne, rfl⟩
      rcases hoff with h0 | hle
      · exact hne h0
      · omega
    beta_reduce
    rw [show steps + name.length + 1 + k = steps + k + 1 + name.length by omega, readReference_labels _ _ _ hok hmore (by omega),
      readReference, ofNat_toNat (by omega), hget]
    simp only
    rw [if_pos hptr, hnext, ofNat_toNat hlast, if_neg (by simp at hlen; omega), List.getD_eq_getElem?_getD, hget', Option.getD_some,
      htarget, if_neg hguard]
    have hres := hsteps (steps + k) (by omega)
    beta_reduce at hres
    rw [UInt16.ofNat_toNat, List.append_assoc] at hres
    exact hres

theorem readName_label {fuel : Nat} {len : UInt8} {data : Bytes} {acc : Name} (hnot : len &&& 0xc0 ≠ 0xc0) (hne : len ≠ 0) :
    readName (fuel + 1) (len :: data) origin acc =
      if data.length < len.toNat then failure else readName fuel (data.drop len.toNat) origin (acc ++ [data.take len.toNat]) := by
  cases data <;> simp only [readName, if_neg hnot, if_neg hne]

/-- `read_name` over a row of labels. -/
theorem readName_labels (fuel : Nat) : ∀ {name : Name} {row : Bytes} (acc : Name), (∀ label ∈ name, LabelOk label) →
    readName (fuel + name.length) (labels name ++ row) origin acc = readName fuel row origin (acc ++ name)
  | [], _, acc, _ => by simp
  | label :: name, row, acc, hok => by
    rcases List.forall_mem_cons.1 hok with ⟨hlabel, hname⟩
    rcases length_byte hlabel with ⟨hnot, hne, hlen⟩
    have hread : readName (fuel + name.length + 1) (.ofNat label.length :: (label ++ (labels name ++ row))) origin acc =
        readName (fuel + name.length) (labels name ++ row) origin (acc ++ [label]) := by
      rw [readName_label hnot hne, hlen, if_neg (by simp), List.drop_left, List.take_left]
    rw [List.length_cons, ← Nat.add_assoc, labels_cons, List.cons_append, List.append_assoc, hread, readName_labels fuel _ hname,
      List.append_assoc]
    rfl

/-- The bytes of a name in a packet. -/
inductive Row (blob : Bytes) : Bytes → Name → Prop
  | stop {name : Name} (hok : ∀ label ∈ name, LabelOk label) : Row blob (labels name ++ [0]) name
  | jump {name : Name} {target : UInt16} {rest : Name} {last : Nat} (hok : ∀ label ∈ name, LabelOk label)
    (hnear : target.toNat ≤ 0x3fff) (hlast : last ≤ 0xffff) (hrest : Spelled blob target.toNat rest last) :
    Row blob (labels name ++ pointer target) (name ++ rest)

theorem Row.append {blob row : Bytes} {name : Name} (h : Row blob row name) (more : Bytes) : Row (blob ++ more) row name := by
  cases h with
  | stop hok => exact .stop hok
  | jump hok hnear hlast hrest => exact .jump hok hnear hlast (hrest.append more)

theorem Row.read {row : Bytes} {name : Name} (h : Row origin row name) (more : Bytes) :
    Settles (fun fuel => readName fuel (row ++ more) origin []) (name, more) := by
  cases h with
  | stop hok =>
    refine ⟨name.length + 1, fun fuel hfuel => ?_⟩
    rcases Nat.exists_eq_add_of_le hfuel with ⟨k, rfl⟩
    beta_reduce
    rw [show name.length + 1 + k = k + 1 + name.length by omega, List.append_assoc, readName_labels _ _ hok]
    rfl
  | @jump first target rest last hok hnear hlast hrest =>
    rcases pointer_bytes hnear with ⟨hptr, htarget⟩
    rcases hrest.read hlast 0 first (.inl rfl) with ⟨steps, hsteps⟩
    refine ⟨steps + first.length + 1, fun fuel hfuel => ?_⟩
    rcases Nat.exists_eq_add_of_le hfuel with ⟨k, rfl⟩
    have hres := hsteps (steps + k) (by omega)
    beta_reduce at hres
    rw [UInt16.ofNat_toNat] at hres
    beta_reduce
    rw [show steps + first.length + 1 + k = steps + k + 1 + first.length by omega, List.append_assoc, readName_labels _ _ hok,
      List.nil_append, pointer, List.cons_append, List.cons_append, readName, if_pos hptr]
    simp only [List.nil_append, htarget, hres, bind_success]

/-- A name written out stands for itself. -/
theorem read_uncompressed {name : Name} (hok : ∀ label ∈ name, LabelOk label) (more : Bytes) :
    Settles (fun fuel => readName fuel (uncompressed name ++ more) origin []) (name, more) :=
  (Row.stop hok).read more

end Reading

end MajorPrivacy.Dns

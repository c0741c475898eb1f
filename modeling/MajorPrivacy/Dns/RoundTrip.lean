/-
Packets that are built and parsed again. A packet comes back as it was as long as every name that is
written as a pointer points at the same labels; the keys of the map are texts with dots between the
labels, so a label with a dot in it can pass for two.
-/
import MajorPrivacy.Dns.Marks

namespace MajorPrivacy.Dns

open LittleEndian Outcome

/-! ## What a packet may be -/

/-- The data of a record that carries names is what `read_reply` makes of them: the fixed fields and the
names in uncompressed form. -/
def DataOk (r_type : UInt16) (r_data : Bytes) : Prop :=
  if r_type = Type.CNAME ∨ r_type = Type.PTR ∨ r_type = Type.NA then
    ∃ name, (∀ label ∈ name, LabelOk label) ∧ r_data = uncompressed name
  else if r_type = Type.MX then
    ∃ fields name, fields.length = 2 ∧ (∀ label ∈ name, LabelOk label) ∧ r_data = fields ++ uncompressed name
  else if r_type = Type.SOA then
    ∃ mname rname fields, (∀ label ∈ mname, LabelOk label) ∧ (∀ label ∈ rname, LabelOk label) ∧ fields.length = 20 ∧
      r_data = uncompressed mname ++ uncompressed rname ++ fields
  else if r_type = Type.SRV then
    ∃ fields name, fields.length = 6 ∧ (∀ label ∈ name, LabelOk label) ∧ r_data = fields ++ uncompressed name
  else True

def Query.Ok (query : Query) : Prop := ∀ label ∈ query.q_name, LabelOk label

structure Answer.Ok (answer : Answer) : Prop where
  name : ∀ label ∈ answer.r_name, LabelOk label
  length : answer.r_data.length < 65536
  data : DataOk answer.r_type answer.r_data

structure Packet.Ok (packet : Packet) : Prop where
  query : ∀ query ∈ packet.query, query.Ok
  answer : ∀ answer ∈ packet.answer, answer.Ok
  authority : ∀ answer ∈ packet.authority, answer.Ok
  additional : ∀ answer ∈ packet.additional, answer.Ok

/-! ## When names are not mistaken -/

/-- The name of an entry, and how many bytes are written behind it. -/
def Query.entry (query : Query) : Name × Nat := (query.q_name, 4)

def Answer.entry (answer : Answer) : Name × Nat := (answer.r_name, 10 + answer.r_data.length)

/-- A property of every name in turn, and of the marks in front of it. -/
def AllNames (P : List Mark → Name → Prop) : Nat → List Mark → List (Name × Nat) → Prop
  | _, _, [] => True
  | size, marks, entry :: entries =>
    P marks entry.1 ∧ AllNames P (sizeBehind size entry.1 marks + entry.2) (addMarks size entry.1 marks) entries

/-- The size of the packet behind entries, and the marks. -/
def behind : Nat → List Mark → List (Name × Nat) → Nat × List Mark
  | size, marks, [] => (size, marks)
  | size, marks, entry :: entries => behind (sizeBehind size entry.1 marks + entry.2) (addMarks size entry.1 marks) entries

theorem allNames_append {P : List Mark → Name → Prop} : ∀ {size : Nat} {marks : List Mark} (xs : List (Name × Nat))
    {ys : List (Name × Nat)}, AllNames P size marks (xs ++ ys) ↔
      AllNames P size marks xs ∧ AllNames P (behind size marks xs).1 (behind size marks xs).2 ys
  | _, _, [], _ => by simp [AllNames, behind]
  | _, _, _ :: xs, _ => by
    rw [List.cons_append, AllNames, AllNames, allNames_append xs, and_assoc]
    rfl

def Packet.entries (packet : Packet) : List (Name × Nat) :=
  packet.query.map Query.entry ++ (packet.answer.map Answer.entry ++ (packet.authority.map Answer.entry ++
    packet.additional.map Answer.entry))

/-- The sections fit their counts, and no name is written as a pointer to other labels. -/
structure Packet.Clear (packet : Packet) : Prop where
  query : packet.query.length < 65536
  answer : packet.answer.length < 65536
  authority : packet.authority.length < 65536
  additional : packet.additional.length < 65536
  names : AllNames MajorPrivacy.Dns.Clear 12 [] packet.entries

/-! ## Numbers -/

theorem read16_write16 (value : UInt16) (more : Bytes) : read16 (write16 value ++ more) = success (value, more) := by
  have hle : ofLE [UInt8.ofNat value.toNat, UInt8.ofNat (value.toNat / 256)] = value.toNat :=
    ofLE_toLE_of_lt (w := 2) value.toNat_lt
  have hwrite : write16 value = [UInt8.ofNat (value.toNat / 256), UInt8.ofNat value.toNat] := rfl
  rw [hwrite, List.cons_append, List.cons_append, read16, hle, UInt16.ofNat_toNat]
  rfl

theorem read32_write32 (value : UInt32) (more : Bytes) : read32 (write32 value ++ more) = success (value, more) := by
  have hle : ofLE (toLE 4 value.toNat) = value.toNat := ofLE_toLE_of_lt value.toNat_lt
  simp only [toLE] at hle
  have hwrite : write32 value = [UInt8.ofNat (value.toNat / 256 / 256 / 256), UInt8.ofNat (value.toNat / 256 / 256),
    UInt8.ofNat (value.toNat / 256), UInt8.ofNat value.toNat] := rfl
  rw [hwrite, List.cons_append, List.cons_append, List.cons_append, List.cons_append, read32, hle, UInt32.ofNat_toNat]
  rfl

@[simp] theorem length_write16 (value : UInt16) : (write16 value).length = 2 := by simp [write16]

@[simp] theorem length_write32 (value : UInt32) : (write32 value).length = 4 := by simp [write32]

/-! ### The flags -/

/-- A field under the ones above it. -/
theorem or_field (above : Nat) {field : Nat} (n k : Nat) (h : field < 2 ^ n) :
    above <<< (n + k) ||| field <<< k = (above * 2 ^ n + field) <<< k := by
  rw [Nat.shiftLeft_add, ← Nat.shiftLeft_or_distrib, ← Nat.shiftLeft_add_eq_or_of_lt h, Nat.shiftLeft_eq above]

theorem buildFlags_eq (packet : Packet) : buildFlags packet =
    (((((((packet.QR.val * 16 + packet.OPCODE.val) * 2 + packet.AA.val) * 2 + packet.TC.val) * 2 + packet.RD.val) * 2 +
      packet.RA.val) * 8 + packet.Z.val) * 16 + packet.RCODE.val) := by
  unfold buildFlags
  rw [or_field _ 4 11 packet.OPCODE.isLt, or_field _ 1 10 packet.AA.isLt, or_field _ 1 9 packet.TC.isLt, or_field _ 1 8 packet.RD.isLt,
    or_field _ 1 7 packet.RA.isLt, or_field _ 3 4 packet.Z.isLt]
  have h := or_field ((((((packet.QR.val * 2 ^ 4 + packet.OPCODE.val) * 2 ^ 1 + packet.AA.val) * 2 ^ 1 + packet.TC.val) * 2 ^ 1 +
    packet.RD.val) * 2 ^ 1 + packet.RA.val) * 2 ^ 3 + packet.Z.val) 4 0 packet.RCODE.isLt
  simpa using h

/-! ## Entries -/

section Entries
variable {α : Type}

/-- An entry that is written is read back, whatever is written behind it, and leaves the marks right. -/
def Writes (write : Bytes → α → NameMap → Bytes × NameMap) (read : Nat → Bytes → Bytes → Outcome (α × Bytes))
    (entry : α → Name × Nat) (a : α) : Prop :=
  ∀ blob marks, Marked blob marks → Clear marks (entry a).1 → ∃ w,
    write blob a (marks.map Mark.entry) = (blob ++ w, (addMarks blob.length (entry a).1 marks).map Mark.entry) ∧
    (blob ++ w).length = sizeBehind blob.length (entry a).1 marks + (entry a).2 ∧
    Marked (blob ++ w) (addMarks blob.length (entry a).1 marks) ∧
    ∀ more, Settles (fun fuel => read fuel (w ++ more) (blob ++ (w ++ more))) (a, more)

theorem writeQuery_spec {query : Query} (hok : query.Ok) : Writes writeQuery readQuery Query.entry query := by
  rintro blob marks hm hclear
  rcases writeName_spec hm hok hclear with ⟨row, hwrite, hlen, hrow, hm'⟩
  refine ⟨row ++ (write16 query.q_type ++ write16 query.q_class), ?_, ?_, ?_, fun more => ?_⟩
  · unfold writeQuery
    simp only [hwrite, List.append_assoc]
    rfl
  · rw [← List.append_assoc, List.length_append, hlen]
    simp [Query.entry]
  · rw [← List.append_assoc]
    exact hm'.append _
  · rw [List.append_assoc]
    refine ((hrow.append _).read _).bind (.of_eq fun fuel => ?_)
    simp only [List.append_assoc, read16_write16, bind_success]

theorem take_drop_fields {fields : Bytes} {n : Nat} (h : fields.length = n) (more : Bytes) :
    (fields ++ more).take n = fields ∧ (fields ++ more).drop n = more := by
  rw [← h]
  exact ⟨List.take_left, List.drop_left⟩

/-- The data of a record is read as it was written. -/
theorem readData_spec {r_type : UInt16} {r_data : Bytes} (hok : DataOk r_type r_data) (more origin : Bytes) :
    Settles (fun fuel => readData fuel r_type r_data.length (r_data ++ more) origin) r_data := by
  unfold DataOk at hok
  unfold readData
  split at hok
  · rename_i hname
    rcases hok with ⟨name, hlabels, rfl⟩
    simp only [if_pos hname]
    exact (read_uncompressed hlabels more).bind (.of_eq fun _ => rfl)
  · rename_i hname
    simp only [if_neg hname]
    split at hok
    · rename_i hmx
      rcases hok with ⟨fields, name, hfields, hlabels, rfl⟩
      have hlen : ¬ (fields ++ uncompressed name).length < 2 := by
        rw [List.length_append]
        omega
      rcases take_drop_fields hfields (uncompressed name ++ more) with ⟨htake, hdrop⟩
      simp only [if_pos hmx, if_neg hlen, List.append_assoc, htake, hdrop]
      exact (read_uncompressed hlabels more).bind (.of_eq fun _ => rfl)
    · rename_i hmx
      simp only [if_neg hmx]
      split at hok
      · rename_i hsoa
        rcases hok with ⟨mname, rname, fields, hmname, hrname, hfields, rfl⟩
        have hlen : ¬ (fields ++ more).length < 20 := by
          rw [List.length_append]
          omega
        simp only [if_pos hsoa, List.append_assoc]
        refine (read_uncompressed hmname _).bind ((read_uncompressed hrname _).bind (.of_eq fun _ => ?_))
        simp only [if_neg hlen, (take_drop_fields hfields more).1]
      · rename_i hsoa
        simp only [if_neg hsoa]
        split at hok
        · rename_i hsrv
          rcases hok with ⟨fields, name, hfields, hlabels, rfl⟩
          have hlen : ¬ (fields ++ uncompressed name).length < 6 := by
            rw [List.length_append]
            omega
          rcases take_drop_fields hfields (uncompressed name ++ more) with ⟨htake, hdrop⟩
          simp only [if_pos hsrv, if_neg hlen, List.append_assoc, htake, hdrop]
          exact (read_uncompressed hlabels more).bind (.of_eq fun _ => rfl)
        · rename_i hsrv
          simp only [if_neg hsrv, List.take_left]
          exact .of_eq fun _ => rfl

theorem writeReply_spec {answer : Answer} (hok : answer.Ok) : Writes writeReply readReply Answer.entry answer := by
  rintro blob marks hm hclear
  rcases writeName_spec hm hok.name hclear with ⟨row, hwrite, hlen, hrow, hm'⟩
  refine ⟨row ++ (write16 answer.r_type ++ (write16 answer.r_class ++ (write32 answer.r_ttl ++
    (write16 (.ofNat answer.r_data.length) ++ answer.r_data)))), ?_, ?_, ?_, fun more => ?_⟩
  · unfold writeReply
    simp only [hwrite, List.append_assoc]
    rfl
  · rw [← List.append_assoc, List.length_append, hlen]
    simp [Answer.entry]
    omega
  · rw [← List.append_assoc]
    exact hm'.append _
  · have hlength : (UInt16.ofNat answer.r_data.length).toNat = answer.r_data.length :=
      ofNat_toNat (by have := hok.length; omega)
    have hdata := readData_spec hok.data more
    rw [List.append_assoc]
    refine ((hrow.append _).read _).bind ?_
    simp only [List.append_assoc, read16_write16, read32_write32, bind_success, hlength, List.drop_left, List.length_append,
      Nat.not_lt.2 (Nat.le_add_right _ _), if_false]
    exact (hdata _).bind (.of_eq fun _ => rfl)

theorem writeMany_spec {write : Bytes → α → NameMap → Bytes × NameMap} {read : Nat → Bytes → Bytes → Outcome (α × Bytes)}
    {entry : α → Name × Nat} : ∀ {entries : List α} {blob : Bytes} {marks : List Mark},
    (∀ a ∈ entries, Writes write read entry a) → Marked blob marks → AllNames Clear blob.length marks (entries.map entry) →
    ∃ w, writeMany write blob entries (marks.map Mark.entry) =
        (blob ++ w, (behind blob.length marks (entries.map entry)).2.map Mark.entry) ∧
      (blob ++ w).length = (behind blob.length marks (entries.map entry)).1 ∧
      Marked (blob ++ w) (behind blob.length marks (entries.map entry)).2 ∧
      ∀ more, Settles (fun fuel => readMany (read fuel · (blob ++ (w ++ more))) entries.length (w ++ more)) (entries, more)
  | [], blob, marks, _, hm, _ => by
    refine ⟨[], ?_, ?_, ?_, fun more => .of_eq fun _ => rfl⟩
    · rw [List.append_nil]
      rfl
    · rw [List.append_nil]
      rfl
    · rw [List.append_nil]
      exact hm
  | a :: entries, blob, marks, hall, hm, hclear => by
    rcases List.forall_mem_cons.1 hall with ⟨ha, hentries⟩
    rcases ha blob marks hm hclear.1 with ⟨w, hwrite, hlen, hm', hread⟩
    have hclear' := hclear.2
    rw [← hlen] at hclear'
    rcases writeMany_spec hentries hm' hclear' with ⟨w', hwrites, hlen', hm'', hreads⟩
    rw [List.map_cons, behind, ← hlen]
    refine ⟨w ++ w', ?_, ?_, ?_, fun more => ?_⟩
    · rw [writeMany, hwrite, ← List.append_assoc]
      exact hwrites
    · rw [← List.append_assoc]
      exact hlen'
    · rw [← List.append_assoc]
      exact hm''
    · have hfirst := hread (w' ++ more)
      have hothers := hreads more
      simp only [List.append_assoc] at hfirst hothers ⊢
      exact hfirst.bind (hothers.bind (.of_eq fun _ => rfl))

theorem count_eq {entries : List α} (h : entries.length < 65536) : (UInt16.ofNat entries.length).toNat = entries.length :=
  ofNat_toNat (by omega)

end Entries

/-! ## Packets -/

/-- A packet is built so that parsing gives it back. -/
def RoundTrips (packet : Packet) : Prop := Settles (fun fuel => parse fuel (buildPacket packet)) packet

theorem parseFlags (packet : Packet) : (UInt16.ofNat (buildFlags packet)).toNat = buildFlags packet ∧
    Fin.ofNat 2 (buildFlags packet >>> 15) = packet.QR ∧ Fin.ofNat 16 (buildFlags packet >>> 11) = packet.OPCODE ∧
    Fin.ofNat 2 (buildFlags packet >>> 10) = packet.AA ∧ Fin.ofNat 2 (buildFlags packet >>> 9) = packet.TC ∧
    Fin.ofNat 2 (buildFlags packet >>> 8) = packet.RD ∧ Fin.ofNat 2 (buildFlags packet >>> 7) = packet.RA ∧
    Fin.ofNat 8 (buildFlags packet >>> 4) = packet.Z ∧ Fin.ofNat 16 (buildFlags packet) = packet.RCODE := by
  rcases packet with ⟨ID, QR, OPCODE, AA, TC, RD, RA, Z, RCODE, query, answer, authority, additional⟩
  rw [buildFlags_eq]
  refine ⟨ofNat_toNat (by simp only; omega), ?_, ?_, ?_, ?_, ?_, ?_, ?_, ?_⟩ <;> apply Fin.ext <;>
    simp only [Fin.ofNat, Nat.shiftRight_eq_div_pow] <;> omega

theorem roundTrips_of_clear {packet : Packet} (hok : packet.Ok) (hclear : packet.Clear) : RoundTrips packet := by
  have hheader : (buildHeader packet).length = 12 := by simp [buildHeader]
  have hnames := hclear.names
  unfold Packet.entries at hnames
  rw [← hheader, allNames_append, allNames_append, allNames_append] at hnames
  rcases hnames with ⟨hn₁, hn₂, hn₃, hn₄⟩
  have hstart : Marked (buildHeader packet) [] := fun _ h => by cases h
  rcases writeMany_spec (fun q hq => writeQuery_spec (hok.query q hq)) hstart hn₁ with ⟨w₁, hw₁, hl₁, hm₁, hr₁⟩
  rw [← hl₁] at hn₂ hn₃ hn₄
  rcases writeMany_spec (fun a ha => writeReply_spec (hok.answer a ha)) hm₁ hn₂ with ⟨w₂, hw₂, hl₂, hm₂, hr₂⟩
  rw [← hl₂] at hn₃ hn₄
  rcases writeMany_spec (fun a ha => writeReply_spec (hok.authority a ha)) hm₂ hn₃ with ⟨w₃, hw₃, hl₃, hm₃, hr₃⟩
  rw [← hl₃] at hn₄
  rcases writeMany_spec (fun a ha => writeReply_spec (hok.additional a ha)) hm₃ hn₄ with ⟨w₄, hw₄, -, -, hr₄⟩
  have hbuild : buildPacket packet = buildHeader packet ++ (w₁ ++ (w₂ ++ (w₃ ++ w₄))) := by
    unfold buildPacket
    simp only [count_eq hclear.query, count_eq hclear.answer, count_eq hclear.authority, count_eq hclear.additional,
      List.take_length]
    rw [List.map_nil] at hw₁
    simp only [hw₁, hw₂, hw₃, hw₄]
    simp only [List.append_assoc]
  have hq := hr₁ (w₂ ++ (w₃ ++ w₄))
  have ha := hr₂ (w₃ ++ w₄)
  have hu := hr₃ w₄
  have hx := hr₄ []
  simp only [List.append_assoc, List.append_nil] at hq ha hu hx
  rcases parseFlags packet with ⟨hflags, hQR, hOPCODE, hAA, hTC, hRD, hRA, hZ, hRCODE⟩
  unfold RoundTrips
  rw [hbuild]
  unfold parse
  simp only [buildHeader, List.append_assoc, read16_write16, bind_success, hflags, count_eq hclear.query, count_eq hclear.answer,
    count_eq hclear.authority, count_eq hclear.additional] at hq ha hu hx ⊢
  refine hq.bind (ha.bind (hu.bind (hx.bind (.of_eq fun _ => ?_))))
  rw [if_neg (by simp), hQR, hOPCODE, hAA, hTC, hRD, hRA, hZ, hRCODE]

end MajorPrivacy.Dns

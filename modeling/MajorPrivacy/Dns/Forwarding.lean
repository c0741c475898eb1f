/-
What parsing says about a packet: everything it returns can be built again, and a packet in which a
name was written as a pointer to other labels does not come back.
-/
import MajorPrivacy.Dns.RoundTrip

namespace MajorPrivacy.Dns

open LittleEndian Outcome

theorem bind_eq_success {α β : Type} {x : Outcome α} {f : α → Outcome β} {b : β} :
    (x >>= f) = success b ↔ ∃ a, x = success a ∧ f a = success b := by
  cases x <;> simp

/-! ## What is parsed is well formed -/

theorem labelOk_take {len : UInt8} {data : Bytes} (hnot : len &&& 0xc0 ≠ 0xc0) (hne : len ≠ 0) (hfit : ¬ data.length < len.toNat) :
    LabelOk (data.take len.toNat) := by
  have hall : ∀ n < 256, (UInt8.ofNat n) &&& 0xc0 ≠ 0xc0 → n < 192 := by decide +kernel
  have hpos : len.toNat ≠ 0 := fun h => hne (UInt8.toNat_inj.1 h)
  have hlt := hall len.toNat len.toNat_lt (by rw [UInt8.ofNat_toNat]; exact hnot)
  have hlen : (data.take len.toNat).length = len.toNat := List.length_take_of_le (by omega)
  exact ⟨by omega, by omega⟩

theorem readReference_ok {origin : Bytes} : ∀ (fuel : Nat) (offset last_offset : UInt16) (acc : Name) {name : Name},
    (∀ label ∈ acc, LabelOk label) → readReference fuel offset last_offset origin acc = success name →
    ∀ label ∈ name, LabelOk label
  | 0, _, _, _, _, _, h => by cases h
  | fuel + 1, offset, last_offset, acc, name, hacc, h => by
    rw [readReference] at h
    split at h
    · cases h
    · rename_i len hlen
      dsimp only at h
      split_ifs at h with hptr hend hloop hzero hfit
      · exact readReference_ok fuel _ _ _ hacc h
      · cases h
        exact hacc
      · refine readReference_ok fuel _ _ _ ?_ h
        rintro label hlabel
        rcases List.mem_append.1 hlabel with hlabel | hlabel
        · exact hacc label hlabel
        · rw [List.mem_singleton.1 hlabel]
          exact labelOk_take hptr hzero (by rw [List.length_drop]; exact hfit)

theorem readName_ok {origin : Bytes} : ∀ (fuel : Nat) (data : Bytes) (acc : Name) {name : Name} {left : Bytes},
    (∀ label ∈ acc, LabelOk label) → readName fuel data origin acc = success (name, left) → ∀ label ∈ name, LabelOk label
  | 0, _, _, _, _, _, h => by cases h
  | _ + 1, [], _, _, _, _, h => by cases h
  | fuel + 1, len :: data, acc, name, left, hacc, h => by
    by_cases hptr : len &&& 0xc0 = 0xc0
    · cases data with
      | nil =>
        rw [readName, if_pos hptr] at h
        cases h
      | cons low data =>
        rw [readName, if_pos hptr] at h
        rcases bind_eq_success.1 h with ⟨found, hfound, hres⟩
        cases hres
        exact readReference_ok fuel _ _ _ hacc hfound
    · by_cases hzero : len = 0
      · cases data <;> simp only [readName, if_neg hptr, if_pos hzero, success.injEq, Prod.mk.injEq] at h
        all_goals
          rw [← h.1]
          exact hacc
      · rw [readName_label hptr hzero] at h
        split_ifs at h with hfit
        refine readName_ok fuel _ _ ?_ h
        rintro label hlabel
        rcases List.mem_append.1 hlabel with hlabel | hlabel
        · exact hacc label hlabel
        · rw [List.mem_singleton.1 hlabel]
          exact labelOk_take hptr hzero hfit

theorem readQuery_ok {fuel : Nat} {data origin left : Bytes} {query : Query}
    (h : readQuery fuel data origin = success (query, left)) : query.Ok := by
  unfold readQuery at h
  simp only [bind_eq_success, Prod.exists] at h
  rcases h with ⟨name, d₁, hname, type, d₂, -, class_, d₃, -, hres⟩
  cases hres
  exact readName_ok fuel data [] (by simp) hname

theorem readData_ok {fuel r_length : Nat} {r_type : UInt16} {data origin r_data : Bytes} (hfit : ¬ data.length < r_length)
    (h : readData fuel r_type r_length data origin = success r_data) : DataOk r_type r_data := by
  unfold readData at h
  unfold DataOk
  split_ifs at h ⊢ with hname hmx hlen hsoa hsrv hlen
  · rcases bind_eq_success.1 h with ⟨⟨name, left⟩, hread, hres⟩
    cases hres
    exact ⟨name, readName_ok fuel _ [] (by simp) hread, rfl⟩
  · rcases bind_eq_success.1 h with ⟨⟨name, left⟩, hread, hres⟩
    cases hres
    exact ⟨data.take 2, name, List.length_take_of_le (by omega), readName_ok fuel _ [] (by simp) hread, rfl⟩
  · rcases bind_eq_success.1 h with ⟨⟨mname, p⟩, hmname, h⟩
    rcases bind_eq_success.1 h with ⟨⟨rname, p'⟩, hrname, h⟩
    dsimp only at h
    split_ifs at h with hshort
    cases h
    exact ⟨mname, rname, p'.take 20, readName_ok fuel _ [] (by simp) hmname, readName_ok fuel _ [] (by simp) hrname,
      List.length_take_of_le (by omega), rfl⟩
  · rcases bind_eq_success.1 h with ⟨⟨name, left⟩, hread, hres⟩
    cases hres
    exact ⟨data.take 6, name, List.length_take_of_le (by omega), readName_ok fuel _ [] (by simp) hread, rfl⟩

/-- A record that was read, up to the length of its data, which decompressing can make longer. -/
theorem readReply_ok {fuel : Nat} {data origin left : Bytes} {answer : Answer}
    (h : readReply fuel data origin = success (answer, left)) (hlen : answer.r_data.length < 65536) : answer.Ok := by
  unfold readReply at h
  simp only [bind_eq_success, Prod.exists] at h
  rcases h with ⟨name, d₁, hname, type, d₂, -, class_, d₃, -, ttl, d₄, -, length, d₅, -, h⟩
  split_ifs at h with hshort
  rcases bind_eq_success.1 h with ⟨r_data, hdata, hres⟩
  cases hres
  exact ⟨readName_ok fuel data [] (by simp) hname, hlen, readData_ok hshort hdata⟩

theorem readMany_ok {α : Type} {read : Bytes → Outcome (α × Bytes)} {P : α → Prop}
    (hread : ∀ data a left, read data = success (a, left) → P a) : ∀ {count : Nat} {data left : Bytes} {entries : List α},
    readMany read count data = success (entries, left) → entries.length = count ∧ ∀ a ∈ entries, P a
  | 0, _, _, _, h => by
    cases h
    exact ⟨rfl, fun _ h => by cases h⟩
  | count + 1, data, left, entries, h => by
    simp only [readMany, bind_eq_success, Prod.exists] at h
    rcases h with ⟨a, d₁, ha, rest, d₂, hrest, hres⟩
    cases hres
    rcases readMany_ok hread hrest with ⟨hlen, hall⟩
    refine ⟨by rw [List.length_cons, hlen], ?_⟩
    rintro b hb
    rcases List.mem_cons.1 hb with rfl | hb
    · exact hread data b d₁ ha
    · exact hall b hb

/-- The data of every record fits its length. -/
structure Packet.Fits (packet : Packet) : Prop where
  answer : ∀ answer ∈ packet.answer, answer.r_data.length < 65536
  authority : ∀ answer ∈ packet.authority, answer.r_data.length < 65536
  additional : ∀ answer ∈ packet.additional, answer.r_data.length < 65536

/-- The sections of a packet that was parsed. -/
theorem parse_sections {fuel : Nat} {origin : Bytes} {packet : Packet} (h : parse fuel origin = success packet) :
    ∃ (q n u x : UInt16) (d₀ d₁ d₂ d₃ d₄ : Bytes),
      readMany (readQuery fuel · origin) q.toNat d₀ = success (packet.query, d₁) ∧
      readMany (readReply fuel · origin) n.toNat d₁ = success (packet.answer, d₂) ∧
      readMany (readReply fuel · origin) u.toNat d₂ = success (packet.authority, d₃) ∧
      readMany (readReply fuel · origin) x.toNat d₃ = success (packet.additional, d₄) := by
  unfold parse at h
  simp only [bind_eq_success, Prod.exists] at h
  rcases h with ⟨ID, e₁, -, FLAGS, e₂, -, q, e₃, -, n, e₄, -, u, e₅, -, x, e₆, -, query, d₁, hq, answer, d₂, hn, authority, d₃, hu,
    additional, d₄, hx, h⟩
  split_ifs at h
  cases h
  exact ⟨q, n, u, x, e₆, d₁, d₂, d₃, d₄, hq, hn, hu, hx⟩

theorem parse_lengths {fuel : Nat} {origin : Bytes} {packet : Packet} (h : parse fuel origin = success packet) :
    packet.query.length < 65536 ∧ packet.answer.length < 65536 ∧ packet.authority.length < 65536 ∧
      packet.additional.length < 65536 := by
  rcases parse_sections h with ⟨q, n, u, x, d₀, d₁, d₂, d₃, d₄, hq, hn, hu, hx⟩
  have hlt : ∀ {α : Type} {read : Bytes → Outcome (α × Bytes)} {count : UInt16} {data left : Bytes} {entries : List α},
      readMany read count.toNat data = success (entries, left) → entries.length < 65536 := by
    rintro α read count data left entries hread
    rw [(readMany_ok (P := fun _ => True) (fun _ _ _ _ => trivial) hread).1]
    exact count.toNat_lt
  exact ⟨hlt hq, hlt hn, hlt hu, hlt hx⟩

theorem parse_ok {fuel : Nat} {origin : Bytes} {packet : Packet} (h : parse fuel origin = success packet) (hfits : packet.Fits) :
    packet.Ok := by
  rcases parse_sections h with ⟨q, n, u, x, d₀, d₁, d₂, d₃, d₄, hq, hn, hu, hx⟩
  have hreply : ∀ data answer left, readReply fuel data origin = success (answer, left) →
      answer.r_data.length < 65536 → answer.Ok := fun _ _ _ hread => readReply_ok hread
  constructor
  · exact (readMany_ok (fun _ _ _ hread => readQuery_ok hread) hq).2
  · exact fun a ha => (readMany_ok hreply hn).2 a ha (hfits.answer a ha)
  · exact fun a ha => (readMany_ok hreply hu).2 a ha (hfits.authority a ha)
  · exact fun a ha => (readMany_ok hreply hx).2 a ha (hfits.additional a ha)

/-! ## Names that are mistaken -/

/-- The mark that is found stands in a row within the first 64 KiB. -/
def Short (marks : List Mark) (name : Name) : Prop := ∀ mark, (placed marks name).2 = some mark → mark.last ≤ 0xffff

/-- A name that meets a mark of other labels is written as another name. -/
theorem writeName_mistaken {blob : Bytes} {marks : List Mark} {name : Name} (hm : Marked blob marks)
    (hok : ∀ label ∈ name, LabelOk label) (hshort : Short marks name) (hclear : ¬ Clear marks name) :
    ∃ row name' name_map, writeName blob name (marks.map Mark.entry) = (blob ++ row, name_map) ∧ Row blob row name' ∧ name' ≠ name := by
  have hwrite := writeName_eq marks 0 name blob [] (fun _ _ he => by cases he)
  rw [List.nil_append, List.append_assoc] at hwrite
  unfold Clear at hclear
  push Not at hclear
  rcases hclear with ⟨mark, hfound, hne⟩
  have hlast := hshort mark hfound
  rcases hm mark (placed_of_some hfound) with ⟨hmark, hnear⟩
  rw [hfound, Option.elim_some] at hwrite
  refine ⟨_, (placed marks name).1 ++ mark.labels, _, hwrite, .jump (fun l hl => hok l ?_) hnear hlast hmark, fun he => ?_⟩
  · exact placed_subset hl
  · have := hne he
    omega

section Misses
variable {α : Type}

/-- With steps enough a call does not end with `a`. -/
def Misses (call : Nat → Outcome (α × Bytes)) (a : α) : Prop :=
  ∃ steps, ∀ fuel, steps ≤ fuel → ∀ left, call fuel ≠ success (a, left)

/-- What is written stands behind what was there. -/
def Appends (write : Bytes → α → NameMap → Bytes × NameMap) : Prop :=
  ∀ blob a name_map, ∃ w name_map', write blob a name_map = (blob ++ w, name_map')

/-- An entry whose name meets a mark of other labels is not read back. -/
def Mistakes (write : Bytes → α → NameMap → Bytes × NameMap) (read : Nat → Bytes → Bytes → Outcome (α × Bytes))
    (entry : α → Name × Nat) (a : α) : Prop :=
  ∀ blob marks, Marked blob marks → Short marks (entry a).1 → ¬ Clear marks (entry a).1 → ∃ w name_map,
    write blob a (marks.map Mark.entry) = (blob ++ w, name_map) ∧
    ∀ more, Misses (fun fuel => read fuel (w ++ more) (blob ++ (w ++ more))) a

theorem appends_name : ∀ (name : Name) (blob : Bytes) (name_map : NameMap), ∃ w name_map',
    writeName blob name name_map = (blob ++ w, name_map')
  | [], blob, name_map => ⟨[0], name_map, rfl⟩
  | label :: rest, blob, name_map => by
    unfold writeName
    dsimp only
    split
    · rcases appends_name rest (blob ++ .ofNat label.length :: label)
        (if blob.length &&& 0x3fff = blob.length then (buildName (label :: rest), .ofNat blob.length) :: name_map else name_map)
        with ⟨w, name_map', hw⟩
      exact ⟨.ofNat label.length :: label ++ w, name_map', by rw [hw, List.append_assoc]⟩
    · exact ⟨_, _, rfl⟩

theorem appends_query : Appends writeQuery := by
  rintro blob query name_map
  rcases appends_name query.q_name blob name_map with ⟨w, name_map', hw⟩
  refine ⟨w ++ (write16 query.q_type ++ write16 query.q_class), name_map', ?_⟩
  unfold writeQuery
  simp only [hw, List.append_assoc]

theorem appends_reply : Appends writeReply := by
  rintro blob answer name_map
  rcases appends_name answer.r_name blob name_map with ⟨w, name_map', hw⟩
  refine ⟨w ++ (write16 answer.r_type ++ (write16 answer.r_class ++ (write32 answer.r_ttl ++
    (write16 (.ofNat answer.r_data.length) ++ answer.r_data)))), name_map', ?_⟩
  unfold writeReply
  simp only [hw, List.append_assoc]

theorem appends_many {write : Bytes → α → NameMap → Bytes × NameMap} (h : Appends write) : ∀ (entries : List α) (blob : Bytes)
    (name_map : NameMap), ∃ w name_map', writeMany write blob entries name_map = (blob ++ w, name_map')
  | [], blob, name_map => ⟨[], name_map, by rw [List.append_nil]; rfl⟩
  | a :: entries, blob, name_map => by
    rcases h blob a name_map with ⟨w, name_map', hw⟩
    rcases appends_many h entries (blob ++ w) name_map' with ⟨w', name_map'', hw'⟩
    refine ⟨w ++ w', name_map'', ?_⟩
    rw [writeMany, hw, ← List.append_assoc]
    exact hw'

theorem writeQuery_mistakes {query : Query} (hok : query.Ok) : Mistakes writeQuery readQuery Query.entry query := by
  rintro blob marks hm hshort hclear
  rcases writeName_mistaken hm hok hshort hclear with ⟨row, name', name_map, hwrite, hrow, hne⟩
  generalize hfields : write16 query.q_type ++ write16 query.q_class = fields
  refine ⟨row ++ fields, name_map, ?_, fun more => ?_⟩
  · unfold writeQuery
    simp only [hwrite, List.append_assoc, ← hfields]
  · rcases (hrow.append ((row ++ fields) ++ more)).read (fields ++ more) with ⟨steps, hsteps⟩
    refine ⟨steps, fun fuel hfuel left hread => hne ?_⟩
    have hname := hsteps fuel hfuel
    beta_reduce at hread
    rw [List.append_assoc] at hread hname
    simp only [readQuery, bind_eq_success, Prod.exists] at hread
    rcases hread with ⟨name, d₁, hfirst, type, d₂, -, class_, d₃, -, hres⟩
    cases hres
    cases hfirst.symm.trans hname
    rfl

theorem writeReply_mistakes {answer : Answer} (hok : answer.Ok) : Mistakes writeReply readReply Answer.entry answer := by
  rintro blob marks hm hshort hclear
  rcases writeName_mistaken hm hok.name hshort hclear with ⟨row, name', name_map, hwrite, hrow, hne⟩
  generalize hfields : write16 answer.r_type ++ (write16 answer.r_class ++ (write32 answer.r_ttl ++
    (write16 (.ofNat answer.r_data.length) ++ answer.r_data))) = fields
  refine ⟨row ++ fields, name_map, ?_, fun more => ?_⟩
  · unfold writeReply
    simp only [hwrite, List.append_assoc, ← hfields]
  · rcases (hrow.append ((row ++ fields) ++ more)).read (fields ++ more) with ⟨steps, hsteps⟩
    refine ⟨steps, fun fuel hfuel left hread => hne ?_⟩
    have hname := hsteps fuel hfuel
    beta_reduce at hread
    rw [List.append_assoc] at hread hname
    simp only [readReply, bind_eq_success, Prod.exists] at hread
    rcases hread with ⟨name, d₁, hfirst, type, d₂, -, class_, d₃, -, ttl, d₄, -, length, d₅, -, hread⟩
    split_ifs at hread
    rcases bind_eq_success.1 hread with ⟨r_data, -, hres⟩
    cases hres
    cases hfirst.symm.trans hname
    rfl

/-- A section with a mistaken name is not read back. -/
theorem writeMany_mistaken {write : Bytes → α → NameMap → Bytes × NameMap} {read : Nat → Bytes → Bytes → Outcome (α × Bytes)}
    {entry : α → Name × Nat} (happ : Appends write) : ∀ {entries : List α} {blob : Bytes} {marks : List Mark},
    (∀ a ∈ entries, Writes write read entry a ∧ Mistakes write read entry a) → Marked blob marks →
    AllNames Short blob.length marks (entries.map entry) → ¬ AllNames Clear blob.length marks (entries.map entry) →
    ∃ w name_map, writeMany write blob entries (marks.map Mark.entry) = (blob ++ w, name_map) ∧
      ∀ more, Misses (fun fuel => readMany (read fuel · (blob ++ (w ++ more))) entries.length (w ++ more)) entries
  | [], _, _, _, _, _, hclear => absurd trivial hclear
  | a :: entries, blob, marks, hall, hm, hshort, hclear => by
    rcases List.forall_mem_cons.1 hall with ⟨ha, hentries⟩
    by_cases hfirst : Clear marks (entry a).1
    · rcases ha.1 blob marks hm hfirst with ⟨w, hwrite, hlen, hm', hread⟩
      have hshort' := hshort.2
      have hclear' : ¬ AllNames Clear (blob ++ w).length (addMarks blob.length (entry a).1 marks) (entries.map entry) := by
        rw [hlen]
        exact fun h => hclear ⟨hfirst, h⟩
      rw [← hlen] at hshort'
      rcases writeMany_mistaken happ hentries hm' hshort' hclear' with ⟨w', name_map, hwrites, hmisses⟩
      refine ⟨w ++ w', name_map, ?_, fun more => ?_⟩
      · rw [writeMany, hwrite, ← List.append_assoc]
        exact hwrites
      · rcases hmisses more with ⟨steps, hsteps⟩
        rcases hread (w' ++ more) with ⟨steps', hsteps'⟩
        refine ⟨max steps steps', fun fuel hfuel left hres => ?_⟩
        have hone := hsteps' fuel (le_trans (le_max_right _ _) hfuel)
        have hothers := hsteps fuel (le_trans (le_max_left _ _) hfuel)
        simp only [List.append_assoc, List.length_cons, readMany, bind_eq_success, Prod.exists] at hone hothers hres
        rcases hres with ⟨b, d₁, hb, rest, d₂, hrest, hres⟩
        cases hres
        cases hb.symm.trans hone
        exact hothers left hrest
    · rcases ha.2 blob marks hm hshort.1 hfirst with ⟨w, name_map, hwrite, hmisses⟩
      rcases appends_many happ entries (blob ++ w) name_map with ⟨w', name_map', hwrites⟩
      refine ⟨w ++ w', name_map', ?_, fun more => ?_⟩
      · rw [writeMany, hwrite, ← List.append_assoc]
        exact hwrites
      · rcases hmisses (w' ++ more) with ⟨steps, hsteps⟩
        refine ⟨steps, fun fuel hfuel left hres => ?_⟩
        have hone := hsteps fuel hfuel
        simp only [List.append_assoc, List.length_cons, readMany, bind_eq_success, Prod.exists] at hone hres
        rcases hres with ⟨b, d₁, hb, rest, d₂, hrest, hres⟩
        cases hres
        exact hone d₁ hb

/-- A section that is read back has no mistaken name. -/
theorem section_clear {write : Bytes → α → NameMap → Bytes × NameMap} {read : Nat → Bytes → Bytes → Outcome (α × Bytes)}
    {entry : α → Name × Nat} (happ : Appends write) {entries : List α} {blob : Bytes} {marks : List Mark}
    (hall : ∀ a ∈ entries, Writes write read entry a ∧ Mistakes write read entry a) (hm : Marked blob marks)
    (hshort : AllNames Short blob.length marks (entries.map entry)) {w : Bytes} {name_map : NameMap}
    (hw : writeMany write blob entries (marks.map Mark.entry) = (blob ++ w, name_map)) {more : Bytes} {steps : Nat}
    (hread : ∀ fuel, steps ≤ fuel → ∃ left,
      readMany (read fuel · (blob ++ (w ++ more))) entries.length (w ++ more) = success (entries, left)) :
    AllNames Clear blob.length marks (entries.map entry) ∧
      name_map = (behind blob.length marks (entries.map entry)).2.map Mark.entry ∧
      (blob ++ w).length = (behind blob.length marks (entries.map entry)).1 ∧
      Marked (blob ++ w) (behind blob.length marks (entries.map entry)).2 ∧
      Settles (fun fuel => readMany (read fuel · (blob ++ (w ++ more))) entries.length (w ++ more)) (entries, more) := by
  have hclear : AllNames Clear blob.length marks (entries.map entry) := by
    by_contra hclear
    rcases writeMany_mistaken happ hall hm hshort hclear with ⟨w', name_map', hw', hmisses⟩
    rw [hw, Prod.mk.injEq] at hw'
    rw [← List.append_cancel_left hw'.1] at hmisses
    rcases hmisses more with ⟨steps', hsteps'⟩
    rcases hread (max steps steps') (le_max_left _ _) with ⟨left, hleft⟩
    exact hsteps' _ (le_max_right _ _) left hleft
  rcases writeMany_spec (fun a ha => (hall a ha).1) hm hclear with ⟨w', hw', hlen, hm', hsettles⟩
  rw [hw, Prod.mk.injEq] at hw'
  rw [← List.append_cancel_left hw'.1] at hlen hm' hsettles
  exact ⟨hclear, hw'.2, hlen, hm', hsettles more⟩

end Misses

theorem next_section {f : Nat → Outcome (α × Bytes)} {a : α} {d : Bytes} {Q : Nat → Bytes → Prop} {steps steps' : Nat}
    (h : ∀ fuel, steps ≤ fuel → ∃ d', f fuel = success (a, d') ∧ Q fuel d') (hf : ∀ fuel, steps' ≤ fuel → f fuel = success (a, d)) :
    ∀ fuel, max steps steps' ≤ fuel → Q fuel d := by
  rintro fuel hfuel
  rcases h fuel (le_trans (le_max_left _ _) hfuel) with ⟨d', hd', hQ⟩
  cases hd'.symm.trans (hf fuel (le_trans (le_max_right _ _) hfuel))
  exact hQ

/-- Every name that is written as a pointer points into the first 64 KiB. -/
def Packet.Short (packet : Packet) : Prop := AllNames MajorPrivacy.Dns.Short 12 [] packet.entries

theorem clear_of_roundTrips {packet : Packet} (hok : packet.Ok) (hshort : packet.Short) (h : RoundTrips packet) : packet.Clear := by
  rcases h with ⟨steps, hsteps⟩
  rcases parse_lengths (hsteps steps le_rfl) with ⟨hq, hn, hu, hx⟩
  refine ⟨hq, hn, hu, hx, ?_⟩
  have hheader : (buildHeader packet).length = 12 := by simp [buildHeader]
  unfold Packet.Short Packet.entries at hshort
  unfold Packet.entries
  rw [← hheader, allNames_append, allNames_append, allNames_append] at hshort ⊢
  rcases hshort with ⟨hs₁, hs₂, hs₃, hs₄⟩
  rcases appends_many appends_query packet.query (buildHeader packet) [] with ⟨w₁, m₁, hw₁⟩
  rcases appends_many appends_reply packet.answer (buildHeader packet ++ w₁) m₁ with ⟨w₂, m₂, hw₂⟩
  rcases appends_many appends_reply packet.authority (buildHeader packet ++ w₁ ++ w₂) m₂ with ⟨w₃, m₃, hw₃⟩
  rcases appends_many appends_reply packet.additional (buildHeader packet ++ w₁ ++ w₂ ++ w₃) m₃ with ⟨w₄, m₄, hw₄⟩
  have hbuild : buildPacket packet = buildHeader packet ++ (w₁ ++ (w₂ ++ (w₃ ++ w₄))) := by
    unfold buildPacket
    simp only [count_eq hq, count_eq hn, count_eq hu, count_eq hx, List.take_length]
    simp only [hw₁, hw₂, hw₃, hw₄]
    simp only [List.append_assoc]
  have hread : ∀ fuel, steps ≤ fuel →
      ∃ d₁, readMany (readQuery fuel · (buildPacket packet)) packet.query.length (w₁ ++ (w₂ ++ (w₃ ++ w₄))) =
          success (packet.query, d₁) ∧
        ∃ d₂, readMany (readReply fuel · (buildPacket packet)) packet.answer.length d₁ = success (packet.answer, d₂) ∧
          ∃ d₃, readMany (readReply fuel · (buildPacket packet)) packet.authority.length d₂ = success (packet.authority, d₃) ∧
            ∃ d₄, readMany (readReply fuel · (buildPacket packet)) packet.additional.length d₃ =
              success (packet.additional, d₄) := by
    rintro fuel hfuel
    have hparse := hsteps fuel hfuel
    beta_reduce at hparse
    generalize hbytes : buildPacket packet = bytes at hparse hbuild
    rw [parse, hbuild] at hparse
    unfold buildHeader at hparse
    simp only [List.append_assoc, read16_write16, bind_success, bind_eq_success, Prod.exists, count_eq hq, count_eq hn,
      count_eq hu, count_eq hx] at hparse
    rcases hparse with ⟨query, d₁, hr₁, answer, d₂, hr₂, authority, d₃, hr₃, additional, d₄, hr₄, hres⟩
    split_ifs at hres
    rw [hbuild]
    unfold buildHeader
    simp only [List.append_assoc]
    injection hres with hres
    rw [← congrArg Packet.query hres, ← congrArg Packet.answer hres, ← congrArg Packet.authority hres,
      ← congrArg Packet.additional hres] at *
    exact ⟨d₁, hr₁, d₂, hr₂, d₃, hr₃, d₄, hr₄⟩
  rw [hbuild] at hread
  have hstart : Marked (buildHeader packet) [] := fun _ h => by cases h
  have hq' : ∀ q ∈ packet.query, Writes writeQuery readQuery Query.entry q ∧ Mistakes writeQuery readQuery Query.entry q :=
    fun q h => ⟨writeQuery_spec (hok.query q h), writeQuery_mistakes (hok.query q h)⟩
  have hreply : ∀ {answers : List Answer}, (∀ a ∈ answers, a.Ok) →
      ∀ a ∈ answers, Writes writeReply readReply Answer.entry a ∧ Mistakes writeReply readReply Answer.entry a :=
    fun h a ha => ⟨writeReply_spec (h a ha), writeReply_mistakes (h a ha)⟩
  -- each section settles what is left for the next one
  rcases section_clear appends_query hq' hstart hs₁ hw₁ (fun fuel hfuel => (hread fuel hfuel).imp fun _ h => h.1)
    with ⟨hc₁, he₁, hl₁, hm₁, t₁, ht₁⟩
  rw [he₁] at hw₂
  rw [← hl₁] at hs₂ hs₃ hs₄ ⊢
  have hread₂ := next_section hread ht₁
  rw [← List.append_assoc] at hread₂
  rcases section_clear appends_reply (hreply hok.answer) hm₁ hs₂ hw₂ (fun fuel hfuel => (hread₂ fuel hfuel).imp fun _ h => h.1)
    with ⟨hc₂, he₂, hl₂, hm₂, t₂, ht₂⟩
  rw [he₂] at hw₃
  rw [← hl₂] at hs₃ hs₄ ⊢
  have hread₃ := next_section hread₂ ht₂
  rw [← List.append_assoc _ w₂] at hread₃
  rcases section_clear appends_reply (hreply hok.authority) hm₂ hs₃ hw₃ (fun fuel hfuel => (hread₃ fuel hfuel).imp fun _ h => h.1)
    with ⟨hc₃, he₃, hl₃, hm₃, t₃, ht₃⟩
  rw [he₃] at hw₄
  rw [← hl₃] at hs₄ ⊢
  have hread₄ := next_section hread₃ ht₃
  rw [← List.append_assoc _ w₃, ← List.append_nil w₄] at hread₄
  rcases section_clear appends_reply (hreply hok.additional) hm₃ hs₄ hw₄ hread₄ with ⟨hc₄, -⟩
  exact ⟨hc₁, hc₂, hc₃, hc₄⟩

/-- A packet of labels that can be written, or one that was parsed, comes back as it was when every name
that is written as a pointer points to its own labels; within the first 64 KiB only then. -/
theorem roundTrips_iff_clear {packet : Packet} (h : packet.Ok ∨ packet.Fits ∧ ∃ fuel origin, parse fuel origin = success packet) :
    (packet.Clear → RoundTrips packet) ∧ (packet.Short → (RoundTrips packet ↔ packet.Clear)) := by
  have hok : packet.Ok := by
    rcases h with hok | ⟨hfits, fuel, origin, hparse⟩
    · exact hok
    · exact parse_ok hparse hfits
  refine ⟨roundTrips_of_clear hok, fun hshort => ⟨clear_of_roundTrips hok hshort, roundTrips_of_clear hok⟩⟩

/-- Two questions, of `a.b` and of `c.a.b`, which ends in a pointer to the first. -/
def sharedSuffix : Packet where
  ID := 7
  QR := 0
  OPCODE := 0
  AA := 0
  TC := 0
  RD := 1
  RA := 0
  Z := 0
  RCODE := 0
  query := [⟨[[0x61], [0x62]], 1, 1⟩, ⟨[[0x63], [0x61], [0x62]], 1, 1⟩]
  answer := []
  authority := []
  additional := []

theorem roundTrips_sharedSuffix : RoundTrips sharedSuffix := by
  refine (roundTrips_iff_clear (.inl ⟨?_, ?_, ?_, ?_⟩)).1 ⟨by decide, by decide, by decide, by decide, ?_⟩
  · simp [sharedSuffix, Query.Ok, LabelOk]
  · rintro _ ⟨⟩
  · rintro _ ⟨⟩
  · rintro _ ⟨⟩
  · refine ⟨?_, ?_, trivial⟩
    · rintro mark ⟨⟩
    · rintro mark ⟨⟩
      decide

/-- The question of the one label `a.b`, then the one of `a` in `b`: the text of both names is the same. -/
def sharedText : Packet := { sharedSuffix with query := [⟨[[0x61, 0x2e, 0x62]], 1, 1⟩, ⟨[[0x61], [0x62]], 1, 1⟩] }

theorem not_roundTrips_sharedText : sharedText.Ok ∧ ¬ RoundTrips sharedText := by
  have hok : sharedText.Ok := by
    refine ⟨?_, ?_, ?_, ?_⟩
    · simp [sharedText, Query.Ok, LabelOk]
    · rintro _ ⟨⟩
    · rintro _ ⟨⟩
    · rintro _ ⟨⟩
  refine ⟨hok, fun h => ?_⟩
  have hshort : sharedText.Short := by
    refine ⟨?_, ?_, trivial⟩
    · rintro mark ⟨⟩
    · rintro mark ⟨⟩
      decide
  have hclear := (clear_of_roundTrips hok hshort h).names.2.1 _ rfl
  revert hclear
  decide

end MajorPrivacy.Dns

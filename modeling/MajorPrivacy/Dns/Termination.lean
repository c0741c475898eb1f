/-
Whether `parse` comes to an end, and what the names are that it returns. The parser is taken apart
into what it does between the names, which ends, and the names, each of which is read at a place
that the names before it decide. So it ends if none of these names leads into a loop of pointers
that the guard of `read_reference` does not know.
-/
import MajorPrivacy.Dns.Spelling
import MajorPrivacy.Lib.Script

namespace MajorPrivacy.Dns

open LittleEndian Outcome

/-! ## Names at the front of the data -/

section Rows
variable {place : Nat → Nat} {origin data rest : Bytes} {name first : Name} {o : UInt16} {fuel : Nat}

theorem readName_stop {acc : Name} : readName (fuel + 1) (0 :: data) origin acc = success (acc, data) := by
  cases data <;> rfl

theorem readName_pointer {high low : UInt8} {acc : Name} (hptr : high &&& 0xc0 = 0xc0) :
    readName (fuel + 1) (high :: low :: data) origin acc =
      readReference fuel (pointerOffset high low) 0 origin acc >>= fun name => success (name, data) := by
  rw [readName, if_pos hptr]

/-- A name that leads behind a pointer is its labels in front and the name there. -/
theorem Leads.row (h : Leads data first o rest) {rest' : Bytes} : SpellsRow place origin data name rest' ↔
    rest' = rest ∧ ∃ more, name = first ++ more ∧ Spells place origin o.toNat more := by
  induction h generalizing name with
  | here hptr =>
    constructor
    · rintro (_ | ⟨hnot, -, -, -⟩ | ⟨-, hname⟩)
      · exact absurd hptr (by decide)
      · exact absurd hptr hnot
      · exact ⟨rfl, name, rfl, hname⟩
    · rintro ⟨rfl, more, rfl, hname⟩
      exact .jump hptr hname
  | label hnot hne hfit _ ih =>
    constructor
    · rintro (_ | ⟨-, -, -, hrest⟩ | ⟨hptr, -⟩)
      · exact absurd rfl hne
      · rcases ih.1 hrest with ⟨rfl, more, rfl, hmore⟩
        exact ⟨rfl, more, rfl, hmore⟩
      · exact absurd hptr hnot
    · rintro ⟨rfl, more, rfl, hmore⟩
      exact .label hnot hne hfit (ih.2 ⟨rfl, more, rfl, hmore⟩)

/-- A name that does not stray is spelled in full. -/
theorem SpellsRow.in_full (h : SpellsRow wrapped origin data name rest)
    (hstray : ∀ first o rest, Leads data first o rest → ¬ Strays origin o) : SpellsRow id origin data name rest := by
  induction h with
  | stop => exact .stop
  | label hnot hne hfit _ ih =>
    exact .label hnot hne hfit (ih fun first o rest hleads => hstray _ o rest (.label hnot hne hfit hleads))
  | @jump high low rest name hptr hname =>
    apply SpellsRow.jump hptr
    by_contra hnot
    exact hstray [] _ rest (.here hptr) ⟨name, hname, hnot⟩

theorem SpellsRow.recount {place' : Nat → Nat} (hsame : ∀ n ≤ 0xffff, place n = place' n) (hlen : origin.length ≤ 0xffff)
    (h : SpellsRow place origin data name rest) : SpellsRow place' origin data name rest := by
  induction h with
  | stop => exact .stop
  | label hnot hne hfit _ ih => exact .label hnot hne hfit ih
  | jump hptr hname => exact .jump hptr (hname.recount hsame hlen)

theorem SpellsRow.suffix (h : SpellsRow place origin data name rest) : rest <:+ data := by
  induction h with
  | stop => exact List.suffix_cons _ _
  | label _ _ _ _ ih => exact (ih.trans (List.drop_suffix _ _)).trans (List.suffix_cons _ _)
  | jump => exact (List.suffix_cons _ _).trans (List.suffix_cons _ _)

theorem SpellsRow.of_read {r : Name} : ∀ {data : Bytes} {acc : Name}, readName fuel data origin acc = success (r, rest) →
    ∃ name, r = acc ++ name ∧ SpellsRow wrapped origin data name rest := by
  induction fuel with
  | zero =>
    intro data acc h
    cases data <;> cases h
  | succ fuel ih =>
    intro data acc h
    cases data with
    | nil => cases h
    | cons len data =>
      by_cases hptr : len &&& 0xc0 = 0xc0
      · cases data with
        | nil => simp [readName, hptr] at h
        | cons low data =>
          rw [readName_pointer hptr] at h
          cases hread : readReference fuel (pointerOffset len low) 0 origin acc with
          | success r' =>
            rw [hread] at h
            cases h
            rcases Spells.of_read hread with ⟨name, rfl, hspells⟩
            exact ⟨name, rfl, .jump hptr hspells⟩
          | failure =>
            rw [hread] at h
            cases h
          | unfinished =>
            rw [hread] at h
            cases h
      · by_cases hzero : len = 0
        · subst hzero
          rw [readName_stop] at h
          cases h
          exact ⟨[], (List.append_nil _).symm, .stop⟩
        · rw [readName_label hptr hzero] at h
          split_ifs at h with hshort
          rcases ih h with ⟨name, rfl, hspells⟩
          exact ⟨_, List.append_assoc _ _ _, .label hptr hzero (by omega) hspells⟩

theorem SpellsRow.settles (h : SpellsRow wrapped origin data name rest) : ∀ acc : Name,
    Settles (fun fuel => readName fuel data origin acc) (acc ++ name, rest) := by
  induction h with
  | stop =>
    intro acc
    refine ⟨1, fun fuel hfuel => ?_⟩
    rcases Nat.exists_eq_add_of_le' hfuel with ⟨fuel, rfl⟩
    simp only [readName_stop, List.append_nil]
  | @label len data rest name hnot hne hfit _ ih =>
    intro acc
    rcases ih (acc ++ [data.take len.toNat]) with ⟨n, hn⟩
    refine ⟨n + 1, fun fuel hfuel => ?_⟩
    rcases Nat.exists_eq_add_of_le' hfuel with ⟨fuel, rfl⟩
    have hread := hn (fuel + n) (by omega)
    rw [List.append_assoc, List.singleton_append] at hread
    simp only [← Nat.add_assoc, readName_label hnot hne, if_neg (not_lt.2 hfit)]
    exact hread
  | jump hptr hname =>
    intro acc
    rcases hname.settles acc with ⟨n, hn⟩
    refine ⟨n + 1, fun fuel hfuel => ?_⟩
    rcases Nat.exists_eq_add_of_le' hfuel with ⟨fuel, rfl⟩
    have hread := hn (fuel + n) (by omega)
    beta_reduce at hread
    simp only [← Nat.add_assoc, readName_pointer hptr, hread, bind_success]

/-- Reading a name comes to an end if the name does not lead into a loop that the guard does not know. -/
theorem readName_ends : ∀ {data : Bytes} {acc : Name}, (∀ first o rest, Leads data first o rest → ¬ LeadsRound origin o) →
    Ends fun fuel => readName fuel data origin acc
  | [], acc, _ => .of_succ (fun _ => rfl) (by simp)
  | len :: data, acc, h => by
    by_cases hptr : len &&& 0xc0 = 0xc0
    · cases data with
      | nil => exact .of_succ (r := failure) (fun fuel => by simp [readName, hptr]) (by simp)
      | cons low data =>
        have hend : Ends fun fuel => readReference fuel (pointerOffset len low) 0 origin acc >>= fun name =>
            success (name, data) :=
          (readReference_ends (h [] _ data (.here hptr))).bind fun _ _ => .of_eq (fun _ => rfl) (by simp)
        exact hend.succ fun fuel => readName_pointer hptr
    · by_cases hzero : len = 0
      · subst hzero
        exact .of_succ (fun fuel => readName_stop) (by simp)
      · by_cases hshort : data.length < len.toNat
        · exact .of_succ (fun fuel => by rw [readName_label hptr hzero, if_pos hshort]) (by simp)
        · have hend : Ends fun fuel => readName fuel (data.drop len.toNat) origin (acc ++ [data.take len.toNat]) :=
            readName_ends fun first o rest hleads => h _ o rest (.label hptr hzero (by omega) hleads)
          exact hend.succ fun fuel => by rw [readName_label hptr hzero, if_neg hshort]
termination_by data => data.length
decreasing_by
  simp only [List.length_drop, List.length_cons]
  omega

theorem Leads.endless (h : Leads data first o rest) (hround : LeadsRound origin o) :
    ∀ (fuel : Nat) (acc : Name), readName fuel data origin acc = unfinished := by
  induction h with
  | here hptr =>
    rintro (_ | fuel) acc
    · rfl
    · rw [readName_pointer hptr, readReference_endless hround, bind_unfinished]
  | label hnot hne hfit _ ih =>
    rintro (_ | fuel) acc
    · rfl
    · rw [readName_label hnot hne, if_neg (not_lt.2 hfit)]
      exact ih hround fuel _

end Rows

/-! ## The parser without the names -/

/-- A parser that asks for the name at the front of the data. -/
abbrev Parser (α : Type) := Script Bytes (Name × Bytes) α

namespace Parser

def name (data : Bytes) : Parser (Name × Bytes) := .ask data .done

def fields {α : Type} : Outcome α → Parser α
  | success a => .done a
  | _ => .fail

def query (data : Bytes) : Parser (Query × Bytes) := do
  let (q_name, data) ← name data
  let (q_type, data) ← fields (read16 data)
  let (q_class, data) ← fields (read16 data)
  .done (⟨q_name, q_type, q_class⟩, data)

def replyData (r_type : UInt16) (r_length : Nat) (data : Bytes) : Parser Bytes :=
  if r_type = Type.CNAME ∨ r_type = Type.PTR ∨ r_type = Type.NA then do
    let (decompressedName, _) ← name data
    .done (uncompressed decompressedName)
  else if r_type = Type.MX then
    if r_length < 2 then .fail
    else do
      let (decompressedName, _) ← name (data.drop 2)
      .done (data.take 2 ++ uncompressed decompressedName)
  else if r_type = Type.SOA then do
    let (mname, p) ← name data
    let (rname, p) ← name p
    if p.length < 20 then .fail
    else .done (uncompressed mname ++ uncompressed rname ++ p.take 20)
  else if r_type = Type.SRV then
    if r_length < 6 then .fail
    else do
      let (decompressedName, _) ← name (data.drop 6)
      .done (data.take 6 ++ uncompressed decompressedName)
  else .done (data.take r_length)

def reply (data : Bytes) : Parser (Answer × Bytes) := do
  let (r_name, data) ← name data
  let (r_type, data) ← fields (read16 data)
  let (r_class, data) ← fields (read16 data)
  let (r_ttl, data) ← fields (read32 data)
  let (r_length, data) ← fields (read16 data)
  if data.length < r_length.toNat then .fail
  else
    let r_data ← replyData r_type r_length.toNat data
    .done (⟨r_name, r_type, r_class, r_ttl, r_data⟩, data.drop r_length.toNat)

def many {α : Type} (read : Bytes → Parser (α × Bytes)) : Nat → Bytes → Parser (List α × Bytes)
  | 0, data => .done ([], data)
  | count + 1, data => do
    let (entry, data) ← read data
    let (entries, data) ← many read count data
    .done (entry :: entries, data)

/-- What `parse` does, but for the reading of names. -/
def packet (origin : Bytes) : Parser Packet := do
  let (ID, data) ← fields (read16 origin)
  let (FLAGS, data) ← fields (read16 data)
  let (QDCOUNT, data) ← fields (read16 data)
  let (ANCOUNT, data) ← fields (read16 data)
  let (NSCOUNT, data) ← fields (read16 data)
  let (ARCOUNT, data) ← fields (read16 data)
  let flags := FLAGS.toNat
  let (query, data) ← many query QDCOUNT.toNat data
  let (answer, data) ← many reply ANCOUNT.toNat data
  let (authority, data) ← many reply NSCOUNT.toNat data
  let (additional, data) ← many reply ARCOUNT.toNat data
  if data ≠ [] then .fail
  else .done {
    ID := ID
    QR := .ofNat 2 (flags >>> 15)
    OPCODE := .ofNat 16 (flags >>> 11)
    AA := .ofNat 2 (flags >>> 10)
    TC := .ofNat 2 (flags >>> 9)
    RD := .ofNat 2 (flags >>> 8)
    RA := .ofNat 2 (flags >>> 7)
    Z := .ofNat 8 (flags >>> 4)
    RCODE := .ofNat 16 flags
    query := query
    answer := answer
    authority := authority
    additional := additional }

end Parser

/-- A parser with `read_name` to answer it. -/
def run {α : Type} (fuel : Nat) (origin : Bytes) : Parser α → Outcome α
  | .done a => success a
  | .fail => failure
  | .ask data k => readName fuel data origin [] >>= fun answer => run fuel origin (k answer)

/-- The names that `read_name` reads within so many steps. -/
def Read (fuel : Nat) (origin data : Bytes) (answer : Name × Bytes) : Prop := readName fuel data origin [] = success answer

/-- The names that the packet spells. -/
def Spelt (place : Nat → Nat) (origin data : Bytes) (answer : Name × Bytes) : Prop :=
  SpellsRow place origin data answer.1 answer.2

section Run
variable {α β : Type} {fuel : Nat} {origin data : Bytes}

theorem bind_assoc {γ : Type} (x : Outcome α) (f : α → Outcome β) (g : β → Outcome γ) :
    (x >>= f) >>= g = x >>= fun a => f a >>= g := by
  cases x <;> rfl

@[simp] theorem run_done (a : α) : run fuel origin (.done a) = success a := rfl
@[simp] theorem run_fail : run fuel origin (.fail : Parser α) = failure := rfl

@[simp] theorem run_bind (s : Parser α) (f : α → Parser β) :
    run fuel origin (s >>= f) = run fuel origin s >>= fun a => run fuel origin (f a) := by
  induction s with
  | done a => rfl
  | fail => rfl
  | ask i k ih => simp only [Script.ask_bind, run, ih, bind_assoc]

@[simp] theorem run_name : run fuel origin (Parser.name data) = readName fuel data origin [] := by
  simp only [Parser.name, run]
  cases readName fuel data origin [] <;> rfl

theorem run_fields {x : Outcome α} (hx : x ≠ unfinished) : run fuel origin (Parser.fields x) = x := by
  cases x with
  | success a => rfl
  | failure => rfl
  | unfinished => exact absurd rfl hx

theorem read16_ends : read16 data ≠ unfinished := by
  unfold read16
  split <;> simp

theorem read32_ends : read32 data ≠ unfinished := by
  unfold read32
  split <;> simp

@[simp] theorem run_read16 : run fuel origin (Parser.fields (read16 data)) = read16 data := run_fields read16_ends
@[simp] theorem run_read32 : run fuel origin (Parser.fields (read32 data)) = read32 data := run_fields read32_ends

@[simp] theorem run_query : run fuel origin (Parser.query data) = readQuery fuel data origin := by
  simp [Parser.query, readQuery]

@[simp] theorem run_replyData {r_type : UInt16} {r_length : Nat} :
    run fuel origin (Parser.replyData r_type r_length data) = readData fuel r_type r_length data origin := by
  simp only [Parser.replyData, readData]
  split_ifs <;> simp [apply_ite (run fuel origin)]

@[simp] theorem run_reply : run fuel origin (Parser.reply data) = readReply fuel data origin := by
  simp [Parser.reply, readReply, apply_ite (run fuel origin)]

@[simp] theorem run_many {read : Bytes → Parser (α × Bytes)} {read' : Bytes → Outcome (α × Bytes)}
    (hread : ∀ data, run fuel origin (read data) = read' data) (count : Nat) :
    ∀ data, run fuel origin (Parser.many read count data) = readMany read' count data := by
  induction count with
  | zero => exact fun data => rfl
  | succ count ih => simp [Parser.many, readMany, hread, ih]

/-- `parse` is the parser with `read_name` to answer it. -/
theorem run_packet : run fuel origin (Parser.packet origin) = parse fuel origin := by
  simp only [Parser.packet, parse, run_bind, run_read16, run_many (fun _ => run_query), run_many (fun _ => run_reply),
    apply_ite (run fuel origin), run_fail, run_done]

end Run

/-! ## Where the names stand -/

section Places
variable {α : Type} {origin data rest : Bytes}

theorem read16_suffix {value : UInt16} (h : read16 data = success (value, rest)) : rest <:+ data := by
  unfold read16 at h
  split at h
  · cases h
    exact (List.suffix_cons _ _).trans (List.suffix_cons _ _)
  · cases h

theorem read32_suffix {value : UInt32} (h : read32 data = success (value, rest)) : rest <:+ data := by
  unfold read32 at h
  split at h
  · cases h
    exact List.suffix_append [_, _, _, _] _
  · cases h

/-- The script asks for names in the packet only. -/
abbrev AsksInside (origin : Bytes) (R : α → Prop) (s : Parser α) : Prop :=
  s.Within (· <:+ origin) (fun data answer => answer.2 <:+ data) R

/-- And goes on in the packet. -/
abbrev Inside (origin : Bytes) (s : Parser (α × Bytes)) : Prop := AsksInside origin (fun r => r.2 <:+ origin) s

theorem inside_name (h : data <:+ origin) : Inside origin (Parser.name data) :=
  ⟨h, fun _ hanswer => hanswer.trans h⟩

theorem inside_fields {x : Outcome (α × Bytes)} (h : ∀ a rest, x = success (a, rest) → rest <:+ origin) :
    Inside origin (Parser.fields x) := by
  cases x with
  | success r => exact h r.1 r.2 rfl
  | failure => trivial
  | unfinished => trivial

theorem inside_read16 (h : data <:+ origin) : Inside origin (Parser.fields (read16 data)) :=
  inside_fields fun _ _ hread => (read16_suffix hread).trans h

theorem inside_read32 (h : data <:+ origin) : Inside origin (Parser.fields (read32 data)) :=
  inside_fields fun _ _ hread => (read32_suffix hread).trans h

theorem inside_query (h : data <:+ origin) : Inside origin (Parser.query data) :=
  (inside_name h).bind fun _ h => (inside_read16 h).bind fun _ h => (inside_read16 h).bind fun _ h => h

theorem inside_replyData {r_type : UInt16} {r_length : Nat} (h : data <:+ origin) :
    AsksInside origin (fun _ => True) (Parser.replyData r_type r_length data) := by
  have hdrop : ∀ n, data.drop n <:+ origin := fun n => (List.drop_suffix n data).trans h
  unfold Parser.replyData
  split_ifs
  · exact (inside_name h).bind fun _ _ => trivial
  · trivial
  · exact (inside_name (hdrop 2)).bind fun _ _ => trivial
  · refine (inside_name h).bind fun _ h => (inside_name h).bind fun p _ => ?_
    dsimp only
    split_ifs <;> trivial
  · trivial
  · exact (inside_name (hdrop 6)).bind fun _ _ => trivial
  · trivial

theorem inside_reply (h : data <:+ origin) : Inside origin (Parser.reply data) := by
  refine (inside_name h).bind fun _ h => (inside_read16 h).bind fun _ h => (inside_read16 h).bind fun _ h =>
    (inside_read32 h).bind fun _ h => (inside_read16 h).bind fun r h => ?_
  dsimp only
  split_ifs
  · trivial
  · exact (inside_replyData h).bind fun _ _ => (List.drop_suffix _ _).trans h

theorem inside_many {read : Bytes → Parser (α × Bytes)} (hread : ∀ {data}, data <:+ origin → Inside origin (read data))
    (count : Nat) : ∀ {data}, data <:+ origin → Inside origin (Parser.many read count data) := by
  induction count with
  | zero => exact fun h => h
  | succ count ih => exact fun h => (hread h).bind fun _ h => (ih h).bind fun _ h => h

theorem inside_packet : AsksInside origin (fun _ => True) (Parser.packet origin) := by
  refine (inside_read16 List.suffix_rfl).bind fun _ h => (inside_read16 h).bind fun _ h => (inside_read16 h).bind fun _ h =>
    (inside_read16 h).bind fun _ h => (inside_read16 h).bind fun _ h => (inside_read16 h).bind fun _ h =>
    (inside_many inside_query _ h).bind fun _ h => (inside_many inside_reply _ h).bind fun _ h =>
    (inside_many inside_reply _ h).bind fun _ h => (inside_many inside_reply _ h).bind fun _ h => ?_
  dsimp only
  split_ifs <;> trivial

end Places

/-! ## Coming to an end -/

section Ending
variable {α : Type} {fuel : Nat} {origin data : Bytes} {s : Parser α}

theorem spelt_of_read {answer : Name × Bytes} (h : Read fuel origin data answer) : Spelt wrapped origin data answer := by
  rcases answer with ⟨r, rest⟩
  rcases SpellsRow.of_read h with ⟨name, rfl, hspells⟩
  exact hspells

theorem read_of_spelt {answer : Name × Bytes} (h : Spelt wrapped origin data answer) :
    ∃ n, ∀ fuel, n ≤ fuel → Read fuel origin data answer := by
  rcases SpellsRow.settles h [] with ⟨n, hn⟩
  exact ⟨n, fun fuel hfuel => hn fuel hfuel⟩

/-- A call asks for what the packet makes it ask for. -/
theorem asks_of_spelt (h : s.Asks (Spelt wrapped origin) data) : ∃ n, ∀ fuel, n ≤ fuel → s.Asks (Read fuel origin) data := by
  induction h with
  | here => exact ⟨0, fun _ _ => .here⟩
  | there ho _ ih =>
    rcases read_of_spelt ho with ⟨n, hn⟩
    rcases ih with ⟨m, hm⟩
    exact ⟨max n m, fun fuel hfuel =>
      .there (hn fuel (le_trans (le_max_left n m) hfuel)) (hm fuel (le_trans (le_max_right n m) hfuel))⟩

theorem run_unfinished (h : s.Asks (Read fuel origin) data) (hread : readName fuel data origin [] = unfinished) :
    run fuel origin s = unfinished := by
  induction h with
  | here => rw [run, hread, bind_unfinished]
  | there ho _ ih => rw [run, ho, bind_success, ih hread]

theorem gives_of_run {a : α} (h : run fuel origin s = success a) : s.Gives (Read fuel origin) a := by
  induction s with
  | done b =>
    cases h
    exact .done
  | fail => cases h
  | ask i k ih =>
    rw [run] at h
    cases hread : readName fuel i origin [] with
    | success answer =>
      rw [hread] at h
      exact .ask hread (ih answer h)
    | failure =>
      rw [hread] at h
      cases h
    | unfinished =>
      rw [hread] at h
      cases h

theorem run_of_gives {a : α} (h : s.Gives (Spelt wrapped origin) a) :
    ∃ n, ∀ fuel, n ≤ fuel → run fuel origin s = success a := by
  induction h with
  | done => exact ⟨0, fun _ _ => rfl⟩
  | ask ho _ ih =>
    rcases read_of_spelt ho with ⟨n, hn⟩
    rcases ih with ⟨m, hm⟩
    refine ⟨max n m, fun fuel hfuel => ?_⟩
    rw [run, hn fuel (le_trans (le_max_left n m) hfuel), bind_success, hm fuel (le_trans (le_max_right n m) hfuel)]

/-- The parser comes to an end if each name does that it comes to. -/
theorem run_ends (h : ∀ data, s.Asks (Spelt wrapped origin) data → Ends fun fuel => readName fuel data origin []) :
    Ends fun fuel => run fuel origin s := by
  induction s with
  | done a => exact .of_eq (fun _ => rfl) (by simp)
  | fail => exact .of_eq (fun _ => rfl) (by simp)
  | ask i k ih =>
    refine (h i .here).bind fun answer hanswer => ih answer fun data hdata => ?_
    rcases hanswer with ⟨n, hn⟩
    exact h data (.there (spelt_of_read (hn n le_rfl)) hdata)

end Ending

/-- The parser comes to a name that has the pointer behind its labels. -/
def Follows (origin : Bytes) (offset : UInt16) : Prop :=
  ∃ data first rest, (Parser.packet origin).Asks (Spelt wrapped origin) data ∧ Leads data first offset rest

/-- `parse` ends, and with steps enough each name that it reads, among them those of the packet that it
returns, is the one that stands in the packet where it is read. -/
def ParsesRight (origin : Bytes) : Prop := ∃ steps, ∀ fuel, steps ≤ fuel →
  parse fuel origin ≠ unfinished ∧
  (∀ packet, parse fuel origin = success packet → (Parser.packet origin).Gives (Spelt id origin) packet) ∧
  ∀ data answer, (Parser.packet origin).Asks (Read fuel origin) data → Read fuel origin data answer →
    data <:+ origin ∧ Spelt id origin data answer

/-- The parsing ends, with the names of the packet, just where no pointer that it follows leads into a loop
that the guard does not know, and none of the names strays. -/
theorem parsesRight_iff (origin : Bytes) :
    ParsesRight origin ↔ ∀ offset, Follows origin offset → ¬ LeadsRound origin offset ∧ ¬ Strays origin offset := by
  constructor
  · rintro ⟨n, hn⟩ offset ⟨data, first, rest, hasks, hleads⟩
    rcases asks_of_spelt hasks with ⟨m, hm⟩
    constructor
    · intro hround
      have hun := run_unfinished (hm _ (le_max_right n m)) (hleads.endless hround (max n m) [])
      rw [run_packet] at hun
      exact (hn _ (le_max_left n m)).1 hun
    · rintro ⟨name, hspells, hnot⟩
      have hrow : Spelt wrapped origin data (first ++ name, rest) := hleads.row.2 ⟨rfl, name, rfl, hspells⟩
      rcases read_of_spelt hrow with ⟨k, hk⟩
      have hfull := (hn (max n (max m k)) (by omega)).2.2 data _ (hm _ (by omega)) (hk _ (by omega))
      rcases hleads.row.1 hfull.2 with ⟨-, more, hmore, hspells'⟩
      rw [List.append_cancel_left hmore] at hnot
      exact hnot hspells'
  · intro h
    have hleads : ∀ data, (Parser.packet origin).Asks (Spelt wrapped origin) data → ∀ first o rest,
        Leads data first o rest → ¬ LeadsRound origin o ∧ ¬ Strays origin o :=
      fun data hasks first o rest hl => h o ⟨data, first, rest, hasks, hl⟩
    have hfull : ∀ data, (Parser.packet origin).Asks (Spelt wrapped origin) data → ∀ answer,
        Spelt wrapped origin data answer → Spelt id origin data answer :=
      fun data hasks answer hspelt => hspelt.in_full fun first o rest hl => (hleads data hasks first o rest hl).2
    rcases run_ends fun data hasks => readName_ends fun first o rest hl => (hleads data hasks first o rest hl).1 with ⟨r, hr, n, hn⟩
    refine ⟨n, fun fuel hfuel => ⟨?_, ?_, ?_⟩⟩
    · have hrun := hn fuel hfuel
      beta_reduce at hrun
      rw [← run_packet, hrun]
      exact hr
    · intro packet hpacket
      rw [← run_packet] at hpacket
      apply (gives_of_run hpacket).mono
      intro data hasks answer hread
      exact hfull data (hasks.mono fun _ _ => spelt_of_read) answer (spelt_of_read hread)
    · intro data answer hasks hread
      have hspelt : (Parser.packet origin).Asks (Spelt wrapped origin) data := hasks.mono fun _ _ => spelt_of_read
      exact ⟨inside_packet.asks (fun _ _ => SpellsRow.suffix) hspelt, hfull data hspelt answer (spelt_of_read hread)⟩

/-- Below 64 KiB `parse` returns just the packet that the bytes spell. -/
theorem parse_spelt_iff {origin : Bytes} (hlen : origin.length ≤ 0xffff) (packet : Packet) :
    (∃ steps, ∀ fuel, steps ≤ fuel → parse fuel origin = success packet) ↔
      (Parser.packet origin).Gives (Spelt id origin) packet := by
  constructor
  · rintro ⟨steps, hsteps⟩
    have hrun := hsteps steps le_rfl
    rw [← run_packet] at hrun
    exact (gives_of_run hrun).mono fun _ _ _ hread => (spelt_of_read hread).recount (fun _ hn => wrapped_of_le hn) hlen
  · intro h
    rcases run_of_gives (h.mono fun _ _ _ hspelt => SpellsRow.recount (fun _ hn => (wrapped_of_le hn).symm) hlen hspelt) with ⟨n, hn⟩
    exact ⟨n, fun fuel hfuel => (run_packet ▸ hn fuel hfuel)⟩

/-- A question for the address of one label. -/
def oneQuestion : Bytes := [0, 1, 0, 0, 0, 1, 0, 0, 0, 0, 0, 0, 1, 0x61, 0, 0, 1, 0, 1]

def onePacket : Packet := ⟨1, 0, 0, 0, 0, 0, 0, 0, 0, [⟨[[0x61]], 1, 1⟩], [], [], []⟩

theorem parse_spelt_iff_question : (∃ steps, ∀ fuel, steps ≤ fuel → parse fuel oneQuestion = success onePacket) ↔
    (Parser.packet oneQuestion).Gives (Spelt id oneQuestion) onePacket :=
  parse_spelt_iff (by decide) _

/-- A query whose name is a pointer to a pointer that points back. -/
def twoPointers : Bytes := [0, 0, 0, 0, 0, 1, 0, 0, 0, 0, 0, 0, 0xc0, 14, 0xc0, 12]

theorem not_parsesRight : ¬ ∀ origin, ParsesRight origin := by
  intro h
  rcases h twoPointers with ⟨n, hn⟩
  have hasks : (Parser.packet twoPointers).Asks (Read n twoPointers) [0xc0, 14, 0xc0, 12] := .here
  have hleads : Leads [0xc0, 14, 0xc0, 12] [] 14 [0xc0, 12] := .here rfl
  have hround : LeadsRound twoPointers 14 := by
    refine ⟨0, 2, 14, by decide, rfl, rfl, ?_⟩
    rintro ⟨t, -, -, hall⟩
    have h₁ : 12 = t := hall 12 (by decide)
    have h₂ : 14 = t := hall 14 (by decide)
    rw [← h₂] at h₁
    exact absurd h₁ (by decide)
  have hun := run_unfinished hasks (hleads.endless hround n [])
  rw [run_packet] at hun
  exact (hn n le_rfl).1 hun

end MajorPrivacy.Dns

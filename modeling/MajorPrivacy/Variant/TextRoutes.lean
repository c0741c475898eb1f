/-
Text on its way through a variant: the constructors and writers that take a string, the ways a
variant travels, and `GetStringW` at the end.
-/
import MajorPrivacy.Variant.Content
import MajorPrivacy.Variant.Lookup

namespace MajorPrivacy.Variant

open LittleEndian MajorPrivacy.Core

namespace Content

/-! ## Writing text -/

/-- `InitValue`, whose size has 32 bits. -/
def initValue (type : EType) (value : Bytes) : Content := ofBytes type (sized value)

/-- `InitFromStringA` of the data of a string, which an empty one may lack. -/
def initFromStringA (pStrA : Option Bytes) (bUtf8 : Bool) : Content :=
  let type := if bUtf8 then varTypeUtf8 else varTypeAscii
  match pStrA with
  | some str => .strA type str
  | none => .flat type false []

/-- The data of the string `ToUtf8` returns. -/
def utf8Data (wstr : List UInt16) : Option Bytes := if wstr = [] then none else some (toUtf8 wstr)

end Content

/-- The entries of a container one behind the other, as `CVariantWriter` puts them. -/
def writeEntries {K : Type} (key : K → Bytes) (es : List (K × EType × Bytes)) : Bytes :=
  es.flatMap fun e => key e.1 ++ toPacket e.2.1 e.2.2

/-- Where a writer puts a value: under a name, under an id or at the end of a list, with what is
written before and after it. -/
inductive Place
  | map (name : Bytes) (before after : List (Bytes × EType × Bytes))
  | index (id : UInt32) (before after : List (UInt32 × EType × Bytes))
  | list (before after : List (Unit × EType × Bytes))

/-- The payload of the container `Finish` returns. -/
def Place.payload (place : Place) (type : EType) (data : Bytes) : Bytes :=
  match place with
  | .map name before after => writeEntries nameKey (before ++ (name, type, data) :: after)
  | .index id before after => writeEntries idKey (before ++ (id, type, data) :: after)
  | .list before after => writeEntries noKey (before ++ ((), type, data) :: after)

/-- The value written, found again: `Find` by name and by id, and the element of a list. -/
def Place.found (place : Place) (type : EType) (data : Bytes) : Option Content :=
  let found := match place with
    | .map name _ _ => (rawFindName (sized (place.payload type data)) name).toOption
    | .index id _ _ => (rawFindId (sized (place.payload type data)) id.toNat).toOption
    | .list before _ => (readRawList (sized (place.payload type data))).1[before.length]?
  found.map fun (type, data) => .flat type true data

/-- What a writer is called with. -/
inductive EntryText
  | chars
  | utf8Chars
  | narrow
  | value

/-- The constructors and writers that take text. -/
inductive Writer
  | chars
  | utf8Chars
  | string
  | utf8String
  | narrowChars
  | narrowString
  | bytes
  | entry (place : Place) (text : EntryText)

/-- The type that is asked for. -/
def Writer.asked : Writer → EType
  | .chars | .string | .entry _ .chars => varTypeUnicode
  | .utf8Chars | .utf8String | .bytes | .entry _ .utf8Chars | .entry _ .value => varTypeUtf8
  | .narrowChars | .narrowString | .entry _ .narrow => varTypeAscii

/-- The value that is stored of a text, a narrow string being its UTF-8. -/
def Writer.write (s : List UInt16) : Writer → Option Content
  | .chars => some (.initValue varTypeUnicode (wideBytes s))
  | .utf8Chars => some (.initFromStringA (Content.utf8Data s) false) -- bUtf8 has its default here
  | .string => some (.strW s)
  | .utf8String => some (.initFromStringA (Content.utf8Data s) true)
  | .narrowChars => some (.initValue varTypeAscii (toUtf8 s))
  | .narrowString => some (.initFromStringA (some (toUtf8 s)) false)
  | .bytes => some (.initValue varTypeUtf8 (toUtf8 s))
  | .entry place .chars => place.found varTypeUnicode (wideBytes s)
  | .entry place .utf8Chars => place.found varTypeAscii (toUtf8 s) -- the overload for FW::StringA
  | .entry place .narrow => place.found varTypeAscii (toUtf8 s)
  | .entry place .value => place.found varTypeUtf8 (toUtf8 s)

/-! ## Travelling -/

/-- Through a packet, by assignment, or by a clone. -/
inductive Trip
  | packet
  | copy
  | clone
  deriving DecidableEq

def Trip.take : Trip → Content → Option Content
  | .packet, v => v.toPacket.bind fun packet => (Content.fromPacket packet).toOption.map (·.1)
  | .copy, v => some v.shared
  | .clone, v => some v.clone

def travel (v : Content) : List Trip → Option Content
  | [] => some v
  | trip :: trips => (trip.take v).bind fun v => travel v trips

/-- A clone is taken before the value goes through a packet. -/
def clonedInPlace : List Trip → Bool
  | [] => false
  | .packet :: _ => false
  | .copy :: trips => clonedInPlace trips
  | .clone :: _ => true

/-! ### What arrives -/

/-- A type of the format other than the empty one. -/
structure TextType (type : EType) : Prop where
  mask : type &&& varTypeMask = type
  ne_empty : type ≠ varTypeEmpty

theorem sized_of_lt {bytes : Bytes} (h : bytes.length < invalidSize) : sized bytes = bytes := by
  unfold invalidSize at h
  rw [sized, Nat.mod_eq_of_lt (by omega), List.take_length]

section Trips
variable {type : EType} {bytes : Bytes}

theorem readPacket_toPacket (ht : TextType type) (h : bytes.length < invalidSize) :
    readPacket (toPacket type bytes) = .ok (type, bytes, []) := by
  have hn : bytes.length < 2 ^ 32 := by
    unfold invalidSize at h
    omega
  have hh := packetHeader_header ht.mask hn fun he => absurd he ht.ne_empty
  have hread := hh.readPacket h []
  rwa [List.append_nil] at hread

/-- A value goes through a packet as type and payload. -/
theorem packet_take (ht : TextType type) (h : bytes.length < invalidSize) {v : Content} (hv : v.getType = type)
    (hp : v.mkPayload = some bytes) : Trip.packet.take v = some (.flat type true bytes) := by
  rw [Trip.take, Content.toPacket, hp, hv, Option.map_some, Option.bind_some, Content.fromPacket,
    readPacket_toPacket ht h]
  rfl

theorem travel_flat (ht : TextType type) (h : bytes.length < invalidSize) : ∀ (trips : List Trip) (ro : Bool),
    ∃ ro', travel (.flat type ro bytes) trips = some (.flat type ro' bytes)
  | [], ro => ⟨ro, rfl⟩
  | trip :: trips, ro => by
    have hstep : ∃ ro', trip.take (.flat type ro bytes) = some (.flat type ro' bytes) := by
      have hcopy : Content.ofBytes type bytes = .flat type false bytes := if_neg ht.ne_empty
      cases trip with
      | packet => exact ⟨true, packet_take ht h rfl (by rw [Content.mkPayload])⟩
      | copy => exact ⟨false, congrArg some hcopy⟩
      | clone => exact ⟨false, congrArg some (by rw [Content.clone, hcopy])⟩
    rcases hstep with ⟨ro', hstep⟩
    rw [travel, hstep, Option.bind_some]
    exact travel_flat ht h trips ro'

/-- A narrow string keeps its text, unless it is cloned in place and was not ASCII. -/
theorem travel_strA (h : bytes.length < invalidSize) : ∀ (trips : List Trip) {type : EType}, TextType type →
    ∃ v, travel (.strA type bytes) trips = some v ∧
      (clonedInPlace trips = false → v.getType = type ∧ v.getStringW = Content.stringOf type bytes) ∧
      (clonedInPlace trips = true → v.getType = varTypeAscii ∧ v.getStringW = Content.stringOf varTypeAscii bytes)
  | [], _, _ => ⟨_, rfl, fun _ => ⟨rfl, by rw [Content.getStringW, sized_of_lt h]⟩, fun hc => by cases hc⟩
  | .packet :: trips, type, ht => by
    have hp : (Content.strA type bytes).mkPayload = some bytes := by rw [Content.mkPayload, sized_of_lt h]
    rcases travel_flat ht h trips true with ⟨ro, hf⟩
    refine ⟨.flat type ro bytes, ?_, fun _ => ⟨rfl, rfl⟩, fun hc => by cases hc⟩
    rw [travel, packet_take ht h rfl hp, Option.bind_some, hf]
  | .copy :: trips, _, ht => travel_strA h trips ht
  | .clone :: trips, type, _ => by
    have hclone : (Content.strA type bytes).clone = .strA varTypeAscii bytes := by rw [Content.clone]
    have hascii : TextType varTypeAscii := ⟨by decide, by decide⟩
    rcases travel_strA h trips hascii with ⟨v, hv, h₁, h₂⟩
    refine ⟨v, by rw [travel, Trip.take, hclone]; exact hv, fun hc => (by cases hc), fun _ => ?_⟩
    cases hc : clonedInPlace trips
    · exact h₁ hc
    · exact h₂ hc

/-- A wide string keeps its text, unless it is cloned in place. -/
theorem travel_strW : ∀ (trips : List Trip) {str : List UInt16}, (wideBytes str).length < invalidSize →
    ∃ v, travel (.strW str) trips = some v ∧
      (clonedInPlace trips = false ∨ str = [] → v.getType = varTypeUnicode ∧ v.getStringW = .ok str) ∧
      (clonedInPlace trips = true → ∃ part, v.getStringW = .ok part ∧ part.length ≤ str.length / 2)
  | [], _, _ => ⟨_, rfl, fun _ => ⟨rfl, rfl⟩, fun hc => by cases hc⟩
  | .packet :: trips, str, h => by
    have ht : TextType varTypeUnicode := ⟨by decide, by decide⟩
    have hp : (Content.strW str).mkPayload = some (wideBytes str) := by rw [Content.mkPayload, sized_of_lt h]
    have htext : Content.stringOf varTypeUnicode (wideBytes str) = .ok str := by
      rw [Content.stringOf, if_neg (by decide), if_pos rfl, wideUnits_wideBytes]
    rcases travel_flat ht h trips true with ⟨ro, hf⟩
    refine ⟨.flat varTypeUnicode ro (wideBytes str), ?_, fun _ => ⟨rfl, htext⟩, fun hc => by cases hc⟩
    rw [travel, packet_take ht h rfl hp, Option.bind_some, hf]
  | .copy :: trips, _, h => travel_strW trips h
  | .clone :: trips, str, h => by
    have hclone : (Content.strW str).clone = .strW (str.take (str.length / 2)) := by rw [Content.clone]
    have hlen : (str.take (str.length / 2)).length = str.length / 2 := by
      rw [List.length_take]
      omega
    have hshort : (wideBytes (str.take (str.length / 2))).length < invalidSize := by
      rw [length_wideBytes] at h ⊢
      omega
    rcases travel_strW trips hshort with ⟨v, hv, h₁, h₂⟩
    refine ⟨v, by rw [travel, Trip.take, hclone]; exact hv, ?_, ?_⟩
    · rintro (hc | rfl)
      · cases hc
      · exact h₁ (.inr rfl)
    · rintro -
      cases hc : clonedInPlace trips
      · exact ⟨_, (h₁ (.inl hc)).2, by omega⟩
      · rcases h₂ hc with ⟨part, hpart, hle⟩
        exact ⟨part, hpart, by omega⟩

end Trips

/-! ### What is found -/

/-- A place for a value: the other entries are variants of the format, names have a length byte, and
the key is not written before. -/
def Place.Ok : Place → Prop
  | .map name before after =>
    (∀ e ∈ before ++ after, Valid e.2.1 e.2.2) ∧ (name.length < 256 ∧ ∀ e ∈ before ++ after, e.1.length < 256) ∧
      ∀ e ∈ before, e.1 ≠ name
  | .index id before after => (∀ e ∈ before ++ after, Valid e.2.1 e.2.2) ∧ ∀ e ∈ before, e.1 ≠ id
  | .list before after => ∀ e ∈ before ++ after, Valid e.2.1 e.2.2

section Places
variable {K : Type} {type : EType} {data : Bytes}

theorem entries_writeEntries (key : K → Bytes) : ∀ {es : List (K × EType × Bytes)}, (∀ e ∈ es, Valid e.2.1 e.2.2) →
    Entries key es (writeEntries key es)
  | [], _ => .nil
  | (k, type, data) :: es, h => by
    rcases List.forall_mem_cons.1 h with ⟨hv, hes⟩
    exact .cons hv .toPacket (entries_writeEntries key hes)

theorem valid_with (data : Bytes) {before after : List (K × EType × Bytes)} (h : ∀ e ∈ before ++ after, Valid e.2.1 e.2.2)
    (ht : TextType type) (k : K) : ∀ e ∈ before ++ (k, type, data) :: after, Valid e.2.1 e.2.2 := by
  rintro e he
  rcases List.mem_append.1 he with he | he
  · exact h e (List.mem_append_left _ he)
  · rcases List.mem_cons.1 he with rfl | he
    · exact ⟨ht.mask, fun hc => absurd hc ht.ne_empty⟩
    · exact h e (List.mem_append_right _ he)

theorem entryOf_with [DecidableEq K] {before after : List (K × EType × Bytes)} {k : K} (h : ∀ e ∈ before, e.1 ≠ k) :
    entryOf (before ++ (k, type, data) :: after) k = some (type, data) := by
  have hnone : before.find? (·.1 = k) = none := by
    rw [List.find?_eq_none]
    rintro e he
    simpa using h e he
  rw [entryOf, List.find?_append, hnone]
  simp

/-- A value that was written is found. -/
theorem Place.found_eq {place : Place} (hok : place.Ok) (ht : TextType type)
    (h : (place.payload type data).length < invalidSize) : place.found type data = some (.flat type true data) := by
  have hle : (place.payload type data).length ≤ ulongMax := Nat.le_of_lt h
  unfold Place.found
  simp only [sized_of_lt h]
  cases place with
  | map name before after =>
    rcases hok with ⟨hv, ⟨hname, hnames⟩, hnew⟩
    have hes := entries_writeEntries nameKey (valid_with data hv ht name)
    have hshort : ShortNames (before ++ (name, type, data) :: after) := by
      rintro e he
      rcases List.mem_append.1 he with he | he
      · exact hnames e (List.mem_append_left _ he)
      · rcases List.mem_cons.1 he with rfl | he
        · exact hname
        · exact hnames e (List.mem_append_right _ he)
    have hfind := findNameLoop_entries name _ _ _ hes hle hshort (Nat.lt_succ_of_le (hes.length_le hle))
    simp only [Place.payload, rawFindName]
    rw [hfind, entryOf_with hnew]
    rfl
  | index id before after =>
    rcases hok with ⟨hv, hnew⟩
    have hes := entries_writeEntries idKey (valid_with data hv ht id)
    have hfind := findIdLoop_entries id _ _ _ hes hle (Nat.lt_succ_of_le (hes.length_le hle))
    simp only [Place.payload, rawFindId]
    rw [hfind, entryOf_with hnew]
    rfl
  | list before after =>
    have hes := entries_writeEntries noKey (valid_with data hok ht ())
    have hread := readRawListLoop_entries _ _ _ hes hle (Nat.lt_succ_of_le (hes.length_le hle))
    simp only [Place.payload, readRawList]
    rw [hread]
    simp

theorem length_le_payload (place : Place) (type : EType) (data : Bytes) :
    data.length ≤ (place.payload type data).length := by
  cases place <;> simp [Place.payload, writeEntries, toPacket] <;> omega

end Places

/-! ## Text that survives -/

/-- The text comes back, under the type that was asked for. -/
def Survives (s : List UInt16) (w : Writer) (trips : List Trip) : Prop :=
  ∃ v, w.write s = some v ∧ v.getType = w.asked ∧
    ∃ arrived, travel v trips = some arrived ∧ arrived.getType = w.asked ∧ arrived.getStringW = .ok s

/-- A writer whose entry has a place in its container. -/
def Writer.Ok : Writer → Prop
  | .entry place _ => place.Ok
  | _ => True

/-- The sizes of what is written can be noted in 32 bits. -/
def Writer.Fits (s : List UInt16) : Writer → Prop
  | .chars | .string => (wideBytes s).length < invalidSize
  | .entry place .chars => (place.payload varTypeUnicode (wideBytes s)).length < invalidSize
  | .entry place .utf8Chars | .entry place .narrow => (place.payload varTypeAscii (toUtf8 s)).length < invalidSize
  | .entry place .value => (place.payload varTypeUtf8 (toUtf8 s)).length < invalidSize
  | .utf8Chars | .utf8String | .narrowChars | .narrowString | .bytes => (toUtf8 s).length < invalidSize

/-- When a text survives: not as UTF-8 from wide characters, which is filed as ASCII; as a narrow
string when it is ASCII; and in a shared string when that is empty or not cloned. -/
def Writer.Keeps (s : List UInt16) (trips : List Trip) : Writer → Prop
  | .chars | .bytes | .entry _ .chars | .entry _ .value => True
  | .utf8Chars | .entry _ .utf8Chars => False
  | .narrowChars | .narrowString | .entry _ .narrow => ∀ c ∈ s, c.toNat ≤ 0x7F
  | .string | .utf8String => s = [] ∨ clonedInPlace trips = false

theorem textType_unicode : TextType varTypeUnicode := ⟨by decide, by decide⟩
theorem textType_utf8 : TextType varTypeUtf8 := ⟨by decide, by decide⟩
theorem textType_ascii : TextType varTypeAscii := ⟨by decide, by decide⟩

section Arrival
variable {s : List UInt16} {w : Writer} {trips : List Trip} {type : EType} {bytes : Bytes}

theorem stringOf_unicode (s : List UInt16) : Content.stringOf varTypeUnicode (wideBytes s) = .ok s := by
  rw [Content.stringOf, if_neg (by decide), if_pos rfl, wideUnits_wideBytes]

theorem stringOf_utf8 (hs : WellFormed s) : Content.stringOf varTypeUtf8 (toUtf8 s) = .ok s := by
  rw [Content.stringOf, if_neg (by decide), if_neg (by decide), if_pos rfl, fromUtf8_toUtf8 hs]

theorem stringOf_ascii (hs : WellFormed s) :
    Content.stringOf varTypeAscii (toUtf8 s) = .ok s ↔ ∀ c ∈ s, c.toNat ≤ 0x7F := by
  rw [Content.stringOf, if_neg (by decide), if_neg (by decide), if_neg (by decide), if_pos (Or.inl rfl),
    ← widen_toUtf8_iff hs]
  exact ⟨fun h => Except.ok.inj h, fun h => congrArg _ h⟩

/-- A text in a payload of its own survives when its type is the right one and says the text. -/
theorem survives_flat (ht : TextType type) (h : bytes.length < invalidSize) {ro : Bool}
    (hw : w.write s = some (.flat type ro bytes)) :
    Survives s w trips ↔ type = w.asked ∧ Content.stringOf type bytes = .ok s := by
  rcases travel_flat ht h trips ro with ⟨ro', htr⟩
  constructor
  · rintro ⟨v, hv, hta, arrived, harr, -, hstr⟩
    cases hw.symm.trans hv
    cases htr.symm.trans harr
    exact ⟨hta, hstr⟩
  · rintro ⟨hta, hstr⟩
    exact ⟨_, hw, hta, _, htr, hta, hstr⟩

/-- A text in a shared narrow string has to keep its type on the way. -/
theorem survives_strA (ht : TextType type) (h : bytes.length < invalidSize) (hw : w.write s = some (.strA type bytes)) :
    Survives s w trips ↔
      type = w.asked ∧ Content.stringOf type bytes = .ok s ∧ (type = varTypeAscii ∨ clonedInPlace trips = false) := by
  rcases travel_strA h trips ht with ⟨v', htr, hkept, hlost⟩
  constructor
  · rintro ⟨v, hv, hta, arrived, harr, hta', hstr⟩
    cases hw.symm.trans hv
    cases htr.symm.trans harr
    rcases hc : clonedInPlace trips with _ | _
    · rw [(hkept hc).2] at hstr
      exact ⟨hta, hstr, .inr rfl⟩
    · rcases hlost hc with ⟨hty, hst⟩
      have hty' : type = varTypeAscii := hta.trans (hta'.symm.trans hty)
      rw [hst, ← hty'] at hstr
      exact ⟨hta, hstr, .inl hty'⟩
  · rintro ⟨hta, hstr, hk⟩
    refine ⟨_, hw, hta, v', htr, ?_⟩
    rcases hc : clonedInPlace trips with _ | _
    · exact ⟨(hkept hc).1.trans hta, (hkept hc).2.trans hstr⟩
    · rcases hk with rfl | hk
      · exact ⟨(hlost hc).1.trans hta, (hlost hc).2.trans hstr⟩
      · rw [hk] at hc
        cases hc

theorem survives_strW (h : (wideBytes s).length < invalidSize) :
    Survives s .string trips ↔ s = [] ∨ clonedInPlace trips = false := by
  rcases travel_strW trips h with ⟨v', htr, hkept, hlost⟩
  constructor
  · rintro ⟨v, hv, -, arrived, harr, -, hstr⟩
    cases hv
    cases htr.symm.trans harr
    rcases hc : clonedInPlace trips with _ | _
    · exact .inr rfl
    · -- a clone halves the text, which only an empty one survives
      rcases hlost hc with ⟨part, hpart, hle⟩
      rw [hstr] at hpart
      cases hpart
      exact .inl (List.length_eq_zero_iff.1 (by omega))
  · rintro hk
    exact ⟨_, rfl, rfl, v', htr, hkept hk.symm⟩

/-- A value that is written into a container survives when its type is the right one and says the text. -/
theorem survives_entry {place : Place} {text : EntryText} (hok : place.Ok) (ht : TextType type)
    (h : (place.payload type bytes).length < invalidSize)
    (hw : (Writer.entry place text).write s = place.found type bytes) :
    Survives s (.entry place text) trips ↔
      type = (Writer.entry place text).asked ∧ Content.stringOf type bytes = .ok s :=
  survives_flat ht (Nat.lt_of_le_of_lt (length_le_payload place type bytes) h) (hw.trans (Place.found_eq hok ht h))

end Arrival

/-- Which texts survive which routes. -/
theorem survives_iff {s : List UInt16} (hs : WellFormed s) {w : Writer} (hok : w.Ok) (hfit : w.Fits s)
    (trips : List Trip) : Survives s w trips ↔ w.Keeps s trips := by
  have hplain : ∀ {type : EType} {bytes : Bytes}, TextType type → bytes.length < invalidSize →
      some (Content.initValue type bytes) = some (.flat type false bytes) := fun ht h => by
    rw [Content.initValue, sized_of_lt h, Content.ofBytes, if_neg ht.ne_empty]
  have hempty : ([] : Bytes).length < invalidSize := by
    rw [List.length_nil]
    unfold invalidSize
    omega
  cases w with
  | chars =>
    have hw : Writer.write s .chars = some (.flat varTypeUnicode false (wideBytes s)) :=
      hplain textType_unicode hfit
    rw [survives_flat textType_unicode hfit hw]
    simp [Writer.asked, Writer.Keeps, stringOf_unicode]
  | utf8Chars =>
    -- the text is filed as ASCII, whether it has data or not
    rcases hd : Content.utf8Data s with _ | data
    · have hw : Writer.write s .utf8Chars = some (.flat varTypeAscii false []) := by
        rw [Writer.write, hd, Content.initFromStringA, if_neg (by decide)]
      rw [survives_flat textType_ascii hempty hw]
      simp [Writer.asked, Writer.Keeps, varTypeAscii, varTypeUtf8]
    · have hw : Writer.write s .utf8Chars = some (.strA varTypeAscii data) := by
        rw [Writer.write, hd, Content.initFromStringA, if_neg (by decide)]
      have hlen : data.length < invalidSize := by
        unfold Content.utf8Data at hd
        split at hd
        · cases hd
        · cases hd
          exact hfit
      rw [survives_strA textType_ascii hlen hw]
      simp [Writer.asked, Writer.Keeps, varTypeAscii, varTypeUtf8]
  | string => exact survives_strW hfit
  | utf8String =>
    by_cases hnil : s = []
    · have hw : Writer.write s .utf8String = some (.flat varTypeUtf8 false []) := by
        rw [Writer.write, Content.utf8Data, if_pos hnil, Content.initFromStringA, if_pos rfl]
      have hstr : Content.stringOf varTypeUtf8 [] = .ok s := by
        rw [← stringOf_utf8 hs, hnil]
        rfl
      rw [survives_flat textType_utf8 hempty hw]
      exact ⟨fun _ => .inl hnil, fun _ => ⟨rfl, hstr⟩⟩
    · have hw : Writer.write s .utf8String = some (.strA varTypeUtf8 (toUtf8 s)) := by
        rw [Writer.write, Content.utf8Data, if_neg hnil, Content.initFromStringA, if_pos rfl]
      rw [survives_strA textType_utf8 hfit hw, stringOf_utf8 hs]
      simp [Writer.asked, Writer.Keeps, hnil, varTypeAscii, varTypeUtf8]
  | narrowChars =>
    have hw : Writer.write s .narrowChars = some (.flat varTypeAscii false (toUtf8 s)) :=
      hplain textType_ascii hfit
    rw [survives_flat textType_ascii hfit hw, stringOf_ascii hs]
    simp [Writer.asked, Writer.Keeps]
  | narrowString =>
    rw [survives_strA textType_ascii hfit rfl, stringOf_ascii hs]
    simp [Writer.asked, Writer.Keeps]
  | bytes =>
    have hw : Writer.write s .bytes = some (.flat varTypeUtf8 false (toUtf8 s)) := hplain textType_utf8 hfit
    rw [survives_flat textType_utf8 hfit hw, stringOf_utf8 hs]
    simp [Writer.asked, Writer.Keeps]
  | entry place text =>
    cases text with
    | chars =>
      rw [survives_entry hok textType_unicode hfit rfl]
      simp [Writer.asked, Writer.Keeps, stringOf_unicode]
    | utf8Chars =>
      rw [survives_entry hok textType_ascii hfit rfl]
      simp [Writer.asked, Writer.Keeps, varTypeAscii, varTypeUtf8]
    | narrow =>
      rw [survives_entry hok textType_ascii hfit rfl, stringOf_ascii hs]
      simp [Writer.asked, Writer.Keeps]
    | value =>
      rw [survives_entry hok textType_utf8 hfit rfl, stringOf_utf8 hs]
      simp [Writer.asked, Writer.Keeps]

theorem survives_iff_e_acute : WellFormed [0xE9] ∧ Survives [0xE9] .utf8String [.packet, .copy] := by
  have hs : WellFormed [0xE9] := .unit (by decide) .nil
  have hfit : Writer.Fits [0xE9] .utf8String := Nat.lt_of_le_of_lt (show _ ≤ 2 by decide) (by unfold invalidSize; omega)
  exact ⟨hs, (survives_iff hs (w := .utf8String) trivial hfit _).2 (.inr rfl)⟩

/-- UTF-8 from wide characters: bUtf8 is not passed on, and the bytes are read as Latin-1. -/
theorem not_survives_utf8Chars : WellFormed [0xE9] ∧ ¬ Survives [0xE9] .utf8Chars [] := by
  refine ⟨.unit (by decide) .nil, ?_⟩
  rintro ⟨v, hv, hta, -⟩
  cases hv
  revert hta
  decide

end MajorPrivacy.Variant

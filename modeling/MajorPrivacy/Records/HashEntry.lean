/-
`CHash` (HashEntry.cpp, API_HashDB.cpp): an entry of the hash database with the enclaves and collections
it is for. The ids of the enclaves are written like those of rules, as texts or as bytes, but they are
read as texts only.
-/
import MajorPrivacy.Records.Ids

namespace MajorPrivacy.Records

open LittleEndian MajorPrivacy.Firewall
open MajorPrivacy.Variant hiding Value
open MajorPrivacy.Guid hiding Value

inductive EHashType
  | eUnknown | eFileHash | eCertHash
  deriving DecidableEq

instance : Enumeration EHashType where
  values := [.eUnknown, .eFileHash, .eCertHash]
  number
    | .eUnknown => 0
    | .eFileHash => 1
    | .eCertHash => 2
  number_inj := by decide
  mem_values := by rintro (_ | _ | _) <;> decide

def EHashType.keyword : EHashType → Option String
  | eUnknown => none
  | eFileHash => "FileHash"
  | eCertHash => "CertHash"

theorem keywordsDiffer_hashType : KeywordsDiffer EHashType.keyword := by decide +kernel

structure CHash where
  name : Str
  description : Str
  bEnabled : Bool
  bTemporary : Bool
  type : Enum EHashType
  hash : Bytes
  enclaves : List CFlexGuid
  collections : List Str
  data : StVariant

/-- A `CBuffer` that is written. -/
def bytesValue (bytes : Bytes) : Value := (varTypeBytes, bytes)

/-- `ToBuffer`. -/
def toBuffer (v : Value) : Except EResult Bytes :=
  if v.1 = varTypeEmpty then .error .eErrIsEmpty
  else if v.1 = varTypeMap ∨ v.1 = varTypeList ∨ v.1 = varTypeIndex then .error .eErrTypeMismatch
  else .ok v.2

theorem toBuffer_bytes (bytes : Bytes) : toBuffer (bytesValue bytes) = .ok bytes := by
  have hbytes : varTypeBytes ≠ varTypeEmpty ∧ ¬ (varTypeBytes = varTypeMap ∨ varTypeBytes = varTypeList ∨ varTypeBytes = varTypeIndex) := by
    decide
  rw [toBuffer, bytesValue, if_neg hbytes.1, if_neg hbytes.2]

theorem valid_bytes (bytes : Bytes) : Valid (bytesValue bytes).1 (bytesValue bytes).2 :=
  ⟨textType_bytes.mask, fun h => absurd h textType_bytes.ne_empty⟩

namespace CHash

def new : CHash := ⟨[], [], true, false, .of .eUnknown, [], [], [], .new⟩

/-! ## Writing -/

/-- The list of the enclaves, the same in both formats. -/
def enclavesValue (h : CHash) (bTextGuids : Bool) : Value := .list (h.enclaves.map (idValue bTextGuids))

/-- `WriteIVariant`. -/
def writeIVariant (h : CHash) (bTextGuids : Bool) : List (Field × Value) :=
  [(.name, .str h.name), (.ruleDescr, .str h.description), (.enabled, .bool h.bEnabled), (.temp, .bool h.bTemporary),
    (.type, .uint32 h.type.number), (.hash, bytesValue h.hash), (.enclaves, h.enclavesValue bTextGuids),
    (.collections, .strList h.collections), (.data, h.data.value)]

/-- `WriteMVariant`. -/
def writeMVariant (h : CHash) (bTextGuids : Bool) : List (Field × Value) :=
  [(.name, .str h.name), (.ruleDescr, .str h.description), (.enabled, .bool h.bEnabled), (.temp, .bool h.bTemporary)] ++
  writeEnum EHashType.keyword .type h.type ++
  [(.hash, bytesValue h.hash), (.enclaves, h.enclavesValue bTextGuids), (.collections, .strList h.collections),
    (.data, h.data.value)]

def writeVariant (h : CHash) (bTextGuids : Bool) : EFormat → List (Field × Value)
  | .eIndex => h.writeIVariant bTextGuids
  | .eMap => h.writeMVariant bTextGuids

/-- `ToVariant`. -/
def toVariant (h : CHash) (bTextGuids : Bool) (format : EFormat) : Value := Record.finish (h.writeVariant bTextGuids format) format

/-! ## Reading -/

/-- The fields `ReadIValue` and `ReadMValue` read alike. -/
def readShared (doubleText : Bytes → Str) (h : CHash) (data : Value) : Field → Except EResult CHash
  | .name => .ok { h with name := asStr doubleText data }
  | .ruleDescr => .ok { h with description := asStr doubleText data }
  | .enabled => (toBool data).map fun b => { h with bEnabled := b }
  | .temp => (toBool data).map fun b => { h with bTemporary := b }
  | .hash => (toBuffer data).map fun bytes => { h with hash := bytes }
  | .enclaves => (elements data).map fun l => { h with enclaves := l.map (readIdText doubleText) }
  | .collections => (readStrings doubleText data).map fun l => { h with collections := l }
  | .data => .ok { h with data := .clone data }
  | _ => .ok h

/-- `ReadIValue`. -/
def readIValue (doubleText : Bytes → Str) (h : CHash) (data : Value) : Field → Except EResult CHash
  | .type => (toUInt32 data).map fun n => { h with type := ⟨n⟩ }
  | f => readShared doubleText h data f

/-- `ReadMValue`. -/
def readMValue (doubleText : Bytes → Str) (h : CHash) (data : Value) : Field → Except EResult CHash
  | .type => (Firewall.toString data).map fun s => { h with type := readEnum EHashType.keyword (.of .eUnknown) s }
  | f => readShared doubleText h data f

def readValue (doubleText : Bytes → Str) : EFormat → CHash → Value → Field → Except EResult CHash
  | .eIndex => readIValue doubleText
  | .eMap => readMValue doubleText

/-- An entry goes through a packet into another one. -/
def readBack (doubleText : Bytes → Str) (h target : CHash) (bTextGuids : Bool) (format : EFormat) : Except EResult (Option CHash) :=
  Record.readBack (readValue doubleText) (h.writeVariant bTextGuids format) format target

/-! ## What comes back -/

/-- The enclaves that are read from the list that was written. -/
def readEnclaves (doubleText : Bytes → Str) (h : CHash) (bTextGuids : Bool) : List CFlexGuid :=
  h.enclaves.map fun g => readIdText doubleText (idValue bTextGuids g)

/-- The variant and the ids in it fit. -/
structure Fits (h : CHash) (bTextGuids : Bool) (format : EFormat) : Prop where
  variant : (h.toVariant bTextGuids format).2.length < invalidSize
  enclaves : ∀ g ∈ h.enclaves, FitsId g

section Read
variable (doubleText : Bytes → Str) {h : CHash} {bTextGuids : Bool}

theorem valid_writeVariant {format : EFormat} : ∀ f ∈ h.writeVariant bTextGuids format, Valid f.2.1 f.2.2 := by
  have hvalid : ∀ f ∈ h.writeIVariant bTextGuids, Valid f.2.1 f.2.2 := by
    simp only [writeIVariant, List.forall_mem_cons, List.not_mem_nil, false_imp_iff, implies_true, and_true, valid_str, valid_bool,
      valid_uint32, valid_bytes, valid_list, enclavesValue, Value.strList, h.data.valid]
  cases format with
  | eIndex => exact hvalid
  | eMap =>
    simp only [writeIVariant, List.forall_mem_cons] at hvalid
    simp only [writeVariant, writeMVariant, List.forall_mem_append, List.forall_mem_cons]
    rcases hvalid with ⟨hname, hdescr, henabled, htemp, -, hhash, henclaves, hcollections, hdata⟩
    exact ⟨⟨⟨hname, hdescr, henabled, htemp, fun f hf => by cases hf⟩, valid_writeEnum _ _⟩, hhash, henclaves, hcollections, hdata⟩

theorem named_writeVariant {format : EFormat} : Record.Named (h.writeVariant bTextGuids format) format := by
  cases format with
  | eIndex => exact trivial
  | eMap =>
    simp only [Record.Named, writeVariant, writeMVariant, List.forall_mem_append, List.forall_mem_cons, writeEnum, List.forall_mem_map]
    refine ⟨⟨⟨?_, ?_, ?_, ?_, fun f hf => by cases hf⟩, fun s _ => ?_⟩, ?_, ?_, ?_, ?_, fun f hf => by cases hf⟩
    all_goals rintro hkey; cases hkey

section Fits
variable {format : EFormat} (hfits : h.Fits bTextGuids format)
include hfits

/-- The two lists fit. -/
theorem Fits.lists : (h.enclavesValue bTextGuids).2.length ≤ ulongMax ∧ (Value.strList h.collections).2.length ≤ ulongMax := by
  have hle : ∀ f ∈ h.writeVariant bTextGuids format, f.2.2.length ≤ ulongMax := fun f hf =>
    (Record.length_le_finish _ format f hf).trans (Nat.le_of_lt hfits.variant)
  cases format with
  | eIndex =>
    exact ⟨hle (.enclaves, h.enclavesValue bTextGuids) (by simp [writeVariant, writeIVariant]),
      hle (.collections, .strList h.collections) (by simp [writeVariant, writeIVariant])⟩
  | eMap =>
    exact ⟨hle (.enclaves, h.enclavesValue bTextGuids) (by simp [writeVariant, writeMVariant]),
      hle (.collections, .strList h.collections) (by simp [writeVariant, writeMVariant])⟩

theorem elements_enclaves : elements (h.enclavesValue bTextGuids) = .ok (h.enclaves.map (idValue bTextGuids)) := by
  refine elements_list ?_ hfits.lists.1
  simp only [List.forall_mem_map]
  exact fun g hg => valid_idValue (hfits.enclaves g hg)

/-- The type that comes back. -/
def typeBack (h : CHash) : EFormat → Enum EHashType
  | .eIndex => h.type
  | .eMap => if h.type.keyword EHashType.keyword = none then .of .eUnknown else h.type

/-- All fields come back but for the ids that are no texts and the types that have no keyword. -/
theorem readBack_eq : h.readBack doubleText .new bTextGuids format =
    .ok (some { h with enclaves := h.readEnclaves doubleText bTextGuids, type := h.typeBack format }) := by
  have hread : Record.readAll (readValue doubleText format) (h.writeVariant bTextGuids format) .new =
      .ok { h with enclaves := h.readEnclaves doubleText bTextGuids, type := h.typeBack format } := by
    cases format with
    | eIndex =>
      simp only [writeVariant, writeIVariant, Record.readAll_cons, Record.readAll_nil, readValue, readIValue, readShared, asStr_str,
        toBool_bool, toUInt32_uint32, toBuffer_bytes, elements_enclaves hfits, readStrings_strList doubleText hfits.lists.2,
        StVariant.clone_value, Record.map_ok, Record.bind_ok, List.map_map, readEnclaves, typeBack]
      rfl
    | eMap =>
      have htype : ∀ r, Record.readAll (readMValue doubleText) (writeEnum EHashType.keyword .type h.type) r =
          .ok (if h.type.keyword EHashType.keyword = none then r else { r with type := h.type }) :=
        readAll_writeEnum keywordsDiffer_hashType (fun _ => .of .eUnknown) (fun (h : CHash) n => { h with type := n })
          (fun r s => by rw [readMValue, toString_ascii, Record.map_ok]) h.type
      simp only [writeVariant, writeMVariant, Record.readAll_append, htype, Record.readAll_cons, Record.readAll_nil, readValue,
        readMValue, readShared, asStr_str, toBool_bool, toBuffer_bytes, elements_enclaves hfits,
        readStrings_strList doubleText hfits.lists.2, StVariant.clone_value, Record.map_ok, Record.bind_ok, List.map_map,
        readEnclaves, typeBack]
      split <;> rfl
  rw [readBack, Record.readBack_eq _ _ valid_writeVariant named_writeVariant hfits.variant, hread, Record.map_ok]

end Fits

end Read

/-! ## The codec -/

/-- Two entries that are equal, where ids are equal as `Compare` has it. -/
structure Same (a b : CHash) : Prop where
  fields : a = { b with enclaves := a.enclaves }
  enclaves : List.Forall₂ (fun g g' => g.compare g' = .eq) a.enclaves b.enclaves

/-- An entry that was written comes back as an equal one. -/
def Codec (doubleText : Bytes → Str) (h : CHash) (bTextGuids : Bool) (format : EFormat) : Prop :=
  ∃ read, h.readBack doubleText .new bTextGuids format = .ok (some read) ∧ Same read h

theorem typeBack_eq (h : CHash) (format : EFormat) : h.typeBack format = h.type ↔ (format = .eMap → ∃ e, h.type = .of e) := by
  cases format with
  | eIndex => exact iff_of_true rfl fun h => by cases h
  | eMap =>
    rw [typeBack]
    rcases hs : h.type.keyword EHashType.keyword with _ | s
    · rw [if_pos rfl]
      constructor
      · exact fun heq _ => ⟨.eUnknown, heq.symm⟩
      · rintro hnamed
        rcases hnamed rfl with ⟨e, he⟩
        rw [he, Enum.keyword_of] at hs
        cases e with
        | eUnknown => exact he.symm
        | eFileHash => cases hs
        | eCertHash => cases hs
    · rcases Enum.of_keyword hs with ⟨e, he, -⟩
      exact iff_of_true (if_neg fun h => by cases h) fun _ => ⟨e, he⟩

/-- An entry comes back when its enclaves have ids that are written as texts, and in a map its type one of
those there are. -/
theorem hash_codec_iff (doubleText : Bytes → Str) (h : CHash) (bTextGuids : Bool) (format : EFormat) (hfits : h.Fits bTextGuids format) :
    Codec doubleText h bTextGuids format ↔
      (∀ g ∈ h.enclaves, ByText bTextGuids g) ∧ (format = .eMap → ∃ e, h.type = .of e) := by
  have henclaves : List.Forall₂ (fun g g' => g.compare g' = .eq) (h.readEnclaves doubleText bTextGuids) h.enclaves ↔
      ∀ g ∈ h.enclaves, ByText bTextGuids g := by
    rw [readEnclaves, List.forall₂_map_left_iff, List.forall₂_same]
    exact forall₂_congr fun g hg => readIdText_compare doubleText (hfits.enclaves g hg)
  rw [← henclaves, ← typeBack_eq, Codec, readBack_eq doubleText hfits]
  constructor
  · rintro ⟨read, hread, hfields, hsame⟩
    cases hread
    exact ⟨hsame, congrArg CHash.type hfields⟩
  · rintro ⟨hsame, htype⟩
    exact ⟨_, rfl, by rw [htype], hsame⟩

/-- A file that may run in one enclave. -/
def marked : CHash :=
  { new with type := .of .eFileHash, hash := [0xAB, 0xCD], enclaves := [⟨.regular ⟨List.replicate 16 0xAB, rfl⟩, 0⟩] }

theorem fits_marked (bTextGuids : Bool) (format : EFormat) : marked.Fits bTextGuids format := by
  have henclave : FitsId ⟨.regular ⟨List.replicate 16 0xAB, rfl⟩, 0⟩ := by
    unfold FitsId
    decide
  refine ⟨?_, fun g hg => by rw [List.mem_singleton.1 hg]; exact henclave⟩
  have hlist : marked.enclavesValue bTextGuids = .list [idValue bTextGuids ⟨.regular ⟨List.replicate 16 0xAB, rfl⟩, 0⟩] := rfl
  cases bTextGuids with
  | true =>
    rw [idValue_text] at hlist
    cases format with
    | eIndex =>
      rw [toVariant, writeVariant, writeIVariant, hlist]
      decide +kernel
    | eMap =>
      rw [toVariant, writeVariant, writeMVariant, hlist]
      decide +kernel
  | false =>
    rw [idValue_bytes] at hlist
    cases format with
    | eIndex =>
      rw [toVariant, writeVariant, writeIVariant, hlist]
      decide +kernel
    | eMap =>
      rw [toVariant, writeVariant, writeMVariant, hlist]
      decide +kernel

/-- Where GUIDs are written as texts the enclave is the same. -/
theorem hash_codec_iff_marked : Codec (fun _ => []) marked true .eMap := by
  refine (hash_codec_iff _ marked true .eMap (fits_marked true .eMap)).2 ⟨fun g hg => ?_, fun _ => ⟨.eFileHash, rfl⟩⟩
  rw [List.mem_singleton.1 hg]
  exact ⟨rfl, rfl⟩

/-- Where they are written as bytes it is another one. -/
theorem not_hash_codec : ¬ ∀ h : CHash, ∀ bTextGuids format, h.Fits bTextGuids format →
    Codec (fun _ => []) h bTextGuids format := by
  rintro hall
  have hread := hall marked false .eIndex (fits_marked false .eIndex)
  rw [Codec, readBack_eq _ (fits_marked false .eIndex)] at hread
  rcases hread with ⟨read, hread, hsame⟩
  cases hread
  have henclave := (@readIdText_compare false _ (fun _ => []) ((fits_marked false .eIndex).enclaves _ (List.mem_singleton_self _))).1
    (List.forall₂_cons.1 hsame.enclaves).1
  cases henclave.1

end CHash

end MajorPrivacy.Records

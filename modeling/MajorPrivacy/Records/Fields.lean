/-
The fields of hash entries, program rules and enclaves (PrivacyAPI.h), and the values these records have
that the rules of the firewall do not: lists that are gone through by index, ids, and variants that are
kept as they are.
-/
import MajorPrivacy.Records.Record
import MajorPrivacy.Guid.Identity

namespace MajorPrivacy.Records

open LittleEndian MajorPrivacy.Firewall
open MajorPrivacy.Variant hiding Value
open MajorPrivacy.Guid hiding Value
open Content (stored)

/-! ## Fields -/

inductive Field
  | guid | enabled | enclave | principalSddl | temp | timeout | name | ruleDescr | data | execRuleAction | useScript | script
  | dllInjectMode | filePath | execSignReq | execAllowedSigners | execAllowedCollections | imageLoadProtection
  | imageCoherencyChecking | execAllowedChildren | execAllowedParents | execBlockedChildren | execBlockedParents | volumeGuid
  | execOnTrustedSpawn | execOnSpawn | integrityLevel | allowDebugging | keepAlive | type | hash | enclaves | collections
  deriving DecidableEq

namespace Field

/-- `API_V_..`, the four characters of which are in the comment. -/
def toId : Field → UInt32
  | guid => 0x67756964                    -- guid
  | enabled => 0x656E626C                 -- enbl
  | enclave => 0x656E636C                 -- encl
  | principalSddl => 0x7073646C           -- psdl
  | temp => 0x74656D70                    -- temp
  | timeout => 0x746D6F74                 -- tmot
  | name => 0x6E616D65                    -- name
  | ruleDescr => 0x64657363               -- desc
  | data => 0x64617461                    -- data
  | execRuleAction => 0x65786163          -- exac
  | useScript => 0x75736372               -- uscr
  | script => 0x73637074                  -- scpt
  | dllInjectMode => 0x646C696D           -- dlim
  | filePath => 0x66707468                -- fpth
  | execSignReq => 0x65787372             -- exsr
  | execAllowedSigners => 0x65786173      -- exas
  | execAllowedCollections => 0x6578636C  -- excl
  | imageLoadProtection => 0x696C7072     -- ilpr
  | imageCoherencyChecking => 0x6963636B  -- icck
  | execAllowedChildren => 0x78656163     -- xeac
  | execAllowedParents => 0x78656170      -- xeap
  | execBlockedChildren => 0x78656263     -- xebc
  | execBlockedParents => 0x78656270      -- xebp
  | volumeGuid => 0x76676964              -- vgid
  | execOnTrustedSpawn => 0x65786F74      -- exot
  | execOnSpawn => 0x65786F73             -- exos
  | integrityLevel => 0x696C766C          -- ilvl
  | allowDebugging => 0x61646267          -- adbg
  | keepAlive => 0x6B70616C               -- kpal
  | type => 0x74797065                    -- type
  | hash => 0x68617368                    -- hash
  | enclaves => 0x656E6373                -- encs
  | collections => 0x636F6C73             -- cols

/-- `API_S_..`; the collections of a rule have no list of their own in a map. -/
def toName : Field → Option String
  | guid => "Guid"
  | enabled => "Enabled"
  | enclave => "Enclave"
  | principalSddl => "PrincipalSDDL"
  | temp => "Temporary"
  | timeout => "TimeOut"
  | name => "Name"
  | ruleDescr => "Description"
  | data => "Data"
  | execRuleAction => "Execution"
  | useScript => "UseScript"
  | script => "Script"
  | dllInjectMode => "DllInjectMode"
  | filePath => "FilePath"
  | execSignReq => "SignReq"
  | execAllowedSigners => "AllowedSigners"
  | execAllowedCollections => none
  | imageLoadProtection => "ImageLoadProtection"
  | imageCoherencyChecking => "ImageCoherencyChecking"
  | execAllowedChildren => "AllowedChildren"
  | execAllowedParents => "AllowedParents"
  | execBlockedChildren => "BlockedChildren"
  | execBlockedParents => "BlockedParents"
  | volumeGuid => "VolumeGuid"
  | execOnTrustedSpawn => "TrustedSpawn"
  | execOnSpawn => "ProcessSpawn"
  | integrityLevel => "IntegrityLevel"
  | allowDebugging => "AllowDebugging"
  | keepAlive => "KeepAlive"
  | type => "Type"
  | hash => "Hash"
  | enclaves => "Enclaves"
  | collections => "Collections"

def key (f : Field) : Option Bytes := f.toName.map text

def all : List Field :=
  [guid, enabled, enclave, principalSddl, temp, timeout, name, ruleDescr, data, execRuleAction, useScript, script, dllInjectMode,
    filePath, execSignReq, execAllowedSigners, execAllowedCollections, imageLoadProtection, imageCoherencyChecking,
    execAllowedChildren, execAllowedParents, execBlockedChildren, execBlockedParents, volumeGuid, execOnTrustedSpawn, execOnSpawn,
    integrityLevel, allowDebugging, keepAlive, type, hash, enclaves, collections]

def ofId (id : UInt32) : Option Field := all.find? (·.toId = id)

/-- `VAR_TEST_NAME` for one field after the other. -/
def ofName (name : Bytes) : Option Field := all.find? (·.key = some name)

theorem mem_all (f : Field) : f ∈ all := by cases f <;> decide

theorem ofId_toId (f : Field) : ofId f.toId = some f := by
  have hall : ∀ f ∈ all, ofId f.toId = some f := by decide +kernel
  exact hall f (mem_all f)

theorem ofName_key (f : Field) (s : Bytes) (h : f.key = some s) : ofName s = some f := by
  have hall : ∀ f ∈ all, f.key.all fun s => ofName s = some f := by decide +kernel
  have hf := hall f (mem_all f)
  rw [h] at hf
  exact of_decide_eq_true hf

theorem length_key (f : Field) (s : Bytes) (h : f.key = some s) : s.length < 256 := by
  have hall : ∀ f ∈ all, f.key.all fun s => s.length < 256 := by decide +kernel
  have hf := hall f (mem_all f)
  rw [h] at hf
  exact of_decide_eq_true hf

end Field

instance : RecordField Field := ⟨Field.toId, Field.key, Field.ofId, Field.ofName, Field.ofId_toId, Field.ofName_key, Field.length_key⟩

/-! ## Lists -/

/-- What an element of a container is as a value. -/
def valueOf (v : Content) : Value := (v.getType, CFlexGuid.data v)

/-- `Count` and the elements of `Data[i]` for each `i` below it. A map has no elements by number, and in an
index what has no such id is as empty. -/
def elements (v : Value) : Except EResult (List Value) :=
  match (Content.flat v.1 true v.2).parse false with
  | .list _ l => .ok (l.map valueOf)
  | .index _ t => .ok ((List.range t.count).map fun i => ((t.findValue (.ofNat i)).map valueOf).getD (varTypeEmpty, []))
  | .map _ t => if t.count = 0 then .ok [] else .error .eErrTypeMismatch
  | _ => .ok []

/-- The loop that reads a list of strings. -/
def readStrings (doubleText : Bytes → Str) (v : Value) : Except EResult (List Str) :=
  (elements v).map (·.map (asStr doubleText))

/-- The elements of a list that was written. -/
theorem elements_list {vs : List Value} (hvalid : ∀ v ∈ vs, Valid v.1 v.2) (hfits : (Value.list vs).2.length ≤ ulongMax) :
    elements (.list vs) = .ok vs := by
  have hes : Entries noKey (vs.map fun v => ((), v)) (Value.list vs).2 := by
    refine entries_writeEntries noKey ?_
    simp only [List.forall_mem_map]
    exact hvalid
  have hraw : readRawList (Value.list vs).2 = (vs, none) := by
    refine (readRawListLoop_entries _ _ _ hes hfits (Nat.lt_succ_of_le (hes.length_le hfits))).trans ?_
    rw [List.map_map]
    exact congrArg (·, none) (List.map_id _)
  have hvalue : ∀ v ∈ vs, valueOf (Content.ofBytes v.1 v.2) = v := fun v hv => by
    rcases v with ⟨type, data⟩
    by_cases hempty : type = varTypeEmpty
    · cases (hvalid _ hv).2 hempty
      rw [Content.ofBytes, if_pos hempty, valueOf, data_flat]
      rfl
    · rw [Content.ofBytes, if_neg hempty, valueOf, data_flat]
      rfl
  have hmap : varTypeList ≠ varTypeMap := by decide
  rcases vs with _ | ⟨v, vs⟩
  · rfl
  · have hne : (Value.list (v :: vs)).2 ≠ [] := fun h => by
      rw [h] at hraw
      cases hraw
    have htype : (Value.list (v :: vs)).1 = varTypeList := rfl
    rw [elements, Content.parse, if_neg fun h => hne h.1, if_neg (htype ▸ hmap), if_pos htype, hraw]
    dsimp only
    rw [List.map_map]
    exact congrArg Except.ok ((List.map_congr_left hvalue).trans (List.map_id _))

theorem readStrings_strList (doubleText : Bytes → Str) {l : List Str} (hfits : (Value.strList l).2.length ≤ ulongMax) :
    readStrings doubleText (.strList l) = .ok l := by
  have hvalid : ∀ v ∈ l.map Value.str, Valid v.1 v.2 := by
    simp only [List.forall_mem_map]
    exact fun s _ => valid_str s
  rw [readStrings, Value.strList, elements_list hvalid hfits, Record.map_ok, List.map_map]
  exact congrArg Except.ok ((List.map_congr_left fun s _ => asStr_str doubleText s).trans (List.map_id _))

/-! ## Variants -/

/-- A variant that is kept: its type and its payload. -/
structure StVariant where
  value : Value
  valid : Valid value.1 value.2

/-- `StVariant()`. -/
def StVariant.new : StVariant := ⟨(varTypeEmpty, []), by decide, fun _ => rfl⟩

/-- `Clone`; a type has five bits, and under the empty type nothing is kept. -/
def StVariant.clone (v : Value) : StVariant :=
  ⟨stored (v.1 &&& varTypeMask, v.2), by
    have hmask : v.1 &&& varTypeMask &&& varTypeMask = v.1 &&& varTypeMask := by rw [UInt8.and_assoc, UInt8.and_self]
    unfold stored
    split
    · exact ⟨hmask, fun _ => rfl⟩
    · next h => exact ⟨hmask, fun h' => absurd h' h⟩⟩

theorem StVariant.clone_value (v : StVariant) : clone v.value = v := by
  rcases v with ⟨⟨type, payload⟩, hmask, hempty⟩
  have hvalue : (clone (type, payload)).value = (type, payload) := by
    unfold clone stored
    dsimp only at hmask hempty ⊢
    rw [hmask]
    split
    · next h => rw [hempty h]
    · rfl
  generalize clone (type, payload) = read at hvalue
  cases read
  cases hvalue
  rfl

/-! ## Enumerations -/

/-- A value of an enumeration, which is a number and does not have to be one of those with a name. -/
structure Enum (E : Type) where
  number : UInt32
  deriving DecidableEq

section Enum
variable {E : Type} [Enumeration E] (word : E → Option String)

def Enum.of (e : E) : Enum E := ⟨Enumeration.number e⟩

/-- The keyword of a value in a map. -/
def Enum.keyword (n : Enum E) : Option String :=
  match (Cast.ofUInt32 n.number : Cast E) with
  | .value e => word e
  | .other _ => none

/-- The `switch` that writes a keyword; what has none is not written. -/
def writeEnum (f : Field) (n : Enum E) : List (Field × Value) := (n.keyword word).toList.map fun s => (f, .ascii (text s))

/-- The comparisons that read a keyword; where none of them holds the value is the default. -/
def readEnum (default : Enum E) (s : Bytes) : Enum E :=
  match (Enumeration.values : List E).find? fun e => (word e).map text = some s with
  | some e => .of e
  | none => default

variable {word}

theorem Enum.keyword_of (e : E) : (Enum.of e).keyword word = word e := by rw [Enum.keyword, Enum.of, Cast.ofUInt32_number]

/-- A value with a keyword is one of the enumeration. -/
theorem Enum.of_keyword {n : Enum E} {s : String} (h : n.keyword word = some s) : ∃ e, n = .of e ∧ word e = some s := by
  rcases hfind : (Enumeration.values : List E).find? (Enumeration.number · = n.number) with _ | e
  · rw [Enum.keyword, Cast.ofUInt32, hfind] at h
    cases h
  · have hnumber : Enumeration.number e = n.number := by simpa using List.find?_some hfind
    rw [Enum.keyword, Cast.ofUInt32, hfind] at h
    exact ⟨e, by rw [Enum.of, hnumber], h⟩

theorem readEnum_text (hdiffer : KeywordsDiffer word) {n : Enum E} {s : String} (hs : n.keyword word = some s) (default : Enum E) :
    readEnum word default (text s) = n := by
  rcases Enum.of_keyword hs with ⟨e, rfl, he⟩
  have hread := readKeyword_text hdiffer he (.other 0)
  rcases hfind : (Enumeration.values : List E).find? (fun e => (word e).map text = some (text s)) with _ | a
  · rw [readKeyword, hfind] at hread
    cases hread
  · rw [readKeyword, hfind] at hread
    cases hread
    rw [readEnum, hfind]

/-- What a keyword gives an object: the value it is of, or where there is none, nothing. -/
theorem readAll_writeEnum (hdiffer : KeywordsDiffer word) {T : Type} {read : T → Value → Field → Except EResult T} {f : Field}
    (get : T → Enum E) (set : T → Enum E → T)
    (hread : ∀ r s, read r (.ascii s) f = .ok (set r (readEnum word (get r) s))) (n : Enum E) (r : T) :
    Record.readAll read (writeEnum word f n) r = .ok (if n.keyword word = none then r else set r n) := by
  rcases hs : n.keyword word with _ | s
  · rw [writeEnum, hs, if_pos rfl]
    rfl
  · rw [writeEnum, hs, if_neg (by rintro h; cases h), Option.toList_some, List.map_cons, List.map_nil, Record.readAll_cons, hread,
      readEnum_text hdiffer hs]
    rfl

/-- What comes back of a value in an object that has the default. -/
def enumBack (word : E → Option String) (default n : Enum E) : EFormat → Enum E
  | .eIndex => n
  | .eMap => if n.keyword word = none then default else n

/-- Values that a map does not lose. -/
def Told (word : E → Option String) (default n : Enum E) : Prop := n = default ∨ n.keyword word ≠ none

theorem enumBack_eq_iff {default n : Enum E} : enumBack word default n .eMap = n ↔ Told word default n := by
  rw [enumBack, Told]
  split
  · next h => simp [h, eq_comm]
  · next h => simp [h]

theorem valid_writeEnum (f : Field) (n : Enum E) : ∀ entry ∈ writeEnum word f n, Valid entry.2.1 entry.2.2 := by
  simp only [writeEnum, List.forall_mem_map]
  exact fun s _ => valid_ascii (text s)

end Enum

/-! ## Numbers and flags -/

theorem valid_bool (b : Bool) : Valid (Value.bool b).1 (Value.bool b).2 := by
  have htype : varTypeSInt &&& varTypeMask = varTypeSInt ∧ varTypeSInt ≠ varTypeEmpty := by decide
  exact ⟨htype.1, fun h => absurd h htype.2⟩

theorem valid_uint32 (n : UInt32) : Valid (Value.uint32 n).1 (Value.uint32 n).2 := by
  have htype : varTypeUInt &&& varTypeMask = varTypeUInt ∧ varTypeUInt ≠ varTypeEmpty := by decide
  exact ⟨htype.1, fun h => absurd h htype.2⟩

theorem valid_uint64 (n : UInt64) : Valid (Value.uint64 n).1 (Value.uint64 n).2 :=
  ⟨(valid_uint32 0).1, fun h => absurd h (by change varTypeUInt ≠ varTypeEmpty; decide)⟩

theorem valid_list (vs : List Value) : Valid (Value.list vs).1 (Value.list vs).2 := by
  have htype : varTypeList &&& varTypeMask = varTypeList ∧ varTypeList ≠ varTypeEmpty := by decide
  exact ⟨htype.1, fun h => absurd h htype.2⟩

end MajorPrivacy.Records

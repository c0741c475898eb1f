/-
The signers a program rule or an enclave accepts (`USignatures`) and the collections beside them. In an
index they are a number and a list; in a map both are in one list, where a signer is a keyword and what
is no keyword is the name of a collection.
-/
import MajorPrivacy.Records.Ids
import Mathlib.Data.Nat.Bitwise

namespace MajorPrivacy.Records

open LittleEndian MajorPrivacy.Firewall
open MajorPrivacy.Variant hiding Value

/-- `USignatures` with `API_S_EXEC_ALLOWED_SIGNERS_..`. -/
def signers : List (UInt32 × String) :=
  [(0x001, "[WIN]"), (0x002, "[MSFT]"), (0x004, "[AV]"), (0x008, "[AC]"), (0x010, "[Store]"), (0x020, "[MPDev]"), (0x040, "[UserSig]"),
    (0x080, "[User]"), (0x100, "[Enclave]")]

/-- The bits that have a keyword. -/
def signerBits : UInt32 := 0x1FF

/-- The signer a keyword stands for; Windows has an old one too. -/
def signerOf (s : Bytes) : Option UInt32 :=
  if s = text "[MS]" then some 0x001 else (signers.find? fun f => text f.2 = s).map (·.1)

/-- The list that is written to a map. -/
def signerValues (signatures : UInt32) (collections : List Str) : List Value :=
  ((signers.filter fun f => signatures &&& f.1 ≠ 0).map fun f => .ascii (text f.2)) ++ collections.map .str

/-- One turn of the loop that reads it. -/
def readSigner (doubleText : Bytes → Str) (read : UInt32 × List Str) (v : Value) : Except EResult (UInt32 × List Str) :=
  (Firewall.toString v).map fun s =>
    match signerOf s with
    | some bit => (read.1 ||| bit, read.2)
    | none => (read.1, read.2 ++ [asStr doubleText v])

def readSigners (doubleText : Bytes → Str) (v : Value) : Except EResult (UInt32 × List Str) :=
  (elements v).bind fun l => l.foldlM (readSigner doubleText) (0, [])

/-- `SignReq`, which rules had before. -/
def readSignReq (signatures : UInt32) (s : Bytes) : UInt32 :=
  if s = text "Verified" then signatures ||| 0xC0
  else if s = text "MSVerified" ∨ s = text "MSTrusted" then signatures ||| 0xC7
  else signatures

/-! ## What is read back -/

/-- The narrow string of a name, with which the keywords are compared. -/
def narrow (s : Str) : Bytes := s.map (·.toUInt8)

theorem toString_str (s : Str) : Firewall.toString (.str s) = .ok (narrow s) := by
  have hwide : varTypeUnicode ≠ varTypeEmpty ∧ ¬ (varTypeUnicode = varTypeAscii ∨ varTypeUnicode = varTypeUtf8 ∨ varTypeUnicode = varTypeBytes) := by
    decide
  rw [Value.str, Firewall.toString, if_neg hwide.1, if_neg hwide.2, if_pos rfl, wideUnits_wideBytes]
  rfl

/-- The signers whose keywords some collections have for their name. -/
def namedSigners (collections : List Str) : UInt32 :=
  collections.foldl (fun n s => n ||| (signerOf (narrow s)).getD 0) 0

section Read
variable (doubleText : Bytes → Str)

theorem foldlM_keywords (collections : List Str) : ∀ (flags : List (UInt32 × String)) (n : UInt32), (∀ f ∈ flags, f ∈ signers) →
    (flags.map fun f => Value.ascii (text f.2)).foldlM (readSigner doubleText) (n, collections) =
      .ok (flags.foldl (fun n f => n ||| f.1) n, collections)
  | [], _, _ => rfl
  | f :: flags, n, h => by
    rw [List.forall_mem_cons] at h
    have hall : ∀ f ∈ signers, signerOf (text f.2) = some f.1 := by decide +kernel
    rw [List.map_cons, List.foldlM_cons, readSigner, toString_ascii, Record.map_ok, hall f h.1]
    exact foldlM_keywords collections flags _ h.2

theorem foldlM_collections : ∀ (collections read : List Str) (n : UInt32),
    (collections.map Value.str).foldlM (readSigner doubleText) (n, read) =
      .ok (collections.foldl (fun n s => n ||| (signerOf (narrow s)).getD 0) n,
        read ++ collections.filter fun s => (signerOf (narrow s)).isNone)
  | [], read, n => by rw [List.filter_nil, List.append_nil]; rfl
  | s :: collections, read, n => by
    rw [List.map_cons, List.foldlM_cons, readSigner, toString_str, Record.map_ok, List.foldl_cons, List.filter_cons]
    rcases hs : signerOf (narrow s) with _ | bit
    · rw [Option.getD_none, UInt32.or_zero, asStr_str]
      refine (foldlM_collections collections (read ++ [s]) n).trans ?_
      rw [List.append_assoc]
      rfl
    · exact foldlM_collections collections read (n ||| bit)

theorem foldl_or_start (collections : List Str) : ∀ n : UInt32,
    collections.foldl (fun n s => n ||| (signerOf (narrow s)).getD 0) n = n ||| namedSigners collections := by
  unfold namedSigners
  induction collections with
  | nil => exact fun n => (UInt32.or_zero).symm
  | cons s collections ih =>
    intro n
    rw [List.foldl_cons, List.foldl_cons, ih, ih (0 ||| _), UInt32.zero_or, UInt32.or_assoc]

theorem and_bit {n b : UInt32} {k : Nat} (hb : b.toNat = 2 ^ k) (h : n &&& b ≠ 0) : n &&& b = b := by
  have hand : (n &&& b).toNat = (n.toNat.testBit k).toNat * 2 ^ k := by rw [UInt32.toNat_and, hb, Nat.and_two_pow]
  rcases hbit : n.toNat.testBit k with _ | _
  · rw [hbit, Bool.toNat_false, Nat.zero_mul] at hand
    exact absurd (UInt32.toNat_inj.1 hand) h
  · rw [hbit, Bool.toNat_true, Nat.one_mul, ← hb] at hand
    exact UInt32.toNat_inj.1 hand

/-- A signer is one bit. -/
theorem and_signer {n : UInt32} {f : UInt32 × String} (hf : f ∈ signers) (h : n &&& f.1 ≠ 0) : n &&& f.1 = f.1 := by
  have hall : ∀ f ∈ signers, ∃ k ∈ List.range 32, f.1.toNat = 2 ^ k := by decide +kernel
  rcases hall f hf with ⟨k, -, hk⟩
  exact and_bit hk h

theorem and_or_left (n a b : UInt32) : n &&& a ||| n &&& b = n &&& (a ||| b) := by
  apply UInt32.toNat_inj.1
  rw [UInt32.toNat_or, UInt32.toNat_and, UInt32.toNat_and, UInt32.toNat_and, UInt32.toNat_or, Nat.and_or_distrib_left]

/-- The keywords of a number are its bits. -/
theorem foldl_signers (n : UInt32) : (signers.filter fun f => n &&& f.1 ≠ 0).foldl (fun n f => n ||| f.1) 0 = n &&& signerBits := by
  have hfilter : ∀ flags : List (UInt32 × String), (∀ f ∈ flags, f ∈ signers) → ∀ m,
      (flags.filter fun f => n &&& f.1 ≠ 0).foldl (fun n f => n ||| f.1) m = flags.foldl (fun m f => m ||| (n &&& f.1)) m := by
    intro flags
    induction flags with
    | nil => exact fun _ _ => rfl
    | cons f flags ih =>
      intro h m
      rw [List.forall_mem_cons] at h
      rw [List.filter_cons, List.foldl_cons]
      by_cases hzero : n &&& f.1 = 0
      · rw [if_neg (by simpa using hzero), ih h.2, hzero, UInt32.or_zero]
      · rw [if_pos (by simpa using hzero), List.foldl_cons, ih h.2, and_signer h.1 hzero]
  rw [hfilter signers (fun _ h => h)]
  simp only [signers, List.foldl_cons, List.foldl_nil, UInt32.zero_or, and_or_left]
  rfl

/-- Signers and collections come back from the one list of a map, but for bits and names that are taken for others. -/
theorem readSigners_signerValues (signatures : UInt32) {collections : List Str}
    (hfits : (Value.list (signerValues signatures collections)).2.length ≤ ulongMax) :
    readSigners doubleText (.list (signerValues signatures collections)) =
      .ok (signatures &&& signerBits ||| namedSigners collections, collections.filter fun s => (signerOf (narrow s)).isNone) := by
  have hvalid : ∀ v ∈ signerValues signatures collections, Valid v.1 v.2 := by
    simp only [signerValues, List.forall_mem_append, List.forall_mem_map]
    exact ⟨fun f _ => valid_ascii _, fun s _ => valid_str s⟩
  rw [readSigners, elements_list hvalid hfits, Record.bind_ok, signerValues, List.foldlM_append,
    foldlM_keywords doubleText [] _ 0 fun f hf => (List.mem_filter.1 hf).1, foldl_signers]
  refine (foldlM_collections doubleText collections [] _).trans ?_
  rw [foldl_or_start]
  rfl

end Read

/-- What a map can tell apart: the bits have keywords, and no collection has one for its name. -/
def ApartInMap (signatures : UInt32) (collections : List Str) : Prop :=
  signatures &&& signerBits = signatures ∧ ∀ s ∈ collections, signerOf (narrow s) = none

theorem namedSigners_eq_zero : ∀ {collections : List Str}, (∀ s ∈ collections, signerOf (narrow s) = none) → namedSigners collections = 0
  | [], _ => rfl
  | s :: collections, h => by
    rw [List.forall_mem_cons] at h
    rw [namedSigners, List.foldl_cons, h.1, Option.getD_none, UInt32.zero_or]
    exact namedSigners_eq_zero h.2

theorem apartInMap_iff (signatures : UInt32) (collections : List Str) :
    (signatures &&& signerBits ||| namedSigners collections, collections.filter fun s => (signerOf (narrow s)).isNone) =
      (signatures, collections) ↔ ApartInMap signatures collections := by
  have hnone : (collections.filter fun s => (signerOf (narrow s)).isNone) = collections ↔ ∀ s ∈ collections, signerOf (narrow s) = none := by
    rw [List.filter_eq_self]
    exact forall₂_congr fun s _ => Option.isNone_iff_eq_none
  have hzero := @namedSigners_eq_zero collections
  rw [Prod.mk.injEq, hnone, ApartInMap]
  constructor
  · rintro ⟨hbits, h⟩
    rw [hzero h, UInt32.or_zero] at hbits
    exact ⟨hbits, h⟩
  · rintro ⟨hbits, h⟩
    rw [hzero h, UInt32.or_zero]
    exact ⟨hbits, h⟩

end MajorPrivacy.Records

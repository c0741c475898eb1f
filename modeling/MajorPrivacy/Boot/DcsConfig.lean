/-
The configuration of the boot loader (DcsConfig.cpp): a map of settings and the order they were in, written as a
flat list of `<config>` elements and scanned for them.
-/
import MajorPrivacy.Firewall.Values
import MajorPrivacy.Lib.Search

namespace MajorPrivacy.Boot

open LittleEndian Search MajorPrivacy.Core MajorPrivacy.Variant
open MajorPrivacy.Firewall (Str text decimal)

/-! ## Text -/

/-- `WideCharToMultiByte` and `MultiByteToWideChar` for `CP_UTF8`: on text without lone surrogates they are inverse, whatever they
make of other text. -/
structure Win32Text where
  toUtf8 : Str → Bytes
  fromUtf8 : Bytes → Str
  toUtf8_eq {s : Str} : WellFormed s → toUtf8 s = Variant.toUtf8 s
  fromUtf8_toUtf8 {s : Str} : WellFormed s → fromUtf8 (Variant.toUtf8 s) = s

/-- The five entities XML defines. -/
def entity (name : Bytes) : Option UInt8 :=
  if name = text "amp" then some 0x26
  else if name = text "lt" then some 0x3C
  else if name = text "gt" then some 0x3E
  else if name = text "quot" then some 0x22
  else if name = text "apos" then some 0x27
  else none

/-- `XmlDecode`. -/
def xmlDecode : Bytes → Bytes
  | [] => []
  | c :: rest =>
    if c ≠ 0x26 then c :: xmlDecode rest
    else
      match find (oneOf (· == 0x3B)) (c :: rest) with
      | none => c :: xmlDecode rest
      | some uEnd =>
        if 6 < uEnd then c :: xmlDecode rest
        else
          match entity (rest.take (uEnd - 1)) with
          | some char => char :: xmlDecode (rest.drop uEnd)
          | none => (c :: rest).take (uEnd + 1) ++ xmlDecode (rest.drop uEnd)
termination_by l => l.length
decreasing_by
  all_goals simp only [List.length_cons, List.length_drop]; omega

def encodeChar (c : UInt8) : Bytes :=
  if c = 0x26 then text "&amp;"
  else if c = 0x3C then text "&lt;"
  else if c = 0x3E then text "&gt;"
  else if c = 0x22 then text "&quot;"
  else if c = 0x27 then text "&apos;"
  else [c]

/-- `XmlEncode`. -/
def xmlEncode (t : Bytes) : Bytes := t.flatMap encodeChar

theorem xmlDecode_entity {name : Bytes} {c : UInt8} (hname : entity name = some c) (hlen : name.length ≤ 5)
    (hin : ∀ b ∈ name, (b == 0x3B) = false) (rest : Bytes) : xmlDecode (0x26 :: (name ++ 0x3B :: rest)) = c :: xmlDecode rest := by
  have hfind : find (oneOf (· == 0x3B)) (0x26 :: (name ++ 0x3B :: rest)) = some (name.length + 1) := by
    have hfree : ∀ b ∈ 0x26 :: name, (b == (0x3B : UInt8)) = false := List.forall_mem_cons.2 ⟨rfl, hin⟩
    have h := find_append (beginsWith_oneOf (· == (0x3B : UInt8))) hfree (0x3B :: rest)
    rw [find_cons rfl, List.cons_append] at h
    exact h
  rw [xmlDecode, if_neg (not_not_intro rfl), hfind]
  dsimp only
  rw [if_neg (by omega), Nat.add_sub_cancel, List.take_left' rfl, hname]
  dsimp only
  have hdrop : (name ++ 0x3B :: rest).drop (name.length + 1) = rest := by
    rw [← List.drop_drop, List.drop_left' rfl, List.drop_one, List.tail_cons]
  rw [hdrop]

theorem xmlDecode_encodeChar (c : UInt8) (rest : Bytes) : xmlDecode (encodeChar c ++ rest) = c :: xmlDecode rest := by
  have hentity : ∀ name, entity name = some c → name.length ≤ 5 → (∀ b ∈ name, (b == 0x3B) = false) →
      encodeChar c = 0x26 :: (name ++ [0x3B]) → xmlDecode (encodeChar c ++ rest) = c :: xmlDecode rest := by
    intro name hname hlen hin henc
    rw [henc, List.cons_append, List.append_assoc, List.singleton_append]
    exact xmlDecode_entity hname hlen hin rest
  by_cases hamp : c = 0x26
  · subst hamp
    exact hentity (text "amp") rfl (by decide) (by decide +kernel) rfl
  by_cases hlt : c = 0x3C
  · subst hlt
    exact hentity (text "lt") rfl (by decide) (by decide +kernel) rfl
  by_cases hgt : c = 0x3E
  · subst hgt
    exact hentity (text "gt") rfl (by decide) (by decide +kernel) rfl
  by_cases hquot : c = 0x22
  · subst hquot
    exact hentity (text "quot") rfl (by decide) (by decide +kernel) rfl
  by_cases hapos : c = 0x27
  · subst hapos
    exact hentity (text "apos") rfl (by decide) (by decide +kernel) rfl
  have hplain : encodeChar c = [c] := by
    unfold encodeChar
    rw [if_neg hamp, if_neg hlt, if_neg hgt, if_neg hquot, if_neg hapos]
  rw [hplain, List.singleton_append, xmlDecode, if_pos hamp]

theorem xmlDecode_xmlEncode : ∀ t : Bytes, xmlDecode (xmlEncode t) = t
  | [] => by
    rw [xmlEncode, List.flatMap_nil, xmlDecode]
  | c :: t => by
    have hcons : xmlEncode (c :: t) = encodeChar c ++ xmlEncode t := List.flatMap_cons
    rw [hcons, xmlDecode_encodeChar, xmlDecode_xmlEncode t]

/-- An encoded text does not end the quotes or the element it is in. -/
theorem xmlEncode_plain (t : Bytes) : ∀ b ∈ xmlEncode t, b ≠ 0x3C ∧ b ≠ 0x3E ∧ b ≠ 0x22 := by
  intro b hb
  obtain ⟨c, -, hb⟩ := List.mem_flatMap.1 hb
  -- the entities are gone through, everything else stands for itself
  have hfive : ∀ e ∈ [text "&amp;", text "&lt;", text "&gt;", text "&quot;", text "&apos;"],
      ∀ b ∈ e, b ≠ 0x3C ∧ b ≠ 0x3E ∧ b ≠ 0x22 := by
    decide +kernel
  unfold encodeChar at hb
  split at hb
  · exact hfive _ (by decide) b hb
  split at hb
  · exact hfive _ (by decide) b hb
  split at hb
  · exact hfive _ (by decide) b hb
  split at hb
  · exact hfive _ (by decide) b hb
  split at hb
  · exact hfive _ (by decide) b hb
  · rename_i hlt hgt hquot _
    rw [List.mem_singleton.1 hb]
    exact ⟨hlt, hgt, hquot⟩

/-! ## `CDcsConfig` -/

/-- `m_Values` and `m_Order`. The map has no table before something is put into it. -/
structure DcsConfig where
  values : Option (Table Bytes Str)
  order : List Str

/-- What ends the name that a C string holds. -/
def cStr (name : Bytes) : Bytes := name.takeWhile (· ≠ 0)

/-- `Get` of the map; a name the pool has no room for is not found. -/
def mapGet (values : Option (Table Bytes Str)) (name : Bytes) : Option Str :=
  values.bind fun map => if (cStr name).length ≤ Content.mapFindLength then map.findValue (cStr name) else none

/-- `Insert` of the map. -/
def mapInsert (values : Option (Table Bytes Str)) (name : Bytes) (value : Str) : Option (Table Bytes Str) :=
  some ((values.getD ⟨List.replicate 4 [], 0⟩).setValue (cStr name) value)

/-- `Remove` of the map, which fails where there is no table. -/
def mapRemove (values : Option (Table Bytes Str)) (name : Bytes) : Option (Table Bytes Str) :=
  values.map fun map => if (cStr name).length ≤ Content.mapFindLength then map.removeFirst (cStr name) else map

/-- `Key` for all indexes. -/
def mapKeys (values : Option (Table Bytes Str)) : List Bytes := ((values.map Table.toList).getD []).map (·.1)

namespace DcsConfig

/-- The constructor. -/
def new : DcsConfig := ⟨none, []⟩

/-- `Touch`. -/
def touch (c : DcsConfig) (key : Str) : DcsConfig := if key ∈ c.order then c else { c with order := c.order ++ [key] }

section Win32

variable (w : Win32Text)

/-- `Has`. -/
def has (c : DcsConfig) (key : Str) : Bool := (mapGet c.values (w.toUtf8 key)).isSome

/-- `GetStr`. -/
def getStr (c : DcsConfig) (key default : Str) : Str := (mapGet c.values (w.toUtf8 key)).getD default

/-- `SetStr`. -/
def setStr (c : DcsConfig) (key value : Str) : DcsConfig := touch { c with values := mapInsert c.values (w.toUtf8 key) value } key

/-- `std::to_wstring`. -/
def toWString (n : Int) : Str := (if n < 0 then [0x2D] else []) ++ (Nat.toDigits 10 n.natAbs).map fun c => UInt16.ofNat c.toNat

/-- `SetInt`. -/
def setInt (c : DcsConfig) (key : Str) (value : Int) : DcsConfig := c.setStr w key (toWString value)

/-- `Remove`. -/
def remove (c : DcsConfig) (key : Str) : DcsConfig := ⟨mapRemove c.values (w.toUtf8 key), c.order.erase key⟩

/-- `SetValues`. -/
def setValues (c : DcsConfig) (values : Option (Table Bytes Str)) : DcsConfig :=
  let c := { c with values := values }
  let order := c.order.filter (c.has w)
  { c with order := (mapKeys values).foldl (fun order name =>
      let key := w.fromUtf8 (cStr name)
      if key ∈ order then order else order ++ [key]) order }

/-! ### Reading and writing -/

/-- What the scan finds at a position. -/
inductive Element where
  | none
  | skipped (uPos : Nat)
  | config (key value : Bytes) (uPos : Nat)

/-- An iteration of the loop of `FromXml`. -/
def scanElement (xml : Bytes) (uPos : Nat) : Element :=
  match findFrom (startsWith (text "<config")) xml uPos with
  | none => .none
  | some uStart =>
    match findFrom (startsWith (text "key=")) xml uStart, findFrom (oneOf (· == 0x3E)) xml uStart with
    | some uKeyAt, some uTagEnd =>
      if uTagEnd < uKeyAt then .skipped (uStart + 7)
      else
        match findFrom (oneOf fun c => c == 0x22 || c == 0x27) xml (uKeyAt + 4) with
        | none => .skipped (uTagEnd + 1)
        | some uQuoteAt =>
          if uTagEnd < uQuoteAt then .skipped (uTagEnd + 1)
          else
            match findFrom (oneOf (· == xml.getD uQuoteAt 0)) xml (uQuoteAt + 1) with
            | none => .skipped (uTagEnd + 1)
            | some uKeyEnd =>
              if uTagEnd < uKeyEnd then .skipped (uTagEnd + 1)
              else
                let key := xmlDecode ((xml.drop (uQuoteAt + 1)).take (uKeyEnd - uQuoteAt - 1))
                if 0 < uTagEnd ∧ xml.getD (uTagEnd - 1) 0 = 0x2F then .config key [] (uTagEnd + 1)
                else
                  match findFrom (startsWith (text "</config>")) xml uTagEnd with
                  | none => .none
                  | some uValueEnd => .config key (xmlDecode ((xml.drop (uTagEnd + 1)).take (uValueEnd - uTagEnd - 1))) (uValueEnd + 9)
    | _, _ => .skipped (uStart + 7)

/-- What `FromXml` does with an element. -/
def addElement (c : DcsConfig) (key value : Bytes) : DcsConfig :=
  if key = [] then c
  else touch { c with values := mapInsert c.values key (w.fromUtf8 value) } (w.fromUtf8 key)

/-- The loop of `FromXml` for at most `fuel` iterations. -/
def scan (xml : Bytes) : Nat → Nat → DcsConfig → Option DcsConfig
  | 0, _, _ => Option.none
  | fuel + 1, uPos, c =>
    match scanElement xml uPos with
    | .none => some c
    | .skipped uPos => scan xml fuel uPos c
    | .config key value uPos => scan xml fuel uPos (c.addElement w key value)

/-- `FromXml`: what is read, and whether there was anything; the loop is given an iteration more than there are bytes. -/
def fromXml (xml : Bytes) : Option (DcsConfig × Bool) := (scan w xml (xml.length + 1) 0 new).map fun c => (c, !c.order.isEmpty)

def xmlHead : Bytes := text "<?xml version=\"1.0\" encoding=\"utf-8\"?>\r\n<DiskCrypto>\r\n\t<configuration>\r\n"

def xmlTail : Bytes := text "\t</configuration>\r\n</DiskCrypto>\r\n"

def xmlEntry (key value : Bytes) : Bytes :=
  text "\t\t<config key=\"" ++ xmlEncode key ++ text "\">" ++ xmlEncode value ++ text "</config>\r\n"

/-- `ToXml`. -/
def toXml (c : DcsConfig) : Bytes :=
  xmlHead ++ c.order.flatMap (fun key => xmlEntry (w.toUtf8 key) (w.toUtf8 (c.getStr w key []))) ++ xmlTail

end Win32

end DcsConfig

end MajorPrivacy.Boot

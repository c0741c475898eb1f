/-
`CFlexGuid` (FlexGuid.cpp): an id that is a GUID where its text can be read as one, and otherwise the
text, narrow if it is ASCII. Characters are compared as in the C locale, in which a process starts.
-/
import MajorPrivacy.Variant.TextRoutes

namespace MajorPrivacy.Guid

open LittleEndian MajorPrivacy.Variant

/-! ## Objects -/

structure SGuid where
  data : Bytes
  size : data.length = 16
  deriving DecidableEq

/-- `m_Type` with what the union then holds. -/
inductive Value
  | null
  | regular (guid : SGuid)
  | unicode (str : List UInt16)
  | ascii (str : Bytes)
  deriving DecidableEq

structure CFlexGuid where
  value : Value
  lowerCaseMask : UInt32
  deriving DecidableEq

def CFlexGuid.new : CFlexGuid := ⟨.null, 0⟩

/-! ## ParseGuid -/

/-- Whether a digit is a letter, and in which case. -/
inductive Letter
  | none
  | lower
  | upper
  deriving DecidableEq

/-- A character as a nibble. -/
def hexDigit (c : Nat) : Option (UInt8 × Letter) :=
  if 48 ≤ c ∧ c ≤ 57 then some (.ofNat (c - 48), .none)
  else if 97 ≤ c ∧ c ≤ 102 then some (.ofNat (10 + (c - 97)), .lower)
  else if 65 ≤ c ∧ c ≤ 70 then some (.ofNat (10 + (c - 65)), .upper)
  else none

/-- The variables of the loop; `nibCount` is the number of bytes in `outBytes`. -/
structure ParseState where
  outBytes : Bytes
  byteVal : UInt8
  halfByte : Bool
  nibIndex : Nat
  upperCaseMask : UInt32
  lowerCaseMask : UInt32

def ParseState.start : ParseState := ⟨[], 0, false, 0, 0, 0⟩

/-- `1u << nibIndex`. -/
def nibBit (nibIndex : Nat) : UInt32 := 1 <<< UInt32.ofNat nibIndex

/-- A nibble in its place. -/
def ParseState.push (s : ParseState) (val : UInt8) (letter : Letter) : ParseState :=
  { outBytes := if s.halfByte then s.outBytes ++ [s.byteVal ||| val] else s.outBytes
    byteVal := if s.halfByte then s.byteVal ||| val else val <<< 4
    halfByte := !s.halfByte
    nibIndex := s.nibIndex + 1
    upperCaseMask := if letter = .upper then s.upperCaseMask ||| nibBit s.nibIndex else s.upperCaseMask
    lowerCaseMask := if letter = .lower then s.lowerCaseMask ||| nibBit s.nibIndex else s.lowerCaseMask }

/-- The loop over the characters, which ends with the sixteenth byte; dashes are skipped. -/
def parseLoop : List Nat → ParseState → Bool × ParseState
  | [], s => (true, s)
  | c :: str, s =>
    if s.outBytes.length < 16 then
      if c = 45 then parseLoop str s
      else
        match hexDigit c with
        | none => (false, s)
        | some (val, letter) => parseLoop str (s.push val letter)
    else (true, s)

/-- The text without its braces, if it has both. -/
def unbraced (str : List Nat) : List Nat :=
  if str.head? = some 123 ∧ str.getLast? = some 125 then str.tail.dropLast else str

/-- `CFlexGuid__ParseGuid` for characters of either width. -/
def parseGuid (str : List Nat) : Bool × ParseState :=
  if str.length < 32 then (false, .start)
  else
    match parseLoop (unbraced str) .start with
    | (false, s) => (false, s)
    | (true, s) => (s.outBytes.length = 16 && !s.halfByte, s)

/-- What a text is read as: a GUID, unless its letters are in both cases, and the mask that is left. -/
def readGuid (str : List Nat) : Option SGuid × UInt32 :=
  let (bOk, s) := parseGuid str
  let guid := if h : s.outBytes.length = 16 then some ⟨s.outBytes, h⟩ else none
  (if bOk && !(s.upperCaseMask ≠ 0 && s.lowerCaseMask ≠ 0) then guid else none, s.lowerCaseMask)

/-! ## Text to object and back -/

namespace CFlexGuid

/-- `Clear`, which leaves the mask of an id that is null. -/
def clear (g : CFlexGuid) : CFlexGuid := if g.value = .null then g else .new

def isString : Value → Bool
  | .unicode _ | .ascii _ => true
  | _ => false

/-- `CFlexGuid__IsAscii`. -/
def isAscii (str : List UInt16) : Bool := str.all (· ≤ 0x7F)

/-- `FromWString`. -/
def fromWString (g : CFlexGuid) (str : List UInt16) : CFlexGuid :=
  let g := g.clear
  if str = [] then g
  else
    match readGuid (str.map (·.toNat)) with
    | (some guid, _) => { g with value := .regular guid }
    | (none, mask) => ⟨if isAscii str then .ascii (str.map (·.toUInt8)) else .unicode str, mask⟩

/-- `FromAString`. -/
def fromAString (g : CFlexGuid) (str : Bytes) : CFlexGuid :=
  let g := g.clear
  if str = [] then g
  else
    match readGuid (str.map (·.toNat)) with
    | (some guid, _) => { g with value := .regular guid }
    | (none, mask) => ⟨.ascii str, mask⟩

/-- The digit for a nibble. -/
def nibChar (lowerCaseMask : UInt32) (nibValue : UInt8) (nibIndex : Nat) : UInt8 :=
  if nibValue < 10 then 48 + nibValue
  else if lowerCaseMask &&& nibBit nibIndex ≠ 0 then 97 + (nibValue - 10)
  else 65 + (nibValue - 10)

/-- The digits of some bytes, the first of which is at an index. -/
def hexText (lowerCaseMask : UInt32) : Nat → Bytes → Bytes
  | _, [] => []
  | nibIndex, b :: bytes =>
    nibChar lowerCaseMask (b >>> 4) nibIndex :: nibChar lowerCaseMask (b &&& 0x0F) (nibIndex + 1) ::
      hexText lowerCaseMask (nibIndex + 2) bytes

/-- `CFlexGuid__ToString`. -/
def guidText (guid : SGuid) (lowerCaseMask : UInt32) : Bytes :=
  123 :: (hexText lowerCaseMask 0 (guid.data.take 4) ++ 45 :: (hexText lowerCaseMask 8 ((guid.data.drop 4).take 2) ++
    45 :: (hexText lowerCaseMask 12 ((guid.data.drop 6).take 2) ++ 45 :: (hexText lowerCaseMask 16 ((guid.data.drop 8).take 2) ++
      45 :: (hexText lowerCaseMask 20 (guid.data.drop 10) ++ [125])))))

/-- `ToWString`. -/
def toWString (g : CFlexGuid) : List UInt16 :=
  match g.value with
  | .null => []
  | .regular guid => (guidText guid g.lowerCaseMask).map (·.toUInt16)
  | .unicode str => str
  | .ascii str => widen str

/-! ## Copies -/

/-- `operator=`; a string does not bring its mask. -/
def assign (g other : CFlexGuid) : CFlexGuid := ⟨other.value, if isString other.value then g.lowerCaseMask else other.lowerCaseMask⟩

/-- The move constructor, with what is left behind. -/
def move (other : CFlexGuid) : CFlexGuid × CFlexGuid := (⟨other.value, 0⟩, ⟨.null, other.lowerCaseMask⟩)

/-! ## Variants -/

/-- What `GetData` points at and `GetSize` counts, of a value that is no container. -/
def data (v : Content) : Bytes := v.mkPayload.getD []

/-- `SetRegularGuid` of sixteen bytes. -/
def setRegularGuid (bytes : Bytes) : CFlexGuid := ⟨if h : bytes.length = 16 then .regular ⟨bytes, h⟩ else .null, 0⟩

/-- `FromVariant`, without what it returns. Twenty bytes are a GUID and the mask behind it. -/
def fromVariant (g : CFlexGuid) (v : Content) : CFlexGuid :=
  let type := v.getType
  let bytes := data v
  if (type = varTypeUInt ∨ type = varTypeSInt) ∧ bytes.length = 16 then setRegularGuid bytes
  else if type = varTypeBytes ∧ bytes.length = 16 then { setRegularGuid bytes with lowerCaseMask := g.clear.lowerCaseMask }
  else if type = varTypeBytes ∧ bytes.length = 20 then
    { setRegularGuid (bytes.take 16) with lowerCaseMask := .ofNat (ofLE (bytes.drop 16)) }
  else if type = varTypeAscii ∧ 1 ≤ bytes.length then g.fromAString bytes
  else if type = varTypeUnicode ∧ 2 ≤ bytes.length then g.fromWString (wideUnits bytes)
  else if type = varTypeUtf8 ∧ 1 ≤ bytes.length then
    match v.getStringW with
    | .ok str => g.fromWString str
    | .error _ => g.fromWString []
  else g.clear

/-- `ToVariant`. -/
def toVariant (g : CFlexGuid) (bTextOnly : Bool) : Content :=
  match g.value with
  | .null => .flat varTypeEmpty false []
  | .unicode str => .initValue varTypeUnicode (wideBytes str)
  | .ascii str => .initValue varTypeAscii str
  | .regular guid =>
    if bTextOnly then .initValue varTypeAscii (guidText guid g.lowerCaseMask)
    else .initValue varTypeBytes (guid.data ++ if g.lowerCaseMask ≠ 0 then toLE 4 g.lowerCaseMask.toNat else [])

end CFlexGuid

/-! ## Compare -/

/-- `m_Type`. -/
def Value.type : Value → Nat
  | .null => 0
  | .regular _ => 1
  | .unicode _ => 2
  | .ascii _ => 3

def memcmp : Bytes → Bytes → Ordering
  | a :: as, b :: bs => (compare a.toNat b.toNat).then (memcmp as bs)
  | _, _ => .eq

/-- `tolower` and `towlower`. -/
def toLower (c : Nat) : Nat := if 65 ≤ c ∧ c ≤ 90 then c + 32 else c

/-- `_strnicmp` and `_wcsnicmp` of as many characters as both strings have; they end at a zero. -/
def strnicmp : List Nat → List Nat → Ordering
  | a :: as, b :: bs => (compare (toLower a) (toLower b)).then (if a = 0 then .eq else strnicmp as bs)
  | _, _ => .eq

def CFlexGuid.compare (g other : CFlexGuid) : Ordering :=
  match g.value, other.value with
  | .null, .null => .eq
  | .regular a, .regular b => (memcmp a.data b.data).then (Ord.compare g.lowerCaseMask.toNat other.lowerCaseMask.toNat)
  | .unicode a, .unicode b => (Ord.compare a.length b.length).then (strnicmp (a.map (·.toNat)) (b.map (·.toNat)))
  | .ascii a, .ascii b => (Ord.compare a.length b.length).then (strnicmp (a.map (·.toNat)) (b.map (·.toNat)))
  | a, b => Ord.compare a.type b.type

end MajorPrivacy.Guid

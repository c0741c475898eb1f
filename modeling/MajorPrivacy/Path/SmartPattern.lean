/-
`CSmartPattern` (SmartPattern.cpp): a wildcard pattern cut into fragments, and the matcher, which
goes through the fragments from left to right. A string is the list of its wide characters; the
characters behind the end that the source may look at are the terminating NUL.
-/
import MajorPrivacy.Lib.LittleEndian

namespace MajorPrivacy.Path

abbrev WChar := UInt16

abbrev Str := List WChar

def asterisk : WChar := 0x2A
def questionMark : WChar := 0x3F
def backslash : WChar := 0x5C

/-- A character as `MakeLower` and `Set` lower it. -/
def lower (c : WChar) : WChar := if 0x41 ≤ c ∧ c ≤ 0x5A then c + 32 else c

/-- `FW::StringW::MakeLower`. -/
def makeLower (s : Str) : Str := s.map lower

/-- The characters `Set` refuses: quotes, angle brackets, the bar and control characters. -/
def isRejected (c : WChar) : Bool :=
  c = 0x22 || c = 0x3C || c = 0x3E || c = 0x7C || c < 32 || c = 127

/-- `(ULONG)-1`. -/
def noPos : UInt32 := 0xFFFFFFFF

structure SPatternInfo where
  patternLength : UInt32
  firstQuestionMark : UInt32
  firstAsterisk : UInt32
  lastAsterisk : UInt32
  firstDblAsterisk : UInt32
  lastDblAsterisk : UInt32
  deriving DecidableEq, Repr

def SPatternInfo.cleared : SPatternInfo := ⟨0, noPos, noPos, noPos, noPos, noPos⟩

namespace SPatternInfo

def addAsterisk (info : SPatternInfo) (i : Nat) : SPatternInfo :=
  { info with
    firstAsterisk := if info.firstAsterisk = noPos then UInt32.ofNat i else info.firstAsterisk
    lastAsterisk := UInt32.ofNat i }

def addDblAsterisk (info : SPatternInfo) (i : Nat) : SPatternInfo :=
  { info with
    firstDblAsterisk := if info.firstDblAsterisk = noPos then UInt32.ofNat i else info.firstDblAsterisk
    lastDblAsterisk := UInt32.ofNat i }

def addQuestionMark (info : SPatternInfo) (i : Nat) : SPatternInfo :=
  { info with
    firstQuestionMark := if info.firstQuestionMark = noPos then UInt32.ofNat i else info.firstQuestionMark }

end SPatternInfo

/-- `SFragment::EType`; `Set` makes no expression. -/
inductive FragmentType
  | eText
  | eAsterisk
  | eDblAsterisk
  | eExpression
  deriving DecidableEq, Repr

structure SFragment where
  type : FragmentType
  text : Str
  deriving DecidableEq, Repr

structure CSmartPattern where
  pattern : Str
  info : SPatternInfo
  fragments : List SFragment
  separator : WChar
  deriving DecidableEq, Repr

namespace CSmartPattern

/-- A pattern object before `Set`, and after `SetSeparator`. -/
def new (separator : WChar) : CSmartPattern := ⟨[], .cleared, [], separator⟩

/-! ## Set -/

/-- The fragment for the text from `j` up to `i`, if there is any. -/
def appendText (p : CSmartPattern) (i j : Nat) : CSmartPattern :=
  if i > j then { p with fragments := p.fragments ++ [⟨.eText, (p.pattern.drop j).take (i - j)⟩] } else p

/-- The loop of `Set`, which lowers the stored pattern as it goes; `rest` is what is left from `i`. -/
def setLoop : (rest : Str) → (i j : Nat) → CSmartPattern → Int × CSmartPattern
  | [], i, j, p =>
    let p := p.appendText i j
    (0, { p with info := { p.info with patternLength := UInt32.ofNat i } })
  | c :: rest, i, j, p =>
    if c = asterisk then
      let p := p.appendText i j
      match rest with
      | d :: rest' =>
        if d = asterisk then
          if rest'.head? = some asterisk then (-2, p)
          else setLoop rest' (i + 2) (i + 2)
            { p with info := p.info.addDblAsterisk i, fragments := p.fragments ++ [⟨.eDblAsterisk, []⟩] }
        else setLoop (d :: rest') (i + 1) (i + 1)
          { p with info := p.info.addAsterisk i, fragments := p.fragments ++ [⟨.eAsterisk, []⟩] }
      | [] => setLoop [] (i + 1) (i + 1)
          { p with info := p.info.addAsterisk i, fragments := p.fragments ++ [⟨.eAsterisk, []⟩] }
    else
      let p := { p with pattern := p.pattern.set i (lower c) }
      if isRejected c then (-4, p)
      else setLoop rest (i + 1) j (if c = questionMark then { p with info := p.info.addQuestionMark i } else p)
termination_by structural rest => rest

/-- `CSmartPattern::Set`. -/
def set (p : CSmartPattern) (pattern : Str) : Int × CSmartPattern :=
  let p := { p with pattern := pattern, info := .cleared, fragments := [] }
  if pattern = [] then (-3, p) else setLoop pattern 0 0 p

/-! ## Match -/

/-- `CSmartPattern__MatchString`; the caller has seen to it that the string is long enough. -/
def matchString : Str → Str → Bool
  | [], _ => true
  | _ :: _, [] => false
  | l :: text, r :: str => if l ≠ r ∧ l ≠ questionMark then false else matchString text str

/-- `CSmartPattern__MatchSuffix` on what is left of the string: how far it had to go. -/
def matchSuffix (suffix : Str) (separator : WChar) : Str → Option Nat
  | [] => if suffix = [] then some 0 else none
  | c :: str =>
    if (c :: str).length < suffix.length then none
    else if matchString suffix (c :: str) then some 0
    else if separator ≠ 0 ∧ c = separator then none
    else (matchSuffix suffix separator str).map (· + 1)

/-- The loop of `RawMatch`: the position reached and the type of the last fragment. -/
def rawMatchLoop (separator : WChar) (str : Str) : List SFragment → (pos : Nat) → (last : FragmentType) →
    Option (Nat × FragmentType)
  | [], pos, last => some (pos, last)
  | fragment :: fragments, pos, last =>
    match fragment.type with
    | .eText =>
      if fragment.text.length > str.length - pos then none
      else if last = .eAsterisk ∨ last = .eDblAsterisk then
        match matchSuffix fragment.text (if last = .eAsterisk then separator else 0) (str.drop pos) with
        | none => none
        | some offset => rawMatchLoop separator str fragments (pos + (offset + fragment.text.length)) .eText
      else if matchString fragment.text (str.drop pos) then
        rawMatchLoop separator str fragments (pos + fragment.text.length) .eText
      else none
    | .eAsterisk => rawMatchLoop separator str fragments pos .eAsterisk
    | .eDblAsterisk => rawMatchLoop separator str fragments pos .eDblAsterisk
    | .eExpression => none

/-- `CSmartPattern::RawMatch`, with the type the caller passes in. -/
def rawMatch (p : CSmartPattern) (str : Str) : Option (Nat × FragmentType) :=
  rawMatchLoop p.separator str p.fragments 0 .eText

/-- `CSmartPattern::Match`. -/
def «match» (p : CSmartPattern) (str : Str) : Bool :=
  let str := makeLower str
  match p.rawMatch str with
  | none => false
  | some (pos, last) =>
    if pos = str.length then true
    else if last = .eAsterisk ∨ last = .eDblAsterisk then
      if p.separator ≠ 0 ∧ last = .eAsterisk then !(str.drop pos).any (· = p.separator) else true
    else false

end CSmartPattern

end MajorPrivacy.Path

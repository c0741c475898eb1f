/-
Addresses as the lists of the firewall rules name them: `CAddress` (Address.cpp) with its readers, the
128 bit numbers that ranges are compared as (UIntX.cpp), and the texts of the C library they rest on.
-/
import MajorPrivacy.Firewall.FwRule

namespace MajorPrivacy.Firewall

open LittleEndian MajorPrivacy.Variant

/-! ## Wide texts -/

def wide (s : String) : Str := (text s).map (·.toUInt16)

/-- `c_str`: the text up to a zero. -/
def cStr (s : Str) : Str := s.takeWhile (· ≠ 0)

/-- `towlower` and `towupper`. -/
def towlower (c : UInt16) : UInt16 := if 65 ≤ c ∧ c ≤ 90 then c + 32 else c

def towupper (c : UInt16) : UInt16 := if 97 ≤ c ∧ c ≤ 122 then c - 32 else c

/-- `_wcsicmp` finds no difference. -/
def wcsicmp (a b : Str) : Bool := (cStr a).map towlower = (cStr b).map towlower

/-- The narrow character, or one that is no digit, sign or space. -/
def narrow (c : UInt16) : UInt8 := if c < 128 then c.toUInt8 else 0xFF

/-- `_wtoi`. -/
def wtoi (s : Str) : Int := atoi (s.map narrow)

/-- The value of a digit, which is not below any base for other characters. -/
def parseDigit (c : UInt16) : Nat :=
  if 48 ≤ c ∧ c ≤ 57 then c.toNat - 48
  else if 97 ≤ towlower c ∧ towlower c ≤ 122 then (towlower c).toNat - 87
  else 255

/-- `wcstoul`: the number and the text behind it, which is the whole text if there is no number. -/
def wcstoul (base : Nat) (s : Str) : Nat × Str :=
  let body := s.dropWhile fun c => isSpace (narrow c)
  let (negative, body) := match body with
    | 0x2D :: rest => (true, rest)
    | 0x2B :: rest => (false, rest)
    | _ => (false, body)
  let (base, body) := match body with
    | 0x30 :: x :: rest =>
      if towlower x = 0x78 then (if base = 0 then 16 else base, rest) else (if base = 0 then 8 else base, body)
    | 0x30 :: _ => (if base = 0 then 8 else base, body)
    | _ => (if base = 0 then 10 else base, body)
  let digits := body.takeWhile fun c => parseDigit c < base
  if digits = [] then (0, s)
  else
    let n := digits.foldl (fun n c => base * n + parseDigit c) 0
    (if n ≥ 2 ^ 32 then 0xFFFFFFFF else if negative then (2 ^ 32 - n) % 2 ^ 32 else n, body.drop digits.length)

/-! ## CUInt128 -/

/-- The number in the bytes of a `CUInt128`, the low ones first. -/
abbrev CUInt128 := BitVec 128

namespace CUInt128

/-- `GetDWord`. -/
def dword (v : CUInt128) (i : Nat) : Int := (v.extractLsb' (32 * i) 32).toNat

/-- `Subtract`, which begins at the high end and takes the borrow downwards. -/
def subtract (a b : CUInt128) : CUInt128 :=
  if b = 0 then a
  else
    let d3 := a.dword 3 - b.dword 3
    let d2 := d3 / 2 ^ 32 + a.dword 2 - b.dword 2
    let d1 := d2 / 2 ^ 32 + a.dword 1 - b.dword 1
    let d0 := d1 / 2 ^ 32 + a.dword 0 - b.dword 0
    BitVec.ofInt 32 d3 ++ BitVec.ofInt 32 d2 ++ BitVec.ofInt 32 d1 ++ BitVec.ofInt 32 d0

/-- `ShiftLeft`. -/
def shiftLeft (v : CUInt128) (bits : Nat) : CUInt128 :=
  if bits = 0 ∨ v = 0 then v
  else if bits > 128 then 0
  else v <<< bits

end CUInt128

/-! ## CAddress -/

inductive EAF
  | unspec | inet | inet6
  deriving DecidableEq

structure CAddress where
  eAF : EAF
  ip : Bytes
  deriving DecidableEq

namespace CAddress

def new (eAF : EAF) : CAddress := ⟨eAF, List.replicate 16 0⟩

/-- The loop of `_winet_aton`: whether it reads to the end, and the bytes it writes. -/
def atonParts : Nat → Str → Bool × Bytes
  | 0, _ => (true, [])
  | _, [] => (true, [])
  | n + 1, src =>
    let (x, p) := wcstoul 0 src
    if x ≥ 256 ∨ p.length = src.length then (false, [])
    else match p with
      | 0x2E :: p =>
        let (ok, rest) := atonParts n p
        (ok, .ofNat x :: rest)
      | [] => (true, [.ofNat x])
      | _ => (false, [.ofNat x])

/-- `_winet_aton`: the four bytes of the address. -/
def aton (src : Str) : Bytes :=
  match atonParts 4 src with
  | (true, [a, b, c]) => if a < 0x80 then [a, 0, b, c] else if a < 0xC0 then [a, b, 0, c] else [a, b, c, 0]
  | (true, [a, b]) => if a < 0x80 then [a, 0, 0, b] else [a, b, 0, 0]
  | (_, parts) => (parts ++ List.replicate 4 0).take 4

def ipcharok : Option UInt16 → Bool
  | some c => c = 0x3A ∨ parseDigit c < 16
  | none => false

def delimchar : Option UInt16 → Bool
  | some c => ¬ (c = 0x3A ∨ parseDigit c < 36)
  | none => true

/-- The loop of `_winet_pton`: whether there was no error, the bytes before the end, where zeros were elided,
and the rest of the text. -/
def ptonLoop : Nat → Nat → Nat → Str → Bool × Bytes × Nat × Str
  | 0, _, elipsis, p => (true, [], elipsis, p)
  | n + 1, i, elipsis, op =>
    if ¬ ipcharok op.head? then (true, [], elipsis, op)
    else
      let (x, p) := wcstoul 16 op
      let group : Bytes := [.ofNat (x / 256), .ofNat x]
      if x ≥ 65536 ∨ p.head? ≠ some 0x3A ∧ ¬ delimchar p.head? then (false, [], elipsis, p)
      else match p with
        | 0x3A :: 0x3A :: p =>
          if elipsis ≠ 0 then (false, group, elipsis, p)
          else
            let (ok, bytes, rest) := ptonLoop n (i + 2) (i + 2) p
            (ok, group ++ bytes, rest)
        | 0x3A :: p =>
          let (ok, bytes, rest) := ptonLoop n (i + 2) elipsis p
          (ok, group ++ bytes, rest)
        | p =>
          if p.length = op.length then (true, [], elipsis, p)
          else
            let (ok, bytes, rest) := ptonLoop n (i + 2) elipsis p
            (ok, group ++ bytes, rest)

/-- `_winet_pton` of the other family: the sixteen bytes of the address. -/
def pton6 (src : Str) : Bytes :=
  let (ok, bytes, elipsis, p) := ptonLoop 8 0 0 src
  if ¬ ok ∨ p.length = src.length ∨ ¬ delimchar p.head? then (bytes ++ List.replicate 16 0).take 16
  else bytes.take elipsis ++ List.replicate (16 - bytes.length) 0 ++ bytes.drop elipsis

/-- The constructor from a text. What was read before an error stays. -/
def fromWString (str : Str) : CAddress :=
  if 0x2E ∈ str then ⟨.inet, aton (cStr str) ++ List.replicate 12 0⟩
  else if 0x3A ∈ str then ⟨.inet6, pton6 (cStr str)⟩
  else new .unspec

/-- `%d` and `%x`. -/
def digits (base n : Nat) : Str := (Nat.toDigits base n).map fun c => UInt16.ofNat c.toNat

/-- `ToWString`. -/
def toWString (a : CAddress) : Str :=
  match a.eAF with
  | .unspec => []
  | .inet => [0x2E].intercalate ((a.ip.take 4).map fun b => digits 10 b.toNat)
  | .inet6 => [0x3A].intercalate ((List.range 8).map fun i => digits 16 (256 * (a.ip.getD (2 * i) 0).toNat + (a.ip.getD (2 * i + 1) 0).toNat))

def isNull (a : CAddress) : Bool :=
  match a.eAF with
  | .unspec => true
  | .inet => (a.ip.take 4).all (· = 0)
  | .inet6 => a.ip.all (· = 0)

/-- `CFirewall__IpToInt`: the number of an IPv4 address in host order, the bytes of another as they are. -/
def ipToInt (a : CAddress) : CUInt128 :=
  match a.eAF with
  | .unspec => 0
  | .inet => BitVec.ofNat 128 (ofLE (a.ip.take 4).reverse)
  | .inet6 => BitVec.ofNat 128 (ofLE a.ip)

end CAddress

/-- What the firewall asks of a network adapter. -/
structure SAdapterInfo where
  profile : UInt32
  type : UInt32
  gatewayAddresses : List CAddress
  winsServersAddresses : List CAddress
  dnsAddresses : List CAddress
  dhcpServerAddresses : List CAddress

end MajorPrivacy.Firewall

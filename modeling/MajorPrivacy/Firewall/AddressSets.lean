/-
The addresses that an address list names, and those that the search finds in it (`CFirewall::MatchAddress`). The search
compares IPv6 addresses with their low bytes first, takes the bits of a prefix for those of an IPv4 address, begins a
subnet at its base address, and does not go on behind a keyword.
-/
import MajorPrivacy.Firewall.Keywords
import Mathlib.Data.Set.Basic

namespace MajorPrivacy.Firewall

open LittleEndian MajorPrivacy.Variant

/-! ## Addresses -/

namespace CAddress

/-- The bytes that count. -/
def bytes (a : CAddress) : Bytes :=
  match a.eAF with
  | .unspec => []
  | .inet => a.ip.take 4
  | .inet6 => a.ip

/-- The number of the address, in network order. -/
def value (a : CAddress) : Nat := ofLE a.bytes.reverse

/-- The number that the search compares. -/
def key (a : CAddress) : Nat := a.ipToInt.toNat

end CAddress

def EAF.bits : EAF → Nat
  | .unspec => 0
  | .inet => 32
  | .inet6 => 128

/-- An address of one of the two families. -/
structure IPAddress extends CAddress where
  isIP : eAF ≠ .unspec
  length_ip : ip.length = 16

/-! ### Reading an address -/

theorem length_aton (src : Str) : (CAddress.aton src).length = 4 := by
  unfold CAddress.aton
  split
  · split_ifs <;> rfl
  · split_ifs <;> rfl
  · simp

theorem length_ptonLoop : ∀ (n i elipsis : Nat) (p : Str), (CAddress.ptonLoop n i elipsis p).2.1.length ≤ 2 * n
  | 0, _, _, _ => Nat.le_refl 0
  | n + 1, i, elipsis, op => by
    have hrest : ∀ (a b : UInt8) (elipsis : Nat) (p : Str),
        ([a, b] ++ (CAddress.ptonLoop n (i + 2) elipsis p).2.1).length ≤ 2 * (n + 1) := fun a b elipsis p => by
      have hn := length_ptonLoop n (i + 2) elipsis p
      simp only [List.length_append, List.length_cons, List.length_nil]
      omega
    unfold CAddress.ptonLoop
    split
    · exact Nat.zero_le _
    · rcases wcstoul 16 op with ⟨x, p⟩
      dsimp only
      split
      · exact Nat.zero_le _
      · split
        · split
          · exact Nat.le_add_left 2 (2 * n)
          · exact hrest _ _ _ _
        · exact hrest _ _ _ _
        · split
          · exact Nat.zero_le _
          · exact hrest _ _ _ _

theorem length_pton6 (src : Str) : (CAddress.pton6 src).length = 16 := by
  have hloop := length_ptonLoop 8 0 0 src
  unfold CAddress.pton6
  rcases hp : CAddress.ptonLoop 8 0 0 src with ⟨ok, bytes, elipsis, p⟩
  rw [hp] at hloop
  dsimp only at hloop ⊢
  split_ifs
  · simp
  · simp only [List.length_append, List.length_take, List.length_replicate, List.length_drop]
    omega

theorem length_fromWString (str : Str) : (CAddress.fromWString str).ip.length = 16 := by
  unfold CAddress.fromWString
  split_ifs
  · simp [length_aton]
  · exact length_pton6 _
  · rfl

/-! ### Numbers -/

namespace CAddress

theorem key_inet {a : CAddress} (h : a.eAF = .inet) : a.key = a.value := by
  have hlt := ofLE_lt (a.ip.take 4).reverse
  have hlength : (a.ip.take 4).reverse.length ≤ 4 := by simp
  have hpow : 256 ^ (a.ip.take 4).reverse.length ≤ 256 ^ 4 := Nat.pow_le_pow_right (by decide) hlength
  simp only [key, ipToInt, value, bytes, h, BitVec.toNat_ofNat]
  exact Nat.mod_eq_of_lt (by omega)

/-- The low bytes are the first ones. -/
theorem key_inet6 {a : CAddress} (h : a.eAF = .inet6) (hlength : a.ip.length = 16) : a.key = ofLE a.ip := by
  have hlt := ofLE_lt a.ip
  rw [hlength] at hlt
  simp only [key, ipToInt, h, BitVec.toNat_ofNat]
  exact Nat.mod_eq_of_lt (by omega)

/-- The number of an address tells it from the others of its family. -/
theorem ipToInt_inj {a b : CAddress} (ha : a.ip.length = 16) (hb : b.ip.length = 16) (hfamily : a.eAF = b.eAF) :
    a.ipToInt = b.ipToInt ↔ a.bytes = b.bytes := by
  have hvalue : a.ipToInt = b.ipToInt ↔ a.key = b.key := BitVec.toNat_inj.symm
  rw [hvalue]
  rcases hb' : b.eAF with _ | _ | _
  all_goals rw [hb'] at hfamily
  · simp [key, ipToInt, bytes, hfamily, hb']
  · rw [key_inet hfamily, key_inet hb']
    constructor
    · intro heq
      have hlength : a.bytes.reverse.length = b.bytes.reverse.length := by simp [bytes, hfamily, hb', ha, hb]
      have hreverse : a.bytes.reverse = b.bytes.reverse := by
        have htoLE : toLE a.bytes.reverse.length (ofLE a.bytes.reverse) = toLE b.bytes.reverse.length (ofLE b.bytes.reverse) :=
          congrArg₂ toLE hlength heq
        rwa [toLE_ofLE, toLE_ofLE] at htoLE
      exact List.reverse_injective hreverse
    · intro heq
      exact congrArg (fun bytes : Bytes => ofLE bytes.reverse) heq
  · rw [key_inet6 hfamily ha, key_inet6 hb' hb]
    simp only [bytes, hfamily, hb']
    constructor
    · intro heq
      have htoLE : toLE a.ip.length (ofLE a.ip) = toLE b.ip.length (ofLE b.ip) := congrArg₂ toLE (ha.trans hb.symm) heq
      rwa [toLE_ofLE, toLE_ofLE] at htoLE
    · exact congrArg ofLE

end CAddress

/-! ## What a list names -/

/-- The address itself. -/
def addressOnly (address : CAddress) : Set CAddress := {a | address.eAF = a.eAF ∧ address.bytes = a.bytes}

/-- The addresses between two, in the order of their numbers. -/
def addressRange (beginIP endIP : CAddress) : Set CAddress :=
  {a | beginIP.eAF = a.eAF ∧ beginIP.eAF = endIP.eAF ∧ beginIP.value ≤ a.value ∧ a.value ≤ endIP.value}

/-- The addresses that agree with the base in the first bits, whatever the base has in the other ones. -/
def subnet (base : CAddress) (bits : Nat) : Set CAddress :=
  {a | base.eAF = a.eAF ∧ a.value / 2 ^ (a.eAF.bits - bits) = base.value / 2 ^ (a.eAF.bits - bits)}

/-- The base and the bits of `address/bits`. -/
def splitSubnet (net : Str) : CAddress × Int :=
  (.fromWString (net.takeWhile (· ≠ 0x2F)), wtoi ((net.dropWhile (· ≠ 0x2F)).drop 1))

/-- What an address, a range or a subnet names. -/
def netSet (net : Str) : Set CAddress :=
  match net.splitOn 0x2D with
  | [single] =>
    if 0x2F ∈ single then subnet (splitSubnet single).1 (splitSubnet single).2.toNat else addressOnly (.fromWString single)
  | [first, last] => addressRange (.fromWString first) (.fromWString last)
  | _ => ∅

/-- The networks a text stands for as a keyword. -/
def networks (nicInfo : Option SAdapterInfo) (element : Str) : Option (List Str) :=
  match element.splitOn 0x2D with
  | [single] => if 0x2F ∈ single then some [] else getSpecialNet single nicInfo
  | _ => some []

/-- What an element of a list names: a keyword, the addresses of its networks. -/
def elementSet (nicInfo : Option SAdapterInfo) (element : Str) : Set CAddress :=
  match networks nicInfo element with
  | some (net :: nets) => {a | ∃ n ∈ net :: nets, a ∈ netSet n}
  | _ => netSet element

/-! ## What the search finds -/

/-- `(CUInt128(1) << (32 - bits)) - 1`, for the shift by that many bits modulo `2^32`. -/
def subnetSpan (shift : Nat) : Nat :=
  if shift < 32 then 2 ^ shift - 1 else if shift < 128 then 2 ^ shift + (2 ^ 32 - 1) else 2 ^ 32 - 1

/-- The addresses between two, in the order the search knows. -/
def keyRange (beginIP endIP : CAddress) : Set CAddress :=
  {a | beginIP.eAF = a.eAF ∧ beginIP.eAF = endIP.eAF ∧ beginIP.key ≤ a.key ∧ a.key ≤ endIP.key}

/-- The addresses from the base on. -/
def keySubnet (base : CAddress) (bits : Int) : Set CAddress :=
  {a | base.eAF = a.eAF ∧ base.key ≤ a.key ∧ a.key ≤ (base.key + subnetSpan ((32 - bits) % 2 ^ 32).toNat) % 2 ^ 128}

def netFound (net : Str) : Set CAddress :=
  match net.splitOn 0x2D with
  | [single] => if 0x2F ∈ single then keySubnet (splitSubnet single).1 (splitSubnet single).2 else addressOnly (.fromWString single)
  | [first, last] => keyRange (.fromWString first) (.fromWString last)
  | _ => ∅

def elementFound (nicInfo : Option SAdapterInfo) (element : Str) : Set CAddress :=
  match networks nicInfo element with
  | none => ∅
  | some (net :: nets) => {a | ∃ n ∈ net :: nets, a ∈ netFound n}
  | some [] => netFound element

/-- The elements up to the first keyword that stands for networks. -/
def visible (nicInfo : Option SAdapterInfo) : List Str → List Str
  | [] => []
  | element :: rest => if networks nicInfo element = some [] then element :: visible nicInfo rest else [element]

/-- The search meets a keyword of an adapter that is not there. -/
def SearchFaults (nicInfo : Option SAdapterInfo) (addresses : List Str) (a : CAddress) : Prop :=
  ∃ front element, visible nicInfo addresses = front ++ [element] ∧ networks nicInfo element = none ∧
    ∀ e ∈ front, a ∉ elementFound nicInfo e

/-! ### The search -/

theorem subtract_shiftLeft (shift : Nat) : (((1 : CUInt128).shiftLeft shift).subtract 1).toNat = subnetSpan shift := by
  by_cases hshift : shift < 128
  · have hall : ∀ shift : Fin 128, (((1 : CUInt128).shiftLeft shift.1).subtract 1).toNat = subnetSpan shift.1 := by decide +kernel
    exact hall ⟨shift, hshift⟩
  · have hzero : (1 : CUInt128).shiftLeft shift = 0 := by
      unfold CUInt128.shiftLeft
      rw [if_neg (by simp; omega)]
      split_ifs
      · rfl
      · have heq : shift = 128 := by omega
        subst heq
        rfl
    rw [hzero, subnetSpan, if_neg (by omega), if_neg hshift]
    rfl

/-- What the search asks of an element that is no keyword. -/
def netHit (net : Str) (a : CAddress) : Bool :=
  match net.splitOn 0x2D with
  | [single] =>
    if 0x2F ∈ single then inNet a single
    else (CAddress.fromWString single).eAF = a.eAF ∧ (CAddress.fromWString single).ipToInt = a.ipToInt
  | [first, last] => inRange a (.fromWString first) (.fromWString last)
  | _ => false

theorem netHit_iff (net : Str) (a : IPAddress) : netHit net a.toCAddress = true ↔ a.toCAddress ∈ netFound net := by
  have hle : ∀ x y : CUInt128, x ≤ y ↔ x.toNat ≤ y.toNat := fun x y => BitVec.le_def
  unfold netHit netFound
  split
  · rename_i single _
    split
    · simp only [inNet, keySubnet, splitSubnet, Set.mem_ofPred_eq, decide_eq_true_eq, hle, BitVec.toNat_add, subtract_shiftLeft,
        CAddress.key]
    · rw [decide_eq_true_eq]
      refine and_congr_right fun hfamily => ?_
      exact CAddress.ipToInt_inj (length_fromWString single) a.length_ip hfamily
  · simp only [inRange, keyRange, Set.mem_ofPred_eq, decide_eq_true_eq, hle, CAddress.key]
  · simp

section Search
variable {special : List Str → Option Bool} {a : CAddress} {nicInfo : Option SAdapterInfo}

/-- One element of the list. -/
theorem matchRanges_element (element : Str) (rest : List Str) : matchRanges special a nicInfo (element :: rest) =
    match networks nicInfo element with
    | none => none
    | some [] => if netHit element a then some true else matchRanges special a nicInfo rest
    | some nets => special nets := by
  unfold networks netHit
  rcases hsplit : element.splitOn 0x2D with _ | ⟨first, _ | ⟨last, _ | ⟨other, others⟩⟩⟩
  · simp only [matchRanges, hsplit, Bool.false_eq_true, if_false]
  · by_cases hslash : 0x2F ∈ first
    · simp only [matchRanges, hsplit, hslash, if_true]
    · rcases hspecial : getSpecialNet first nicInfo with _ | (_ | ⟨net, nets⟩)
      · simp only [matchRanges, hsplit, hslash, hspecial, if_false]
      · simp only [matchRanges, hsplit, hslash, hspecial, if_false, decide_eq_true_eq]
      · simp only [matchRanges, hsplit, hslash, hspecial, if_false]
  · simp only [matchRanges, hsplit]
  · simp only [matchRanges, hsplit, Bool.false_eq_true, if_false]

/-- A list without keywords is searched to its end. -/
theorem matchRanges_plain : ∀ {nets : List Str}, (∀ net ∈ nets, networks nicInfo net = some []) →
    matchRanges special a nicInfo nets = some (nets.any (netHit · a))
  | [], _ => rfl
  | net :: nets, h => by
    rw [matchRanges_element, h net List.mem_cons_self]
    dsimp only
    rw [matchRanges_plain fun n hn => h n (List.mem_cons_of_mem _ hn), List.any_cons]
    by_cases hhit : netHit net a = true
    · simp [hhit]
    · simp [hhit]

theorem networks_of_noKeyword {nets : List Str} (h : NoKeyword nets) : ∀ net ∈ nets, networks nicInfo net = some [] := by
  rintro net hmem
  unfold networks
  split
  · rename_i single hsplit
    split
    · rfl
    · exact getSpecialNet_of_not_keyword (h net hmem single hsplit) nicInfo
  · rfl

/-- A keyword is searched for among its networks. -/
theorem matchAddressDepth_networks {element : Str} {nets : List Str} (h : networks nicInfo element = some nets) :
    matchAddressDepth 1 a none nets = some (nets.any (netHit · a)) := by
  have hnets : NoKeyword nets := by
    unfold networks at h
    split at h
    · split at h
      · cases h
        exact fun _ hmem => absurd hmem List.not_mem_nil
      · exact noKeyword_getSpecialNet h
    · cases h
      exact fun _ hmem => absurd hmem List.not_mem_nil
  exact matchRanges_plain (networks_of_noKeyword hnets)

end Search

section Result
variable {a : IPAddress} {nicInfo : Option SAdapterInfo}

theorem matchAddress_cons (element : Str) (rest : List Str) : matchAddress a.toCAddress (element :: rest) nicInfo =
    match networks nicInfo element with
    | none => none
    | some [] => if netHit element a.toCAddress then some true else matchAddress a.toCAddress rest nicInfo
    | some nets => some (nets.any (netHit · a.toCAddress)) := by
  unfold matchAddress
  rw [matchAddressDepth, matchRanges_element]
  rcases hnets : networks nicInfo element with _ | (_ | ⟨net, nets⟩)
  · rfl
  · rfl
  · exact matchAddressDepth_networks hnets

/-- The search finds what the elements that it sees find. -/
theorem matchAddress_eq_true : ∀ {addresses : List Str},
    matchAddress a.toCAddress addresses nicInfo = some true ↔ ∃ element ∈ visible nicInfo addresses, a.toCAddress ∈ elementFound nicInfo element
  | [] => by simp [matchAddress, matchAddressDepth, matchRanges, visible]
  | element :: rest => by
    rw [matchAddress_cons]
    unfold visible
    rcases hnets : networks nicInfo element with _ | (_ | ⟨net, nets⟩)
    · simp [elementFound, hnets]
    · have ih := @matchAddress_eq_true rest
      have hfound : a.toCAddress ∈ elementFound nicInfo element ↔ netHit element a.toCAddress = true := by
        rw [netHit_iff]
        simp only [elementFound, hnets]
      simp only [if_true, List.mem_cons, exists_eq_or_imp, hfound, ← ih]
      by_cases hhit : netHit element a.toCAddress = true
      · simp [hhit]
      · simp [hhit]
    · simp only [elementFound, hnets, reduceCtorEq, if_false, List.mem_singleton, exists_eq_left, Option.some.injEq,
        List.any_eq_true, netHit_iff, Set.mem_ofPred_eq]

theorem matchAddress_eq_none : ∀ {addresses : List Str},
    matchAddress a.toCAddress addresses nicInfo = none ↔ SearchFaults nicInfo addresses a.toCAddress
  | [] => by simp [matchAddress, matchAddressDepth, matchRanges, SearchFaults, visible]
  | element :: rest => by
    rw [matchAddress_cons]
    unfold SearchFaults visible
    rcases hnets : networks nicInfo element with _ | (_ | ⟨net, nets⟩)
    · refine iff_of_true rfl ⟨[], element, rfl, hnets, fun _ hmem => absurd hmem List.not_mem_nil⟩
    · have ih := @matchAddress_eq_none rest
      have hfound : a.toCAddress ∈ elementFound nicInfo element ↔ netHit element a.toCAddress = true := by
        rw [netHit_iff]
        simp only [elementFound, hnets]
      simp only [if_true]
      by_cases hhit : netHit element a.toCAddress = true
      · rw [if_pos hhit]
        refine iff_of_false (by simp) ?_
        rintro ⟨front, last, heq, hlast, hnone⟩
        rcases front with _ | ⟨first, front⟩
        · rw [← (List.cons.inj heq).1, hnets] at hlast
          cases hlast
        · rcases List.cons.inj heq with ⟨rfl, -⟩
          exact hnone element List.mem_cons_self (hfound.2 hhit)
      · rw [if_neg hhit, ih]
        constructor
        · rintro ⟨front, last, heq, hlast, hnone⟩
          refine ⟨element :: front, last, by rw [heq]; rfl, hlast, ?_⟩
          rintro e he
          rcases List.mem_cons.1 he with rfl | he
          · exact fun h => hhit (hfound.1 h)
          · exact hnone e he
        · rintro ⟨front, last, heq, hlast, hnone⟩
          rcases front with _ | ⟨first, front⟩
          · rw [← (List.cons.inj heq).1, hnets] at hlast
            cases hlast
          · exact ⟨front, last, (List.cons.inj heq).2, hlast, fun e he => hnone e (List.mem_cons_of_mem _ he)⟩
    · refine iff_of_false (by simp) ?_
      rintro ⟨front, last, heq, hlast, -⟩
      rcases front with _ | ⟨first, front⟩
      · cases heq
        rw [hnets] at hlast
        cases hlast
      · simp at heq

end Result

theorem CAddress.value_inet_lt {a : CAddress} (h : a.eAF = .inet) : a.value < 2 ^ 32 := by
  have hlt := ofLE_lt (a.ip.take 4).reverse
  have hpow : 256 ^ (a.ip.take 4).reverse.length ≤ 256 ^ 4 := Nat.pow_le_pow_right (by decide) (by simp)
  simp only [value, bytes, h]
  omega

/-! ## Ports -/

/-- A text that is a port number. -/
structure IsPortNumber (s : Str) : Prop where
  nonempty : s ≠ []
  digits : ∀ c ∈ s, 48 ≤ c ∧ c ≤ 57
  nonneg : 0 ≤ wtoi s
  le : wtoi s ≤ 65535

/-- A list of port numbers and ranges of them. -/
abbrev PortList : Type := {ports : List Str // ∀ range ∈ ports, ∀ part ∈ range.splitOn 0x2D, IsPortNumber part}

/-- What an element of the list names. -/
def portSet (range : Str) : Set UInt16 :=
  match range.splitOn 0x2D with
  | [single] => {port | wtoi single = port.toNat}
  | [first, last] => {port | wtoi first ≤ port.toNat ∧ port.toNat ≤ wtoi last}
  | _ => ∅

theorem toNat_ofInt_wtoi {s : Str} (h : IsPortNumber s) : ((UInt16.ofInt (wtoi s)).toNat : Int) = wtoi s := by
  have hnonneg := h.nonneg
  have hle := h.le
  unfold UInt16.ofInt
  rw [UInt16.toNat_ofNat']
  omega

/-- A range that names port zero matches no port. -/
theorem portRange_iff {port : UInt16} {range : Str} (h : ∀ part ∈ range.splitOn 0x2D, IsPortNumber part) :
    portRange port range = true ↔ port ∈ portSet range ∧ ∀ part ∈ range.splitOn 0x2D, wtoi part ≠ 0 := by
  have hzero : ∀ {s : Str}, IsPortNumber s → (UInt16.ofInt (wtoi s) ≠ 0 ↔ wtoi s ≠ 0) := fun {s} hs => by
    have hn := toNat_ofInt_wtoi hs
    rw [Ne, Ne, not_iff_not, ← UInt16.toNat_inj]
    show (UInt16.ofInt (wtoi s)).toNat = 0 ↔ _
    omega
  have heq : ∀ {s : Str}, IsPortNumber s → (UInt16.ofInt (wtoi s) = port ↔ wtoi s = port.toNat) := fun {s} hs => by
    have hn := toNat_ofInt_wtoi hs
    rw [← UInt16.toNat_inj]
    omega
  have hle : ∀ {s : Str}, IsPortNumber s → (UInt16.ofInt (wtoi s) ≤ port ↔ wtoi s ≤ port.toNat) := fun {s} hs => by
    have hn := toNat_ofInt_wtoi hs
    rw [UInt16.le_iff_toNat_le]
    omega
  have hge : ∀ {s : Str}, IsPortNumber s → (port ≤ UInt16.ofInt (wtoi s) ↔ port.toNat ≤ wtoi s) := fun {s} hs => by
    have hn := toNat_ofInt_wtoi hs
    rw [UInt16.le_iff_toNat_le]
    omega
  unfold portRange portSet
  split
  · rename_i single hsplit
    rw [hsplit] at h ⊢
    have hsingle := h single List.mem_cons_self
    simp only [decide_eq_true_eq, hzero hsingle, heq hsingle, Set.mem_ofPred_eq, List.forall_mem_singleton]
    exact And.comm
  · rename_i first last hsplit
    rw [hsplit] at h ⊢
    have hfirst := h first List.mem_cons_self
    have hlast := h last (List.mem_cons_of_mem _ List.mem_cons_self)
    simp only [decide_eq_true_eq, hzero hfirst, hzero hlast, hle hfirst, hge hlast, Set.mem_ofPred_eq, List.forall_mem_cons,
      List.not_mem_nil, false_imp_iff, implies_true, and_true]
    constructor
    · rintro ⟨hfirst, hlast, hrange⟩
      exact ⟨hrange, hfirst, hlast⟩
    · rintro ⟨hrange, hfirst, hlast⟩
      exact ⟨hfirst, hlast, hrange⟩
  · simp

/-! ## Where the two agree -/

/-- The search for an address ends and tells what the list names if it does not fault and finds the address just when it
is named; the search for a port tells it if some element that names the port does not name port zero. -/
theorem lists_match (a : IPAddress) (addresses : List Str) (nicInfo : Option SAdapterInfo) (port : UInt16) (ports : PortList) :
    ((∃ found, matchAddress a.toCAddress addresses nicInfo = some found ∧
          (found = true ↔ ∃ element ∈ addresses, a.toCAddress ∈ elementSet nicInfo element)) ↔
        ¬ SearchFaults nicInfo addresses a.toCAddress ∧
          ((∃ element ∈ addresses, a.toCAddress ∈ elementSet nicInfo element) ↔
            ∃ element ∈ visible nicInfo addresses, a.toCAddress ∈ elementFound nicInfo element)) ∧
      ((matchPort port ports.1 = true ↔ ∃ range ∈ ports.1, port ∈ portSet range) ↔
        ((∃ range ∈ ports.1, port ∈ portSet range) →
          ∃ range ∈ ports.1, port ∈ portSet range ∧ ∀ part ∈ range.splitOn 0x2D, wtoi part ≠ 0)) := by
  constructor
  · rw [← matchAddress_eq_true, ← matchAddress_eq_none]
    rcases matchAddress a.toCAddress addresses nicInfo with _ | _ | _
    · simp
    · simp
    · simp
  · have hmatch : matchPort port ports.1 = true ↔
        ∃ range ∈ ports.1, port ∈ portSet range ∧ ∀ part ∈ range.splitOn 0x2D, wtoi part ≠ 0 := by
      rw [matchPort, List.any_eq_true]
      exact exists_congr fun range => and_congr_right fun hmem => portRange_iff (ports.2 range hmem)
    rw [hmatch]
    refine ⟨fun h => h.2, fun h => ⟨?_, h⟩⟩
    rintro ⟨range, hmem, hport, -⟩
    exact ⟨range, hmem, hport⟩

/-- An address of `2001:db8::/32` that is not the base is not found. -/
theorem not_lists_match : ¬ ∀ (a : IPAddress) (addresses : List Str) (nicInfo : Option SAdapterInfo),
    ∃ found, matchAddress a.toCAddress addresses nicInfo = some found ∧
      (found = true ↔ ∃ element ∈ addresses, a.toCAddress ∈ elementSet nicInfo element) := by
  intro h
  let a : IPAddress := ⟨⟨.inet6, [0x20, 0x01, 0x0D, 0xB8] ++ List.replicate 11 0 ++ [1]⟩, by decide, by decide⟩
  rcases h a [wide "2001:db8::/32"] none with ⟨found, hfound, hnamed⟩
  have hsearch : matchAddress a.toCAddress [wide "2001:db8::/32"] none = some false := by decide +kernel
  rw [hsearch] at hfound
  cases hfound
  refine absurd (hnamed.2 ⟨_, List.mem_singleton_self _, ?_⟩) Bool.false_ne_true
  have hsplit : (wide "2001:db8::/32").splitOn 0x2D = [wide "2001:db8::/32"] := by decide +kernel
  have hslash : 0x2F ∈ wide "2001:db8::/32" := by decide +kernel
  simp only [elementSet, networks, netSet, hsplit, hslash, if_true]
  show (splitSubnet (wide "2001:db8::/32")).1.eAF = a.eAF ∧ a.value / 2 ^ (a.eAF.bits - (splitSubnet (wide "2001:db8::/32")).2.toNat) =
    (splitSubnet (wide "2001:db8::/32")).1.value / 2 ^ (a.eAF.bits - (splitSubnet (wide "2001:db8::/32")).2.toNat)
  decide +kernel

end MajorPrivacy.Firewall

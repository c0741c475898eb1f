/-
What is local and what is the internet: the two tables of networks behind the keywords (`CFirewall::GetSpecialNet`) and
`IsLanAddress` (Address.cpp), which is to tell the same.
-/
import MajorPrivacy.Firewall.AddressSets

namespace MajorPrivacy.Firewall

open LittleEndian MajorPrivacy.Variant

/-! ## IsLanAddress -/

/-- `IsLanIPv4`. -/
def isLanIPv4 (ipv4 : Nat) : Bool :=
  let byte i := ipv4 / 256 ^ i % 256
  byte 3 = 192 ∧ byte 2 = 168 ∨ byte 3 = 172 ∧ byte 2 ≥ 16 ∧ byte 2 ≤ 31 ∨ byte 3 = 0 ∨ byte 3 = 10

namespace CAddress

/-- `m_IP[i]`. -/
def byte (a : CAddress) (i : Nat) : UInt8 := a.ip.getD i 0

/-- `ToIPv4`. -/
def toIPv4 (a : CAddress) : Nat := if a.eAF = .inet then ofLE (a.ip.take 4).reverse else 0

def isMappedIPv4 (a : CAddress) : Bool :=
  a.eAF = .inet6 ∧ a.byte 10 = 0xFF ∧ a.byte 11 = 0xFF ∧ (a.ip.take 10).all (· = 0)

def isLocalHost (a : CAddress) : Bool :=
  match a.eAF with
  | .inet => a.byte 0 = 127
  | .inet6 => (a.ip.take 15).all (· = 0) ∧ a.byte 15 = 1 ∨ a.isMappedIPv4 ∧ a.byte 12 = 127
  | .unspec => false

end CAddress

/-- What `IsLanAddress` asks of an IPv4 address, mapped or not. -/
def isLanNumber (ip : Nat) : Bool :=
  let first := ip / 2 ^ 24 % 256
  let second := ip / 2 ^ 16 % 256
  isLanIPv4 ip ∨ first = 127 ∨ first = 169 ∧ second = 254 ∨ first ≥ 224 ∧ first ≤ 239 ∨ ip = 0xFFFFFFFF

/-- `IsLanAddress`. -/
def isLanAddress (address : CAddress) : Bool :=
  if address.isNull then true
  else if address.eAF = .inet ∨ address.isMappedIPv4 then
    isLanNumber (if address.eAF = .inet then address.toIPv4 else ofLE (address.ip.drop 12).reverse)
  else if address.eAF = .inet6 then
    address.isLocalHost ∨ address.byte 0 &&& 0xFE = 0xFC ∨ address.byte 0 = 0xFE ∧ address.byte 1 &&& 0xC0 = 0x80 ∨ address.byte 0 = 0xFF
  else true

/-! ## The tables -/

/-- The family of a network, and the numbers the search compares an address with. -/
def netKeys (net : Str) : Option (EAF × Nat × Nat) :=
  match net.splitOn 0x2D with
  | [single] =>
    let singleIP := CAddress.fromWString single
    if 0x2F ∈ single then none else some (singleIP.eAF, singleIP.key, singleIP.key)
  | [first, last] =>
    let beginIP := CAddress.fromWString first
    let endIP := CAddress.fromWString last
    if beginIP.eAF = endIP.eAF then some (beginIP.eAF, beginIP.key, endIP.key) else none
  | _ => none

theorem mem_netFound {a : IPAddress} {net : Str} {family : EAF} {first last : Nat} (h : netKeys net = some (family, first, last)) :
    a.toCAddress ∈ netFound net ↔ family = a.eAF ∧ first ≤ a.key ∧ a.key ≤ last := by
  unfold netKeys at h
  unfold netFound
  rcases hsplit : net.splitOn 0x2D with _ | ⟨single, _ | ⟨last, _ | ⟨other, others⟩⟩⟩
  case cons.nil =>
    simp only [hsplit] at h ⊢
    by_cases hslash : 0x2F ∈ single
    · simp only [hslash, if_true, reduceCtorEq] at h
    · simp only [hslash, if_false, Option.some.injEq, Prod.mk.injEq] at h ⊢
      rcases h with ⟨rfl, rfl, rfl⟩
      refine and_congr_right fun hfamily => ?_
      rw [← CAddress.ipToInt_inj (length_fromWString single) a.length_ip hfamily, ← BitVec.toNat_inj]
      exact ⟨fun heq => ⟨heq.le, heq.ge⟩, fun hle => le_antisymm hle.1 hle.2⟩
  case cons.cons.nil =>
    simp only [hsplit] at h ⊢
    by_cases hfamily : (CAddress.fromWString single).eAF = (CAddress.fromWString last).eAF
    · simp only [hfamily, if_true, Option.some.injEq, Prod.mk.injEq] at h
      rcases h with ⟨rfl, rfl, rfl⟩
      exact and_congr (by rw [hfamily]) (and_iff_right hfamily)
    · simp only [hfamily, if_false, reduceCtorEq] at h
  all_goals simp only [hsplit, reduceCtorEq] at h

/-- The networks as they are read, the IPv6 ones by their low bytes first. -/
theorem netKeys_tables :
    localNets.map netKeys = [some (.inet, 0x0A000000, 0x0AFFFFFF), some (.inet, 0x7F000000, 0x7FFFFFFF),
      some (.inet, 0xAC100000, 0xAC1FFFFF), some (.inet, 0xC0A80000, 0xC0A8FFFF), some (.inet, 0xE0000000, 0xEFFFFFFF),
      some (.inet6, 2 ^ 120, 2 ^ 120), some (.inet6, 252, 2 ^ 128 - 3), some (.inet6, 33022, 0xFFFFFFFFFFFFFFFF00000000000080FE),
      some (.inet6, 255, 2 ^ 128 - 1)] ∧
    internetNets.map netKeys = [some (.inet, 0, 0x09FFFFFF), some (.inet, 0x0B000000, 0x7EFFFFFF),
      some (.inet, 0x80000000, 0xAC0FFFFF), some (.inet, 0xAC200000, 0xC0A7FFFF), some (.inet, 0xC0A90000, 0xDFFFFFFF),
      some (.inet, 0xF0000000, 0xFFFFFFFF), some (.inet6, 2 ^ 121, 252), some (.inet6, 0xFFFFFFFFFFFFFFFF00000000000000FC, 33022),
      some (.inet6, 0xFFFFFFFFFFFFFFFF00000000000080FE, 255)] := by
  decide +kernel

/-- The address has a number of these. -/
def InKeys (a : CAddress) : Option (EAF × Nat × Nat) → Prop
  | none => False
  | some (family, first, last) => family = a.eAF ∧ first ≤ a.key ∧ a.key ≤ last

section Keywords
variable {a : IPAddress} {nicInfo : Option SAdapterInfo}

/-- A keyword is matched by the addresses of its networks. -/
theorem matchAddress_keyword {keyword : Str} {nets : List Str} (hnets : networks nicInfo keyword = some nets) (hne : nets ≠ [])
    (hkeys : ∀ keys ∈ nets.map netKeys, keys ≠ none) :
    matchAddress a.toCAddress [keyword] nicInfo = some true ↔ ∃ keys ∈ nets.map netKeys, InKeys a.toCAddress keys := by
  have hvisible : visible nicInfo [keyword] = [keyword] := by
    unfold visible
    rw [hnets]
    simp [hne]
  rw [matchAddress_eq_true, hvisible]
  rcases nets with _ | ⟨net, nets⟩
  · exact absurd rfl hne
  · simp only [List.mem_singleton, exists_eq_left, elementFound, hnets, Set.mem_ofPred_eq]
    simp only [List.mem_map, exists_exists_and_eq_and]
    refine exists_congr fun n => and_congr_right fun hn => ?_
    rcases hkey : netKeys n with _ | ⟨family, first, last⟩
    · exact absurd hkey (hkeys _ (List.mem_map_of_mem hn))
    · exact mem_netFound hkey

/-- The keyword of the local addresses. -/
def MatchesLocal (a : IPAddress) (nicInfo : Option SAdapterInfo) : Prop :=
  matchAddress a.toCAddress [wide "LocalSubnet"] nicInfo = some true

/-- The keyword of the other ones. -/
def MatchesInternet (a : IPAddress) (nicInfo : Option SAdapterInfo) : Prop :=
  matchAddress a.toCAddress [wide "Internet"] nicInfo = some true

theorem matchesLocal_iff : MatchesLocal a nicInfo ↔
    a.eAF = .inet ∧ (0x0A000000 ≤ a.key ∧ a.key ≤ 0x0AFFFFFF ∨ 0x7F000000 ≤ a.key ∧ a.key ≤ 0x7FFFFFFF ∨
      0xAC100000 ≤ a.key ∧ a.key ≤ 0xAC1FFFFF ∨ 0xC0A80000 ≤ a.key ∧ a.key ≤ 0xC0A8FFFF ∨
      0xE0000000 ≤ a.key ∧ a.key ≤ 0xEFFFFFFF) ∨
    a.eAF = .inet6 ∧ 252 ≤ a.key := by
  have hnets : networks nicInfo (wide "LocalSubnet") = some localNets := rfl
  have hlt : a.key < 2 ^ 128 := a.ipToInt.isLt
  unfold MatchesLocal
  rw [matchAddress_keyword hnets (by decide) (by rw [netKeys_tables.1]; decide), netKeys_tables.1]
  simp only [List.mem_cons, List.not_mem_nil, or_false, exists_eq_or_imp, exists_eq_left, InKeys]
  rcases a.eAF with _ | _ | _
  · simp
  · simp
  · simp only [reduceCtorEq, false_and, true_and, false_or]
    omega

/-- The keyword of the intranet stands for the same networks. -/
theorem matchesIntranet_iff : matchAddress a.toCAddress [wide "LocalIntranet"] nicInfo = some true ↔ MatchesLocal a nicInfo := by
  have hkeys : ∀ keys ∈ localNets.map netKeys, keys ≠ none := by
    rw [netKeys_tables.1]
    decide
  have hintranet : networks nicInfo (wide "LocalIntranet") = some localNets := rfl
  have hsubnet : networks nicInfo (wide "LocalSubnet") = some localNets := rfl
  unfold MatchesLocal
  rw [matchAddress_keyword hintranet (by decide) hkeys, matchAddress_keyword hsubnet (by decide) hkeys]

/-- The ranges of the table for the internet are empty but for IPv4, where it has what the other table leaves out. -/
theorem matchesInternet_iff : MatchesInternet a nicInfo ↔ a.eAF = .inet ∧ ¬ MatchesLocal a nicInfo := by
  have hnets : networks nicInfo (wide "Internet") = some internetNets := rfl
  rw [matchesLocal_iff]
  unfold MatchesInternet
  rw [matchAddress_keyword hnets (by decide) (by rw [netKeys_tables.2]; decide), netKeys_tables.2]
  simp only [List.mem_cons, List.not_mem_nil, or_false, exists_eq_or_imp, exists_eq_left, InKeys]
  rcases hfamily : a.eAF with _ | _ | _
  · simp
  · have hlt := CAddress.value_inet_lt hfamily
    rw [← CAddress.key_inet hfamily] at hlt
    simp only [reduceCtorEq, false_and, true_and, or_false]
    omega
  · simp only [reduceCtorEq, false_and, true_and, false_or, iff_false]
    omega

end Keywords

/-! ## Where they agree -/

/-- Just one of the keywords is matched, or neither by an address that is no address; the keyword of the intranet and
`IsLanAddress` tell the same as the one. -/
structure Complementary (a : IPAddress) (nicInfo : Option SAdapterInfo) : Prop where
  one : (MatchesLocal a nicInfo ↔ ¬ MatchesInternet a nicInfo) ∨
    a.isNull = true ∧ ¬ MatchesLocal a nicInfo ∧ ¬ MatchesInternet a nicInfo
  intranet : matchAddress a.toCAddress [wide "LocalIntranet"] nicInfo = some true ↔ MatchesLocal a nicInfo
  lan : isLanAddress a.toCAddress = true ↔ MatchesLocal a nicInfo

/-- The bytes of a local IPv4 address, by what `IsLanAddress` knows as such. -/
def LanBytes (b0 b1 b2 b3 : UInt8) : Prop :=
  b0 = 192 ∧ b1 = 168 ∨ b0 = 172 ∧ 16 ≤ b1 ∧ b1 ≤ 31 ∨ b0 = 0 ∨ b0 = 10 ∨ b0 = 127 ∨ b0 = 169 ∧ b1 = 254 ∨
    224 ≤ b0 ∧ b0 ≤ 239 ∨ b0 = 255 ∧ b1 = 255 ∧ b2 = 255 ∧ b3 = 255

/-- An IPv4 address that the table has on the same side, or an IPv6 address that is local. -/
def Agreed (a : CAddress) : Prop :=
  match a.eAF with
  | .unspec => False
  | .inet => ¬ (a.byte 0 = 0 ∨ a.byte 0 = 169 ∧ a.byte 1 = 254 ∨ a.byte 0 = 255 ∧ a.byte 1 = 255 ∧ a.byte 2 = 255 ∧ a.byte 3 = 255)
  | .inet6 => a.ip = List.replicate 15 0 ++ [1] ∨ a.byte 0 = 0xFC ∨ a.byte 0 = 0xFD ∨
      a.byte 0 = 0xFE ∧ 0x80 ≤ a.byte 1 ∧ a.byte 1 ≤ 0xBF ∨ a.byte 0 = 0xFF ∨
      ∃ b0 b1 b2 b3, a.ip = List.replicate 10 0 ++ [0xFF, 0xFF, b0, b1, b2, b3] ∧ LanBytes b0 b1 b2 b3

theorem isLanNumber_iff (b0 b1 b2 b3 : UInt8) : isLanNumber (ofLE [b3, b2, b1, b0]) = true ↔ LanBytes b0 b1 b2 b3 := by
  have hlt : ∀ b : UInt8, b.toNat < 256 := fun b => b.toNat_lt
  have h0 := hlt b0
  have h1 := hlt b1
  have h2 := hlt b2
  have h3 := hlt b3
  have hvalue : ofLE [b3, b2, b1, b0] = b3.toNat + 256 * (b2.toNat + 256 * (b1.toNat + 256 * b0.toNat)) := rfl
  generalize ofLE [b3, b2, b1, b0] = ip at hvalue ⊢
  have hfirst : ip / 2 ^ 24 % 256 = b0.toNat := by omega
  have hsecond : ip / 2 ^ 16 % 256 = b1.toNat := by omega
  have hall : ip = 0xFFFFFFFF ↔ b0.toNat = 255 ∧ b1.toNat = 255 ∧ b2.toNat = 255 ∧ b3.toNat = 255 := by omega
  unfold isLanNumber isLanIPv4 LanBytes
  simp only [Nat.reducePow] at hfirst hsecond ⊢
  simp only [decide_eq_true_eq, hfirst, hsecond, hall, ← UInt8.toNat_inj, UInt8.le_iff_toNat_le, UInt8.reduceToNat, or_assoc]

/-! ### IPv4 -/

/-- The bytes of the networks in the table. -/
def TableBytes (b0 b1 : UInt8) : Prop :=
  b0 = 192 ∧ b1 = 168 ∨ b0 = 172 ∧ 16 ≤ b1 ∧ b1 ≤ 31 ∨ b0 = 10 ∨ b0 = 127 ∨ 224 ≤ b0 ∧ b0 ≤ 239

/-- The bytes that the table leaves to the internet. -/
def OtherBytes (b0 b1 b2 b3 : UInt8) : Prop :=
  b0 = 0 ∨ b0 = 169 ∧ b1 = 254 ∨ b0 = 255 ∧ b1 = 255 ∧ b2 = 255 ∧ b3 = 255

theorem lanBytes_iff {b0 b1 b2 b3 : UInt8} : LanBytes b0 b1 b2 b3 ↔ TableBytes b0 b1 ∨ OtherBytes b0 b1 b2 b3 := by
  unfold LanBytes TableBytes OtherBytes
  tauto

theorem not_tableBytes_of_other {b0 b1 b2 b3 : UInt8} (h : OtherBytes b0 b1 b2 b3) : ¬ TableBytes b0 b1 := by
  simp only [OtherBytes, TableBytes, ← UInt8.toNat_inj, UInt8.le_iff_toNat_le, UInt8.reduceToNat] at h ⊢
  omega

section Inet
variable {a : IPAddress} {nicInfo : Option SAdapterInfo}

theorem bytes_inet (a : IPAddress) : ∃ b0 b1 b2 b3 rest, a.ip = b0 :: b1 :: b2 :: b3 :: rest := by
  rcases h : a.ip with _ | ⟨b0, _ | ⟨b1, _ | ⟨b2, _ | ⟨b3, rest⟩⟩⟩⟩
  case cons.cons.cons.cons => exact ⟨b0, b1, b2, b3, rest, rfl⟩
  all_goals
    have hlength := a.length_ip
    rw [h] at hlength
    cases hlength

theorem matchesLocal_inet (hfamily : a.eAF = .inet) {b0 b1 b2 b3 : UInt8} {rest : Bytes} (hip : a.ip = b0 :: b1 :: b2 :: b3 :: rest) :
    MatchesLocal a nicInfo ↔ TableBytes b0 b1 := by
  have hkey : a.key = b3.toNat + 256 * (b2.toNat + 256 * (b1.toNat + 256 * b0.toNat)) := by
    rw [CAddress.key_inet hfamily, CAddress.value, CAddress.bytes, hfamily, hip]
    rfl
  have h1 := b1.toNat_lt
  have h2 := b2.toNat_lt
  have h3 := b3.toNat_lt
  rw [matchesLocal_iff, hkey]
  simp only [hfamily, reduceCtorEq, false_and, or_false, true_and, TableBytes, ← UInt8.toNat_inj, UInt8.le_iff_toNat_le,
    UInt8.reduceToNat]
  omega

theorem isLanAddress_inet (hfamily : a.eAF = .inet) {b0 b1 b2 b3 : UInt8} {rest : Bytes} (hip : a.ip = b0 :: b1 :: b2 :: b3 :: rest) :
    isLanAddress a.toCAddress = true ↔ LanBytes b0 b1 b2 b3 := by
  have hnumber : a.toIPv4 = ofLE [b3, b2, b1, b0] := by
    rw [CAddress.toIPv4, if_pos hfamily, hip]
    rfl
  unfold isLanAddress
  by_cases hnull : a.isNull = true
  · rw [if_pos hnull]
    simp only [CAddress.isNull, hfamily, hip, List.take_succ_cons, List.all_cons, Bool.and_eq_true, decide_eq_true_eq] at hnull
    exact iff_of_true rfl (.inr (.inr (.inl hnull.1)))
  · rw [if_neg hnull, if_pos (.inl hfamily), if_pos hfamily, hnumber, isLanNumber_iff]

theorem complementary_inet (hfamily : a.eAF = .inet) : Complementary a nicInfo ↔ Agreed a.toCAddress := by
  rcases bytes_inet a with ⟨b0, b1, b2, b3, rest, hip⟩
  have hagreed : Agreed a.toCAddress ↔ ¬ OtherBytes b0 b1 b2 b3 := by
    simp only [Agreed, hfamily, CAddress.byte, hip, OtherBytes]
    rfl
  have hlocal : MatchesLocal a nicInfo ↔ TableBytes b0 b1 := matchesLocal_inet hfamily hip
  have hlan := isLanAddress_inet hfamily hip
  rw [hagreed]
  constructor
  · intro h hother
    have htable := hlocal.1 (h.lan.1 (hlan.2 (lanBytes_iff.2 (.inr hother))))
    exact not_tableBytes_of_other hother htable
  · intro hother
    refine ⟨.inl ?_, matchesIntranet_iff, ?_⟩
    · rw [matchesInternet_iff, not_and_or, not_not]
      exact ⟨.inr, fun h => h.resolve_left fun hne => hne hfamily⟩
    · rw [hlan, hlocal, lanBytes_iff]
      exact or_iff_left hother

end Inet

/-! ### IPv6 -/

section Inet6
variable {a : IPAddress} {nicInfo : Option SAdapterInfo}

theorem byte_masks (b : UInt8) : (b &&& 0xFE = 0xFC ↔ b = 0xFC ∨ b = 0xFD) ∧ (b &&& 0xC0 = 0x80 ↔ 0x80 ≤ b ∧ b ≤ 0xBF) := by
  have hall : ∀ n < 256, (UInt8.ofNat n &&& 0xFE = 0xFC ↔ UInt8.ofNat n = 0xFC ∨ UInt8.ofNat n = 0xFD) ∧
      (UInt8.ofNat n &&& 0xC0 = 0x80 ↔ 0x80 ≤ UInt8.ofNat n ∧ UInt8.ofNat n ≤ 0xBF) := by decide +kernel
  have hb := hall b.toNat b.toNat_lt
  rwa [UInt8.ofNat_toNat] at hb

/-- The first bytes, zeros, and the other ones. -/
theorem ip_eq_of_zeros {ip : Bytes} {n : Nat} (hn : n ≤ ip.length) (h : (ip.take n).all (· = 0) = true) :
    ip = List.replicate n 0 ++ ip.drop n := by
  have hzeros : ip.take n = List.replicate n 0 := by
    refine List.eq_replicate_iff.2 ⟨List.length_take_of_le hn, fun b hb => ?_⟩
    exact of_decide_eq_true (List.all_eq_true.1 h b hb)
  rw [← hzeros, List.take_append_drop]

theorem mapped_iff (hfamily : a.eAF = .inet6) :
    a.isMappedIPv4 = true ↔ ∃ b0 b1 b2 b3, a.ip = List.replicate 10 0 ++ [0xFF, 0xFF, b0, b1, b2, b3] := by
  have hlength := a.length_ip
  simp only [CAddress.isMappedIPv4, hfamily, CAddress.byte, true_and, decide_eq_true_eq]
  constructor
  · rintro ⟨h10, h11, hzeros⟩
    have hip := ip_eq_of_zeros (by omega) hzeros
    have hdrop : (a.ip.drop 10).length = 6 := by rw [List.length_drop]; omega
    rcases hrest : a.ip.drop 10 with _ | ⟨c0, _ | ⟨c1, _ | ⟨b0, _ | ⟨b1, _ | ⟨b2, _ | ⟨b3, _ | ⟨c, rest⟩⟩⟩⟩⟩⟩⟩
    case cons.cons.cons.cons.cons.cons.nil =>
      rw [hrest] at hip
      rw [hip] at h10 h11
      have h10 : c0 = 0xFF := h10
      have h11 : c1 = 0xFF := h11
      rw [h10, h11] at hip
      exact ⟨b0, b1, b2, b3, hip⟩
    all_goals
      rw [hrest] at hdrop
      simp at hdrop
  · rintro ⟨b0, b1, b2, b3, hip⟩
    rw [hip]
    exact ⟨rfl, rfl, rfl⟩

theorem localHost_iff (hfamily : a.eAF = .inet6) (hmapped : ¬ a.isMappedIPv4 = true) :
    a.isLocalHost = true ↔ a.ip = List.replicate 15 0 ++ [1] := by
  have hlength := a.length_ip
  simp only [CAddress.isLocalHost, hfamily, CAddress.byte, hmapped, Bool.false_eq_true, false_and, or_false, decide_eq_true_eq]
  constructor
  · rintro ⟨hzeros, hlast⟩
    have hip := ip_eq_of_zeros (by omega) hzeros
    have hdrop : (a.ip.drop 15).length = 1 := by rw [List.length_drop]; omega
    rcases List.length_eq_one_iff.1 hdrop with ⟨b, hrest⟩
    rw [hrest] at hip
    rw [hip] at hlast ⊢
    have hlast : b = 1 := hlast
    rw [hlast]
  · intro hip
    rw [hip]
    exact ⟨rfl, rfl⟩

theorem isNull_inet6 (hfamily : a.eAF = .inet6) : a.isNull = true ↔ a.ip = List.replicate 16 0 := by
  simp only [CAddress.isNull, hfamily, List.all_eq_true, decide_eq_true_eq]
  rw [List.eq_replicate_iff]
  exact (and_iff_right a.length_ip).symm

/-- The addresses of the branch for IPv6 that are not null are those of the condition. -/
theorem isLanAddress_inet6 (hfamily : a.eAF = .inet6) :
    isLanAddress a.toCAddress = true ∧ ¬ a.isNull = true ↔ Agreed a.toCAddress := by
  unfold isLanAddress Agreed
  simp only [hfamily, reduceCtorEq, false_or, if_false]
  by_cases hnull : a.isNull = true
  · -- none of the addresses of the condition is null
    refine iff_of_false (fun h => h.2 hnull) ?_
    rw [isNull_inet6 hfamily] at hnull
    simp only [hnull, CAddress.byte]
    rintro (h | h | h | h | h | ⟨b0, b1, b2, b3, h, -⟩)
    · exact absurd h (by decide)
    · exact absurd h (by decide)
    · exact absurd h (by decide)
    · exact absurd h.1 (by decide)
    · exact absurd h (by decide)
    · have hbyte := congrArg (fun ip : Bytes => ip.getD 10 0) h
      exact absurd hbyte (by simp)
  · rw [if_neg hnull, and_iff_left hnull]
    by_cases hmapped : a.isMappedIPv4 = true
    · rw [if_pos hmapped]
      rcases (mapped_iff hfamily).1 hmapped with ⟨b0, b1, b2, b3, hip⟩
      have hnumber : ofLE (a.ip.drop 12).reverse = ofLE [b3, b2, b1, b0] := by
        rw [hip]
        rfl
      rw [hnumber, isLanNumber_iff]
      simp only [CAddress.byte, hip]
      constructor
      · intro hlan
        exact .inr (.inr (.inr (.inr (.inr ⟨b0, b1, b2, b3, rfl, hlan⟩))))
      · rintro (h | h | h | h | h | ⟨c0, c1, c2, c3, h, hlan⟩)
        · have hbyte := congrArg (fun ip : Bytes => ip.getD 10 0) h
          exact absurd hbyte (by simp)
        · exact absurd h (by simp)
        · exact absurd h (by simp)
        · exact absurd h.1 (by simp)
        · exact absurd h (by simp)
        · simp only [List.append_cancel_left_eq, List.cons.injEq, true_and, and_true] at h
          rcases h with ⟨rfl, rfl, rfl, rfl⟩
          exact hlan
    · rw [if_neg hmapped, if_true, decide_eq_true_eq, localHost_iff hfamily hmapped, (byte_masks _).1, (byte_masks _).2]
      have hnone : ¬ ∃ b0 b1 b2 b3, a.ip = List.replicate 10 0 ++ [0xFF, 0xFF, b0, b1, b2, b3] ∧ LanBytes b0 b1 b2 b3 := by
        rintro ⟨b0, b1, b2, b3, hip, -⟩
        exact hmapped ((mapped_iff hfamily).2 ⟨b0, b1, b2, b3, hip⟩)
      simp only [hnone, or_false, or_assoc]

/-- The search takes the addresses of the condition for local ones: their low bytes, which it sees first, are large. -/
theorem le_key_of_agreed (hfamily : a.eAF = .inet6) (h : Agreed a.toCAddress) : 252 ≤ a.key := by
  have hfirst : 252 ≤ (a.byte 0).toNat → 252 ≤ a.key := by
    intro hbyte
    rw [CAddress.key_inet6 hfamily a.length_ip]
    unfold CAddress.byte at hbyte
    rcases hip : a.ip with _ | ⟨b, rest⟩
    · rw [hip] at hbyte
      exact absurd hbyte (by decide)
    · rw [hip] at hbyte
      exact Nat.le_trans hbyte (Nat.le_add_right _ _)
  simp only [Agreed, hfamily] at h
  rcases h with h | h | h | h | h | ⟨b0, b1, b2, b3, h, -⟩
  · rw [CAddress.key_inet6 hfamily a.length_ip, h]
    decide
  · exact hfirst (by rw [h]; decide)
  · exact hfirst (by rw [h]; decide)
  · exact hfirst (by rw [h.1]; decide)
  · exact hfirst (by rw [h]; decide)
  · rw [CAddress.key_inet6 hfamily a.length_ip, h, ofLE_append]
    simp only [ofLE, List.length_replicate]
    have hff : (0xFF : UInt8).toNat = 255 := rfl
    omega

theorem complementary_inet6 (hfamily : a.eAF = .inet6) : Complementary a nicInfo ↔ Agreed a.toCAddress := by
  have hlocal : MatchesLocal a nicInfo ↔ 252 ≤ a.key := by
    rw [matchesLocal_iff]
    simp [hfamily]
  have hinternet : ¬ MatchesInternet a nicInfo := by
    rw [matchesInternet_iff, hfamily]
    simp
  constructor
  · intro h
    have hmatch : MatchesLocal a nicInfo := by
      rcases h.one with hone | ⟨hnull, hnone, -⟩
      · exact hone.2 hinternet
      · exact absurd (h.lan.1 (by rw [isLanAddress, if_pos hnull])) hnone
    refine (isLanAddress_inet6 hfamily).1 ⟨h.lan.2 hmatch, fun hnull => ?_⟩
    have hkey := hlocal.1 hmatch
    rw [CAddress.key_inet6 hfamily a.length_ip, (isNull_inet6 hfamily).1 hnull] at hkey
    exact absurd hkey (by decide)
  · intro h
    have hmatch := hlocal.2 (le_key_of_agreed hfamily h)
    exact ⟨.inl (iff_of_true hmatch hinternet), matchesIntranet_iff, iff_of_true ((isLanAddress_inet6 hfamily).2 h).1 hmatch⟩

end Inet6

/-- The two keywords split the addresses and `IsLanAddress` knows the local ones: of the IPv4 addresses, for all but
`0.*`, `169.254.*` and `255.255.255.255`; of the IPv6 addresses, for none but the local ones. -/
theorem complementary_iff (a : IPAddress) (nicInfo : Option SAdapterInfo) : Complementary a nicInfo ↔ Agreed a.toCAddress := by
  rcases hfamily : a.eAF with _ | _ | _
  · exact absurd hfamily a.isIP
  · exact complementary_inet hfamily
  · exact complementary_inet6 hfamily

/-- The address `2001:db8::1` is taken for a local one. -/
theorem not_complementary : ¬ ∀ (a : IPAddress) (nicInfo : Option SAdapterInfo), Complementary a nicInfo := by
  intro h
  let a : IPAddress := ⟨⟨.inet6, [0x20, 0x01, 0x0D, 0xB8] ++ List.replicate 11 0 ++ [1]⟩, by decide, by decide⟩
  have hlocal : MatchesLocal a none := matchesLocal_iff.2 (.inr ⟨rfl, by decide +kernel⟩)
  exact absurd ((h a none).lan.2 hlocal) (by decide +kernel)

end MajorPrivacy.Firewall

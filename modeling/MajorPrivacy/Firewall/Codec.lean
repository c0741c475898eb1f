/-
A rule written in either format, sent through a packet and read. The entries are read one after the other;
into a rule that is new they give the fields that were written, and into the rule they gave they add the
ICMP types a second time.
-/
import MajorPrivacy.Records.Record

namespace MajorPrivacy.Firewall

open LittleEndian MajorPrivacy.Variant

namespace CFirewallRule

/-- The reader of a format. -/
def readValue (p : Platform) : EFormat → CFirewallRule → Value → Field → Except EResult CFirewallRule
  | .eIndex => readIValue p
  | .eMap => readMValue p

/-- The loop over the entries. -/
def readAll (p : Platform) (format : EFormat) (entries : List (Field × Value)) (r : CFirewallRule) : Except EResult CFirewallRule :=
  entries.foldlM (fun r e => readValue p format r e.2 e.1) r

/-- A rule with the fields that were written of another, and the ICMP types of both. -/
def overlay (b r : CFirewallRule) : CFirewallRule :=
  { r with
    programID := b.programID
    fwRule.binaryPath := b.fwRule.binaryPath
    fwRule.localUserAuthorizationList := b.fwRule.localUserAuthorizationList
    fwRule.icmpTypesAndCodes := b.fwRule.icmpTypesAndCodes ++ r.fwRule.icmpTypesAndCodes }

/-- Lists that fit. -/
structure ListsFit (r : CFirewallRule) : Prop where
  localAddresses : (Value.strList r.fwRule.localAddresses).2.length ≤ ulongMax
  localPorts : (Value.strList r.fwRule.localPorts).2.length ≤ ulongMax
  remoteAddresses : (Value.strList r.fwRule.remoteAddresses).2.length ≤ ulongMax
  remotePorts : (Value.strList r.fwRule.remotePorts).2.length ≤ ulongMax
  icmpTypesAndCodes : (Value.asciiList (r.fwRule.icmpTypesAndCodes.map icmpText)).2.length ≤ ulongMax
  osPlatformValidity : (Value.strList r.fwRule.osPlatformValidity).2.length ≤ ulongMax

/-- The values of the enumerations that have names, and flags that a rule may have. -/
structure Admitted (r : CFirewallRule) : Prop where
  state : ∃ e, r.state = .value e
  source : ∃ e, r.source = .value e
  action : ∃ e, r.fwRule.action = .value e
  direction : ∃ e, r.fwRule.direction = .value e
  profile : r.fwRule.profile ∈ admittedProfiles
  interface : r.fwRule.interface ∈ admittedInterfaces

section Read
variable (p : Platform) (b r : CFirewallRule)

theorem ok_bind {α β : Type} (a : α) (f : α → Except EResult β) : ((Except.ok a : Except EResult α) >>= f) = f a := (rfl)

theorem bind_ok {α β : Type} (a : α) (f : α → Except EResult β) : (Except.ok a : Except EResult α).bind f = f a := (rfl)

theorem map_ok {α β : Type} (a : α) (f : α → β) : (Except.ok a : Except EResult α).map f = .ok (f a) := (rfl)

theorem readIcmp_map (l : List IcmpTypeCode) : (l.map icmpText).map readIcmp = l := by
  rw [List.map_map]
  exact (List.map_congr_left fun i _ => readIcmp_icmpText i).trans (List.map_id l)

theorem readAll_nil (format : EFormat) : readAll p format [] b = .ok b := (rfl)

theorem readAll_cons (format : EFormat) (e : Field × Value) (entries : List (Field × Value)) :
    readAll p format (e :: entries) b = (readValue p format b e.2 e.1).bind (readAll p format entries) :=
  List.foldlM_cons

theorem readAll_append (format : EFormat) (entries entries' : List (Field × Value)) :
    readAll p format (entries ++ entries') b = (readAll p format entries b).bind (readAll p format entries') :=
  List.foldlM_append

/-- An index gives back all fields. -/
theorem readAll_index (hr : r.Admitted) (hfits : r.ListsFit) : readAll p .eIndex r.writeIVariant b = .ok (b.overlay r) := by
  rcases hr.state with ⟨state, hstate⟩
  rcases hr.source with ⟨source, hsource⟩
  rcases hr.action with ⟨action, haction⟩
  rcases hr.direction with ⟨direction, hdirection⟩
  simp only [readAll, readValue, writeIVariant, List.foldlM_cons, List.foldlM_nil, readIValue, readShared, asStr_str, toInt32_sint32,
    toUInt32_uint32, toUInt64_uint64, toBool_bool, asList_strList hfits.localAddresses, asList_strList hfits.localPorts,
    asList_strList hfits.remoteAddresses, asList_strList hfits.remotePorts, asList_strList hfits.osPlatformValidity,
    asList_asciiList hfits.icmpTypesAndCodes, readIcmp_map, ok_bind, map_ok, overlay, hstate, hsource, haction, hdirection, Cast.toUInt32,
    Cast.ofUInt32_number]
  rfl

/-! ### Keywords -/

/-- A value with a keyword is given back; one without is not written, and the rule has to have it already. -/
theorem readAll_writeKeyword {E : Type} [Enumeration E] {keyword : E → Option String} (hdiffer : KeywordsDiffer keyword) (f : Field)
    (e : E) (default : Cast E) (set : Cast E → CFirewallRule)
    (hread : ∀ s, readMValue p b (.ascii s) f = .ok (set (readKeyword keyword default s)))
    (hnone : keyword e = none → b = set (.value e)) :
    readAll p .eMap (writeKeyword f keyword (.value e)) b = .ok (set (.value e)) := by
  rcases hs : keyword e with _ | s
  · simp only [writeKeyword, hs, Option.toList_none, List.map_nil, readAll_nil]
    rw [← hnone hs]
  · simp only [writeKeyword, hs, Option.toList_some, List.map_cons, List.map_nil, readAll_cons, readValue, hread,
      readKeyword_text hdiffer hs, bind_ok]
    rfl

theorem readAll_state (hr : r.Admitted) :
    readAll p .eMap (writeKeyword .ruleState EFwRuleState.keyword r.state) b = .ok { b with state := r.state } := by
  rcases hr.state with ⟨state, hstate⟩
  rw [hstate]
  exact readAll_writeKeyword p b keywordsDiffer.1 .ruleState state b.state (fun n => { b with state := n }) (fun _ => rfl)
    (fun hnone => by cases state <;> cases hnone)

theorem readAll_source (hr : r.Admitted) :
    readAll p .eMap (writeKeyword .source EFwRuleSource.keyword r.source) b = .ok { b with source := r.source } := by
  rcases hr.source with ⟨source, hsource⟩
  rw [hsource]
  exact readAll_writeKeyword p b keywordsDiffer.2.1 .source source (.value .eUnknown) (fun n => { b with source := n }) (fun _ => rfl)
    (fun hnone => by cases source <;> cases hnone)

/-- An action without a keyword is not written, and the rule has it already. -/
theorem readAll_action (hr : r.Admitted) (hb : b.fwRule.action = .value .undefined ∨ b.fwRule.action = r.fwRule.action) :
    readAll p .eMap (writeKeyword .fwRuleAction EFwActions.keyword r.fwRule.action) b =
      .ok { b with fwRule.action := r.fwRule.action } := by
  rcases hr.action with ⟨action, haction⟩
  rw [haction] at hb ⊢
  refine readAll_writeKeyword p b keywordsDiffer.2.2.1 .fwRuleAction action b.fwRule.action (fun n => { b with fwRule.action := n })
    (fun _ => rfl) fun hnone => ?_
  have hundefined : action = .undefined := by cases action <;> first | rfl | cases hnone
  rw [hundefined, or_self] at hb
  rw [hundefined, ← hb]

/-- Likewise a direction. -/
theorem readAll_direction (hr : r.Admitted) (hb : b.fwRule.direction = .value .unknown ∨ b.fwRule.direction = r.fwRule.direction) :
    readAll p .eMap (writeKeyword .fwRuleDirection EFwDirections.keyword r.fwRule.direction) b =
      .ok { b with fwRule.direction := r.fwRule.direction } := by
  rcases hr.direction with ⟨direction, hdirection⟩
  rw [hdirection] at hb ⊢
  refine readAll_writeKeyword p b keywordsDiffer.2.2.2 .fwRuleDirection direction b.fwRule.direction
    (fun n => { b with fwRule.direction := n }) (fun _ => rfl) fun hnone => ?_
  have hunknown : direction = .unknown := by cases direction <;> first | rfl | cases hnone
  rw [hunknown, or_self] at hb
  rw [hunknown, ← hb]

/-! ### Maps -/

/-- A rule that has in the fields that may be missing, or are added to, what it is given or what a new one has. -/
structure Open (b r : CFirewallRule) : Prop where
  action : b.fwRule.action = .value .undefined ∨ b.fwRule.action = r.fwRule.action
  direction : b.fwRule.direction = .value .unknown ∨ b.fwRule.direction = r.fwRule.direction
  interface : b.fwRule.interface = interfaceAll ∨ b.fwRule.interface = r.fwRule.interface

/-- A map gives back all fields. -/
theorem readAll_map (hr : r.Admitted) (hfits : r.ListsFit)
    (hflags : (Value.asciiList (flagTexts profileAll "All" profileFlags r.fwRule.profile)).2.length ≤ ulongMax ∧
      (Value.asciiList (flagTexts interfaceAll "Any" interfaceFlags r.fwRule.interface)).2.length ≤ ulongMax)
    (hb : Open b r) : readAll p .eMap r.writeMVariant b = .ok (b.overlay r) := by
  have hinterface := readInterface_flagTexts hr.interface hb.interface
  have hprofile := readProfile_flagTexts hr.profile
  unfold writeMVariant
  generalize flagTexts profileAll "All" profileFlags r.fwRule.profile = profiles at hflags hprofile ⊢
  generalize flagTexts interfaceAll "Any" interfaceFlags r.fwRule.interface = interfaces at hflags hinterface ⊢
  simp only [readAll_append, readAll_cons, readAll_nil, readAll_state p _ r hr, readAll_source p _ r hr,
    readAll_action p _ r hr, readAll_direction p _ r hr, hb.action, hb.direction, readValue, readMValue, readShared, asStr_str,
    toInt32_sint32, toUInt32_uint32, toUInt64_uint64, toBool_bool, asList_strList hfits.localAddresses, asList_strList hfits.localPorts,
    asList_strList hfits.remoteAddresses, asList_strList hfits.remotePorts, asList_strList hfits.osPlatformValidity,
    asList_asciiList hfits.icmpTypesAndCodes, asList_asciiList hflags.1, asList_asciiList hflags.2, hprofile, hinterface,
    readIcmp_map, bind_ok, map_ok, overlay]

end Read

/-! ## Packets -/

/-- The types the values of a rule have. -/
def writtenTypes : List EType := [varTypeUnicode, varTypeAscii, varTypeSInt, varTypeUInt, varTypeList, varTypeMap, varTypeIndex]

theorem valid_of_written {v : Value} (h : v.1 ∈ writtenTypes) : Valid v.1 v.2 := by
  have hall : ∀ type ∈ writtenTypes, type &&& varTypeMask = type ∧ type ≠ varTypeEmpty := forall_of_all (by decide)
  rcases hall v.1 h with ⟨hmask, hne⟩
  exact ⟨hmask, fun h => absurd h hne⟩

theorem written_writeKeyword {E : Type} (f : Field) (keyword : E → Option String) (e : Cast E) :
    ∀ entry ∈ writeKeyword f keyword e, entry.2.1 ∈ writtenTypes := by
  cases e with
  | value e =>
    simp only [writeKeyword, List.mem_map]
    rintro _ ⟨s, -, rfl⟩
    exact List.mem_cons_of_mem _ List.mem_cons_self
  | other n => exact fun _ h => by cases h

theorem written_writeVariant (r : CFirewallRule) (format : EFormat) : ∀ entry ∈ r.writeVariant format, entry.2.1 ∈ writtenTypes := by
  have hliteral : ∀ {entries : List (Field × Value)}, (entries.all fun e => e.2.1 ∈ writtenTypes) = true →
      ∀ e ∈ entries, e.2.1 ∈ writtenTypes := forall_of_all
  cases format with
  | eIndex => exact hliteral rfl
  | eMap =>
    simp only [writeVariant, writeMVariant, List.forall_mem_append]
    refine ⟨⟨⟨⟨⟨⟨⟨?_, ?_⟩, ?_⟩, ?_⟩, ?_⟩, ?_⟩, ?_⟩, ?_⟩
    all_goals first | exact written_writeKeyword _ _ _ | exact hliteral rfl

/-- The fields of a rule as those of a record. -/
instance : Records.RecordField Field where
  toId := Field.toId
  key f := some f.key
  ofId := Field.ofId
  ofName := Field.ofName
  ofId_toId := Field.ofId_toId
  ofName_key f _ h := Option.some.inj h ▸ Field.ofName_key f
  length_key f _ h := Option.some.inj h ▸ f.length_key

theorem finish_eq (fields : List (Field × Value)) (format : EFormat) : finish fields format = Records.Record.finish fields format := by
  cases format <;> rfl

theorem length_le_finish (fields : List (Field × Value)) (format : EFormat) :
    ∀ f ∈ fields, f.2.2.length ≤ (finish fields format).2.length := by
  rw [finish_eq]
  exact Records.Record.length_le_finish fields format

/-- What was written is read field by field. -/
theorem fromVariant_finish (p : Platform) (target : CFirewallRule) {fields : List (Field × Value)}
    (hvalid : ∀ f ∈ fields, f.2.1 ∈ writtenTypes) (format : EFormat) (hfits : (finish fields format).2.length < invalidSize) :
    target.fromVariant p (finish fields format) = (readAll p format fields target).map fun r => (true, r.complete p) := by
  rw [finish_eq] at hfits ⊢
  have hnamed : Records.Record.Named fields format := by
    cases format
    · trivial
    · exact fun f _ => Option.some_ne_none _
  have hread := Records.Record.fromVariant_finish (readValue p) target (fun f hf => valid_of_written (hvalid f hf)) hnamed hfits
  have heq : target.fromVariant p (Records.Record.finish fields format) =
      (Records.Record.fromVariant (readValue p) target (Records.Record.finish fields format)).map fun r =>
        r.elim (false, target) fun r => (true, r.complete p) := by
    have hentry : @readEntry = Records.Record.readEntry := by
      funext read r f data
      cases f <;> rfl
    unfold fromVariant Records.Record.fromVariant
    rw [hentry]
    refine congrArg₂ Except.map (funext fun r => ?_) rfl
    cases r <;> rfl
  rw [heq, hread]
  have hall : Records.Record.readAll (readValue p format) fields target = readAll p format fields target := rfl
  rw [hall]
  cases readAll p format fields target <;> rfl

/-! ## The codec -/

/-- Both formats of a rule fit a variant. -/
def Fits (r : CFirewallRule) : Prop := ∀ format, (r.toVariant format).2.length < invalidSize

section Fits
variable {r : CFirewallRule} (hfits : r.Fits)
include hfits

theorem Fits.lists : r.ListsFit := by
  have hle : ∀ entry ∈ r.writeIVariant, entry.2.2.length ≤ ulongMax := fun entry h =>
    (length_le_finish (r.writeVariant .eIndex) .eIndex entry h).trans (Nat.le_of_lt (hfits .eIndex))
  constructor
  case localAddresses => exact hle (.fwRuleLocalAddr, .strList r.fwRule.localAddresses) (by simp [writeIVariant])
  case localPorts => exact hle (.fwRuleLocalPort, .strList r.fwRule.localPorts) (by simp [writeIVariant])
  case remoteAddresses => exact hle (.fwRuleRemoteAddr, .strList r.fwRule.remoteAddresses) (by simp [writeIVariant])
  case remotePorts => exact hle (.fwRuleRemotePort, .strList r.fwRule.remotePorts) (by simp [writeIVariant])
  case icmpTypesAndCodes => exact hle (.fwRuleIcmp, .asciiList (r.fwRule.icmpTypesAndCodes.map icmpText)) (by simp [writeIVariant])
  case osPlatformValidity => exact hle (.fwRuleOs, .strList r.fwRule.osPlatformValidity) (by simp [writeIVariant])

theorem Fits.flags : (Value.asciiList (flagTexts profileAll "All" profileFlags r.fwRule.profile)).2.length ≤ ulongMax ∧
    (Value.asciiList (flagTexts interfaceAll "Any" interfaceFlags r.fwRule.interface)).2.length ≤ ulongMax := by
  have hle : ∀ entry ∈ r.writeMVariant, entry.2.2.length ≤ ulongMax := fun entry h =>
    (length_le_finish (r.writeVariant .eMap) .eMap entry h).trans (Nat.le_of_lt (hfits .eMap))
  exact ⟨hle (.fwRuleProfile, .asciiList (flagTexts profileAll "All" profileFlags r.fwRule.profile)) (by simp [writeMVariant]),
    hle (.fwRuleInterface, .asciiList (flagTexts interfaceAll "Any" interfaceFlags r.fwRule.interface)) (by simp [writeMVariant])⟩

/-- What is read back of a rule. -/
theorem readBack_eq (p : Platform) (hr : r.Admitted) {target : CFirewallRule} (ht : Open target r) (format : EFormat) :
    r.readBack p target format = .ok (true, (target.overlay r).complete p) := by
  have hindex : TextType varTypeIndex := ⟨by decide, by decide⟩
  have hmap : TextType varTypeMap := ⟨by decide, by decide⟩
  have htype : TextType (r.toVariant format).1 := by
    cases format with
    | eIndex => exact hindex
    | eMap => exact hmap
  have hread : readAll p format (r.writeVariant format) target = .ok (target.overlay r) := by
    cases format with
    | eIndex => exact readAll_index p target r hr hfits.lists
    | eMap => exact readAll_map p target r hr hfits.lists hfits.flags ht
  rw [readBack, readPacket_toPacket htype (hfits format), bind_ok]
  exact (fromVariant_finish p target (written_writeVariant r format) format (hfits format)).trans (by rw [hread, map_ok])

end Fits

/-- Two rules with the same written fields; what is not written is the path and the principal inside the system's rule. -/
def SameWritten (a b : CFirewallRule) : Prop :=
  a = { b with
    fwRule.binaryPath := a.fwRule.binaryPath
    fwRule.localUserAuthorizationList := a.fwRule.localUserAuthorizationList }

/-- A rule comes back from either format, the same from both, and reading it again changes nothing. -/
structure Codec (p : Platform) (r : CFirewallRule) : Prop where
  back : ∀ format, ∃ r', r.readBack p .new format = .ok (true, r') ∧ SameWritten r' r
  same : r.readBack p .new .eIndex = r.readBack p .new .eMap
  again : ∀ format r', r.readBack p .new format = .ok (true, r') → r.readBack p r' format = .ok (true, r')

theorem open_new (r : CFirewallRule) : Open .new r := ⟨.inl rfl, .inl rfl, .inl rfl⟩

section Codec
variable {p : Platform} {r : CFirewallRule} (hr : r.Admitted) (hfits : r.Fits)
include hr hfits

/-- A second reading doubles the ICMP types. -/
theorem Codec.icmp_eq_nil (h : Codec p r) : r.fwRule.icmpTypesAndCodes = [] := by
  have hopen : Open ((new.overlay r).complete p) r := ⟨.inr rfl, .inr rfl, .inr rfl⟩
  have heq := h.again .eIndex _ (readBack_eq hfits p hr (open_new r) .eIndex)
  rw [readBack_eq hfits p hr hopen] at heq
  have hicmp := congrArg (fun r : CFirewallRule => r.fwRule.icmpTypesAndCodes.length) (Prod.mk.inj (Except.ok.inj heq)).2
  have hlen : (r.fwRule.icmpTypesAndCodes ++ r.fwRule.icmpTypesAndCodes).length = r.fwRule.icmpTypesAndCodes.length := hicmp
  rw [List.length_append] at hlen
  exact List.eq_nil_of_length_eq_zero (by omega)

/-- The program id is not read but made from other fields. -/
theorem Codec.programID_eq (h : Codec p r) : r.programID = (r.complete p).programID := by
  rcases h.back .eIndex with ⟨r', hr', hsame⟩
  rw [readBack_eq hfits p hr (open_new r)] at hr'
  cases hr'
  exact (congrArg CFirewallRule.programID hsame).symm

theorem Codec.of_icmp_nil (hicmp : r.fwRule.icmpTypesAndCodes = []) (hid : r.programID = (r.complete p).programID) : Codec p r := by
  have hfirst := readBack_eq hfits p hr (open_new r)
  constructor
  case back =>
    refine fun format => ⟨_, hfirst format, ?_⟩
    generalize hread : (new.overlay r).complete p = read
    have hfields : read = { r with
        programID := (r.complete p).programID
        fwRule.binaryPath := read.fwRule.binaryPath
        fwRule.localUserAuthorizationList := read.fwRule.localUserAuthorizationList } := by
      rw [← hread]
      rfl
    rwa [← hid] at hfields
  case same => rw [hfirst, hfirst]
  case again =>
    rintro format r' hr'
    rw [hfirst] at hr'
    cases hr'
    have hopen : Open ((new.overlay r).complete p) r := ⟨.inr rfl, .inr rfl, .inr rfl⟩
    rw [readBack_eq hfits p hr hopen]
    have hagain : ((new.overlay r).complete p).overlay r = (new.overlay r).complete p := by
      simp only [overlay, complete, new, SWindowsFwRule.new, hicmp, List.append_nil]
    rw [hagain]
    rfl

end Codec

/-- The codec keeps a rule when it has no ICMP types and the program id of its path, service and package. -/
theorem codec_iff (p : Platform) {r : CFirewallRule} (hr : r.Admitted) (hfits : r.Fits) :
    Codec p r ↔ r.fwRule.icmpTypesAndCodes = [] ∧ r.programID = (r.complete p).programID :=
  ⟨fun h => ⟨h.icmp_eq_nil hr hfits, h.programID_eq hr hfits⟩, fun h => .of_icmp_nil hr hfits h.1 h.2⟩

/-- A system without app packages. -/
def noPackages : Platform := ⟨id, id, fun _ => [], fun _ => false, fun _ => []⟩

/-- A rule for all programs that blocks incoming packets on some profiles. -/
def blocked (protocol : UInt32) (icmpTypesAndCodes : List IcmpTypeCode) : CFirewallRule :=
  { new with
    fwRule.action := .value .block, fwRule.direction := .value .inbound, fwRule.profile := 6, fwRule.interface := 3
    fwRule.protocol := protocol, fwRule.icmpTypesAndCodes := icmpTypesAndCodes, fwRule.localPorts := [[0x38, 0x30]]
    programID := ⟨.eAllPrograms, [], [], []⟩, state := .value .eDiverged, source := .value .eMajorPrivacy }

theorem admitted_blocked (protocol : UInt32) (icmpTypesAndCodes : List IcmpTypeCode) : (blocked protocol icmpTypesAndCodes).Admitted :=
  ⟨⟨_, rfl⟩, ⟨_, rfl⟩, ⟨_, rfl⟩, ⟨_, rfl⟩, by change (6 : UInt32) ∈ admittedProfiles; decide, by change (3 : UInt32) ∈ admittedInterfaces; decide⟩

theorem codec_iff_tcp : Codec noPackages (blocked 6 []) := by
  have hfits : (blocked 6 []).Fits := by
    rintro (_ | _) <;> decide +kernel
  exact (codec_iff noPackages (admitted_blocked 6 []) hfits).2 ⟨rfl, rfl⟩

theorem not_codec_icmp : ¬ Codec noPackages (blocked 1 [⟨8, 256⟩]) := by
  have hfits : (blocked 1 [⟨8, 256⟩]).Fits := by
    rintro (_ | _) <;> decide +kernel
  rintro h
  cases h.icmp_eq_nil (admitted_blocked 1 [⟨8, 256⟩]) hfits

end CFirewallRule

end MajorPrivacy.Firewall

/-
How a `CVariant` parses its payload (`GetMap`, `GetList` and `GetIndex`) while memory may be refused. A call that fails
leaves the payload and the flags as they were, but gives nothing back of what it has built: it is undone only when it
fails before it has a container. No exceptions are thrown here, as in the driver.
-/
import MajorPrivacy.Lib.BlockHeap
import MajorPrivacy.Variant.Body
import MajorPrivacy.Variant.Container
import MajorPrivacy.Variant.Find

namespace MajorPrivacy.Variant

open LittleEndian BlockHeap

/-! ## Containers under construction -/

/-- An element: its key, its value, the memory of the value where it takes some, and the other blocks it has. A value whose
memory was refused has no block. -/
structure BuiltElement where
  slot : Slot
  value : CVariant
  raw : Option Nat
  blocks : List Nat

/-- `SMap`, `SList` or `SIndex`: its own block, the number of buckets or the capacity, and the elements. -/
structure Building where
  block : Nat
  room : Nat
  elements : List BuiltElement

/-- A payload that does not fit the body of a variant takes memory of its own. -/
def takesMemory (value : CVariant) : Bool :=
  match value.store with
  | .rawPayload _ => true
  | _ => false

section Insert

variable (grants : Nat → Bool)

/-- The memory for a copy of a value. -/
def copyValue (h : Heap) (value : CVariant) : Option Nat × Heap := if takesMemory value then h.alloc grants else (none, h)

/-- An insertion: the container and the heap, a refusal that is reported, or a null pointer that is used. -/
inductive Inserted
  | done (c : Building) (h : Heap)
  | refused (h : Heap)
  | fault (h : Heap)

/-- The value is copied into an element that has its blocks. -/
def putElement (c : Building) (h : Heap) (slot : Slot) (value : CVariant) (blocks : List Nat) : Inserted :=
  let (raw, h) := copyValue grants h value
  .done { c with elements := c.elements ++ [⟨slot, value, raw, blocks⟩] } h

/-- The growth of `MapInsert` and `IndexInsert`: a full table is moved into one with twice the buckets. -/
def growTable (c : Building) (h : Heap) : Inserted :=
  if c.elements.length ≥ c.room ∧ c.room &&& 0x80000000 = 0 then
    match h.alloc grants with
    | (none, h) => .fault h
    | (some block, h) => .done { c with block := block, room := if c.room > 0 then c.room * 2 else 1 } (h.free (some c.block))
  else .done c h

/-- The end of `MapInsert` and `IndexInsert`. -/
def insertEntry (c : Building) (h : Heap) (nameA : Option Nat) (slot : Slot) (value : CVariant) : Inserted :=
  match growTable grants c h with
  | .done c h =>
    match h.alloc grants with
    | (none, h) => .refused (h.free nameA)
    | (some pEntry, h) => putElement grants c h slot value (nameA.toList ++ [pEntry])
  | other => other

/-- `MapInsert` of a name that is not looked for; a name without memory is inserted as the empty name. -/
def mapInsert (c : Building) (h : Heap) (name : Bytes) (value : CVariant) : Inserted :=
  let (nameA, h) := h.alloc grants
  insertEntry grants c h nameA (.name (if nameA.isSome then name else [])) value

/-- `IndexInsert` of an id that is not looked for. -/
def indexInsert (c : Building) (h : Heap) (id : UInt32) (value : CVariant) : Inserted :=
  insertEntry grants c h none (.id id) value

/-- The elements copied into a new list. -/
def copyElements : List BuiltElement → Heap → List BuiltElement × Heap
  | [], h => ([], h)
  | e :: es, h =>
    let (raw, h) := copyValue grants h e.value
    let (es, h) := copyElements es h
    ({ e with raw := raw } :: es, h)

/-- `FreeList`. -/
def freeList (c : Building) (h : Heap) : Heap := (c.elements.foldl (fun h e => h.free e.raw) h).free (some c.block)

/-- `ListAppend`. -/
def listAppend (c : Building) (h : Heap) (value : CVariant) : Inserted :=
  if c.elements.length ≥ c.room then
    match h.alloc grants with
    | (none, h) => .fault h
    | (some block, h) =>
      let room := c.room * 3 % 2 ^ 32 / 2
      -- the capacity is a 32-bit number
      if room ≤ c.elements.length then .fault h
      else
        let (elements, h) := copyElements grants c.elements h
        putElement grants ⟨block, room, elements⟩ (freeList c h) (.pos c.elements.length) value []
  else putElement grants c h (.pos c.elements.length) value []

/-- The insertion of an element into a container of its kind. -/
def insertElement (c : Building) (h : Heap) (slot : Slot) (value : CVariant) : Inserted :=
  match slot with
  | .name name => mapInsert grants c h name value
  | .id id => indexInsert grants c h id value
  | .pos _ => listAppend grants c h value

end Insert

/-! ## The parser -/

/-- What is in front of an element, and the rest of the packet. -/
def readElementKey (kind : ContainerKind) (pos : Nat) (packet : Bytes) : Except EResult (Slot × Bytes) :=
  match kind, packet with
  | .map, [] => .error .eErrBufferShort
  | .map, len :: packet =>
    match readData packet len.toNat with
    | none => .error .eErrInvalidName
    | some (name, packet) => .ok (.name name, packet)
  | .index, packet =>
    match readValue 4 packet with
    | none => .error .eErrBufferShort
    | some (id, packet) => .ok (.id (UInt32.ofNat id), packet)
  | .list, packet => .ok (.pos pos, packet)

/-- The errors of the three functions. -/
inductive GetError
  | parse (e : EResult)
  | eErrAllocFailed
  deriving DecidableEq

/-- What a call ends with; `endless` is where a loop would not end. -/
inductive GetResult
  | value (c : Building)
  | failed (e : GetError) (v : VariantBody)
  | fault
  | endless

/-- The loop of `GetMap`, `GetList` and `GetIndex`. -/
def parseElements (kind : ContainerKind) (grants : Nat → Bool) (v : VariantBody) : Nat → Bytes → Building → Heap → GetResult × Heap
  | 0, _, _, h => (.endless, h)
  | fuel + 1, packet, c, h =>
    if packet = [] then (.value c, h)
    else match readElementKey kind c.elements.length packet with
      | .error e => (.failed (.parse e) v, h)
      | .ok (slot, packet) =>
        match readPacket packet with
        | .error e => (.failed (.parse e) v, h)
        | .ok (type, data, left) =>
          match insertElement grants c h slot (initValue type data) with
          | .refused h => (.failed .eErrAllocFailed v, h)
          | .fault h => (.fault, h)
          | .done c h => parseElements kind grants v fuel left c h

/-- `GetMap`, `GetList` and `GetIndex` of a variant that has no container yet. -/
def getContainer (kind : ContainerKind) (bCanInit : Bool) (v : VariantBody) (grants : Nat → Bool) (h : Heap) : GetResult × Heap :=
  let this := if v.m_Type = varTypeEmpty ∧ bCanInit then { v with m_Type := kind.varType } else v
  if this.m_Type ≠ kind.varType then (.failed (.parse .eErrTypeMismatch) this, h)
  else if this.getSize = 0 ∧ ¬ bCanInit then (.failed (.parse .eErrIsEmpty) this, h)
  else match h.alloc grants with
    | (none, h) => (.failed .eErrAllocFailed this, h)
    | (some block, h) =>
      if this.getSize = 0 then (.value ⟨block, 4, []⟩, h)
      else match this.payload with
        | none => (.fault, h)
        | some payload => parseElements kind grants this (payload.length + 1) payload ⟨block, 4, []⟩ h

/-! ## The container is in use -/

/-- A block is in use that was asked for after `h₀`. -/
def Leaked (h₀ h : Heap) : Prop := ∃ b ∈ h.live, h₀.asked ≤ b

/-- The block of the container is in use, was asked for after `h₀`, and is none of the blocks of its elements. -/
structure Owned (h₀ : Heap) (c : Building) (h : Heap) : Prop where
  live : c.block ∈ h.live
  fresh : h₀.asked ≤ c.block
  raws : ∀ e ∈ c.elements, ∀ r ∈ e.raw, r < h.asked ∧ r ≠ c.block

/-- What an insertion leaves in use. -/
def Inserted.Keeps (h₀ : Heap) : Inserted → Prop
  | .done c h => Owned h₀ c h
  | .refused h => Leaked h₀ h
  | .fault _ => True

section Owned

variable {grants : Nat → Bool} {h₀ h : Heap} {c : Building}

theorem Owned.block_lt (hc : Owned h₀ c h) : c.block < h.asked := h.issued _ hc.live

theorem Owned.alloc (hc : Owned h₀ c h) : Owned h₀ c (h.alloc grants).2 := by
  refine ⟨Heap.mem_alloc hc.live, hc.fresh, fun e he r hr => ?_⟩
  obtain ⟨hlt, hne⟩ := hc.raws e he r hr
  exact ⟨by rw [Heap.asked_alloc]; omega, hne⟩

theorem copyValue_cases (grants : Nat → Bool) (h : Heap) (value : CVariant) :
    copyValue grants h value = h.alloc grants ∨ copyValue grants h value = (none, h) := by
  unfold copyValue
  split
  · exact .inl rfl
  · exact .inr rfl

theorem putElement_keeps (hc : Owned h₀ c h) (slot : Slot) (value : CVariant) (blocks : List Nat) :
    (putElement grants c h slot value blocks).Keeps h₀ := by
  unfold putElement
  have hlt := hc.block_lt
  obtain hcopy | hcopy := copyValue_cases grants h value
  · rw [hcopy]
    refine ⟨Heap.mem_alloc hc.live, hc.fresh, fun e he r hr => ?_⟩
    obtain he | he := List.mem_append.1 he
    · exact hc.alloc.raws e he r hr
    · rw [List.mem_singleton.1 he] at hr
      obtain ⟨hraw, -⟩ := Heap.eq_asked_of_alloc hr
      show r < (h.alloc grants).2.asked ∧ r ≠ c.block
      rw [Heap.asked_alloc]
      omega
  · rw [hcopy]
    refine ⟨hc.live, hc.fresh, fun e he r hr => ?_⟩
    obtain he | he := List.mem_append.1 he
    · exact hc.raws e he r hr
    · rw [List.mem_singleton.1 he] at hr
      exact nomatch hr

/-- A table that has grown is in a block that was not in use before. -/
theorem growTable_keeps (grants : Nat → Bool) (hc : Owned h₀ c h) : (∃ h', growTable grants c h = .fault h') ∨
    ∃ c' h', growTable grants c h = .done c' h' ∧ Owned h₀ c' h' ∧ h.asked ≤ h'.asked ∧ (c'.block = c.block ∨ c'.block = h.asked) := by
  unfold growTable
  by_cases hfull : c.elements.length ≥ c.room ∧ c.room &&& 0x80000000 = 0
  case neg =>
    rw [if_neg hfull]
    exact .inr ⟨c, h, rfl, hc, Nat.le_refl _, .inl rfl⟩
  rw [if_pos hfull]
  have hlt := hc.block_lt
  have hasked := Heap.asked_alloc grants h
  cases halloc : h.alloc grants with
  | mk block h' =>
    rw [halloc] at hasked
    dsimp only at hasked
    cases block with
    | none => exact .inl ⟨h', rfl⟩
    | some block =>
      obtain ⟨hblock, hmem⟩ := Heap.eq_asked_of_alloc (b := block) (by rw [halloc])
      rw [halloc] at hmem
      have hother : some c.block ≠ some block := by
        intro heq
        cases heq
        omega
      refine .inr ⟨_, _, rfl, ⟨Heap.mem_free hmem hother, ?_, fun e he r hr => ?_⟩, ?_, .inr hblock⟩
      · show h₀.asked ≤ block
        have hfresh := hc.fresh
        omega
      · obtain ⟨hr, -⟩ := hc.raws e he r hr
        show r < (h'.free (some c.block)).asked ∧ r ≠ block
        rw [Heap.asked_free]
        omega
      · rw [Heap.asked_free]
        omega

theorem insertEntry_keeps (hc : Owned h₀ c h) {nameA : Option Nat} (hname : ∀ b ∈ nameA, b < h.asked ∧ b ≠ c.block) (slot : Slot)
    (value : CVariant) : (insertEntry grants c h nameA slot value).Keeps h₀ := by
  unfold insertEntry
  obtain ⟨h', hgrow⟩ | ⟨c', h', hgrow, hc', hle, hblock⟩ := growTable_keeps grants hc
  · rw [hgrow]
    trivial
  rw [hgrow]
  dsimp only
  have hown : Owned h₀ c' (h'.alloc grants).2 := hc'.alloc
  cases halloc : h'.alloc grants with
  | mk pEntry h'' =>
    rw [halloc] at hown
    cases pEntry with
    | none =>
      refine ⟨c'.block, Heap.mem_free hown.live fun heq => ?_, hown.fresh⟩
      obtain ⟨hlt, hne⟩ := hname _ heq
      omega
    | some pEntry => exact putElement_keeps hown slot value _

theorem mapInsert_keeps (hc : Owned h₀ c h) (name : Bytes) (value : CVariant) : (mapInsert grants c h name value).Keeps h₀ := by
  unfold mapInsert
  refine insertEntry_keeps hc.alloc (fun b hb => ?_) _ value
  obtain ⟨heq, -⟩ := Heap.eq_asked_of_alloc hb
  have hlt := hc.block_lt
  rw [Heap.asked_alloc]
  omega

theorem copyElements_spec (grants : Nat → Bool) : ∀ (es : List BuiltElement) (h : Heap), h.asked ≤ (copyElements grants es h).2.asked ∧
    (∀ b ∈ h.live, b ∈ (copyElements grants es h).2.live) ∧
    ∀ e ∈ (copyElements grants es h).1, ∀ r ∈ e.raw, h.asked ≤ r ∧ r < (copyElements grants es h).2.asked
  | [], h => ⟨Nat.le_refl _, fun _ hb => hb, nofun⟩
  | e :: es, h => by
    unfold copyElements
    obtain hcopy | hcopy := copyValue_cases grants h e.value
    · rw [hcopy]
      dsimp only
      obtain ⟨hle, hlive, hraws⟩ := copyElements_spec grants es (h.alloc grants).2
      rw [Heap.asked_alloc] at hle hraws
      refine ⟨by omega, fun b hb => hlive b (Heap.mem_alloc hb), fun e' he' r hr => ?_⟩
      obtain rfl | he' := List.mem_cons.1 he'
      · obtain ⟨heq, -⟩ := Heap.eq_asked_of_alloc hr
        omega
      · obtain ⟨hlo, hhi⟩ := hraws e' he' r hr
        omega
    · rw [hcopy]
      dsimp only
      obtain ⟨hle, hlive, hraws⟩ := copyElements_spec grants es h
      refine ⟨hle, hlive, fun e' he' r hr => ?_⟩
      obtain rfl | he' := List.mem_cons.1 he'
      · exact nomatch hr
      · exact hraws e' he' r hr

theorem foldl_free_spec {b : Nat} : ∀ (es : List BuiltElement) (h : Heap), b ∈ h.live → (∀ e ∈ es, e.raw ≠ some b) →
    b ∈ (es.foldl (fun h e => h.free e.raw) h).live ∧ (es.foldl (fun h e => h.free e.raw) h).asked = h.asked
  | [], _, hb, _ => ⟨hb, rfl⟩
  | e :: es, h, hb, hne => by
    obtain ⟨hfirst, hrest⟩ := List.forall_mem_cons.1 hne
    obtain ⟨hmem, hasked⟩ := foldl_free_spec es (h.free e.raw) (Heap.mem_free hb hfirst) hrest
    exact ⟨hmem, hasked.trans (Heap.asked_free _ _)⟩

theorem listAppend_keeps (hc : Owned h₀ c h) (value : CVariant) : (listAppend grants c h value).Keeps h₀ := by
  unfold listAppend
  by_cases hfull : c.elements.length ≥ c.room
  case neg =>
    rw [if_neg hfull]
    exact putElement_keeps hc _ value _
  rw [if_pos hfull]
  have hlt := hc.block_lt
  have hfresh := hc.fresh
  have hasked := Heap.asked_alloc grants h
  cases halloc : h.alloc grants with
  | mk block h' =>
    rw [halloc] at hasked
    dsimp only at hasked
    cases block with
    | none => trivial
    | some block =>
      obtain ⟨hblock, hmem⟩ := Heap.eq_asked_of_alloc (b := block) (by rw [halloc])
      rw [halloc] at hmem
      dsimp only at hmem ⊢
      by_cases hroom : c.room * 3 % 2 ^ 32 / 2 ≤ c.elements.length
      · rw [if_pos hroom]
        trivial
      rw [if_neg hroom]
      -- the new block is none of those that `FreeList` gives back
      obtain ⟨hle, hlive, hraws⟩ := copyElements_spec grants c.elements h'
      have hnot : ∀ e ∈ c.elements, e.raw ≠ some block := by
        intro e he heq
        obtain ⟨hr, -⟩ := hc.raws e he block heq
        omega
      obtain ⟨hfreed, hfreedAsked⟩ := foldl_free_spec c.elements _ (hlive block hmem) hnot
      refine putElement_keeps ⟨Heap.mem_free hfreed fun heq => ?_, ?_, fun e he r hr => ?_⟩ _ value _
      · have hsame : c.block = block := Option.some.inj heq
        omega
      · show h₀.asked ≤ block
        omega
      · obtain ⟨hlo, hhi⟩ := hraws e he r hr
        rw [Heap.asked_free, hfreedAsked]
        show r < _ ∧ r ≠ block
        omega

theorem insertElement_keeps (grants : Nat → Bool) (hc : Owned h₀ c h) (slot : Slot) (value : CVariant) : (insertElement grants c h slot value).Keeps h₀ := by
  unfold insertElement
  cases slot with
  | name name => exact mapInsert_keeps hc name value
  | id id => exact insertEntry_keeps hc (fun b hb => nomatch (Option.mem_def.1 hb : (none : Option Nat) = some b)) _ value
  | pos pos => exact listAppend_keeps hc value

end Owned

/-! ## Every call comes to an end -/

theorem length_readPacket {packet data left : Bytes} {type : EType} (h : readPacket packet = .ok (type, data, left)) :
    left.length < packet.length := by
  obtain ⟨size, body, hheader, -, hdata⟩ := skip_of_readPacket h
  obtain ⟨hle, heq⟩ := Option.ite_none_right_eq_some.1 hdata
  cases heq
  have hbody : body.length < packet.length := by
    obtain _ | ⟨b, rest⟩ := packet
    · exact nomatch hheader
    rw [List.length_cons]
    by_cases hf : b &&& varLenField ≠ 0
    · rw [VariantBody.readHeader_field hf, readValue_eq] at hheader
      obtain ⟨⟨n, rest'⟩, hvalue, hrest⟩ := Option.bind_eq_some_iff.1 hheader
      obtain ⟨-, hvalue⟩ := Option.ite_none_right_eq_some.1 hvalue
      obtain ⟨-, hrest⟩ := Option.ite_none_left_eq_some.1 hrest
      cases hvalue
      cases hrest
      rw [List.length_drop]
      omega
    · rw [VariantBody.readHeader_fixed hf] at hheader
      obtain ⟨-, hrest⟩ := Option.ite_none_left_eq_some.1 hheader
      cases hrest
      exact Nat.lt_succ_self _
  rw [List.length_drop]
  omega

theorem length_readElementKey {kind : ContainerKind} {pos : Nat} {packet rest : Bytes} {slot : Slot}
    (h : readElementKey kind pos packet = .ok (slot, rest)) : rest.length ≤ packet.length := by
  cases kind with
  | map =>
    obtain _ | ⟨len, packet⟩ := packet
    · exact nomatch h
    unfold readElementKey at h
    dsimp only at h
    obtain hread | ⟨⟨name, left⟩, hread⟩ := Option.eq_none_or_eq_some (readData packet len.toNat)
    · rw [hread] at h
      exact nomatch h
    · rw [hread] at h
      cases h
      obtain ⟨-, heq⟩ := Option.ite_none_right_eq_some.1 hread
      cases heq
      rw [List.length_drop, List.length_cons]
      omega
  | list =>
    cases h
    exact Nat.le_refl _
  | index =>
    unfold readElementKey at h
    dsimp only at h
    rw [readValue_eq] at h
    by_cases hlen : 4 ≤ packet.length
    · rw [if_pos hlen] at h
      cases h
      rw [List.length_drop]
      omega
    · rw [if_neg hlen] at h
      exact nomatch h

/-- The parser gives a container, or fails with its container in use, or uses a null pointer. -/
theorem parseElements_cases {kind : ContainerKind} {grants : Nat → Bool} {v : VariantBody} {h₀ : Heap} :
    ∀ (fuel : Nat) (packet : Bytes) (c : Building) (h : Heap), packet.length < fuel → Owned h₀ c h →
      (∃ c' h', parseElements kind grants v fuel packet c h = (.value c', h')) ∨
      (∃ e h', parseElements kind grants v fuel packet c h = (.failed e v, h') ∧ Leaked h₀ h') ∨
      ∃ h', parseElements kind grants v fuel packet c h = (.fault, h')
  | 0, _, _, _, hfuel, _ => absurd hfuel (Nat.not_lt_zero _)
  | fuel + 1, packet, c, h, hfuel, hc => by
    have hleaked : Leaked h₀ h := ⟨c.block, hc.live, hc.fresh⟩
    unfold parseElements
    by_cases hnil : packet = []
    · rw [if_pos hnil]
      exact .inl ⟨c, h, rfl⟩
    rw [if_neg hnil]
    cases hkey : readElementKey kind c.elements.length packet with
    | error e => exact .inr (.inl ⟨_, h, rfl, hleaked⟩)
    | ok key =>
      obtain ⟨slot, rest⟩ := key
      dsimp only
      cases hread : readPacket rest with
      | error e => exact .inr (.inl ⟨_, h, rfl, hleaked⟩)
      | ok element =>
        obtain ⟨type, data, left⟩ := element
        dsimp only
        have hkeep := insertElement_keeps grants hc slot (initValue type data)
        cases hinsert : insertElement grants c h slot (initValue type data) with
        | refused h' =>
          rw [hinsert] at hkeep
          exact .inr (.inl ⟨_, h', rfl, hkeep⟩)
        | fault h' => exact .inr (.inr ⟨h', rfl⟩)
        | done c' h' =>
          rw [hinsert] at hkeep
          have hlen := length_readPacket hread
          have hrest := length_readElementKey hkey
          exact parseElements_cases fuel left c' h' (by omega) hkeep

/-! ## What a failed call leaves -/

/-- The variant is as it was, is encoded to the same packet, and everything that was built is given back. -/
structure Restored (v v' : VariantBody) (h h' : Heap) : Prop where
  same : v' = v
  packet : v'.toPacket = v.toPacket
  released : h'.live = h.live

/-- The call gives up before it has a container: the type is another one, or there is no payload and nothing is to be made,
or no memory for the container; and the type is not set first. -/
def NotBegun (kind : ContainerKind) (bCanInit : Bool) (v : VariantBody) (grants : Nat → Bool) (h : Heap) : Prop :=
  (v.m_Type = varTypeEmpty → bCanInit = false) ∧
    (v.m_Type = kind.varType → v.getSize = 0 ∧ bCanInit = false ∨ grants h.asked = false)

theorem ContainerKind.varType_ne_empty (kind : ContainerKind) : kind.varType ≠ varTypeEmpty := by
  cases kind <;> decide

/-- What is left once there is a container. -/
theorem begun_cases (kind : ContainerKind) {grants : Nat → Bool} (v : VariantBody) {h h' : Heap} {block : Nat}
    (halloc : h.alloc grants = (some block, h')) {r : GetResult × Heap}
    (hr : r = if v.getSize = 0 then (.value ⟨block, 4, []⟩, h') else match v.payload with
      | none => (.fault, h')
      | some payload => parseElements kind grants v (payload.length + 1) payload ⟨block, 4, []⟩ h') :
    (∃ c h'', r = (.value c, h'')) ∨ (∃ e h'', r = (.failed e v, h'') ∧ Leaked h h'') ∨ ∃ h'', r = (.fault, h'') := by
  obtain ⟨hblock, hmem⟩ := Heap.eq_asked_of_alloc (b := block) (by rw [halloc])
  rw [halloc] at hmem
  have hown : Owned h ⟨block, 4, []⟩ h' := ⟨hmem, hblock.ge, fun _ he => nomatch he⟩
  subst hr
  by_cases hsize : v.getSize = 0
  · rw [if_pos hsize]
    exact .inl ⟨_, h', rfl⟩
  rw [if_neg hsize]
  cases v.payload with
  | none => exact .inr (.inr ⟨h', rfl⟩)
  | some payload => exact parseElements_cases _ payload _ h' (Nat.lt_succ_self _) hown

/-- What is built is not given back. -/
theorem not_restored_of_leaked {v v' : VariantBody} {h h' : Heap} (hleaked : Leaked h h') : ¬ Restored v v' h h' := by
  intro hr
  obtain ⟨b, hb, hle⟩ := hleaked
  rw [hr.released] at hb
  have hlt := h.issued b hb
  omega

/-- A call gives a container, or fails, or uses a null pointer where a container cannot grow. When it fails, the variant has
its flags and its payload; everything else is as it was exactly when the call gave up before it had a container. -/
theorem getContainer_restored_iff (kind : ContainerKind) (bCanInit : Bool) (v : VariantBody) (grants : Nat → Bool) (h : Heap) :
    (∃ c h', getContainer kind bCanInit v grants h = (.value c, h')) ∨
    (∃ e v' h', getContainer kind bCanInit v grants h = (.failed e v', h') ∧ { v' with m_Type := v.m_Type } = v ∧
      (Restored v v' h h' ↔ NotBegun kind bCanInit v grants h)) ∨
    ∃ h', getContainer kind bCanInit v grants h = (.fault, h') ∧ ¬ NotBegun kind bCanInit v grants h := by
  have hne := kind.varType_ne_empty
  unfold getContainer
  by_cases hset : v.m_Type = varTypeEmpty ∧ bCanInit = true
  · -- the type is set before anything can fail
    have hnot : ¬ NotBegun kind bCanInit v grants h := fun hn => ne_true_of_eq_false (hn.1 hset.1) hset.2
    have hchanged : ∀ h', ¬ Restored v { v with m_Type := kind.varType } h h' := fun h' hr =>
      hne ((congrArg VariantBody.m_Type hr.same).trans hset.1)
    simp only [if_pos hset, ne_eq, not_true_eq_false, if_false]
    rw [if_neg fun hempty => hempty.2 hset.2]
    cases halloc : h.alloc grants with
    | mk block h' =>
      cases block with
      | none => exact .inr (.inl ⟨_, _, h', rfl, rfl, iff_of_false (hchanged h') hnot⟩)
      | some block =>
        obtain ⟨c, h'', heq⟩ | ⟨e, h'', heq, -⟩ | ⟨h'', heq⟩ :=
          begun_cases kind { v with m_Type := kind.varType } halloc rfl
        · exact .inl ⟨c, h'', heq⟩
        · exact .inr (.inl ⟨e, _, h'', heq, rfl, iff_of_false (hchanged h'') hnot⟩)
        · exact .inr (.inr ⟨h'', heq, hnot⟩)
  · simp only [if_neg hset]
    have hinit : v.m_Type = varTypeEmpty → bCanInit = false := fun hempty => eq_false_of_ne_true fun hi => hset ⟨hempty, hi⟩
    by_cases htype : v.m_Type ≠ kind.varType
    · rw [if_pos htype]
      exact .inr (.inl ⟨_, v, h, rfl, rfl, iff_of_true ⟨rfl, rfl, rfl⟩ ⟨hinit, fun heq => absurd heq htype⟩⟩)
    rw [if_neg htype]
    by_cases hempty : v.getSize = 0 ∧ ¬ bCanInit = true
    · rw [if_pos hempty]
      refine .inr (.inl ⟨_, v, h, rfl, rfl, iff_of_true ⟨rfl, rfl, rfl⟩ ⟨hinit, fun _ => .inl ?_⟩⟩)
      exact ⟨hempty.1, eq_false_of_ne_true hempty.2⟩
    rw [if_neg hempty]
    obtain hg | hg := Bool.eq_false_or_eq_true (grants h.asked)
    · have hnot : ¬ NotBegun kind bCanInit v grants h := by
        intro hn
        obtain ⟨hsize, hi⟩ | hrefused := hn.2 (not_not.1 htype)
        · exact hempty ⟨hsize, ne_true_of_eq_false hi⟩
        · exact ne_true_of_eq_false hrefused hg
      have halloc : h.alloc grants = (some h.asked, (h.alloc grants).2) := Prod.ext (Heap.alloc_granted hg).1 rfl
      rw [halloc]
      obtain ⟨c, h'', heq⟩ | ⟨e, h'', heq, hleaked⟩ | ⟨h'', heq⟩ := begun_cases kind v halloc rfl
      · exact .inl ⟨c, h'', heq⟩
      · exact .inr (.inl ⟨e, v, h'', heq, rfl, iff_of_false (not_restored_of_leaked hleaked) hnot⟩)
      · exact .inr (.inr ⟨h'', heq, hnot⟩)
    · obtain ⟨hnone, hlive⟩ := Heap.alloc_refused hg
      have halloc : h.alloc grants = (none, (h.alloc grants).2) := Prod.ext hnone rfl
      rw [halloc]
      exact .inr (.inl ⟨_, v, _, rfl, rfl, iff_of_true ⟨rfl, rfl, hlive⟩ ⟨hinit, fun _ => .inr hg⟩⟩)

/-- A map whose only element has a name of five bytes, none of which is there. -/
def truncatedName : Bytes := [varTypeMap ||| varLen8, 5]

theorem not_restored_truncatedName : ∃ v, (VariantBody.new none).fromPacket truncatedName false = (v, .ok []) ∧
    ∃ h', getContainer .map false v (fun _ => true) ⟨0, [], nofun⟩ = (.failed (.parse .eErrInvalidName) v, h') ∧
      h'.live = [0] ∧ ¬ Restored v v ⟨0, [], nofun⟩ h' := by
  refine ⟨_, rfl, _, rfl, rfl, fun hr => ?_⟩
  exact absurd hr.released (by decide)

end MajorPrivacy.Variant

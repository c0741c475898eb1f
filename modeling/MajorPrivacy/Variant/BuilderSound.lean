/-
What the in-place builder leaves in its buffer. The invariant of the stack: each variant being
filled lies in the room its container had left, and, unless an insertion into it has failed, holds
the entries on record and behind them the key of the variant being filled in it. Every call keeps
it, so a run of good calls ends with a packet that decodes to its record.
-/
import MajorPrivacy.Variant.BuilderRuns

namespace MajorPrivacy.Variant

open LittleEndian Memory

/-! ## The invariant -/

/-- The bytes of the key a container is waiting at. -/
def pendingBytes (pending : Option Key) : Bytes := (pending.map Key.bytes).getD []

/-- The type a container has while it waits at a key. -/
def pendingType (type : EType) : Option Key → EType
  | none => type
  | some key => typeWith type key

/-- A variant being filled and its record. -/
structure FrameInv (mem : Bytes) (pending : Option Key) (var : SVariant) (f : Frame) : Prop where
  failed : f.failed = decide (var.bError ≠ 0)
  size_le : var.uSize ≤ var.uMaxSize
  max_lt : var.uMaxSize < 2 ^ 32
  pending_short : ∀ key, pending = some key → key.Short
  filled : var.bError = 0 → ∃ type p, Encodes f.value type p ∧ var.uType = pendingType type pending ∧
    (∀ key, pending = some key → typeWith type key = key.container) ∧
    slice mem var.pData var.uSize = p ++ pendingBytes pending ∧ var.uSize = p.length + (pendingBytes pending).length

/-- The variants of the stack with their records, the innermost first. -/
def StackInv (mem : Bytes) : Option Key → List SVariant → List Frame → Prop
  | pending, [var], [f] =>
    FrameInv mem pending var f ∧ var.pData = prepareHeaderSize var.uMaxSize ∧ var.pData + var.uMaxSize ≤ mem.length
  | pending, var :: outer :: stack, f :: frames =>
    FrameInv mem pending var f ∧ var.pData = outer.pData + outer.uSize + prepareHeaderSize var.uMaxSize ∧
      outer.uSize + (var.uMaxSize + 5) = outer.uMaxSize ∧ StackInv mem (some f.key) (outer :: stack) frames
  | _, _, _ => False

theorem prepareHeaderSize_le (n : Nat) : 2 ≤ prepareHeaderSize n ∧ prepareHeaderSize n ≤ 5 := by
  unfold prepareHeaderSize
  split_ifs <;> omega

theorem StackInv.room {mem : Bytes} : ∀ {pending : Option Key} {var : SVariant} {stack : List SVariant}
    {frames : List Frame}, StackInv mem pending (var :: stack) frames → var.pData + var.uMaxSize ≤ mem.length
  | _, _, [], [_], h => h.2.2
  | _, var, outer :: stack, f :: frames, h => by
    obtain ⟨-, hdata, hmax, h⟩ := h
    have hroom := h.room
    have hhdr := (prepareHeaderSize_le var.uMaxSize).2
    omega

theorem StackInv.head {mem : Bytes} : ∀ {pending : Option Key} {var : SVariant} {stack : List SVariant}
    {f : Frame} {frames : List Frame}, StackInv mem pending (var :: stack) (f :: frames) → FrameInv mem pending var f
  | _, _, [], _, [], h => h.1
  | _, _, _ :: _, _, _, h => h.1

theorem StackInv.frames_ne_nil {mem : Bytes} {pending : Option Key} {var : SVariant} {stack : List SVariant}
    {frames : List Frame} (h : StackInv mem pending (var :: stack) frames) : ∃ f frames', frames = f :: frames' := by
  cases frames with
  | nil => cases stack <;> exact h.elim
  | cons f frames => exact ⟨f, frames, rfl⟩

theorem FrameInv.write {mem mem' : Bytes} {pending : Option Key} {var : SVariant} {f : Frame}
    (h : FrameInv mem pending var f) {off : Nat} {data : Bytes} (hw : writeAt mem off data = some mem')
    (hoff : var.pData + var.uSize ≤ off) : FrameInv mem' pending var f := by
  refine ⟨h.failed, h.size_le, h.max_lt, h.pending_short, fun he => ?_⟩
  obtain ⟨type, p, h₁, h₂, h₃, h₄, h₅⟩ := h.filled he
  exact ⟨type, p, h₁, h₂, h₃, by rw [slice_writeAt hw (.inl hoff), h₄], h₅⟩

/-- A write behind the innermost variant reaches none of them. -/
theorem StackInv.write {mem mem' : Bytes} {off : Nat} {data : Bytes} (hw : writeAt mem off data = some mem') :
    ∀ {pending : Option Key} {var : SVariant} {stack : List SVariant} {frames : List Frame},
      StackInv mem pending (var :: stack) frames → var.pData + var.uSize ≤ off →
      StackInv mem' pending (var :: stack) frames
  | _, var, [], [f], h, hoff => by
    obtain ⟨hf, hdata, hroom⟩ := h
    exact ⟨hf.write hw hoff, hdata, by rw [length_writeAt hw]; exact hroom⟩
  | _, var, outer :: stack, f :: frames, h, hoff => by
    obtain ⟨hf, hdata, hmax, h⟩ := h
    exact ⟨hf.write hw hoff, hdata, hmax, h.write hw (by omega)⟩

/-- The innermost variant with another content of the same place. -/
theorem StackInv.replace {mem : Bytes} {pending pending' : Option Key} {var var' : SVariant} {f f' : Frame}
    {stack : List SVariant} {frames : List Frame} (h : StackInv mem pending (var :: stack) (f :: frames))
    (hf : FrameInv mem pending' var' f') (hmax : var'.uMaxSize = var.uMaxSize) (hdata : var'.pData = var.pData)
    (hkey : f'.key = f.key) : StackInv mem pending' (var' :: stack) (f' :: frames) := by
  cases stack with
  | nil =>
    cases frames with
    | nil =>
      obtain ⟨-, h₁, h₂⟩ := h
      exact ⟨hf, by rw [hdata, hmax]; exact h₁, by rw [hdata, hmax]; exact h₂⟩
    | cons g frames => exact h.elim
  | cons outer stack =>
    obtain ⟨-, h₁, h₂, h₃⟩ := h
    exact ⟨hf, by rw [hdata, hmax]; exact h₁, by rw [hmax]; exact h₂, by rw [hkey]; exact h₃⟩

/-! ## Good calls -/

/-- The room `InsertRaw` asks for is there, and the container is one for the key. -/
def SVariant.accepts (var : SVariant) (key : Key) (size : Nat) : Prop :=
  typeWith var.uType key = key.container ∧ key.bytes.length + 1 + 4 + size ≤ var.uMaxSize - var.uSize

instance (var : SVariant) (key : Key) (size : Nat) : Decidable (var.accepts key size) := by
  unfold SVariant.accepts; infer_instance

/-- The calls with names shorter than 256 bytes and types of five bits. -/
def Call.WellFormed : Call → Prop
  | .insert key _ _ => key.Short
  | .prepare key type => key.Short ∧ type &&& varTypeMask = type
  | .finishEntry => True

instance (call : Call) : Decidable call.WellFormed := by
  cases call <;> unfold Call.WellFormed <;> infer_instance

/-- A call that leaves no key without a value behind: an insertion that is accepted comes with a
value, which is no payload for the empty type, and a variant is only finished that is not in error
and not empty; in a container that is in error already anything goes. -/
def Builder.Good (b : Builder) : Call → Prop
  | .insert key type value => ∀ var ∈ b.stack.head?, var.bError ≠ 0 ∨ ¬ var.accepts key (value.getD []).length ∨
      ∃ data, value = some data ∧ (type &&& varTypeMask = varTypeEmpty → data = [])
  | .prepare _ _ => True
  | .finishEntry =>
    match b.stack with
    | out_var :: var :: _ => var.bError ≠ 0 ∨ out_var.bError = 0 ∧ out_var.uType ≠ varTypeEmpty
    | _ => True

/-- All calls of a run are good. -/
def Builder.GoodRun (b : Builder) : List Call → Prop
  | [] => True
  | call :: calls => b.Good call ∧ ∀ b' ok, b.step call = .ok (b', ok) → GoodRun b' calls

instance (value : Option Bytes) (P : Bytes → Prop) [DecidablePred P] : Decidable (∃ data, value = some data ∧ P data) :=
  match value with
  | none => .isFalse fun ⟨_, h, _⟩ => by cases h
  | some data => decidable_of_iff (P data) ⟨fun h => ⟨data, rfl, h⟩, fun ⟨_, h, hp⟩ => by cases h; exact hp⟩

instance (b : Builder) (call : Call) : Decidable (b.Good call) := by
  unfold Builder.Good
  split
  · infer_instance
  · infer_instance
  · split <;> infer_instance

instance (b : Builder) (calls : List Call) : Decidable (b.GoodRun calls) :=
  decGoodRun calls b
where
  decGoodRun : (calls : List Call) → (b : Builder) → Decidable (b.GoodRun calls)
    | [], _ => .isTrue trivial
    | call :: calls, b =>
      match hs : b.step call with
      | .error _ => decidable_of_iff (b.Good call) ⟨fun h => ⟨h, fun b' ok h' => by rw [hs] at h'; cases h'⟩, fun h => h.1⟩
      | .ok (b', ok) =>
        have := decGoodRun calls b'
        decidable_of_iff (b.Good call ∧ b'.GoodRun calls)
          ⟨fun h => ⟨h.1, fun b'' ok' h' => by rw [hs] at h'; cases h'; exact h.2⟩, fun h => ⟨h.1, h.2 b' ok hs⟩⟩

/-! ## InsertRaw -/

theorem sub_mod {a b : Nat} (h : b ≤ a) (ha : a < 2 ^ 32) : (a + 2 ^ 32 - b) % 2 ^ 32 = a - b := by
  omega

/-- `InsertRaw` refuses the entry and notes the error, or writes it behind the others. -/
theorem insertRaw_cases {mem : Bytes} {var : SVariant} (hsize : var.uSize ≤ var.uMaxSize) (hmax : var.uMaxSize < 2 ^ 32)
    (key : Key) (type : UInt8) (value : Option Bytes) :
    (¬ var.accepts key (value.getD []).length ∧ ∃ var', insertRaw mem var key type value = some (mem, var', false) ∧
      var'.bError ≠ 0 ∧ var'.uSize = var.uSize ∧ var'.uMaxSize = var.uMaxSize ∧ var'.pData = var.pData) ∨
    (var.accepts key (value.getD []).length ∧ insertRaw mem var key type value =
      (writeAt mem (var.pData + var.uSize) (key.bytes ++ (value.map (variantWriteRaw type)).getD [])).map fun mem =>
        (mem, { var with
          uType := key.container
          uSize := var.uSize + (key.bytes ++ (value.map (variantWriteRaw type)).getD []).length }, true)) := by
  have hor : ∀ b : UInt8, b ||| varErrBadType ≠ 0 ∧ b ||| varErrBadSize ≠ 0 := by
    apply forall_uint8
    decide +kernel
  unfold insertRaw SVariant.accepts
  simp only [sub_mod hsize hmax]
  by_cases htype : typeWith var.uType key = key.container
  · have htype' := htype
    unfold typeWith at htype'
    rw [if_neg (by rw [htype']; simp), htype']
    by_cases hroom : var.uMaxSize - var.uSize < key.bytes.length + 1 + 4 + (value.getD []).length
    · rw [if_pos hroom]
      exact .inl ⟨fun h => by omega, _, rfl, (hor var.bError).2, rfl, rfl, rfl⟩
    · rw [if_neg hroom]
      exact .inr ⟨⟨htype, by omega⟩, rfl⟩
  · have htype' := htype
    unfold typeWith at htype'
    rw [if_pos htype']
    exact .inl ⟨fun h => htype h.1, _, rfl, (hor var.bError).1, rfl, rfl, rfl⟩

theorem length_variantWriteSize (type : UInt8) (n : Nat) : (variantWriteSize type n).length ≤ 5 := by
  unfold variantWriteSize
  simp only
  split_ifs <;> simp

theorem variantWriteRaw_mask (type : UInt8) (data : Bytes) :
    variantWriteRaw (type &&& varTypeMask) data = variantWriteRaw type data := by
  unfold variantWriteRaw variantWriteSize
  rw [type_idem]

theorem written_variantWriteRaw (type : UInt8) (data : Bytes) :
    Written (type &&& varTypeMask) data (variantWriteRaw type data) := by
  have h : variantToBuffer (type &&& varTypeMask) data (data.length + 5) = some (variantWriteRaw type data) := by
    unfold variantToBuffer
    rw [if_neg (by omega), type_idem, variantWriteRaw_mask]
  exact .variantToBuffer h

/-- An entry with its key behind the others. -/
theorem FrameInv.add {mem : Bytes} {var var' : SVariant} {f : Frame} {key : Key}
    (h : FrameInv mem (some key) var f) {v : Value} {t : EType} {q packet : Bytes} (hv : var.bError = 0 → Encodes v t q)
    (hw : Written t q packet) (hmax : var'.uMaxSize = var.uMaxSize) (herr : var'.bError = var.bError)
    (htype : var'.uType = var.uType) (hdata : var'.pData = var.pData) (hsize : var'.uSize = var.uSize + packet.length)
    (hroom : var'.uSize ≤ var'.uMaxSize) (hslice : slice mem (var.pData + var.uSize) packet.length = packet) :
    FrameInv mem none var' (f.add key v) := by
  refine ⟨?_, hroom, by rw [hmax]; exact h.max_lt, by simp, fun he => ?_⟩
  · rw [herr]
    exact h.failed
  · rw [herr] at he
    obtain ⟨type, p, h₁, h₂, h₃, h₄, h₅⟩ := h.filled he
    refine ⟨typeWith type key, p ++ (key.bytes ++ packet),
      Frame.encodes_add h₁ (h.pending_short key rfl) (h₃ key rfl) (hv he) hw, htype.trans h₂, by simp, ?_, ?_⟩
    · rw [hdata, hsize, slice_add, h₄, hslice]
      simp [pendingBytes]
    · rw [hsize, h₅]
      simp [pendingBytes, Nat.add_assoc]

/-- Only the key, behind the others. -/
theorem FrameInv.pend {mem : Bytes} {var var' : SVariant} {f : Frame} {key : Key} (h : FrameInv mem none var f)
    (hk : key.Short) (ht : typeWith var.uType key = key.container)
    (hmax : var'.uMaxSize = var.uMaxSize) (herr : var'.bError = var.bError)
    (htype : var'.uType = key.container) (hdata : var'.pData = var.pData) (hsize : var'.uSize = var.uSize + key.bytes.length)
    (hroom : var'.uSize ≤ var'.uMaxSize) (hslice : slice mem (var.pData + var.uSize) key.bytes.length = key.bytes) :
    FrameInv mem (some key) var' f := by
  refine ⟨by rw [herr]; exact h.failed, hroom, by rw [hmax]; exact h.max_lt, ?_, fun he => ?_⟩
  · rintro _ ⟨⟩
    exact hk
  · rw [herr] at he
    obtain ⟨type, p, h₁, h₂, -, h₄, h₅⟩ := h.filled he
    rw [h₂] at ht
    refine ⟨type, p, h₁, htype.trans ht.symm, ?_, ?_, ?_⟩
    · rintro _ ⟨⟩
      exact ht
    · rw [hdata, hsize, slice_add, h₄, hslice]
      simp [pendingBytes]
    · rw [hsize, h₅]
      simp [pendingBytes]

/-- A failed insertion: nothing is written, and the error is on record. -/
theorem FrameInv.fail {mem : Bytes} {pending : Option Key} {var var' : SVariant} {f : Frame} (h : FrameInv mem pending var f)
    (herr : var'.bError ≠ 0) (hsize : var'.uSize = var.uSize) (hmax : var'.uMaxSize = var.uMaxSize) :
    FrameInv mem pending var' { f with failed := true } :=
  ⟨by simp [herr], by rw [hsize, hmax]; exact h.size_le, by rw [hmax]; exact h.max_lt, h.pending_short,
    fun he => absurd he herr⟩

/-- A variant in error: only where it lies matters. -/
theorem FrameInv.inError {mem mem' : Bytes} {pending pending' : Option Key} {var var' : SVariant} {f f' : Frame}
    (h : FrameInv mem pending var f) (herr : var.bError ≠ 0) (herr' : var'.bError = var.bError)
    (hmax : var'.uMaxSize = var.uMaxSize) (hroom : var'.uSize ≤ var'.uMaxSize)
    (hfailed : f'.failed = f.failed) (hshort : ∀ key, pending' = some key → key.Short) :
    FrameInv mem' pending' var' f' :=
  ⟨by rw [hfailed, herr']; exact h.failed, hroom, by rw [hmax]; exact h.max_lt, hshort,
    fun he => absurd (herr'.symm.trans he) herr⟩

/-! ## Steps -/

/-- The two halves of what was written. -/
theorem slice_writeAt_append {mem mem' : Bytes} {off : Nat} {data data' : Bytes}
    (hw : writeAt mem off (data ++ data') = some mem') :
    slice mem' off data.length = data ∧ slice mem' (off + data.length) data'.length = data' := by
  have hself := slice_writeAt_self hw
  have hle := writeAt_le hw
  rw [List.length_append, slice_add] at hself
  rw [List.length_append, ← length_writeAt hw] at hle
  exact List.append_inj hself (length_slice (by omega))

/-- What a step keeps: the size of the buffer, and the invariant with the record it leads to. -/
def StepInv (b : Builder) (frames : List Frame) (call : Call) : Prop :=
  ∃ b' ok, b.step call = .ok (b', ok) ∧ b'.mem.length = b.mem.length ∧
    StackInv b'.mem none b'.stack (record frames call ok)

section Steps

variable {mem : Bytes} {var : SVariant} {stack : List SVariant} {f : Frame} {frames : List Frame}

theorem insert_step (h : StackInv mem none (var :: stack) (f :: frames)) {key : Key} {type : UInt8} {value : Option Bytes}
    (hk : key.Short) (hg : Builder.Good ⟨mem, var :: stack⟩ (.insert key type value)) :
    StepInv ⟨mem, var :: stack⟩ (f :: frames) (.insert key type value) := by
  have hf := h.head
  have hroom := h.room
  unfold StepInv
  simp only [Builder.step]
  rcases insertRaw_cases hf.size_le hf.max_lt key type value with
    ⟨-, var', hins, herr, hsize, hmax, hdata⟩ | ⟨hacc, hins⟩
  · -- refused
    rw [hins]
    refine ⟨_, _, rfl, rfl, ?_⟩
    simp only [record, Bool.false_eq_true, if_false]
    exact h.replace (hf.fail herr hsize hmax) hmax hdata rfl
  · -- written behind the others
    have hlen : (key.bytes ++ (value.map (variantWriteRaw type)).getD []).length ≤ var.uMaxSize - var.uSize := by
      have hacc := hacc.2
      cases value with
      | none => simp at hacc ⊢; omega
      | some data =>
        have hhdr := length_variantWriteSize type data.length
        simp [variantWriteRaw] at hacc ⊢
        omega
    have hsize := hf.size_le
    obtain ⟨mem', hw⟩ := writeAt_eq mem (var.pData + var.uSize)
      (key.bytes ++ (value.map (variantWriteRaw type)).getD []) (by omega)
    rw [hins, hw]
    refine ⟨_, _, rfl, length_writeAt hw, ?_⟩
    simp only [record, if_true]
    have h' := h.write hw (Nat.le_refl _)
    have hf' := h'.head
    refine h'.replace ?_ rfl rfl rfl
    by_cases herr : var.bError = 0
    · have hgood := hg var rfl
      simp only [herr, ne_eq, not_true_eq_false, hacc, false_or] at hgood
      obtain ⟨data, rfl, hempty⟩ := hgood
      obtain ⟨hkey, hpacket⟩ := slice_writeAt_append hw
      have hpend : FrameInv mem' (some key)
          { var with uType := key.container, uSize := var.uSize + key.bytes.length } f :=
        hf'.pend hk hacc.1 rfl rfl rfl rfl rfl (by simp only [List.length_append] at hlen ⊢; omega) hkey
      refine hpend.add (t := type &&& varTypeMask) (q := data) (fun _ => ?_)
        (written_variantWriteRaw type data) rfl rfl rfl rfl ?_ (by simp only; omega) ?_
      · rw [Encodes]
        exact ⟨rfl, rfl, type_idem type, hempty⟩
      · simp only [Option.map_some, Option.getD_some, List.length_append]
        omega
      · simp only [Option.map_some, Option.getD_some] at hpacket
        simp only
        rw [← Nat.add_assoc]
        exact hpacket
    · exact hf'.inError herr rfl rfl (by simp only; omega) rfl (by simp)

theorem prepare_step (h : StackInv mem none (var :: stack) (f :: frames)) {key : Key} {type : UInt8}
    (hk : key.Short) (ht : type &&& varTypeMask = type) :
    StepInv ⟨mem, var :: stack⟩ (f :: frames) (.prepare key type) := by
  have hf := h.head
  have hroom := h.room
  unfold StepInv
  simp only [Builder.step, variantPrepareKey]
  rcases insertRaw_cases hf.size_le hf.max_lt key 0 none with
    ⟨-, var', hins, herr, hsize, hmax, hdata⟩ | ⟨hacc, hins⟩
  · rw [hins]
    refine ⟨_, _, rfl, rfl, ?_⟩
    simp only [record, Bool.false_eq_true, if_false]
    exact h.replace (hf.fail herr hsize hmax) hmax hdata rfl
  · have hsize := hf.size_le
    have hmax := hf.max_lt
    obtain ⟨htype, hspace⟩ := hacc
    simp only [Option.getD_none, List.length_nil, Nat.add_zero] at hspace
    simp only [Option.map_none, Option.getD_none, List.append_nil] at hins
    obtain ⟨mem', hw⟩ := writeAt_eq mem (var.pData + var.uSize) key.bytes (by omega)
    rw [hins, hw]
    refine ⟨_, _, rfl, length_writeAt hw, ?_⟩
    simp only [record, if_true]
    have h' := h.write hw (Nat.le_refl _)
    have hf' := h'.head
    have hprep : variantPrepareEntry { var with uType := key.container, uSize := var.uSize + key.bytes.length } type =
        ⟨type, 0, 0, var.uMaxSize - (var.uSize + key.bytes.length) - 5, var.pData + (var.uSize + key.bytes.length) +
          prepareHeaderSize (var.uMaxSize - (var.uSize + key.bytes.length) - 5)⟩ := by
      have h64 : ∀ n, 5 ≤ n → n < 2 ^ 32 → (n + 2 ^ 64 - (1 + 4)) % 2 ^ 64 = n - 5 := by omega
      unfold variantPrepareEntry variantPrepare
      simp only
      rw [sub_mod (by omega) hmax, h64 _ (by omega) (by omega), Nat.mod_eq_of_lt (by omega)]
    rw [hprep]
    refine ⟨⟨by simp, Nat.zero_le _, by simp only; omega, by simp, fun _ => ?_⟩, rfl, by simp only; omega, ?_⟩
    · -- the new variant holds nothing yet
      exact ⟨type, [], Frame.encodes_start ht key, rfl, by simp, by simp [pendingBytes], by simp [pendingBytes]⟩
    · refine h'.replace ?_ rfl rfl rfl
      by_cases herr : var.bError = 0
      · exact hf'.pend hk htype rfl rfl rfl rfl rfl (by simp only; omega) (slice_writeAt_self hw)
      · refine hf'.inError herr rfl rfl (by simp only; omega) rfl ?_
        rintro _ ⟨⟩
        exact hk

theorem length_finishHeader (type : UInt8) (maxSize n : Nat) :
    (finishHeader type maxSize n).length = prepareHeaderSize maxSize := by
  unfold finishHeader prepareHeaderSize
  simp only
  split_ifs <;> simp

theorem finish_step {out_var : SVariant} {g : Frame} (h : StackInv mem none (out_var :: var :: stack) (f :: g :: frames))
    (hg : Builder.Good ⟨mem, out_var :: var :: stack⟩ .finishEntry) :
    StepInv ⟨mem, out_var :: var :: stack⟩ (f :: g :: frames) .finishEntry := by
  obtain ⟨hf, hdata, hmax, h'⟩ := h
  have hgv := h'.head
  have hroom := h'.room
  unfold StepInv
  simp only [Builder.step, variantFinishEntry, variantFinish, record]
  by_cases hout : out_var.bError ≠ 0
  · -- the variant is in error, and by the condition its container is too
    have herr : var.bError ≠ 0 := by
      rcases hg with herr | ⟨h0, -⟩
      · exact herr
      · exact absurd h0 hout
    simp only [if_pos hout]
    refine ⟨_, _, rfl, rfl, ?_⟩
    have hfailed : f.failed = true := by rw [hf.failed]; simpa using hout
    simp only [hfailed, if_true]
    exact h'.replace (hgv.inError herr rfl rfl hgv.size_le rfl (by simp)) rfl rfl rfl
  have hfailed : f.failed = false := by rw [hf.failed]; simpa using hout
  simp only [if_neg hout, hfailed, Bool.false_eq_true, if_false]
  by_cases hempty : out_var.uType = varTypeEmpty
  · have herr : var.bError ≠ 0 := by
      rcases hg with herr | ⟨-, ht⟩
      · exact herr
      · exact absurd hempty ht
    simp only [hempty, ne_eq, not_true_eq_false, if_false]
    refine ⟨_, _, rfl, rfl, ?_⟩
    exact h'.replace (hgv.inError herr rfl rfl hgv.size_le rfl (by simp)) rfl rfl rfl
  · simp only [hempty, ne_eq, not_false_eq_true, if_true]
    have hlen := length_finishHeader out_var.uType out_var.uMaxSize out_var.uSize
    have hhdr := prepareHeaderSize_le out_var.uMaxSize
    have hsize := hf.size_le
    generalize hheader : finishHeader out_var.uType out_var.uMaxSize out_var.uSize = header at hlen
    obtain ⟨mem', hw⟩ := writeAt_eq mem (var.pData + var.uSize) header (by omega)
    rw [hw]
    refine ⟨_, _, rfl, length_writeAt hw, ?_⟩
    have h'' := h'.write hw (Nat.le_refl _)
    have hgv' := h''.head
    refine h''.replace ?_ rfl rfl rfl
    by_cases herr : var.bError = 0
    · -- the header in front of what the variant holds makes it a packet
      obtain ⟨type, p, henc, htype, -, hslice, hp⟩ := hf.filled (not_not.1 hout)
      simp only [pendingBytes, Option.map_none, Option.getD_none, List.append_nil, List.length_nil, Nat.add_zero]
        at hslice hp
      change out_var.uType = type at htype
      subst htype
      have hw' : Written out_var.uType p (header ++ p) := by
        rw [← hheader, hp]
        exact .variantFinish hempty (by omega)
      refine hgv'.add (fun _ => henc) hw' rfl rfl rfl rfl ?_ (by simp only; omega) ?_
      · simp only [List.length_append]
        omega
      · rw [List.length_append, slice_add, slice_writeAt_self hw, hlen, ← hdata, slice_writeAt hw (.inr (by omega)), ← hp,
          hslice]
    · exact hgv'.inError herr rfl rfl (by simp only; omega) rfl (by simp)

end Steps

/-- Every good call keeps the invariant, and none writes outside the buffer. -/
theorem step_inv {b : Builder} {frames : List Frame} {call : Call} (h : StackInv b.mem none b.stack frames)
    (hwf : call.WellFormed) (hg : b.Good call) : b.step call = .error .notNested ∨ StepInv b frames call := by
  obtain ⟨mem, stack⟩ := b
  cases stack with
  | nil => cases frames <;> exact h.elim
  | cons var stack =>
    obtain ⟨f, frames, rfl⟩ := h.frames_ne_nil
    cases call with
    | insert key type value => exact .inr (insert_step h hwf hg)
    | prepare key type => exact .inr (prepare_step h hwf.1 hwf.2)
    | finishEntry =>
      cases stack with
      | nil => exact .inl rfl
      | cons outer stack =>
        obtain ⟨g, frames, rfl⟩ := h.2.2.2.frames_ne_nil
        exact .inr (finish_step h hg)

/-- A run of good calls keeps the invariant. -/
theorem runCalls_inv : ∀ (calls : List Call) {b : Builder} {frames : List Frame}, StackInv b.mem none b.stack frames →
    (∀ call ∈ calls, call.WellFormed) → b.GoodRun calls →
    runCalls b frames calls = .error .notNested ∨ ∃ b' frames', runCalls b frames calls = .ok (b', frames') ∧
      b'.mem.length = b.mem.length ∧ StackInv b'.mem none b'.stack frames'
  | [], b, frames, h, _, _ => .inr ⟨b, frames, rfl, rfl, h⟩
  | call :: calls, b, frames, h, hwf, hg => by
    obtain ⟨hgood, hrest⟩ := hg
    rw [runCalls]
    rcases step_inv h (hwf call List.mem_cons_self) hgood with hn | ⟨b', ok, hs, hlen, h'⟩
    · rw [hn]
      exact .inl rfl
    · rw [hs]
      rcases runCalls_inv calls h' (fun c hc => hwf c (List.mem_cons_of_mem _ hc)) (hrest b' ok hs) with
        hn | ⟨b'', frames'', hr, hlen', h''⟩
      · exact .inl hn
      · exact .inr ⟨b'', frames'', hr, hlen'.trans hlen, h''⟩

end MajorPrivacy.Variant

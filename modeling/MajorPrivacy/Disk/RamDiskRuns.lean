/-
Requests to a RAM disk one after the other, and the two classes: blocks of virtual memory, and blocks of
physical pages that are mapped to look at them.
-/
import MajorPrivacy.Disk.RamDisk

namespace MajorPrivacy.Disk

open LittleEndian Memory

variable {σ γ : Type}

/-! ## Requests -/

/-- What a disk is asked; a write comes with what the system grants to it, block by block. -/
inductive RamRequest (γ : Type) where
  | write (grants : Nat → γ) (buf : Bytes) (offset : Nat)
  | read (size offset : Nat)
  | trim (ranges : List (Nat × Nat))

inductive RamReply where
  | wrote (ok : Bool)
  | got (buf : Bytes)
  | trimmed

def serve (M : BlockMemory σ γ) (d : DataSearch) (g : BlockShift) (s : σ) : RamRequest γ → Option (RamReply × σ)
  | .write grants buf offset => (ramDiskWrite M d g grants buf offset s).map fun (ok, s) => (.wrote ok, s)
  | .read size offset => (ramDiskRead M g size offset s).map fun (buf, s) => (.got buf, s)
  | .trim ranges => (trimProcess M d g ranges s).map fun s => (.trimmed, s)

/-- Whole sectors. -/
def RamRequest.Sectors : RamRequest γ → Prop
  | .write _ buf offset => 512 ∣ offset ∧ 512 ∣ buf.length
  | .read size offset => 512 ∣ offset ∧ 512 ∣ size
  | .trim ranges => ∀ r ∈ ranges, 512 ∣ r.1 ∧ 512 ∣ r.2

/-- The requests that stay inside the block table. -/
def Fits (M : BlockMemory σ γ) (g : BlockShift) (s : σ) : RamRequest γ → Prop
  | .write _ buf offset => buf.length + offset % g.size < 2 ^ 31 ∧ Covered M g s offset (offset / g.size) (offset % g.size) buf.length
  | .read size offset => size + offset % g.size < 2 ^ 31 ∧ Covered M g s offset (offset / g.size) (offset % g.size) size
  | .trim ranges => ∀ r ∈ ranges, r.2 + r.1 % g.size < 2 ^ 63

/-! ## The array of bytes -/

/-- The bytes that a reader may count on. -/
def Ledger := Nat → Option UInt8

def InRange (r : Nat × Nat) (x : Nat) : Prop := r.1 ≤ x ∧ x < r.1 + r.2

instance (r : Nat × Nat) (x : Nat) : Decidable (InRange r x) := inferInstanceAs (Decidable (_ ∧ _))

/-- After a request: what was written counts, what was to be written and was not may be anything, what was trimmed is zero. -/
def Ledger.record (l : Ledger) : RamRequest γ → RamReply → Ledger
  | .write _ buf offset, .wrote ok => fun x =>
    if InRange (offset, buf.length) x then if ok then some (buf.getD (x - offset) 0) else none else l x
  | .trim ranges, .trimmed => fun x => if ∃ r ∈ ranges, InRange r x then some 0 else l x
  | _, _ => l

theorem Ledger.record_write (l : Ledger) (grants : Nat → γ) (buf : Bytes) (offset : Nat) (ok : Bool) (x : Nat) :
    l.record (.write grants buf offset) (.wrote ok) x =
      if InRange (offset, buf.length) x then if ok then some (buf.getD (x - offset) 0) else none else l x := rfl

theorem Ledger.record_trim (l : Ledger) (ranges : List (Nat × Nat)) (x : Nat) :
    l.record (.trim ranges : RamRequest γ) .trimmed x = if ∃ r ∈ ranges, InRange r x then some 0 else l x := rfl

/-- The reply is that of an array of bytes, and a write that fails leaves alone what it was not to write. -/
def Answers (M : BlockMemory σ γ) (g : BlockShift) (s : σ) (l : Ledger) : RamRequest γ → RamReply → σ → Prop
  | .write _ buf offset, .wrote ok, s' => ok = false → ∀ x, ¬ InRange (offset, buf.length) x → byteAt M g s' x = byteAt M g s x
  | .read size offset, .got buf, _ => buf.length = size ∧ ∀ i < size, ∀ b, l (offset + i) = some b → buf[i]? = some b
  | .trim _, .trimmed, _ => True
  | _, _, _ => False

/-- The runs of a disk, with the ledger that goes with them. -/
inductive Reached (M : BlockMemory σ γ) (d : DataSearch) (g : BlockShift) (init : σ) : σ → Ledger → Prop where
  | init : Reached M d g init init fun _ => some 0
  | serve {s s' : σ} {l : Ledger} {r : RamRequest γ} {reply : RamReply} : Reached M d g init s l → r.Sectors →
    serve M d g s r = some (reply, s') → Reached M d g init s' (l.record r reply)

/-! ## A step and a run -/

section Run

variable {M : BlockMemory σ γ} {d : DataSearch} {g : BlockShift} {Valid : σ → Prop}

/-- The disk holds what the ledger says. -/
def Agrees (M : BlockMemory σ γ) (g : BlockShift) (s : σ) (l : Ledger) : Prop := ∀ x b, l x = some b → byteAt M g s x = b

theorem offset_eq (g : BlockShift) (offset : Nat) : offset / g.size * g.size + (blockOffset g offset : Nat) = offset := by
  rw [Nat.mul_comm]
  exact Nat.div_add_mod offset g.size

theorem dvd_blockOffset {offset : Nat} (h : 512 ∣ offset) : 512 ∣ (blockOffset g offset : Nat) := (Nat.dvd_mod_iff g.dvd_size).2 h

theorem trimProcess_spec (hM : Lawful M g Valid) : ∀ {ranges : List (Nat × Nat)} {s : σ}, Sound M Valid s →
    (∀ r ∈ ranges, 512 ∣ r.1 ∧ 512 ∣ r.2) →
    ((∃ r ∈ ranges, 2 ^ 63 ≤ r.2 + r.1 % g.size) → trimProcess M d g ranges s = none) ∧
      ((∀ r ∈ ranges, r.2 + r.1 % g.size < 2 ^ 63) → ∃ s', trimProcess M d g ranges s = some s' ∧ Sound M Valid s' ∧
        ∀ x, byteAt M g s' x = if ∃ r ∈ ranges, InRange r x then 0 else byteAt M g s x)
  | [], s, hs, _ => by
    refine ⟨fun ⟨_, hr, _⟩ => (by cases hr), fun _ => ⟨s, rfl, hs, fun x => (if_neg ?_).symm⟩⟩
    rintro ⟨_, hr, _⟩
    cases hr
  | (offset, size) :: ranges, s, hs, hsec => by
    obtain ⟨⟨hoff, hsize⟩, hrest⟩ := List.forall_mem_cons.1 hsec
    have hwrote := @trimBlocks_spec _ _ M d g Valid hM size (offset / g.size) (blockOffset g offset) size s rfl hs (dvd_blockOffset hoff) hsize
    rw [offset_eq] at hwrote
    obtain ⟨hbad, hgood⟩ := trimProcess_spec hM hwrote.sound hrest
    rw [List.forall_mem_cons, List.exists_mem_cons_iff, trimProcess]
    by_cases hfit : size + offset % g.size < 2 ^ 63
    · rw [if_pos hfit, and_iff_right hfit, or_iff_right (Nat.not_le.2 hfit)]
      refine ⟨hbad, fun h => ?_⟩
      obtain ⟨s', htrim, hs', hat⟩ := hgood h
      refine ⟨s', htrim, hs', fun x => ?_⟩
      rw [hat]
      by_cases hin : InRange (offset, size) x
      · obtain ⟨hle, hlt⟩ := hin
        rw [if_pos ((List.exists_mem_cons_iff _ _ _).2 (.inl ⟨hle, hlt⟩)), hwrote.inside rfl x hle (by rwa [List.length_replicate]),
          getD_of_isZero (isZero_replicate _), ite_self]
      · rw [hwrote.outside x (by rwa [List.length_replicate])]
        simp only [List.exists_mem_cons_iff, hin, false_or]
    · rw [if_neg hfit]
      exact ⟨fun _ => rfl, fun h => absurd h.1 hfit⟩

/-- One request, from a state that holds what the ledger says. -/
theorem serve_spec (hM : Lawful M g Valid) {s : σ} {l : Ledger} (hs : Sound M Valid s) (hl : Agrees M g s l) {r : RamRequest γ} (hr : r.Sectors) :
    (¬ Fits M g s r → serve M d g s r = none) ∧
      (Fits M g s r → ∃ reply s', serve M d g s r = some (reply, s') ∧ Answers M g s l r reply s' ∧ Sound M Valid s' ∧
        Agrees M g s' (l.record r reply)) := by
  cases r with
  | write grants buf offset =>
    obtain ⟨hoff, hbuf⟩ := hr
    obtain ⟨hbad, hgood⟩ := @writeBlocks_spec _ _ M d g Valid hM grants offset _ (offset / g.size) (blockOffset g offset) buf s rfl hs
      (dvd_blockOffset hoff) hbuf
    rw [serve, ramDiskWrite]
    by_cases hint : buf.length + offset % g.size < 2 ^ 31
    · rw [if_pos hint]
      refine ⟨fun h => ?_, fun h => ?_⟩
      · rw [hbad fun hc => h ⟨hint, hc⟩, Option.map_none]
      · obtain ⟨ok, s', hloop, hwrote⟩ := hgood h.2
        rw [hloop, Option.map_some]
        rw [offset_eq] at hwrote
        refine ⟨_, s', rfl, fun _ x hx => hwrote.outside x hx, hwrote.sound, fun x b hb => ?_⟩
        rw [Ledger.record_write] at hb
        by_cases hin : InRange (offset, buf.length) x
        · rw [if_pos hin] at hb
          cases ok with
          | true =>
            rw [if_pos rfl] at hb
            rw [hwrote.inside rfl x hin.1 hin.2]
            exact Option.some.inj hb
          | false =>
            rw [if_neg Bool.false_ne_true] at hb
            cases hb
        · rw [if_neg hin] at hb
          rw [hwrote.outside x hin]
          exact hl x b hb
    · rw [if_neg hint]
      exact ⟨fun _ => rfl, fun h => absurd h.1 hint⟩
  | read size offset =>
    obtain ⟨hbad, hgood⟩ := @readBlocks_spec _ _ M g Valid hM offset _ (offset / g.size) (blockOffset g offset) size s rfl hs
    rw [serve, ramDiskRead]
    by_cases hint : size + offset % g.size < 2 ^ 31
    · rw [if_pos hint]
      refine ⟨fun h => ?_, fun h => ?_⟩
      · rw [hbad fun hc => h ⟨hint, hc⟩, Option.map_none]
      · obtain ⟨buf, s', hloop, hfetched⟩ := hgood h.2
        rw [hloop, Option.map_some]
        rw [offset_eq] at hfetched
        refine ⟨_, s', rfl, ⟨hfetched.length, fun i hi b hb => ?_⟩, hfetched.sound, fun x b hb => ?_⟩
        · rw [hfetched.bytes i hi, hl _ b hb]
        · rw [hfetched.same]
          exact hl x b hb
    · rw [if_neg hint]
      exact ⟨fun _ => rfl, fun h => absurd h.1 hint⟩
  | trim ranges =>
    obtain ⟨hbad, hgood⟩ := @trimProcess_spec _ _ M d g Valid hM ranges s hs hr
    rw [serve]
    refine ⟨fun h => ?_, fun h => ?_⟩
    · rw [hbad ?_, Option.map_none]
      simp only [Fits, not_forall, Nat.not_lt] at h
      obtain ⟨r, hmem, hle⟩ := h
      exact ⟨r, hmem, hle⟩
    · obtain ⟨s', htrim, hs', hat⟩ := hgood h
      rw [htrim, Option.map_some]
      refine ⟨_, s', rfl, trivial, hs', fun x b hb => ?_⟩
      rw [Ledger.record_trim] at hb
      rw [hat]
      by_cases hin : ∃ r ∈ ranges, InRange r x
      · rw [if_pos hin] at hb ⊢
        exact Option.some.inj hb
      · rw [if_neg hin] at hb ⊢
        exact hl x b hb

/-- A whole run. -/
theorem Reached.sound (hM : Lawful M g Valid) {init s : σ} {l : Ledger} (hinit : Sound M Valid init) (hzero : Agrees M g init fun _ => some 0)
    (h : Reached M d g init s l) : Sound M Valid s ∧ Agrees M g s l := by
  induction h with
  | init => exact ⟨hinit, hzero⟩
  | @serve s s' l r reply _ hr hserve ih =>
    obtain ⟨hbad, hgood⟩ := @serve_spec _ _ M d g Valid hM s l ih.1 ih.2 r hr
    by_cases hfit : Fits M g s r
    · obtain ⟨reply', s'', heq, -, hs, hl⟩ := hgood hfit
      rw [hserve] at heq
      obtain ⟨rfl, rfl⟩ := Prod.mk.inj (Option.some.inj heq)
      exact ⟨hs, hl⟩
    · rw [hbad hfit] at hserve
      cases hserve

/-- What the class promises of every state that it reaches. -/
def KeepsBytes (M : BlockMemory σ γ) (d : DataSearch) (g : BlockShift) (init : σ) : Prop :=
  ∀ s l, Reached M d g init s l → M.nBlock s = (allocated M s).card ∧
    ∀ r : RamRequest γ, r.Sectors → ((∃ reply s', serve M d g s r = some (reply, s') ∧ Answers M g s l r reply s') ↔ Fits M g s r)

theorem keepsBytes (hM : Lawful M g Valid) {init : σ} (hinit : Sound M Valid init) (hzero : Agrees M g init fun _ => some 0) :
    KeepsBytes M d g init := by
  intro s l h
  obtain ⟨hs, hl⟩ := h.sound hM hinit hzero
  refine ⟨hs.counted, fun r hr => ?_⟩
  obtain ⟨hbad, hgood⟩ := @serve_spec _ _ M d g Valid hM s l hs hl r hr
  constructor
  · rintro ⟨reply, s', hserve, -⟩
    refine Classical.byContradiction fun hfit => ?_
    rw [hbad hfit] at hserve
    cases hserve
  · intro hfit
    obtain ⟨reply, s', hserve, hanswers, -, -⟩ := hgood hfit
    exact ⟨reply, s', hserve, hanswers⟩

end Run

/-- A list of `n` entries that begins with those of `l`. -/
def resize {α : Type} (l : List α) (n : Nat) (a : α) : List α := l.take n ++ List.replicate (n - l.length) a

theorem length_resize {α : Type} (l : List α) (n : Nat) (a : α) : (resize l n a).length = n := by
  rw [resize, List.length_append, List.length_take, List.length_replicate]
  omega

theorem resize_eq {α : Type} {l : List α} {n : Nat} (a : α) (h : l.length ≤ n) : resize l n a = l ++ List.replicate (n - l.length) a := by
  rw [resize, List.take_of_length_le h]

/-! ## `CVirtualMemoryIO` -/

/-- `SVirtualMemory`: `ptr_table` with what the pointers lead to. -/
structure VirtualMemory where
  uSize : Nat
  table : List (Option Bytes)
  nBlock : Nat

/-- `Init`. -/
def VirtualMemory.init (g : BlockShift) (uSize : Nat) : VirtualMemory := ⟨uSize, List.replicate (g.tableSize uSize) none, 0⟩

/-- The blocks of `CVirtualMemoryIO`; the system says whether there is the memory for one. -/
def virtualMemory (g : BlockShift) : BlockMemory VirtualMemory Bool where
  uSize := VirtualMemory.uSize
  tableSize s := s.table.length
  nBlock := VirtualMemory.nBlock
  block s i := s.table[i]?.join
  put s i mem := { s with table := s.table.set i (some mem) }
  release s i := { s with table := s.table.set i none, nBlock := s.nBlock - 1 }
  acquire s i granted :=
    if granted then (true, { s with table := s.table.set i (some (List.replicate g.size 0)), nBlock := s.nBlock + 1 }) else (false, s)
  expand s uSize := if uSize ≤ s.uSize then s else { s with uSize := uSize, table := resize s.table (g.tableSize uSize) none }

def VirtualMemory.Valid (g : BlockShift) (s : VirtualMemory) : Prop :=
  ∀ (i : Nat) (mem : Bytes), s.table[i]?.join = some mem → mem.length = g.size

theorem join_getElem?_set {α : Type} {l : List (Option α)} {i : Nat} (hi : i < l.length) (new : Option α) (j : Nat) :
    (l.set i new)[j]?.join = if j = i then new else l[j]?.join := by
  by_cases hj : j = i
  · rw [hj, if_pos rfl, List.getElem?_set_self hi]
    rfl
  · rw [if_neg hj, List.getElem?_set_ne (Ne.symm hj)]

theorem VirtualMemory.updated {g : BlockShift} {s s' : VirtualMemory} (hs : s.Valid g) {i : Nat} (hi : i < s.table.length) {new : Option Bytes}
    (hnew : ∀ mem, new = some mem → mem.length = g.size) (hu : s'.uSize = s.uSize) (ht : s'.table = s.table.set i new) :
    Updated (virtualMemory g) (Valid g) s s' i new := by
  have hat : ∀ j, s'.table[j]?.join = if j = i then new else s.table[j]?.join := fun j => by rw [ht, join_getElem?_set hi]
  refine ⟨fun j mem hmem => ?_, hu, (congrArg List.length ht).trans List.length_set, hat⟩
  rw [hat] at hmem
  split at hmem
  · exact hnew mem hmem
  · exact hs j mem hmem

theorem lt_of_join {α : Type} {l : List (Option α)} {i : Nat} {a : α} (h : l[i]?.join = some a) : i < l.length := by
  refine Nat.lt_of_not_le fun hle => ?_
  rw [List.getElem?_eq_none hle] at h
  cases h

theorem virtualMemory_lawful (g : BlockShift) : Lawful (virtualMemory g) g (VirtualMemory.Valid g) where
  length hs hblock := hs _ _ hblock
  beyond {s i} _ hle := by
    show s.table[i]?.join = none
    rw [List.getElem?_eq_none hle]
    rfl
  put {s i old mem} hs hblock hmem :=
    ⟨VirtualMemory.updated hs (lt_of_join hblock) (fun mem' h => by rwa [← Option.some.inj h]) rfl rfl, rfl⟩
  release {s i old} hs hblock := ⟨VirtualMemory.updated hs (lt_of_join hblock) (fun mem' h => by cases h) rfl rfl, rfl⟩
  refused {s s' i grant} hs hi hblock hgot := by
    cases grant with
    | true => cases hgot
    | false =>
      obtain ⟨-, rfl⟩ := Prod.mk.inj hgot
      refine ⟨⟨hs, rfl, rfl, fun j => ?_⟩, rfl⟩
      by_cases hj : j = i
      · rw [if_pos hj, hj, hblock]
      · rw [if_neg hj]
  granted {s s' i grant} hs hi hblock hgot := by
    cases grant with
    | true =>
      obtain ⟨-, rfl⟩ := Prod.mk.inj hgot
      exact ⟨VirtualMemory.updated hs hi (fun mem h => by rw [← Option.some.inj h, List.length_replicate]) rfl rfl, rfl⟩
    | false => cases hgot
  uSize_expand s u := by
    show (if u ≤ s.uSize then s else _).uSize = max s.uSize u
    by_cases h : u ≤ s.uSize
    · rw [if_pos h, Nat.max_eq_left h]
    · rw [if_neg h, Nat.max_eq_right (Nat.le_of_not_le h)]
  tableSize_expand s u := by
    show (if u ≤ s.uSize then s else _).table.length = if u ≤ s.uSize then s.table.length else g.tableSize u
    split
    · rfl
    · exact length_resize s.table _ none
  expand {s u} hs hle := by
    by_cases h : u ≤ s.uSize
    · have he : (virtualMemory g).expand s u = s := if_pos h
      rw [he]
      exact ⟨hs, rfl, fun _ => rfl⟩
    · have he : (virtualMemory g).expand s u = { s with uSize := u, table := resize s.table (g.tableSize u) none } := if_neg h
      have hlen : s.table.length ≤ g.tableSize u := by
        rw [he] at hle
        exact Nat.le_trans hle (Nat.le_of_eq (length_resize _ _ _))
      have hat : ∀ j : Nat, (resize s.table (g.tableSize u) none)[j]?.join = s.table[j]?.join := by
        intro j
        rw [resize_eq none hlen]
        by_cases hj : j < s.table.length
        · rw [List.getElem?_append_left hj]
        · rw [List.getElem?_append_right (Nat.le_of_not_lt hj), List.getElem?_replicate, List.getElem?_eq_none (Nat.le_of_not_lt hj)]
          split <;> rfl
      rw [he]
      exact ⟨fun j mem hmem => hs j mem ((hat j).symm.trans hmem), rfl, hat⟩

/-! ## `CPhysicalMemoryIO` -/

/-- The size of a page, of which a block has a whole number. -/
structure PageSize (g : BlockShift) where
  size : Nat
  pos : 0 < size
  dvd : size ∣ g.size

/-- `n_pages`. -/
def PageSize.nPages {g : BlockShift} (p : PageSize g) : Nat := g.size / p.size

/-- What `AllocateUserPhysicalPages` gives: page frames that the process does not have yet, at most as many as it asks for. -/
structure PageGrant where
  frames : Nat → List Nat → List Nat
  length_le (n : Nat) (used : List Nat) : (frames n used).length ≤ n
  nodup (n : Nat) (used : List Nat) : (frames n used).Nodup
  fresh (n : Nat) (used : List Nat) : ∀ f ∈ frames n used, f ∉ used

/-- `SPhysicalMemory`, and what is in the page frames. -/
structure PhysicalMemory where
  uSize : Nat
  allocatedBlock : List Bool
  pfn : List Nat
  frames : Nat → Bytes
  nBlock : Nat

section Physical

variable {g : BlockShift} (p : PageSize g)

/-- The pages of a block: `pfn + index * n_pages`. -/
def PhysicalMemory.pages (s : PhysicalMemory) (index : Nat) : List Nat := slice s.pfn (index * p.nPages) p.nPages

/-- The page frames of the process. -/
def PhysicalMemory.inUse (s : PhysicalMemory) : List Nat :=
  ((List.range s.allocatedBlock.length).filter fun i => s.allocatedBlock[i]? = some true).flatMap (s.pages p)

/-- The page frames that are granted for a block are in its part of the table, whether they are enough or not. -/
def PhysicalMemory.withPages (s : PhysicalMemory) (index : Nat) (got : List Nat) : PhysicalMemory :=
  { s with pfn := overwrite s.pfn (index * p.nPages) got }

/-- What is written through the view goes to the mapped pages. -/
def storePages (size : Nat) : List Nat → Bytes → (Nat → Bytes) → Nat → Bytes
  | [], _, frames => frames
  | f :: fs, mem, frames => storePages size fs (mem.drop size) fun x => if x = f then mem.take size else frames x

/-- `Init`. -/
def PhysicalMemory.init (uSize : Nat) : PhysicalMemory :=
  ⟨uSize, List.replicate (g.tableSize uSize) false, List.replicate (p.nPages * g.tableSize uSize) 0, fun _ => List.replicate p.size 0, 0⟩

/-- The blocks of `CPhysicalMemoryIO`. -/
def physicalMemory : BlockMemory PhysicalMemory PageGrant where
  uSize := PhysicalMemory.uSize
  tableSize s := s.allocatedBlock.length
  nBlock := PhysicalMemory.nBlock
  block s i := if s.allocatedBlock[i]? = some true then some ((s.pages p i).flatMap s.frames) else none
  put s i mem := { s with frames := storePages p.size (s.pages p i) mem s.frames }
  release s i := { s with allocatedBlock := s.allocatedBlock.set i false, nBlock := s.nBlock - 1 }
  acquire s i grant :=
    let got := grant.frames p.nPages (s.inUse p)
    let s := s.withPages p i got
    if got.length = p.nPages then
      (true, { s with
        allocatedBlock := s.allocatedBlock.set i true
        frames := fun f => if f ∈ got then List.replicate p.size 0 else s.frames f
        nBlock := s.nBlock + 1 })
    else (false, s)
  expand s uSize :=
    if uSize ≤ s.uSize then s
    else { s with
      uSize := uSize
      allocatedBlock := resize s.allocatedBlock (g.tableSize uSize) false
      pfn := resize s.pfn (p.nPages * g.tableSize uSize) 0 }

/-- No two blocks share a page. -/
structure PhysicalMemory.Valid (s : PhysicalMemory) : Prop where
  length_pfn : s.pfn.length = p.nPages * s.allocatedBlock.length
  length_frame : ∀ f, (s.frames f).length = p.size
  nodup : ∀ i : Nat, s.allocatedBlock[i]? = some true → (s.pages p i).Nodup
  disjoint : ∀ i j : Nat, s.allocatedBlock[i]? = some true → s.allocatedBlock[j]? = some true → i ≠ j →
    ∀ f ∈ s.pages p i, f ∉ s.pages p j

variable {p}

theorem PageSize.mul_nPages : p.nPages * p.size = g.size := Nat.div_mul_cancel p.dvd

theorem storePages_of_notMem {size : Nat} : ∀ {fs : List Nat} {mem : Bytes} {frames : Nat → Bytes} {f : Nat}, f ∉ fs →
    storePages size fs mem frames f = frames f
  | [], _, _, _, _ => rfl
  | f' :: fs, mem, frames, f, h => by
    obtain ⟨hne, hfs⟩ := List.ne_and_not_mem_of_not_mem_cons h
    rw [storePages, storePages_of_notMem hfs, if_neg hne]

theorem flatMap_storePages {size : Nat} : ∀ {fs : List Nat} {mem : Bytes} {frames : Nat → Bytes}, fs.Nodup → mem.length = fs.length * size →
    fs.flatMap (storePages size fs mem frames) = mem
  | [], mem, _, _, hmem => by
    rw [List.length_nil, Nat.zero_mul] at hmem
    exact (List.eq_nil_of_length_eq_zero hmem).symm
  | f :: fs, mem, frames, hnd, hmem => by
    obtain ⟨hf, hnd⟩ := List.nodup_cons.1 hnd
    rw [List.length_cons, Nat.succ_mul] at hmem
    have hrest := @flatMap_storePages size fs (mem.drop size) (fun x => if x = f then mem.take size else frames x) hnd
      (by rw [List.length_drop]; omega)
    rw [List.flatMap_cons, storePages, storePages_of_notMem hf, if_pos rfl, hrest, List.take_append_drop]

theorem length_storePages {size : Nat} : ∀ {fs : List Nat} {mem : Bytes} {frames : Nat → Bytes}, mem.length = fs.length * size →
    (∀ f, (frames f).length = size) → ∀ f, (storePages size fs mem frames f).length = size
  | [], _, _, _, hframes, f => hframes f
  | f' :: fs, mem, frames, hmem, hframes, f => by
    rw [List.length_cons, Nat.succ_mul] at hmem
    have hnext : ∀ x, (if x = f' then mem.take size else frames x).length = size := by
      intro x
      split
      · rw [List.length_take]
        omega
      · exact hframes x
    exact length_storePages (show (mem.drop size).length = fs.length * size by rw [List.length_drop]; omega) hnext f

theorem length_flatMap_frames {size : Nat} {frames : Nat → Bytes} (h : ∀ f, (frames f).length = size) :
    ∀ fs : List Nat, (fs.flatMap frames).length = fs.length * size
  | [] => (Nat.zero_mul size).symm
  | f :: fs => by rw [List.flatMap_cons, List.length_append, h, length_flatMap_frames h fs, List.length_cons, Nat.succ_mul, Nat.add_comm]

theorem PhysicalMemory.Valid.length_pages {s : PhysicalMemory} (hs : s.Valid p) {i : Nat} (hi : i < s.allocatedBlock.length) :
    (s.pages p i).length = p.nPages := by
  refine length_slice ?_
  have h := Nat.mul_le_mul_right p.nPages hi
  rw [Nat.succ_mul] at h
  rw [hs.length_pfn, Nat.mul_comm p.nPages]
  omega

theorem lt_of_getElem? {α : Type} {l : List α} {i : Nat} {a : α} (h : l[i]? = some a) : i < l.length :=
  (List.getElem?_eq_some_iff.1 h).1

theorem PhysicalMemory.mem_inUse {s : PhysicalMemory} {f : Nat} :
    f ∈ s.inUse p ↔ ∃ i : Nat, s.allocatedBlock[i]? = some true ∧ f ∈ s.pages p i := by
  unfold inUse
  simp only [List.mem_flatMap, List.mem_filter, List.mem_range, decide_eq_true_eq]
  constructor
  · rintro ⟨i, ⟨-, hi⟩, hf⟩
    exact ⟨i, hi, hf⟩
  · rintro ⟨i, hi, hf⟩
    exact ⟨i, ⟨lt_of_getElem? hi, hi⟩, hf⟩

/-- The entries of other blocks stay when those of one block are written. -/
theorem pages_overwrite {pfn got : List Nat} {i j n : Nat} (hne : j ≠ i) (hgot : got.length ≤ n) :
    slice (overwrite pfn (i * n) got) (j * n) n = slice pfn (j * n) n := by
  refine slice_overwrite ?_
  obtain hlt | hlt := Nat.lt_or_gt_of_ne hne
  · have h := Nat.mul_le_mul_right n hlt
    rw [Nat.succ_mul] at h
    exact .inl h
  · have h := Nat.mul_le_mul_right n hlt
    rw [Nat.succ_mul] at h
    exact .inr (by omega)

theorem flatMap_congr_frames {frames frames' : Nat → Bytes} : ∀ {fs : List Nat}, (∀ f ∈ fs, frames' f = frames f) →
    fs.flatMap frames' = fs.flatMap frames
  | [], _ => rfl
  | f :: fs, h => by
    obtain ⟨hf, hfs⟩ := List.forall_mem_cons.1 h
    rw [List.flatMap_cons, List.flatMap_cons, hf, flatMap_congr_frames hfs]

theorem flatMap_zero {size : Nat} {frames : Nat → Bytes} : ∀ {fs : List Nat}, (∀ f ∈ fs, frames f = List.replicate size 0) →
    fs.flatMap frames = List.replicate (fs.length * size) 0
  | [], _ => by rw [List.length_nil, Nat.zero_mul]; rfl
  | f :: fs, h => by
    obtain ⟨hf, hfs⟩ := List.forall_mem_cons.1 h
    rw [List.flatMap_cons, hf, flatMap_zero hfs, List.replicate_append_replicate, List.length_cons, Nat.succ_mul, Nat.add_comm]

theorem PhysicalMemory.block_eq_some {s : PhysicalMemory} {i : Nat} {mem : Bytes} (h : (physicalMemory p).block s i = some mem) :
    s.allocatedBlock[i]? = some true ∧ (s.pages p i).flatMap s.frames = mem := by
  change (if s.allocatedBlock[i]? = some true then some ((s.pages p i).flatMap s.frames) else none) = some mem at h
  split at h
  · rename_i hi
    exact ⟨hi, Option.some.inj h⟩
  · cases h

theorem PhysicalMemory.length_block {s : PhysicalMemory} (hs : s.Valid p) {i : Nat} {mem : Bytes}
    (h : (physicalMemory p).block s i = some mem) : mem.length = g.size := by
  obtain ⟨hi, rfl⟩ := block_eq_some h
  rw [length_flatMap_frames hs.length_frame, hs.length_pages (lt_of_getElem? hi), PageSize.mul_nPages]

theorem PhysicalMemory.put_updated {s : PhysicalMemory} (hs : s.Valid p) {i : Nat} {old mem : Bytes}
    (h : (physicalMemory p).block s i = some old) (hmem : mem.length = g.size) :
    Updated (physicalMemory p) (Valid p) s ((physicalMemory p).put s i mem) i (some mem) := by
  obtain ⟨hi, -⟩ := block_eq_some h
  have hlen : mem.length = (s.pages p i).length * p.size := by
    rw [hs.length_pages (lt_of_getElem? hi), PageSize.mul_nPages, hmem]
  refine ⟨⟨hs.length_pfn, length_storePages hlen hs.length_frame, hs.nodup, hs.disjoint⟩, rfl, rfl, fun j => ?_⟩
  show (if s.allocatedBlock[j]? = some true then some ((s.pages p j).flatMap (storePages p.size (s.pages p i) mem s.frames)) else none) = _
  by_cases hj : j = i
  · rw [if_pos hj, hj, if_pos hi, flatMap_storePages (hs.nodup i hi) hlen]
  · rw [if_neg hj]
    by_cases hall : s.allocatedBlock[j]? = some true
    · have hsame : (s.pages p j).flatMap (storePages p.size (s.pages p i) mem s.frames) = (s.pages p j).flatMap s.frames :=
        flatMap_congr_frames fun f hf => storePages_of_notMem (hs.disjoint j i hall hi hj f hf)
      rw [hsame]
      rfl
    · rw [if_neg hall]
      exact (if_neg hall).symm

theorem PhysicalMemory.release_updated {s : PhysicalMemory} (hs : s.Valid p) {i : Nat} {old : Bytes}
    (h : (physicalMemory p).block s i = some old) :
    Updated (physicalMemory p) (Valid p) s ((physicalMemory p).release s i) i none := by
  obtain ⟨hi, -⟩ := block_eq_some h
  have hlt := lt_of_getElem? hi
  have hold : ∀ {j : Nat}, (s.allocatedBlock.set i false)[j]? = some true → j ≠ i ∧ s.allocatedBlock[j]? = some true := by
    intro j hj
    by_cases hji : j = i
    · rw [hji, List.getElem?_set_self hlt] at hj
      cases hj
    · rw [List.getElem?_set_ne (Ne.symm hji)] at hj
      exact ⟨hji, hj⟩
  refine ⟨⟨?_, hs.length_frame, fun j hj => hs.nodup j (hold hj).2, fun j k hj hk => hs.disjoint j k (hold hj).2 (hold hk).2⟩, rfl,
    List.length_set, fun j => ?_⟩
  · show s.pfn.length = p.nPages * (s.allocatedBlock.set i false).length
    rw [List.length_set, hs.length_pfn]
  · show (if (s.allocatedBlock.set i false)[j]? = some true then some ((s.pages p j).flatMap s.frames) else none) = _
    by_cases hj : j = i
    · rw [if_pos hj, hj, List.getElem?_set_self hlt]
      rfl
    · rw [if_neg hj, List.getElem?_set_ne (Ne.symm hj)]
      rfl

theorem PhysicalMemory.refused_updated {s : PhysicalMemory} (hs : s.Valid p) {i : Nat} {got : List Nat} (hgot : got.length ≤ p.nPages)
    (h : (physicalMemory p).block s i = none) : Updated (physicalMemory p) (Valid p) s (s.withPages p i got) i none := by
  have hfree : s.allocatedBlock[i]? ≠ some true := by
    intro hi
    have hsome : (physicalMemory p).block s i = some ((s.pages p i).flatMap s.frames) := if_pos hi
    rw [hsome] at h
    cases h
  have hpages : ∀ {j : Nat}, s.allocatedBlock[j]? = some true → (s.withPages p i got).pages p j = s.pages p j :=
    fun {j} hj => pages_overwrite (fun hji => by rw [hji] at hj; exact hfree hj) hgot
  refine ⟨⟨length_overwrite.trans hs.length_pfn, hs.length_frame, fun j hj => ?_, fun j k hj hk hne f hf => ?_⟩, rfl, rfl, fun j => ?_⟩
  · rw [hpages hj]
    exact hs.nodup j hj
  · rw [hpages hj] at hf
    rw [hpages hk]
    exact hs.disjoint j k hj hk hne f hf
  · show (if s.allocatedBlock[j]? = some true then some (((s.withPages p i got).pages p j).flatMap s.frames) else none) =
      if j = i then none else if s.allocatedBlock[j]? = some true then some ((s.pages p j).flatMap s.frames) else none
    by_cases hj : s.allocatedBlock[j]? = some true
    · rw [if_pos hj, hpages hj, if_pos hj, if_neg fun hji => by rw [hji] at hj; exact hfree hj]
    · rw [if_neg hj, if_neg hj, ite_self]

theorem PhysicalMemory.granted_updated {s : PhysicalMemory} (hs : s.Valid p) {i : Nat} (hi : i < s.allocatedBlock.length) {got : List Nat}
    (hlen : got.length = p.nPages) (hnd : got.Nodup) (hfresh : ∀ f ∈ got, f ∉ s.inUse p) {s' : PhysicalMemory} (hu : s'.uSize = s.uSize)
    (hblock : s'.allocatedBlock = s.allocatedBlock.set i true) (hpfn : s'.pfn = overwrite s.pfn (i * p.nPages) got)
    (hframes : ∀ f, s'.frames f = if f ∈ got then List.replicate p.size 0 else s.frames f) :
    Updated (physicalMemory p) (Valid p) s s' i (some (List.replicate g.size 0)) := by
  have hroom : i * p.nPages + got.length ≤ s.pfn.length := by
    have h := Nat.mul_le_mul_right p.nPages hi
    rw [Nat.succ_mul] at h
    rw [hs.length_pfn, Nat.mul_comm p.nPages, hlen]
    omega
  have hself : s'.pages p i = got := by
    have h := slice_overwrite_self hroom
    rw [hlen] at h
    rw [pages, hpfn, h]
  have hother : ∀ {j : Nat}, j ≠ i → s'.pages p j = s.pages p j := by
    intro j hj
    rw [pages, hpfn]
    exact pages_overwrite hj (Nat.le_of_eq hlen)
  have hold : ∀ {j : Nat}, s'.allocatedBlock[j]? = some true → j ≠ i → s.allocatedBlock[j]? = some true := by
    intro j hj hne
    rwa [hblock, List.getElem?_set_ne (Ne.symm hne)] at hj
  -- the new pages are in no other block
  have hapart : ∀ {j f : Nat}, s'.allocatedBlock[j]? = some true → j ≠ i → f ∈ s.pages p j → f ∉ got :=
    fun hj hne hf hin => hfresh _ hin (mem_inUse.2 ⟨_, hold hj hne, hf⟩)
  refine ⟨⟨?_, fun f => ?_, fun j hj => ?_, fun j k hj hk hne f hf => ?_⟩, hu, ?_, fun j => ?_⟩
  · rw [hpfn, length_overwrite, hblock, List.length_set, hs.length_pfn]
  · rw [hframes]
    split
    · exact List.length_replicate
    · exact hs.length_frame f
  · by_cases hji : j = i
    · rw [hji, hself]
      exact hnd
    · rw [hother hji]
      exact hs.nodup j (hold hj hji)
  · by_cases hji : j = i
    · rw [hji, hself] at hf
      rw [hother fun hki => hne (hji.trans hki.symm)]
      intro hin
      exact hapart hk (fun hki => hne (hji.trans hki.symm)) hin hf
    · rw [hother hji] at hf
      by_cases hki : k = i
      · rw [hki, hself]
        exact hapart hj hji hf
      · rw [hother hki]
        exact hs.disjoint j k (hold hj hji) (hold hk hki) hne f hf
  · show s'.allocatedBlock.length = s.allocatedBlock.length
    rw [hblock, List.length_set]
  · show (if s'.allocatedBlock[j]? = some true then some ((s'.pages p j).flatMap s'.frames) else none) =
      if j = i then _ else if s.allocatedBlock[j]? = some true then some ((s.pages p j).flatMap s.frames) else none
    by_cases hji : j = i
    · have hset : s'.allocatedBlock[i]? = some true := by rw [hblock, List.getElem?_set_self hi]
      have hzero : got.flatMap s'.frames = List.replicate g.size 0 := by
        rw [flatMap_zero fun f hf => (hframes f).trans (if_pos hf), hlen, PageSize.mul_nPages]
      rw [hji, if_pos hset, if_pos rfl, hself, hzero]
    · rw [if_neg hji]
      by_cases hj : s'.allocatedBlock[j]? = some true
      · have hsame : (s.pages p j).flatMap s'.frames = (s.pages p j).flatMap s.frames := by
          refine flatMap_congr_frames fun f hf => ?_
          rw [hframes, if_neg (hapart hj hji hf)]
        rw [if_pos hj, if_pos (hold hj hji), hother hji, hsame]
      · have hj' : s.allocatedBlock[j]? ≠ some true := by rwa [hblock, List.getElem?_set_ne (Ne.symm hji)] at hj
        rw [if_neg hj, if_neg hj']

theorem slice_resize {l : List Nat} {off len n : Nat} (h : off + len ≤ l.length) (hn : l.length ≤ n) :
    slice (resize l n 0) off len = slice l off len := by
  apply List.ext_getElem?
  intro i
  rw [getElem?_slice, getElem?_slice, resize_eq 0 hn]
  split
  · rw [List.getElem?_append_left (by omega)]
  · rfl

theorem PhysicalMemory.expand_spec {s : PhysicalMemory} (hs : s.Valid p) {u : Nat} (hlen : s.allocatedBlock.length ≤ g.tableSize u)
    {s' : PhysicalMemory} (hblock : s'.allocatedBlock = resize s.allocatedBlock (g.tableSize u) false)
    (hpfn : s'.pfn = resize s.pfn (p.nPages * g.tableSize u) 0) (hframes : s'.frames = s.frames) :
    s'.Valid p ∧ ∀ j, (physicalMemory p).block s' j = (physicalMemory p).block s j := by
  have hgrow : s.pfn.length ≤ p.nPages * g.tableSize u := by
    rw [hs.length_pfn]
    exact Nat.mul_le_mul_left _ hlen
  have hat : ∀ {j : Nat}, s'.allocatedBlock[j]? = some true ↔ s.allocatedBlock[j]? = some true := by
    intro j
    rw [hblock, resize_eq false hlen]
    by_cases hj : j < s.allocatedBlock.length
    · rw [List.getElem?_append_left hj]
    · rw [List.getElem?_append_right (Nat.le_of_not_lt hj), List.getElem?_replicate, List.getElem?_eq_none (Nat.le_of_not_lt hj)]
      refine iff_of_false (fun h => ?_) fun h => (by cases h)
      split at h <;> cases h
  have hpages : ∀ {j : Nat}, s.allocatedBlock[j]? = some true → s'.pages p j = s.pages p j := by
    intro j hj
    rw [pages, hpfn]
    refine slice_resize ?_ hgrow
    have h := Nat.mul_le_mul_right p.nPages (lt_of_getElem? hj)
    rw [Nat.succ_mul] at h
    rw [hs.length_pfn, Nat.mul_comm p.nPages]
    exact h
  refine ⟨⟨?_, fun f => by rw [hframes]; exact hs.length_frame f, fun j hj => ?_, fun j k hj hk hne f hf => ?_⟩, fun j => ?_⟩
  · rw [hpfn, hblock, length_resize, length_resize]
  · rw [hat] at hj
    rw [hpages hj]
    exact hs.nodup j hj
  · rw [hat] at hj hk
    rw [hpages hj] at hf
    rw [hpages hk]
    exact hs.disjoint j k hj hk hne f hf
  · show (if s'.allocatedBlock[j]? = some true then some ((s'.pages p j).flatMap s'.frames) else none) =
      if s.allocatedBlock[j]? = some true then some ((s.pages p j).flatMap s.frames) else none
    by_cases hj : s.allocatedBlock[j]? = some true
    · rw [if_pos (hat.2 hj), if_pos hj, hpages hj, hframes]
    · rw [if_neg fun h => hj (hat.1 h), if_neg hj]

theorem physicalMemory_lawful : Lawful (physicalMemory p) g (PhysicalMemory.Valid p) where
  length hs hblock := PhysicalMemory.length_block hs hblock
  beyond {s i} _ hle := by
    show (if s.allocatedBlock[i]? = some true then _ else none) = none
    refine if_neg fun h => ?_
    exact absurd (lt_of_getElem? h) (Nat.not_lt.2 hle)
  put hs hblock hmem := ⟨PhysicalMemory.put_updated hs hblock hmem, rfl⟩
  release hs hblock := ⟨PhysicalMemory.release_updated hs hblock, rfl⟩
  refused {s s' i grant} hs hi hblock hgot := by
    change (if (grant.frames p.nPages (s.inUse p)).length = p.nPages then _ else (false, s.withPages p i (grant.frames p.nPages (s.inUse p)))) = _
      at hgot
    split at hgot
    · cases hgot
    · obtain ⟨-, rfl⟩ := Prod.mk.inj hgot
      exact ⟨PhysicalMemory.refused_updated hs (grant.length_le _ _) hblock, rfl⟩
  granted {s s' i grant} hs hi hblock hgot := by
    have hif : (physicalMemory p).acquire s i grant =
        if (grant.frames p.nPages (s.inUse p)).length = p.nPages then
          (true, { s.withPages p i (grant.frames p.nPages (s.inUse p)) with
            allocatedBlock := s.allocatedBlock.set i true
            frames := fun f => if f ∈ grant.frames p.nPages (s.inUse p) then List.replicate p.size 0 else s.frames f
            nBlock := s.nBlock + 1 })
        else (false, s.withPages p i (grant.frames p.nPages (s.inUse p))) := rfl
    rw [hif] at hgot
    split at hgot
    · rename_i hlen
      obtain ⟨-, rfl⟩ := Prod.mk.inj hgot
      exact ⟨PhysicalMemory.granted_updated hs hi hlen (grant.nodup _ _) (grant.fresh _ _) rfl rfl rfl fun _ => rfl, rfl⟩
    · cases hgot
  uSize_expand s u := by
    show (if u ≤ s.uSize then s else _).uSize = max s.uSize u
    by_cases h : u ≤ s.uSize
    · rw [if_pos h, Nat.max_eq_left h]
    · rw [if_neg h, Nat.max_eq_right (Nat.le_of_not_le h)]
  tableSize_expand s u := by
    show (if u ≤ s.uSize then s else _).allocatedBlock.length = if u ≤ s.uSize then s.allocatedBlock.length else g.tableSize u
    split
    · rfl
    · exact length_resize s.allocatedBlock _ false
  expand {s u} hs hle := by
    by_cases h : u ≤ s.uSize
    · have he : (physicalMemory p).expand s u = s := if_pos h
      rw [he]
      exact ⟨hs, rfl, fun _ => rfl⟩
    · have he : (physicalMemory p).expand s u = { s with
          uSize := u
          allocatedBlock := resize s.allocatedBlock (g.tableSize u) false
          pfn := resize s.pfn (p.nPages * g.tableSize u) 0 } := if_neg h
      rw [he] at hle ⊢
      have hlen : s.allocatedBlock.length ≤ g.tableSize u := Nat.le_trans hle (Nat.le_of_eq (length_resize _ _ _))
      refine and_left_comm.1 ⟨rfl, ?_⟩
      exact PhysicalMemory.expand_spec hs hlen rfl rfl rfl

end Physical

/-! ## Both classes -/

theorem VirtualMemory.sound_init (g : BlockShift) (uSize : Nat) :
    Sound (virtualMemory g) (Valid g) (init g uSize) ∧ ∀ i, (virtualMemory g).block (init g uSize) i = none := by
  have hnone : ∀ i, (virtualMemory g).block (init g uSize) i = none := by
    intro i
    show (List.replicate (g.tableSize uSize) none)[i]?.join = none
    rw [List.getElem?_replicate]
    split <;> rfl
  refine ⟨⟨fun i mem hmem => ?_, ?_⟩, hnone⟩
  · cases (hnone i).symm.trans hmem
  · rw [allocated, Finset.filter_false_of_mem fun i _ => by rw [hnone]; exact Bool.false_ne_true]
    rfl

theorem PhysicalMemory.sound_init {g : BlockShift} (p : PageSize g) (uSize : Nat) :
    Sound (physicalMemory p) (Valid p) (init p uSize) ∧ ∀ i, (physicalMemory p).block (init p uSize) i = none := by
  have hfree : ∀ i : Nat, (init p uSize).allocatedBlock[i]? ≠ some true := by
    intro i h
    change (List.replicate (g.tableSize uSize) false)[i]? = some true at h
    rw [List.getElem?_replicate] at h
    split at h <;> cases h
  have hnone : ∀ i, (physicalMemory p).block (init p uSize) i = none := fun i => if_neg (hfree i)
  refine ⟨⟨⟨?_, fun _ => List.length_replicate, fun i hi => absurd hi (hfree i), fun i _ hi => absurd hi (hfree i)⟩, ?_⟩, hnone⟩
  · show (List.replicate _ _).length = p.nPages * (List.replicate _ _).length
    rw [List.length_replicate, List.length_replicate]
  · rw [allocated, Finset.filter_false_of_mem fun i _ => by rw [hnone]; exact Bool.false_ne_true]
    rfl

theorem agrees_of_empty {M : BlockMemory σ γ} {g : BlockShift} {s : σ} (h : ∀ i, M.block s i = none) : Agrees M g s fun _ => some 0 :=
  fun _ _ hb => (byteAt_of_none (h _)).trans (Option.some.inj hb)

/-- A RAM disk against an array of bytes: from any state that is reached, the next request is answered as it should be exactly where it
stays inside the block table. -/
theorem ramDisk_reached (d : DataSearch) (BlockSize : Int) (uSize : Nat) :
    KeepsBytes (virtualMemory (.clamp BlockSize)) d (.clamp BlockSize) (VirtualMemory.init (.clamp BlockSize) uSize) ∧
      ∀ p : PageSize (.clamp BlockSize), KeepsBytes (physicalMemory p) d (.clamp BlockSize) (PhysicalMemory.init p uSize) := by
  constructor
  · obtain ⟨hs, hnone⟩ := VirtualMemory.sound_init (.clamp BlockSize) uSize
    exact keepsBytes (virtualMemory_lawful _) hs (agrees_of_empty hnone)
  · intro p
    obtain ⟨hs, hnone⟩ := PhysicalMemory.sound_init p uSize
    exact keepsBytes physicalMemory_lawful hs (agrees_of_empty hnone)

/-- A disk of one block of 4096 bytes is asked for 8192: the table is grown for the second half at the offset of the first, so it is not
grown, and the second block is looked up behind its end. -/
theorem ramDisk_behindTable :
    ¬ ∃ reply s', serve (virtualMemory (.clamp 12)) .std (.clamp 12) (VirtualMemory.init (.clamp 12) 4096) (.read 8192 0) = some (reply, s') ∧
      Answers (virtualMemory (.clamp 12)) (.clamp 12) (VirtualMemory.init (.clamp 12) 4096) (fun _ => some 0) (.read 8192 0) reply s' := by
  obtain ⟨hs, hnone⟩ := VirtualMemory.sound_init (.clamp 12) 4096
  have hfits : ¬ Fits (virtualMemory (.clamp 12)) (.clamp 12) (VirtualMemory.init (.clamp 12) 4096) (.read 8192 0 : RamRequest Bool) := by
    rintro ⟨-, hlast | ⟨hgrow, -⟩⟩
    · exact absurd hlast (by decide)
    · exact absurd hgrow (by decide)
  obtain ⟨hbad, -⟩ := @serve_spec _ _ (virtualMemory (.clamp 12)) .std (.clamp 12) _ (virtualMemory_lawful _) _ (fun _ => some 0) hs
    (agrees_of_empty hnone) (.read 8192 0) ⟨Nat.dvd_zero _, ⟨16, rfl⟩⟩
  rw [hbad hfits]
  rintro ⟨_, _, h, -⟩
  cases h

end MajorPrivacy.Disk

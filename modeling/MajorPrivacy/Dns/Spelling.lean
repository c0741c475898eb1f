/-
What a DNS packet spells: the labels from a place on, and on behind the pointers. `read_reference`
counts its places with 16 bits; what it reads is what the packet spells when they are counted so,
and it reads all of that, since its guard stops no reading that would have come to an end.
-/
import MajorPrivacy.Dns.Names
import MajorPrivacy.Dns.Pointers

namespace MajorPrivacy.Dns

open LittleEndian Outcome Orbit

/-! ## Names of the packet -/

/-- A place as `offset` holds it. -/
def wrapped (n : Nat) : Nat := n % 0x10000

/-- The name that the packet spells from a place on, with places counted by `place`. All that it is
made of lies in the packet. -/
inductive Spells (place : Nat → Nat) (origin : Bytes) : Nat → Name → Prop
  | stop {offset : Nat} (hget : origin[offset]? = some 0) : Spells place origin offset []
  | label {offset : Nat} {len : UInt8} {name : Name} (hget : origin[offset]? = some len) (hnot : len &&& 0xc0 ≠ 0xc0)
    (hne : len ≠ 0) (hfit : place (offset + 1) + len.toNat ≤ origin.length)
    (hrest : Spells place origin (place (place (offset + 1) + len.toNat)) name) :
    Spells place origin offset ((origin.drop (place (offset + 1))).take len.toNat :: name)
  | jump {offset : Nat} {high low : UInt8} {name : Name} (hget : origin[offset]? = some high) (hptr : high &&& 0xc0 = 0xc0)
    (hlow : origin[place (offset + 1)]? = some low) (hrest : Spells place origin (pointerOffset high low).toNat name) :
    Spells place origin offset name

/-- The name that stands in front of `rest`, with what it has behind a pointer. -/
inductive SpellsRow (place : Nat → Nat) (origin : Bytes) : Bytes → Name → Bytes → Prop
  | stop {rest : Bytes} : SpellsRow place origin (0 :: rest) [] rest
  | label {len : UInt8} {data rest : Bytes} {name : Name} (hnot : len &&& 0xc0 ≠ 0xc0) (hne : len ≠ 0)
    (hfit : len.toNat ≤ data.length) (hrest : SpellsRow place origin (data.drop len.toNat) name rest) :
    SpellsRow place origin (len :: data) (data.take len.toNat :: name) rest
  | jump {high low : UInt8} {rest : Bytes} {name : Name} (hptr : high &&& 0xc0 = 0xc0)
    (hname : Spells place origin (pointerOffset high low).toNat name) : SpellsRow place origin (high :: low :: rest) name rest

/-- The data starts with labels and a pointer behind them. -/
inductive Leads : Bytes → Name → UInt16 → Bytes → Prop
  | here {high low : UInt8} {rest : Bytes} (hptr : high &&& 0xc0 = 0xc0) :
    Leads (high :: low :: rest) [] (pointerOffset high low) rest
  | label {len : UInt8} {data rest : Bytes} {name : Name} {offset : UInt16} (hnot : len &&& 0xc0 ≠ 0xc0) (hne : len ≠ 0)
    (hfit : len.toNat ≤ data.length) (hrest : Leads (data.drop len.toNat) name offset rest) :
    Leads (len :: data) (data.take len.toNat :: name) offset rest

/-- Counted with 16 bits the places from here on spell a name that they do not spell when they are
counted in full: the name runs over the first 64 KiB, and goes on otherwise at their front. -/
def Strays (origin : Bytes) (offset : UInt16) : Prop :=
  ∃ name, Spells wrapped origin offset.toNat name ∧ ¬ Spells id origin offset.toNat name

section Places
variable {origin data rest : Bytes} {o p t : UInt16} {text : Bytes} {name : Name}

theorem toNat_add_one : (o + 1).toNat = wrapped (o.toNat + 1) := by
  simp [wrapped]

theorem toNat_add_len (n : UInt16) (len : UInt8) : (n + len.toUInt16).toNat = wrapped (n.toNat + len.toNat) := by
  simp [wrapped]

theorem wrapped_le (n : Nat) : wrapped n ≤ n := Nat.mod_le _ _

theorem wrapped_of_le {n : Nat} (h : n ≤ 0xffff) : wrapped n = n := Nat.mod_eq_of_lt (by omega)

/-- In a packet below 64 KiB places that are counted alike up to there are the same. -/
theorem Spells.recount {place place' : Nat → Nat} (hsame : ∀ n ≤ 0xffff, place n = place' n) (hlen : origin.length ≤ 0xffff)
    {offset : Nat} (h : Spells place origin offset name) : Spells place' origin offset name := by
  induction h with
  | stop hget => exact .stop hget
  | @label offset len name hget hnot hne hfit _ ih =>
    have hlt : offset < origin.length := (List.getElem?_eq_some_iff.1 hget).1
    rw [hsame (offset + 1) (by omega)] at hfit ih ⊢
    rw [hsame _ (hfit.trans hlen)] at ih
    exact .label hget hnot hne hfit ih
  | @jump offset high low name hget hptr hlow _ ih =>
    have hlt : offset < origin.length := (List.getElem?_eq_some_iff.1 hget).1
    rw [hsame (offset + 1) (by omega)] at hlow
    exact .jump hget hptr hlow ih

/-! ## The moves of `read_reference` -/

theorem move_eq_stop : move origin o = .stop ↔ origin[o.toNat]? = some 0 := by
  unfold move
  cases origin[o.toNat]? with
  | none => simp
  | some len =>
    simp only [Option.some.injEq]
    constructor
    · split_ifs with h₁ h₂ h₃ <;> simp_all
    · rintro rfl
      simp

theorem move_eq_label : move origin o = .label text p ↔ ∃ len, origin[o.toNat]? = some len ∧ len &&& 0xc0 ≠ 0xc0 ∧
    len ≠ 0 ∧ wrapped (o.toNat + 1) + len.toNat ≤ origin.length ∧
    text = (origin.drop (wrapped (o.toNat + 1))).take len.toNat ∧
    p.toNat = wrapped (wrapped (o.toNat + 1) + len.toNat) := by
  unfold move
  cases hget : origin[o.toNat]? with
  | none => simp
  | some len =>
    have hlt : o.toNat < origin.length := (List.getElem?_eq_some_iff.1 hget).1
    have hle := wrapped_le (o.toNat + 1)
    simp only [Option.some.injEq, exists_eq_left', toNat_add_one]
    by_cases hptr : len &&& 0xc0 = 0xc0
    · rw [if_pos hptr]
      split_ifs <;> simp [hptr]
    · rw [if_neg hptr]
      by_cases hzero : len = 0
      · simp [hzero]
      · rw [if_neg hzero]
        by_cases hshort : origin.length - wrapped (o.toNat + 1) < len.toNat
        · simp only [if_pos hshort, reduceCtorEq, false_iff]
          rintro ⟨-, -, hfit, -⟩
          omega
        · simp only [if_neg hshort, Move.label.injEq, ← UInt16.toNat_inj, toNat_add_len, toNat_add_one]
          constructor
          · rintro ⟨htext, hp⟩
            exact ⟨hptr, hzero, by omega, htext.symm, hp.symm⟩
          · rintro ⟨-, -, -, htext, hp⟩
            exact ⟨htext.symm, hp.symm⟩

theorem move_eq_jump : move origin o = .jump t ↔ ∃ high low, origin[o.toNat]? = some high ∧ high &&& 0xc0 = 0xc0 ∧
    origin[wrapped (o.toNat + 1)]? = some low ∧ t = pointerOffset high low := by
  unfold move
  cases hget : origin[o.toNat]? with
  | none => simp
  | some len =>
    have hlt : o.toNat < origin.length := (List.getElem?_eq_some_iff.1 hget).1
    have hle := wrapped_le (o.toNat + 1)
    simp only [Option.some.injEq, toNat_add_one]
    by_cases hptr : len &&& 0xc0 = 0xc0
    · rw [if_pos hptr]
      by_cases hend : wrapped (o.toNat + 1) = origin.length
      · rw [if_pos hend, hend, List.getElem?_eq_none le_rfl]
        simp
      · have hin : wrapped (o.toNat + 1) < origin.length := by omega
        rw [if_neg hend, List.getD_eq_getElem?_getD, List.getElem?_eq_getElem hin, Option.getD_some]
        simp [hptr, eq_comm]
    · rw [if_neg hptr]
      constructor
      · split_ifs <;> simp
      · rintro ⟨high, low, rfl, hhigh, -⟩
        exact absurd hhigh hptr

end Places

/-! ## Reading behind a pointer -/

section Reading
variable {origin data rest : Bytes} {name : Name}

theorem Spells.of_read {fuel : Nat} : ∀ {o l : UInt16} {acc r : Name}, readReference fuel o l origin acc = success r →
    ∃ name, r = acc ++ name ∧ Spells wrapped origin o.toNat name := by
  induction fuel with
  | zero =>
    intro o l acc r h
    cases h
  | succ fuel ih =>
    intro o l acc r h
    rw [readReference_succ] at h
    cases hmove : move origin o with
    | fail =>
      rw [hmove] at h
      cases h
    | stop =>
      rw [hmove] at h
      cases h
      exact ⟨[], (List.append_nil _).symm, .stop (move_eq_stop.1 hmove)⟩
    | label text p =>
      rw [hmove] at h
      rcases ih h with ⟨name, rfl, hspells⟩
      rcases move_eq_label.1 hmove with ⟨len, hget, hnot, hne, hfit, rfl, hp⟩
      rw [hp] at hspells
      exact ⟨_, List.append_assoc _ _ _, .label hget hnot hne hfit hspells⟩
    | jump t =>
      rw [hmove] at h
      simp only at h
      split_ifs at h
      rcases ih h with ⟨name, rfl, hspells⟩
      rcases move_eq_jump.1 hmove with ⟨high, low, hget, hptr, hlow, rfl⟩
      exact ⟨name, rfl, .jump hget hptr hlow hspells⟩

theorem exists_place (n : Nat) : ∃ p : UInt16, p.toNat = wrapped n :=
  ⟨.ofNat n, UInt16.toNat_ofNat'⟩

/-- The way along a name has an end. -/
theorem Spells.not_endless {k : Nat} (h : Spells wrapped origin k name) :
    ∀ o : UInt16, o.toNat = k → ¬ Endless (next origin) o := by
  induction h with
  | stop hget =>
    rintro o rfl hend
    apply hend 1
    simp [steps, next, move_eq_stop.2 hget]
  | @label offset len name hget hnot hne hfit hrest ih =>
    rintro o rfl hend
    rcases exists_place (wrapped (o.toNat + 1) + len.toNat) with ⟨p, hp⟩
    have hmove := move_eq_label.2 ⟨len, hget, hnot, hne, hfit, rfl, hp⟩
    have hnext : next origin o = some p := by rw [next, hmove]
    exact ih p hp (hend.of_steps (steps_one hnext))
  | jump hget hptr hlow hrest ih =>
    rintro o rfl hend
    have hmove := move_eq_jump.2 ⟨_, _, hget, hptr, hlow, rfl⟩
    have hnext := next_of_target (target_eq_some.2 hmove)
    exact ih _ rfl (hend.of_steps (steps_one hnext))

theorem Spells.settles_since {k : Nat} (h : Spells wrapped origin k name) : ∀ (o l : UInt16) (acc : Name), o.toNat = k →
    Since origin l o → Settles (fun fuel => readReference fuel o l origin acc) (acc ++ name) := by
  induction h with
  | stop hget =>
    rintro o l acc rfl -
    refine ⟨1, fun fuel hfuel => ?_⟩
    rcases Nat.exists_eq_add_of_le' hfuel with ⟨fuel, rfl⟩
    simp only [readReference_succ, move_eq_stop.2 hget, List.append_nil]
  | @label offset len name hget hnot hne hfit hrest ih =>
    rintro o l acc rfl hsince
    rcases exists_place (wrapped (o.toNat + 1) + len.toNat) with ⟨p, hp⟩
    have hmove := move_eq_label.2 ⟨len, hget, hnot, hne, hfit, rfl, hp⟩
    have hnext : next origin o = some p := by rw [next, hmove]
    have htarget : target origin o = none := by rw [target, hmove]
    rcases ih p l (acc ++ [(origin.drop (wrapped (o.toNat + 1))).take len.toNat]) hp (hsince.label hnext htarget) with ⟨n, hn⟩
    refine ⟨n + 1, fun fuel hfuel => ?_⟩
    rcases Nat.exists_eq_add_of_le' hfuel with ⟨fuel, rfl⟩
    have hread := hn (fuel + n) (by omega)
    rw [List.append_assoc, List.singleton_append] at hread
    simp only [← Nat.add_assoc, readReference_succ, hmove]
    exact hread
  | @jump offset high low name hget hptr hlow hrest ih =>
    rintro o l acc rfl hsince
    have hmove := move_eq_jump.2 ⟨_, _, hget, hptr, hlow, rfl⟩
    have htarget := target_eq_some.2 hmove
    rcases ih _ (pointerOffset high low) acc rfl Since.jump with ⟨n, hn⟩
    -- the guard stops a loop only, and the way along a name is none
    have hguard : ¬ (l ≠ 0 ∧ pointerOffset high low = l) := by
      rintro ⟨hl, rfl⟩
      rcases hsince.cycle hl htarget with ⟨r, hr, hback, -⟩
      exact hrest.not_endless _ rfl (endless_of_cycle hr hback)
    refine ⟨n + 1, fun fuel hfuel => ?_⟩
    rcases Nat.exists_eq_add_of_le' hfuel with ⟨fuel, rfl⟩
    have hread := hn (fuel + n) (by omega)
    simp only [← Nat.add_assoc, readReference_succ, hmove, if_neg hguard]
    exact hread

theorem Spells.settles {o : UInt16} (h : Spells wrapped origin o.toNat name) (acc : Name) :
    Settles (fun fuel => readReference fuel o 0 origin acc) (acc ++ name) :=
  h.settles_since o 0 acc rfl (.inl rfl)

/-- A call that came to an end does the same with more steps. -/
theorem readReference_stable {fuel : Nat} : ∀ {o l : UInt16} {acc : Name} {k : Nat}, fuel ≤ k →
    readReference fuel o l origin acc ≠ unfinished → readReference k o l origin acc = readReference fuel o l origin acc := by
  induction fuel with
  | zero =>
    intro o l acc k hk h
    exact absurd readReference_zero h
  | succ fuel ih =>
    intro o l acc k hk h
    rcases Nat.exists_eq_add_of_le' hk with ⟨k, rfl⟩
    rw [← Nat.add_assoc, readReference_succ, readReference_succ]
    rw [readReference_succ] at h
    cases hmove : move origin o with
    | fail => rfl
    | stop => rfl
    | label text p =>
      rw [hmove] at h
      exact ih (Nat.le_add_left fuel k) h
    | jump t =>
      rw [hmove] at h
      simp only at h ⊢
      split_ifs at h ⊢
      · rfl
      · exact ih (Nat.le_add_left fuel k) h

end Reading

/-! ## Calls that come to an end -/

/-- With steps enough a call ends, in one way. -/
def Ends {α : Type} (call : Nat → Outcome α) : Prop := ∃ r, r ≠ unfinished ∧ ∃ n, ∀ fuel, n ≤ fuel → call fuel = r

section Ends
variable {α β : Type} {call : Nat → Outcome α}

theorem Ends.of_eq {r : Outcome α} (h : ∀ fuel, call fuel = r) (hr : r ≠ unfinished) : Ends call :=
  ⟨r, hr, 0, fun fuel _ => h fuel⟩

/-- With one step more. -/
theorem Ends.succ {call' : Nat → Outcome α} (h : Ends call) (hcall : ∀ fuel, call' (fuel + 1) = call fuel) : Ends call' := by
  rcases h with ⟨r, hr, n, hn⟩
  refine ⟨r, hr, n + 1, fun fuel hfuel => ?_⟩
  rcases Nat.exists_eq_add_of_le' hfuel with ⟨fuel, rfl⟩
  rw [← Nat.add_assoc, hcall]
  exact hn _ (Nat.le_add_left n fuel)

theorem Ends.of_succ {r : Outcome α} (hcall : ∀ fuel, call (fuel + 1) = r) (hr : r ≠ unfinished) : Ends call :=
  Ends.succ (Ends.of_eq (fun _ => rfl) hr) hcall

theorem Ends.bind {f : Nat → α → Outcome β} (h : Ends call) (hf : ∀ a, Settles call a → Ends fun fuel => f fuel a) :
    Ends fun fuel => call fuel >>= f fuel := by
  rcases h with ⟨r, hr, n, hn⟩
  cases r with
  | success a =>
    rcases hf a ⟨n, hn⟩ with ⟨r, hr, m, hm⟩
    refine ⟨r, hr, max n m, fun fuel hfuel => ?_⟩
    simp only [hn fuel (le_trans (le_max_left n m) hfuel), bind_success]
    exact hm fuel (le_trans (le_max_right n m) hfuel)
  | failure =>
    refine ⟨failure, by simp, n, fun fuel hfuel => ?_⟩
    simp only [hn fuel hfuel, bind_failure]
  | unfinished => exact absurd rfl hr

/-- The call ends that does not lead into a loop that the guard does not know. -/
theorem readReference_ends {origin : Bytes} {o : UInt16} {acc : Name} (h : ¬ LeadsRound origin o) :
    Ends fun fuel => readReference fuel o 0 origin acc := by
  rw [← endless_iff, Endless] at h
  push Not at h
  rcases h with ⟨n, hn⟩
  have hend : readReference n o 0 origin acc ≠ unfinished := fun hnot => readReference_unfinished.1 hnot hn
  exact ⟨_, hend, n, fun fuel hfuel => readReference_stable hfuel hend⟩

theorem readReference_endless {origin : Bytes} {o : UInt16} {acc : Name} (h : LeadsRound origin o) (fuel : Nat) :
    readReference fuel o 0 origin acc = unfinished :=
  readReference_unfinished.2 (endless_iff.2 h fuel)

end Ends

end MajorPrivacy.Dns

/-
What the operations of `FW::Table` do to the entries of one table: which are there, under which key
and in which order, and which numbers they have.
-/
import MajorPrivacy.Core.Multimap

namespace MajorPrivacy.Core

open RefHeap

/-! ## Chains -/

section Chains
variable {K V : Type}

theorem perm_unlinkLoop (match_ : K × V → Bool) (bAll : Bool) : ∀ chain : List (K × V),
    ((unlinkLoop match_ bAll chain).1 ++ (unlinkLoop match_ bAll chain).2).Perm chain
  | [] => .refl _
  | entry :: next => by
    have ih := perm_unlinkLoop match_ bAll next
    unfold unlinkLoop
    split_ifs with hm hall
    · exact List.perm_middle.trans (ih.cons entry)
    · exact List.perm_append_comm
    · exact ih.cons entry

/-- The values a removal leaves. -/
def leftOf (q : V → Bool) (bAll : Bool) (values : List V) : List V :=
  if bAll then values.filter fun v => !q v else values.eraseP q

variable [DecidableEq K]

theorem chainValues_unlinkLoop {match_ : K × V → Bool} {key : K} {q : V → Bool}
    (hm : ∀ e, match_ e = (decide (e.1 = key) && q e.2)) (bAll : Bool) (k : K) : ∀ chain : List (K × V),
    chainValues k (unlinkLoop match_ bAll chain).1 =
      if k = key then leftOf q bAll (chainValues k chain) else chainValues k chain
  | [] => by cases bAll <;> simp [unlinkLoop, leftOf]
  | entry :: next => by
    have ih := chainValues_unlinkLoop hm bAll k next
    unfold unlinkLoop
    rw [hm entry]
    by_cases he : entry.1 = key
    · by_cases hq : q entry.2
      · cases bAll
        · by_cases hk : k = key
          · subst hk
            simp [he, hq, chainValues_cons, leftOf]
          · have hke : ¬ key = k := fun h => hk h.symm
            simp [he, hq, chainValues_cons, hk, hke]
        · by_cases hk : k = key
          · subst hk
            simp only [if_true] at ih
            simp [he, hq, chainValues_cons, leftOf, ih]
          · have hke : ¬ key = k := fun h => hk h.symm
            simp only [if_neg hk] at ih
            simp [he, hq, chainValues_cons, hk, hke, ih]
      · by_cases hk : k = key
        · subst hk
          simp only [if_true] at ih
          cases bAll <;> simp [he, hq, chainValues_cons, leftOf, ih]
        · have hke : ¬ key = k := fun h => hk h.symm
          simp only [if_neg hk] at ih
          simp [he, hq, chainValues_cons, hk, hke, ih]
    · by_cases hk : k = key
      · subst hk
        simp only [if_true] at ih
        simp [he, chainValues_cons, ih]
      · simp only [if_neg hk] at ih
        by_cases hek : entry.1 = k <;> simp [he, chainValues_cons, hk, hek, ih]

end Chains

/-! ## One table -/

/-- The data of a table as its operations keep it: every entry in its place, and counted. -/
structure Sound {K V : Type} [Hasher K] (t : Table K V) : Prop where
  placed : Placed t.buckets
  ne_nil : t.buckets ≠ []
  count_eq : t.count = t.toList.length

/-- The values under a key. -/
def Table.values {K V : Type} [Hasher K] [DecidableEq K] (t : Table K (Entry V)) (key : K) : List V :=
  (valuesOf t.buckets key).map (·.value)

section Tables
variable {K V : Type} [Hasher K] {t : Table K (Entry V)}

theorem Sound.insertValue {V : Type} {t : Table K V} (h : Sound t) (key : K) (value : V) : Sound (t.insertValue key value) := by
  refine ⟨Table.placed_insertValue h.placed key value, Table.insertValue_ne_nil h.ne_nil key value, ?_⟩
  rw [(Table.perm_insertValue h.ne_nil key value).length_eq, List.length_cons, Table.insertValue, Table.count_grow, h.count_eq]

theorem count_ids_insertValue (h : Sound t) (key : K) (entry : Entry V) (id : Nat) :
    (t.insertValue key entry).ids.count id = t.ids.count id + if entry.id = id then 1 else 0 := by
  have hp := ((Table.perm_insertValue h.ne_nil key entry).map (·.2.id)).count_eq id
  unfold Table.ids
  rw [hp, List.map_cons, List.count_cons]
  simp

/-- The first bucket of an empty table. -/
theorem sound_first : Sound (Table.makeExclusive (.empty : Table K V)) :=
  ⟨placed_replicate 1, by simp [Table.makeExclusive, Table.empty], by simp [Table.makeExclusive, Table.empty, Table.toList]⟩

theorem buckets_cloned (hp : Placed t.buckets) (nextId : Nat) :
    (t.cloned nextId).buckets = t.buckets.map fun bucket => bucket.map fun e => (e.1, e.2.fresh nextId) :=
  foldl_insertEntry_reverse hp (Entry.fresh nextId)

theorem toList_cloned (hp : Placed t.buckets) (nextId : Nat) :
    (t.cloned nextId).toList = t.toList.map fun e => (e.1, e.2.fresh nextId) := by
  rw [Table.toList, buckets_cloned hp, Table.toList, List.map_flatten]

theorem ids_cloned (hp : Placed t.buckets) (nextId : Nat) : (t.cloned nextId).ids = t.ids.map (nextId + ·) := by
  rw [Table.ids, toList_cloned hp, Table.ids, List.map_map, List.map_map]
  rfl

theorem Sound.cloned (h : Sound t) (nextId : Nat) : Sound (t.cloned nextId) := by
  have hb := buckets_cloned h.placed nextId
  refine ⟨placed_foldl_insertEntry _ (placed_replicate _), ?_, ?_⟩
  · rw [hb]
    simpa using h.ne_nil
  · rw [toList_cloned h.placed, List.length_map, ← h.count_eq]
    rfl

theorem Sound.merge : ∀ (entries : List (K × Entry V)) {t : Table K (Entry V)}, Sound t → ∀ nextId,
    Sound (t.merge entries nextId)
  | [], _, h, _ => h
  | e :: entries, _, h, nextId => Sound.merge entries (h.insertValue e.1 (e.2.fresh nextId)) nextId

theorem count_ids_merge (id nextId : Nat) : ∀ (entries : List (K × Entry V)) {t : Table K (Entry V)}, Sound t →
    (t.merge entries nextId).ids.count id = t.ids.count id + (entries.map fun e => (e.2.fresh nextId).id).count id
  | [], _, _ => rfl
  | e :: entries, t, h => by
    have hstep : t.merge (e :: entries) nextId = (t.insertValue e.1 (e.2.fresh nextId)).merge entries nextId := rfl
    rw [hstep, count_ids_merge id nextId entries (h.insertValue _ _), count_ids_insertValue h, List.map_cons, List.count_cons]
    simp only [beq_iff_eq]
    omega

theorem placed_unlink (hp : Placed t.buckets) (key : K) (match_ : K × Entry V → Bool) (bAll : Bool) :
    Placed (t.unlink key match_ bAll).buckets := by
  apply placed_modify hp
  rintro bucket entry he
  left
  exact List.mem_map_of_mem ((perm_unlinkLoop match_ bAll bucket).mem_iff.1 (List.mem_append_left _ he))

/-- A removal takes what it unlinks out of the walk. -/
theorem perm_unlink (hne : t.buckets ≠ []) (key : K) (match_ : K × Entry V → Bool) (bAll : Bool) :
    ((t.unlink key match_ bAll).toList ++ t.unlinked key match_ bAll).Perm t.toList := by
  rcases flatten_modify (bucketIndex_lt hne key) fun chain => (unlinkLoop match_ bAll chain).1 with ⟨before, behind, h₁, h₂⟩
  have hchain := perm_unlinkLoop match_ bAll (t.chain key)
  have hl : (t.unlink key match_ bAll).toList = before ++ (unlinkLoop match_ bAll (t.chain key)).1 ++ behind := h₂
  rw [hl, Table.toList, h₁, Table.unlinked]
  have hmid : (before ++ (unlinkLoop match_ bAll (t.chain key)).1 ++ behind ++ (unlinkLoop match_ bAll (t.chain key)).2).Perm
      (before ++ ((unlinkLoop match_ bAll (t.chain key)).1 ++ (unlinkLoop match_ bAll (t.chain key)).2) ++ behind) := by
    simp only [List.append_assoc]
    exact ((List.perm_append_comm.append_left _).append_left _)
  exact hmid.trans ((hchain.append_left before).append_right behind)

theorem count_ids_unlink (hne : t.buckets ≠ []) (key : K) (match_ : K × Entry V → Bool) (bAll : Bool) (id : Nat) :
    (t.unlink key match_ bAll).ids.count id + ((t.unlinked key match_ bAll).map (·.2.id)).count id = t.ids.count id := by
  have hp := ((perm_unlink hne key match_ bAll).map (·.2.id)).count_eq id
  rw [List.map_append, List.count_append] at hp
  exact hp

variable [DecidableEq K]

theorem values_first (key : K) : (Table.makeExclusive (.empty : Table K (Entry V))).values key = [] := by
  have hlt := bucketIndex_lt (sound_first (K := K) (V := V)).ne_nil key
  have hnil : ∀ n : Nat, n < 1 → ([[]] : List (List (K × Entry V))).getD n [] = [] := by
    rintro n hn
    rw [Nat.lt_one_iff.1 hn]
    rfl
  unfold Table.values valuesOf
  exact congrArg (fun chain => (chainValues key chain).map Entry.value) (hnil _ hlt)

theorem values_insertValue (h : Sound t) (key k : K) (entry : Entry V) :
    (t.insertValue key entry).values k = if k = key then entry.value :: t.values k else t.values k := by
  unfold Table.values
  rw [Table.valuesOf_insertValue h.ne_nil h.placed]
  by_cases hk : key = k
  · simp [hk]
  · rw [if_neg hk, if_neg fun he => hk he.symm]

theorem values_cloned (hp : Placed t.buckets) (nextId : Nat) (k : K) : (t.cloned nextId).values k = t.values k := by
  have hi : bucketIndex (t.buckets.map fun bucket => bucket.map fun e => (e.1, e.2.fresh nextId)) k =
      bucketIndex t.buckets k := bucketIndex_congr (by simp) k
  unfold Table.values valuesOf
  rw [buckets_cloned hp, hi, List.getD_eq_getElem?_getD, List.getD_eq_getElem?_getD, List.getElem?_map]
  rcases t.buckets[bucketIndex t.buckets k]? with _ | bucket
  · rfl
  · simp only [Option.map_some, Option.getD_some, chainValues, List.filter_map, List.map_map, Function.comp_def, Entry.fresh]

theorem values_merge (k : K) (nextId : Nat) : ∀ (entries : List (K × Entry V)) {t : Table K (Entry V)}, Sound t →
    (t.merge entries nextId).values k = ((chainValues k entries).map (·.value)).reverse ++ t.values k
  | [], _, _ => rfl
  | e :: entries, t, h => by
    have hstep : t.merge (e :: entries) nextId = (t.insertValue e.1 (e.2.fresh nextId)).merge entries nextId := rfl
    rw [hstep, values_merge k nextId entries (h.insertValue _ _), values_insertValue h, chainValues_cons]
    by_cases hk : e.1 = k
    · simp [hk, Entry.fresh]
    · have hk' : ¬ k = e.1 := fun he => hk he.symm
      simp [hk, hk']

theorem map_leftOf (q : V → Bool) (bAll : Bool) : ∀ entries : List (Entry V),
    (leftOf (fun e => q e.value) bAll entries).map (·.value) = leftOf q bAll (entries.map (·.value))
  | [] => by cases bAll <;> rfl
  | e :: entries => by
    have ih := map_leftOf q bAll entries
    unfold leftOf at ih ⊢
    cases bAll <;> by_cases hq : q e.value <;> simp_all

theorem values_unlink {key : K} {match_ : K × Entry V → Bool} {q : V → Bool}
    (hm : ∀ e, match_ e = (decide (e.1 = key) && q e.2.value)) (bAll : Bool) (k : K) :
    (t.unlink key match_ bAll).values k = if k = key then leftOf q bAll (t.values k) else t.values k := by
  have hchain := chainValues_unlinkLoop (q := fun e : Entry V => q e.value) hm bAll k (t.chain key)
  unfold Table.values
  rw [Table.unlink, valuesOf_modify _ _ _ _ rfl]
  by_cases hk : k = key
  · subst hk
    rw [if_pos rfl, if_pos rfl]
    have hv := congrArg (List.map fun e : Entry V => e.value) hchain
    rw [if_pos rfl, map_leftOf] at hv
    exact hv
  · rw [if_neg hk] at hchain ⊢
    by_cases hi : bucketIndex t.buckets key = bucketIndex t.buckets k
    · rw [if_pos hi]
      unfold Table.chain at hchain
      rw [hchain, valuesOf, hi]
    · rw [if_neg hi]

theorem values_write (key k : K) (value : V) :
    (t.write key fun entry => { entry with value := value }).values k =
      if k = key then (t.values k).modifyHead fun _ => value else t.values k := by
  unfold Table.values
  rw [Table.write, valuesOf_writeEntry]
  by_cases hk : k = key
  · rw [if_pos hk, if_pos hk]
    cases valuesOf t.buckets k <;> rfl
  · rw [if_neg hk, if_neg hk]

omit [Hasher K] in
theorem map_id_writeLoop (key : K) (value : V) : ∀ chain : List (K × Entry V),
    (writeLoop key (fun entry => { entry with value := value }) chain).map (·.2.id) = chain.map (·.2.id)
  | [] => rfl
  | e :: next => by
    unfold writeLoop
    split
    · rfl
    · rw [List.map_cons, List.map_cons, map_id_writeLoop key value next]

theorem ids_write (h : Sound t) (key : K) (value : V) :
    (t.write key fun entry => { entry with value := value }).ids = t.ids := by
  rcases flatten_modify (bucketIndex_lt h.ne_nil key) (writeLoop key fun entry => { entry with value := value }) with
    ⟨before, behind, h₁, h₂⟩
  have hw : (t.write key fun entry => { entry with value := value }).toList = before ++
      writeLoop key (fun entry => { entry with value := value }) (t.buckets.getD (bucketIndex t.buckets key) []) ++ behind := h₂
  rw [Table.ids, hw, Table.ids, Table.toList, h₁]
  simp only [List.map_append, map_id_writeLoop]

theorem Sound.write (h : Sound t) (key : K) (value : V) : Sound (t.write key fun entry => { entry with value := value }) := by
  refine ⟨placed_writeEntry h.placed key _, ?_, ?_⟩
  · rw [← List.length_pos_iff, Table.write, writeEntry, List.length_modify, List.length_pos_iff]
    exact h.ne_nil
  · have hlen := congrArg List.length (ids_write h key value)
    rw [Table.ids, Table.ids, List.length_map, List.length_map] at hlen
    rw [hlen, ← h.count_eq]
    rfl

omit [DecidableEq K] in
theorem Sound.unlink (h : Sound t) (key : K) (match_ : K × Entry V → Bool) (bAll : Bool) :
    Sound ⟨(t.unlink key match_ bAll).buckets, t.count - (t.unlinked key match_ bAll).length⟩ := by
  have hlen := (perm_unlink h.ne_nil key match_ bAll).length_eq
  rw [List.length_append] at hlen
  refine ⟨placed_unlink h.placed key match_ bAll, ?_, ?_⟩
  · rw [← List.length_pos_iff, Table.unlink, List.length_modify, List.length_pos_iff]
    exact h.ne_nil
  · have hcount := h.count_eq
    unfold Table.toList at hlen hcount ⊢
    simp only
    omega

end Tables

end MajorPrivacy.Core

/-
`FW::Table` (Table.h): a hash table of buckets, each a chain of entries. What a table holds is said
by `valuesOf`, the values under one key in the order a look-up meets them; every operation is
described by what it does to them, and to the invariant that each entry stands in the bucket of its
own key. The reference count of the shared data is left out: the tables modelled have one holder.
-/
import Mathlib.Data.List.Basic
import Mathlib.Data.List.Nodup
import MajorPrivacy.Lib.LittleEndian

namespace MajorPrivacy.Core

open LittleEndian

/-! ## Hashing -/

/-- The hasher of a key type. -/
class Hasher (K : Type) where
  hash : K → UInt32

/-- `DefaultHasher` over the bytes of the key object. -/
def defaultHash (key : Bytes) : UInt32 :=
  key.foldl (fun hash b => ((hash <<< 5) + hash) ^^^ b.toUInt32) 5381

/-- `HashString`: the characters up to the first NUL, each already widened to 64 bits. -/
def hashString (str : List UInt64) : UInt32 :=
  let hash := (str.takeWhile (· ≠ 0)).foldl (fun hash c => (hash ^^^ c) * 1099511628211) 14695981039346656037
  hash.toUInt32 ||| (hash >>> 32).toUInt32

/-- `static_cast<ULONG64>` of a `char`, which is signed. -/
def widenChar (c : UInt8) : UInt64 :=
  if c < 128 then c.toUInt64 else c.toUInt64 ||| 0xFFFFFFFFFFFFFF00

instance : Hasher UInt32 := ⟨fun key => defaultHash (toLE 4 key.toNat)⟩
instance : Hasher UInt64 := ⟨fun key => defaultHash (toLE 8 key.toNat)⟩
instance : Hasher Bytes := ⟨fun key => hashString (key.map widenChar)⟩
instance : Hasher (List UInt16) := ⟨fun key => hashString (key.map UInt16.toUInt64)⟩

/-! ## Chains -/

abbrev Buckets (K V : Type) := List (List (K × V))

section Chains

variable {K V : Type} [DecidableEq K]

/-- The values under a key in one chain. -/
def chainValues (key : K) (chain : List (K × V)) : List V :=
  (chain.filter (·.1 = key)).map (·.2)

/-- The loop of `RemoveImpl`. -/
def removeLoop (key : K) (bAll : Bool) : List (K × V) → List (K × V)
  | [] => []
  | entry :: next =>
    if entry.1 = key then (if bAll then removeLoop key bAll next else next)
    else entry :: removeLoop key bAll next

/-- A write through the pointer to the value of the first entry with a key. -/
def writeLoop (key : K) (f : V → V) : List (K × V) → List (K × V)
  | [] => []
  | entry :: next => if entry.1 = key then (entry.1, f entry.2) :: next else entry :: writeLoop key f next

@[simp] theorem chainValues_nil (key : K) : chainValues key ([] : List (K × V)) = [] := rfl

theorem chainValues_cons (key : K) (entry : K × V) (next : List (K × V)) :
    chainValues key (entry :: next) = if entry.1 = key then entry.2 :: chainValues key next else chainValues key next := by
  unfold chainValues
  by_cases h : entry.1 = key <;> simp [h]

@[simp] theorem chainValues_append (key : K) (l₁ l₂ : List (K × V)) :
    chainValues key (l₁ ++ l₂) = chainValues key l₁ ++ chainValues key l₂ := by
  simp [chainValues]

@[simp] theorem chainValues_reverse (key : K) (chain : List (K × V)) :
    chainValues key chain.reverse = (chainValues key chain).reverse := by
  simp [chainValues]

theorem mem_chainValues {key : K} {value : V} {chain : List (K × V)} :
    value ∈ chainValues key chain ↔ (key, value) ∈ chain := by
  unfold chainValues
  rw [List.mem_map]
  constructor
  · rintro ⟨⟨k, v⟩, h, rfl⟩
    obtain ⟨h, hk⟩ := List.mem_filter.1 h
    simp only [decide_eq_true_eq] at hk
    exact hk ▸ h
  · intro h
    exact ⟨(key, value), by simpa using h, rfl⟩

theorem chainValues_eq_nil {key : K} {chain : List (K × V)} (h : ∀ entry ∈ chain, entry.1 ≠ key) :
    chainValues key chain = [] := by
  rw [List.eq_nil_iff_forall_not_mem]
  intro value hv
  exact h _ (mem_chainValues.1 hv) rfl

theorem chainValues_flatten_eq_nil {key : K} {buckets : Buckets K V}
    (h : ∀ bucket ∈ buckets, ∀ entry ∈ bucket, entry.1 ≠ key) : chainValues key buckets.flatten = [] := by
  apply chainValues_eq_nil
  intro entry he
  obtain ⟨bucket, hb, he⟩ := List.mem_flatten.1 he
  exact h bucket hb entry he

theorem mem_removeLoop {key : K} {bAll : Bool} {entry : K × V} :
    ∀ {chain : List (K × V)}, entry ∈ removeLoop key bAll chain → entry ∈ chain
  | [], h => h
  | e :: next, h => by
    unfold removeLoop at h
    split at h
    · split at h
      · exact List.mem_cons_of_mem _ (mem_removeLoop h)
      · exact List.mem_cons_of_mem _ h
    · rcases List.mem_cons.1 h with rfl | h
      · exact List.mem_cons_self
      · exact List.mem_cons_of_mem _ (mem_removeLoop h)

theorem chainValues_removeLoop (key k : K) (bAll : Bool) :
    ∀ chain : List (K × V), chainValues k (removeLoop key bAll chain) =
      if k = key then (if bAll then [] else (chainValues k chain).tail) else chainValues k chain
  | [] => by simp [removeLoop]
  | e :: next => by
    have ih := chainValues_removeLoop key k bAll next
    unfold removeLoop
    by_cases hk : k = key
    · subst hk
      cases bAll <;> by_cases he : e.1 = k <;> simp_all [chainValues_cons]
    · by_cases he : e.1 = key
      · have hek : ¬ key = k := fun h => hk h.symm
        cases bAll <;> simp_all [chainValues_cons]
      · by_cases hek : e.1 = k <;> simp_all [chainValues_cons]

theorem chainValues_writeLoop (key k : K) (f : V → V) :
    ∀ chain : List (K × V), chainValues k (writeLoop key f chain) =
      if k = key then (chainValues k chain).modifyHead f else chainValues k chain
  | [] => by simp [writeLoop]
  | e :: next => by
    have ih := chainValues_writeLoop key k f next
    unfold writeLoop
    by_cases hk : k = key
    · subst hk
      by_cases he : e.1 = k <;> simp_all [chainValues_cons]
    · by_cases he : e.1 = key
      · have hek : ¬ key = k := fun h => hk h.symm
        simp_all [chainValues_cons]
      · by_cases hek : e.1 = k <;> simp_all [chainValues_cons]

theorem map_fst_writeLoop (key : K) (f : V → V) :
    ∀ chain : List (K × V), (writeLoop key f chain).map (·.1) = chain.map (·.1)
  | [] => rfl
  | e :: next => by
    unfold writeLoop
    split
    · rfl
    · simp [map_fst_writeLoop key f next]

theorem length_removeLoop (key : K) :
    ∀ chain : List (K × V), (removeLoop key true chain).length + (chainValues key chain).length = chain.length
  | [] => rfl
  | e :: next => by
    have ih := length_removeLoop key next
    unfold removeLoop
    rw [chainValues_cons]
    by_cases he : e.1 = key
    · simp only [if_pos he, if_true, List.length_cons]; omega
    · simp only [if_neg he, List.length_cons]; omega

theorem length_removeLoop_le (key : K) (bAll : Bool) :
    ∀ chain : List (K × V), (removeLoop key bAll chain).length ≤ chain.length
  | [] => Nat.le_refl _
  | e :: next => by
    have ih := length_removeLoop_le key bAll next
    unfold removeLoop
    split
    · split <;> simp only [List.length_cons] <;> omega
    · simp only [List.length_cons]; omega

end Chains

/-! ## Buckets -/

section Buckets

variable {K V : Type} [Hasher K]

def mapBucketIndex (bucketCount : Nat) (hash : UInt32) : Nat :=
  hash.toNat &&& (bucketCount - 1)

/-- The index of the bucket a key belongs to. -/
def bucketIndex (buckets : Buckets K V) (key : K) : Nat :=
  mapBucketIndex buckets.length (Hasher.hash key)

def insertEntry (buckets : Buckets K V) (entry : K × V) : Buckets K V :=
  buckets.modify (bucketIndex buckets entry.1) (entry :: ·)

/-- Both loops of `MoveTable`: the entries chained up, then inserted one by one. -/
def moveTable (newBucketCount : Nat) (oldBuckets : Buckets K V) : Buckets K V :=
  (oldBuckets.flatMap List.reverse).foldl insertEntry (List.replicate newBucketCount [])

/-- Every entry stands in the bucket of its key. -/
def Placed (buckets : Buckets K V) : Prop :=
  ∀ i bucket, buckets[i]? = some bucket → ∀ entry ∈ bucket, bucketIndex buckets entry.1 = i

theorem bucketIndex_lt {buckets : Buckets K V} (h : buckets ≠ []) (key : K) :
    bucketIndex buckets key < buckets.length := by
  have hpos := List.length_pos_iff.2 h
  have hle : bucketIndex buckets key ≤ buckets.length - 1 := Nat.and_le_right
  omega

@[simp] theorem bucketIndex_modify (buckets : Buckets K V) (i : Nat) (f : List (K × V) → List (K × V)) (key : K) :
    bucketIndex (buckets.modify i f) key = bucketIndex buckets key := by
  simp [bucketIndex]

theorem placed_replicate (n : Nat) : Placed (List.replicate n [] : Buckets K V) := by
  intro i bucket hi entry he
  rw [List.getElem?_replicate] at hi
  split at hi
  · cases hi; cases he
  · cases hi

/-- A change to one chain that brings in no key of another keeps the entries in their places. -/
theorem placed_modify {buckets : Buckets K V} {i : Nat} {f : List (K × V) → List (K × V)} (hp : Placed buckets)
    (hf : ∀ bucket, ∀ entry ∈ f bucket, entry.1 ∈ bucket.map (·.1) ∨ bucketIndex buckets entry.1 = i) :
    Placed (buckets.modify i f) := by
  intro j bucket hj entry he
  rw [bucketIndex_modify]
  rw [List.getElem?_modify] at hj
  rcases hb : buckets[j]? with _ | old
  · rw [hb] at hj; cases hj
  · rw [hb] at hj
    split at hj
    · rename_i hij
      subst hij
      cases hj
      rcases hf old entry he with hm | hi
      · obtain ⟨e, he', hk⟩ := List.mem_map.1 hm
        rw [← hk]
        exact hp _ _ hb e he'
      · exact hi
    · cases hj
      exact hp j _ hb entry he

omit [Hasher K] in
/-- A change to one chain, seen from a walk over the whole table. -/
theorem flatten_modify {buckets : Buckets K V} {i : Nat} (hi : i < buckets.length)
    (f : List (K × V) → List (K × V)) : ∃ before behind,
      buckets.flatten = before ++ buckets.getD i [] ++ behind ∧
      (buckets.modify i f).flatten = before ++ f (buckets.getD i []) ++ behind := by
  refine ⟨(buckets.take i).flatten, (buckets.drop (i + 1)).flatten, ?_, ?_⟩
  · conv_lhs => rw [← List.take_append_drop i buckets, List.drop_eq_getElem_cons hi, List.flatten_append, List.flatten_cons]
    rw [List.getD_eq_getElem?_getD, List.getElem?_eq_getElem hi, Option.getD_some, List.append_assoc]
  · rw [List.modify_eq_take_cons_drop hi]
    simp [List.getD_eq_getElem?_getD, List.getElem?_eq_getElem hi]

/-- The chains before and behind the one of a key hold no entry of it. -/
theorem Placed.split {buckets : Buckets K V} (hp : Placed buckets) (hne : buckets ≠ []) (key : K) :
    ∃ before behind, buckets = before ++ buckets.getD (bucketIndex buckets key) [] :: behind ∧
      (∀ bucket ∈ before, ∀ entry ∈ bucket, entry.1 ≠ key) ∧ ∀ bucket ∈ behind, ∀ entry ∈ bucket, entry.1 ≠ key := by
  have hi := bucketIndex_lt hne key
  refine ⟨buckets.take (bucketIndex buckets key), buckets.drop (bucketIndex buckets key + 1), ?_, ?_, ?_⟩
  · rw [List.getD_eq_getElem?_getD, List.getElem?_eq_getElem hi, Option.getD_some, ← List.drop_eq_getElem_cons hi,
      List.take_append_drop]
  · intro bucket hb entry he hk
    obtain ⟨j, hj, rfl⟩ := List.mem_iff_getElem.1 hb
    rw [List.length_take] at hj
    rw [List.getElem_take] at he
    have := hp j _ (List.getElem?_eq_getElem (by omega)) entry he
    rw [hk] at this
    omega
  · intro bucket hb entry he hk
    obtain ⟨j, hj, rfl⟩ := List.mem_iff_getElem.1 hb
    rw [List.length_drop] at hj
    rw [List.getElem_drop] at he
    have := hp _ _ (List.getElem?_eq_getElem (by omega)) entry he
    rw [hk] at this
    omega

@[simp] theorem length_insertEntry (buckets : Buckets K V) (entry : K × V) :
    (insertEntry buckets entry).length = buckets.length := by
  simp [insertEntry]

theorem length_flatten_insertEntry {buckets : Buckets K V} (hne : buckets ≠ []) (entry : K × V) :
    (insertEntry buckets entry).flatten.length = buckets.flatten.length + 1 := by
  obtain ⟨before, behind, h₁, h₂⟩ := flatten_modify (bucketIndex_lt hne entry.1) (entry :: ·)
  unfold insertEntry
  rw [h₁, h₂]
  simp only [List.length_append, List.length_cons]
  omega

theorem insertEntry_ne_nil {buckets : Buckets K V} (hne : buckets ≠ []) (entry : K × V) :
    insertEntry buckets entry ≠ [] := by
  rw [← List.length_pos_iff, length_insertEntry, List.length_pos_iff]; exact hne

theorem placed_insertEntry {buckets : Buckets K V} (hp : Placed buckets) (entry : K × V) :
    Placed (insertEntry buckets entry) := by
  apply placed_modify hp
  intro bucket e he
  rcases List.mem_cons.1 he with rfl | he
  · exact .inr rfl
  · exact .inl (List.mem_map_of_mem he)

@[simp] theorem length_foldl_insertEntry (entries : List (K × V)) (buckets : Buckets K V) :
    (entries.foldl insertEntry buckets).length = buckets.length := by
  induction entries generalizing buckets with
  | nil => rfl
  | cons entry entries ih => rw [List.foldl_cons, ih, length_insertEntry]

theorem placed_foldl_insertEntry (entries : List (K × V)) {buckets : Buckets K V} (hp : Placed buckets) :
    Placed (entries.foldl insertEntry buckets) := by
  induction entries generalizing buckets with
  | nil => exact hp
  | cons entry entries ih => exact ih (placed_insertEntry hp entry)

theorem length_flatten_foldl_insertEntry (entries : List (K × V)) {buckets : Buckets K V} (hne : buckets ≠ []) :
    (entries.foldl insertEntry buckets).flatten.length = buckets.flatten.length + entries.length := by
  induction entries generalizing buckets with
  | nil => rfl
  | cons entry entries ih =>
    rw [List.foldl_cons, ih (insertEntry_ne_nil hne entry), length_flatten_insertEntry hne, List.length_cons]
    omega

theorem length_flatten_moveTable {n : Nat} (hn : 0 < n) (buckets : Buckets K V) :
    (moveTable n buckets).flatten.length = buckets.flatten.length := by
  have hne : (List.replicate n [] : Buckets K V) ≠ [] := by
    rw [← List.length_pos_iff, List.length_replicate]; exact hn
  unfold moveTable
  rw [length_flatten_foldl_insertEntry _ hne]
  simp [List.length_flatten, List.length_flatMap]

@[simp] theorem length_moveTable (n : Nat) (buckets : Buckets K V) : (moveTable n buckets).length = n := by
  simp [moveTable]

theorem placed_moveTable (n : Nat) (buckets : Buckets K V) : Placed (moveTable n buckets) :=
  placed_foldl_insertEntry _ (placed_replicate n)

/-- A chain after entries were inserted: those that belong to it, the last one first. -/
theorem getElem?_foldl_insertEntry (entries : List (K × V)) (buckets : Buckets K V) (i : Nat) :
    (entries.foldl insertEntry buckets)[i]? =
      buckets[i]?.map ((entries.filter fun entry => bucketIndex buckets entry.1 = i).reverse ++ ·) := by
  induction entries generalizing buckets with
  | nil => simp
  | cons entry entries ih =>
    rw [List.foldl_cons, ih]
    unfold insertEntry
    simp only [bucketIndex_modify, List.getElem?_modify]
    by_cases hi : bucketIndex buckets entry.1 = i
    · rw [List.filter_cons_of_pos (by simpa using hi)]
      cases buckets[i]? <;> simp [hi]
    · rw [List.filter_cons_of_neg (by simpa using hi)]
      cases buckets[i]? <;> simp [hi]

omit [Hasher K] in
/-- The entries of one chain, picked out of a walk by the index of their bucket. -/
theorem filter_flatten_of_index (index : K × V → Nat) : ∀ (buckets : Buckets K V) (first : Nat),
    (∀ i bucket, buckets[i]? = some bucket → ∀ entry ∈ bucket, index entry = first + i) →
    ∀ i, buckets.flatten.filter (fun entry => index entry = first + i) = buckets.getD i []
  | [], _, _, _ => by simp
  | bucket :: buckets, first, h, i => by
    have hhead : ∀ entry ∈ bucket, index entry = first := fun entry he => h 0 bucket rfl entry he
    have htail : ∀ j b, buckets[j]? = some b → ∀ entry ∈ b, index entry = first + 1 + j := by
      intro j b hb entry he
      rw [h (j + 1) b (by simpa using hb) entry he]
      omega
    rw [List.flatten_cons, List.filter_append]
    cases i with
    | zero =>
      have hself : bucket.filter (fun entry => index entry = first + 0) = bucket :=
        List.filter_eq_self.2 fun entry he => by simp [hhead entry he]
      have hnone : buckets.flatten.filter (fun entry => index entry = first + 0) = [] := by
        rw [List.filter_eq_nil_iff]
        intro entry he
        rcases List.mem_flatten.1 he with ⟨b, hb, he⟩
        rcases List.mem_iff_getElem?.1 hb with ⟨j, hj⟩
        simp only [decide_eq_true_eq, htail j b hj entry he]
        omega
      rw [hself, hnone]
      simp
    | succ i =>
      have hnone : bucket.filter (fun entry => index entry = first + (i + 1)) = [] := by
        rw [List.filter_eq_nil_iff]
        intro entry he
        simp only [decide_eq_true_eq, hhead entry he]
        omega
      have ih := filter_flatten_of_index index buckets (first + 1) htail i
      rw [hnone, List.nil_append, List.getD_cons_succ, ← ih]
      congr 1
      funext entry
      congr 1
      apply propext
      omega

theorem Placed.filter_flatten {buckets : Buckets K V} (hp : Placed buckets) (i : Nat) :
    buckets.flatten.filter (fun entry => bucketIndex buckets entry.1 = i) = buckets.getD i [] := by
  have h := filter_flatten_of_index (fun entry => bucketIndex buckets entry.1) buckets 0
    (fun i bucket hb entry he => by rw [hp i bucket hb entry he]; omega) i
  simpa using h

section Rebuilt
variable {W : Type}

/-- The index of a key depends on how many buckets there are, not on what is in them. -/
theorem bucketIndex_congr {buckets : Buckets K V} {buckets' : Buckets K W} (h : buckets.length = buckets'.length)
    (key : K) : bucketIndex buckets key = bucketIndex buckets' key := by
  rw [bucketIndex, bucketIndex, h]

/-- Entries inserted in the order of a walk end up with every chain the other way round. -/
theorem foldl_insertEntry_flatten {buckets : Buckets K V} (hp : Placed buckets) (f : V → W) :
    (buckets.flatten.map fun e => (e.1, f e.2)).foldl insertEntry (List.replicate buckets.length []) =
      buckets.map fun bucket => (bucket.map fun e => (e.1, f e.2)).reverse := by
  apply List.ext_getElem?
  intro i
  have hindex : ∀ key, bucketIndex (List.replicate buckets.length [] : Buckets K W) key = bucketIndex buckets key :=
    fun key => bucketIndex_congr (by simp) key
  rw [getElem?_foldl_insertEntry, List.filter_map]
  simp only [Function.comp_def, hindex, hp.filter_flatten i, List.getElem?_map, List.getElem?_replicate,
    List.getD_eq_getElem?_getD]
  rcases Nat.lt_or_ge i buckets.length with hi | hi
  · simp [hi]
  · simp [Nat.not_lt.2 hi]

/-- Entries inserted in the order of a walk from its end keep the order of every chain. -/
theorem foldl_insertEntry_reverse {buckets : Buckets K V} (hp : Placed buckets) (f : V → W) :
    (buckets.flatten.reverse.map fun e => (e.1, f e.2)).foldl insertEntry (List.replicate buckets.length []) =
      buckets.map fun bucket => bucket.map fun e => (e.1, f e.2) := by
  apply List.ext_getElem?
  intro i
  have hindex : ∀ key, bucketIndex (List.replicate buckets.length [] : Buckets K W) key = bucketIndex buckets key :=
    fun key => bucketIndex_congr (by simp) key
  rw [getElem?_foldl_insertEntry, List.filter_map, List.filter_reverse]
  simp only [Function.comp_def, hindex, hp.filter_flatten i, List.getElem?_map, List.getElem?_replicate,
    List.getD_eq_getElem?_getD]
  rcases Nat.lt_or_ge i buckets.length with hi | hi
  · simp [hi]
  · simp [Nat.not_lt.2 hi]

end Rebuilt

/-! ## Look-up -/

variable [DecidableEq K]

def findEntry (buckets : Buckets K V) (key : K) : Option V :=
  ((buckets.getD (bucketIndex buckets key) []).find? (·.1 = key)).map (·.2)

/-- The values under a key, in the order a look-up meets them. -/
def valuesOf (buckets : Buckets K V) (key : K) : List V :=
  chainValues key (buckets.getD (bucketIndex buckets key) [])

theorem findEntry_eq (buckets : Buckets K V) (key : K) : findEntry buckets key = (valuesOf buckets key).head? := by
  unfold findEntry valuesOf chainValues
  rw [List.head?_map, List.head?_filter]

@[simp] theorem valuesOf_nil (key : K) : valuesOf ([] : Buckets K V) key = [] := by
  simp [valuesOf]

@[simp] theorem valuesOf_single (key : K) : valuesOf ([[]] : Buckets K V) key = [] := by
  unfold valuesOf
  rcases bucketIndex ([[]] : Buckets K V) key with _ | i <;> simp

@[simp] theorem valuesOf_replicate (n : Nat) (key : K) : valuesOf (List.replicate n [] : Buckets K V) key = [] := by
  unfold valuesOf
  rw [List.getD_eq_getElem?_getD, List.getElem?_replicate]
  split <;> simp

/-- Only the keys that hash to the changed chain can see the change. -/
theorem valuesOf_modify (buckets : Buckets K V) (i : Nat) (f : List (K × V) → List (K × V)) (key : K) (hf : f [] = []) :
    valuesOf (buckets.modify i f) key =
      if i = bucketIndex buckets key then chainValues key (f (buckets.getD i [])) else valuesOf buckets key := by
  unfold valuesOf
  rw [bucketIndex_modify, List.getD_eq_getElem?_getD, List.getElem?_modify]
  split
  · rename_i h
    subst h
    rw [List.getD_eq_getElem?_getD]
    cases buckets[bucketIndex buckets key]? with
    | none => simp [hf]
    | some bucket => simp
  · simp [List.getD_eq_getElem?_getD]

/-- Where every entry is in its place, a walk over the whole table meets the values of a key in
the order a look-up does. -/
theorem chainValues_flatten {buckets : Buckets K V} (hp : Placed buckets) (key : K) :
    chainValues key buckets.flatten = valuesOf buckets key := by
  by_cases hne : buckets = []
  · subst hne; simp
  obtain ⟨before, behind, hsplit, h₁, h₂⟩ := hp.split hne key
  unfold valuesOf
  conv_lhs => rw [hsplit]
  rw [List.flatten_append, List.flatten_cons, chainValues_append, chainValues_append, chainValues_flatten_eq_nil h₁,
    chainValues_flatten_eq_nil h₂, List.nil_append, List.append_nil]

/-! ## Insertion -/

theorem valuesOf_insertEntry {buckets : Buckets K V} (hne : buckets ≠ []) (entry : K × V) (key : K) :
    valuesOf (insertEntry buckets entry) key =
      if entry.1 = key then entry.2 :: valuesOf buckets key else valuesOf buckets key := by
  have hlt := bucketIndex_lt hne entry.1
  unfold insertEntry valuesOf
  rw [bucketIndex_modify, List.getD_eq_getElem?_getD, List.getElem?_modify]
  by_cases hk : entry.1 = key
  · subst hk
    simp [List.getElem?_eq_getElem hlt, chainValues_cons]
  · by_cases hi : bucketIndex buckets entry.1 = bucketIndex buckets key
    · rw [← hi]
      simp [List.getElem?_eq_getElem hlt, hk, chainValues_cons]
    · simp [hi, hk, List.getD_eq_getElem?_getD]

/-- Inserting at the head of the chains puts the entries in front, last first. -/
theorem valuesOf_foldl_insertEntry (key : K) :
    ∀ (entries : List (K × V)) {buckets : Buckets K V}, buckets ≠ [] →
      valuesOf (entries.foldl insertEntry buckets) key = (chainValues key entries).reverse ++ valuesOf buckets key
  | [], _, _ => by simp
  | entry :: entries, buckets, hne => by
    rw [List.foldl_cons, valuesOf_foldl_insertEntry key entries (insertEntry_ne_nil hne entry), valuesOf_insertEntry hne,
      chainValues_cons]
    split <;> simp

/-- Growing keeps the values of every key and their order: they stand in one chain, which is
reversed and reversed again. -/
theorem valuesOf_moveTable {n : Nat} (hn : 0 < n) {buckets : Buckets K V} (hp : Placed buckets) (key : K) :
    valuesOf (moveTable n buckets) key = valuesOf buckets key := by
  have hne : (List.replicate n [] : Buckets K V) ≠ [] := by
    rw [← List.length_pos_iff, List.length_replicate]; exact hn
  have hrev : ∀ l : Buckets K V, (∀ bucket ∈ l, ∀ entry ∈ bucket, entry.1 ≠ key) →
      chainValues key (l.flatMap List.reverse) = [] := by
    intro l hl
    apply chainValues_eq_nil
    intro entry he
    obtain ⟨bucket, hb, he⟩ := List.mem_flatMap.1 he
    exact hl bucket hb entry (List.mem_reverse.1 he)
  unfold moveTable
  rw [valuesOf_foldl_insertEntry key _ hne, valuesOf_replicate, List.append_nil, ← chainValues_flatten hp]
  by_cases hnil : buckets = []
  · subst hnil; rfl
  obtain ⟨before, behind, hsplit, h₁, h₂⟩ := hp.split hnil key
  rw [hsplit]
  simp only [List.flatMap_append, List.flatMap_cons, List.flatten_append, List.flatten_cons, chainValues_append,
    chainValues_reverse, hrev before h₁, hrev behind h₂, chainValues_flatten_eq_nil h₁, chainValues_flatten_eq_nil h₂,
    List.nil_append, List.append_nil, List.reverse_reverse]

/-! ## Removal and writing through a pointer -/

def removeImpl (buckets : Buckets K V) (key : K) (bAll : Bool) : Buckets K V :=
  buckets.modify (bucketIndex buckets key) (removeLoop key bAll)

/-- A write through the pointer to the value `findEntry` returns. -/
def writeEntry (buckets : Buckets K V) (key : K) (f : V → V) : Buckets K V :=
  buckets.modify (bucketIndex buckets key) (writeLoop key f)

theorem valuesOf_removeImpl (buckets : Buckets K V) (key k : K) (bAll : Bool) :
    valuesOf (removeImpl buckets key bAll) k =
      if k = key then (if bAll then [] else (valuesOf buckets k).tail) else valuesOf buckets k := by
  unfold removeImpl
  rw [valuesOf_modify _ _ _ _ rfl, chainValues_removeLoop]
  unfold valuesOf
  by_cases hk : k = key
  · subst hk; simp
  · by_cases hi : bucketIndex buckets key = bucketIndex buckets k <;> simp [hk, hi]

theorem valuesOf_writeEntry (buckets : Buckets K V) (key k : K) (f : V → V) :
    valuesOf (writeEntry buckets key f) k =
      if k = key then (valuesOf buckets k).modifyHead f else valuesOf buckets k := by
  unfold writeEntry
  rw [valuesOf_modify _ _ _ _ rfl, chainValues_writeLoop]
  unfold valuesOf
  by_cases hk : k = key
  · subst hk; simp
  · by_cases hi : bucketIndex buckets key = bucketIndex buckets k <;> simp [hk, hi]

theorem placed_removeImpl {buckets : Buckets K V} (hp : Placed buckets) (key : K) (bAll : Bool) :
    Placed (removeImpl buckets key bAll) :=
  placed_modify hp fun _ _ he => .inl (List.mem_map_of_mem (mem_removeLoop he))

theorem placed_writeEntry {buckets : Buckets K V} (hp : Placed buckets) (key : K) (f : V → V) :
    Placed (writeEntry buckets key f) := by
  apply placed_modify hp
  intro bucket entry he
  left
  rw [← map_fst_writeLoop key f bucket]
  exact List.mem_map_of_mem he

theorem length_flatten_removeImpl (buckets : Buckets K V) (key : K) :
    (removeImpl buckets key true).flatten.length + (valuesOf buckets key).length = buckets.flatten.length := by
  by_cases hne : buckets = []
  · subst hne; simp [removeImpl]
  obtain ⟨before, behind, h₁, h₂⟩ := flatten_modify (bucketIndex_lt hne key) (removeLoop key true)
  have hlen := length_removeLoop key (buckets.getD (bucketIndex buckets key) [])
  unfold removeImpl valuesOf
  rw [h₁, h₂]
  simp only [List.length_append]
  omega

theorem length_flatten_removeImpl_le (buckets : Buckets K V) (key : K) (bAll : Bool) :
    (removeImpl buckets key bAll).flatten.length ≤ buckets.flatten.length := by
  by_cases hne : buckets = []
  · subst hne; simp [removeImpl]
  obtain ⟨before, behind, h₁, h₂⟩ := flatten_modify (bucketIndex_lt hne key) (removeLoop key bAll)
  have hlen := length_removeLoop_le key bAll (buckets.getD (bucketIndex buckets key) [])
  unfold removeImpl
  rw [h₁, h₂]
  simp only [List.length_append]
  omega

theorem length_flatten_writeEntry (buckets : Buckets K V) (key : K) (f : V → V) :
    (writeEntry buckets key f).flatten.length = buckets.flatten.length := by
  by_cases hne : buckets = []
  · subst hne; simp [writeEntry]
  obtain ⟨before, behind, h₁, h₂⟩ := flatten_modify (bucketIndex_lt hne key) (writeLoop key f)
  have hlen := congrArg List.length (map_fst_writeLoop key f (buckets.getD (bucketIndex buckets key) []))
  rw [List.length_map, List.length_map] at hlen
  unfold writeEntry
  rw [h₁, h₂]
  simp only [List.length_append, hlen]

/-- Without an entry of the key there is nothing to remove. -/
theorem removeImpl_of_valuesOf_nil {buckets : Buckets K V} {key : K} (h : valuesOf buckets key = []) :
    removeImpl buckets key false = buckets := by
  have hloop : ∀ chain : List (K × V), chainValues key chain = [] → removeLoop key false chain = chain := by
    intro chain
    induction chain with
    | nil => exact fun _ => rfl
    | cons e next ih =>
      intro hc
      rw [chainValues_cons] at hc
      unfold removeLoop
      split at hc
      · cases hc
      · rename_i he
        rw [if_neg he, ih hc]
  unfold valuesOf at h
  unfold removeImpl
  apply List.ext_getElem?
  intro i
  rw [List.getElem?_modify]
  split
  · rename_i hi
    subst hi
    cases hb : buckets[bucketIndex buckets key]? with
    | none => rfl
    | some bucket =>
      rw [List.getD_eq_getElem?_getD, hb, Option.getD_some] at h
      exact congrArg some (hloop _ h)
  · exact id_map _

/-! ### The entries of a walk, whatever their order -/

omit [DecidableEq K] in
theorem perm_insertEntry {buckets : Buckets K V} (hne : buckets ≠ []) (entry : K × V) :
    (insertEntry buckets entry).flatten.Perm (entry :: buckets.flatten) := by
  obtain ⟨before, behind, h₁, h₂⟩ := flatten_modify (bucketIndex_lt hne entry.1) (entry :: ·)
  unfold insertEntry
  rw [h₁, h₂, List.append_assoc, List.append_assoc]
  exact List.perm_middle

omit [DecidableEq K] in
theorem perm_foldl_insertEntry : ∀ (entries : List (K × V)) {buckets : Buckets K V}, buckets ≠ [] →
    (entries.foldl insertEntry buckets).flatten.Perm (entries ++ buckets.flatten)
  | [], _, _ => .refl _
  | entry :: entries, buckets, hne => by
    rw [List.foldl_cons]
    refine (perm_foldl_insertEntry entries (insertEntry_ne_nil hne entry)).trans ?_
    exact ((perm_insertEntry hne entry).append_left entries).trans List.perm_middle

omit [Hasher K] [DecidableEq K] in
theorem perm_flatMap_reverse : ∀ buckets : Buckets K V, (buckets.flatMap List.reverse).Perm buckets.flatten
  | [] => .refl _
  | bucket :: buckets => by
    rw [List.flatMap_cons, List.flatten_cons]
    exact bucket.reverse_perm.append (perm_flatMap_reverse buckets)

omit [DecidableEq K] in
theorem perm_moveTable {n : Nat} (hn : 0 < n) (buckets : Buckets K V) :
    (moveTable n buckets).flatten.Perm buckets.flatten := by
  have hne : (List.replicate n [] : Buckets K V) ≠ [] := by
    rw [← List.length_pos_iff, List.length_replicate]; exact hn
  have hnil : (List.replicate n [] : Buckets K V).flatten = [] := by simp
  unfold moveTable
  refine (perm_foldl_insertEntry _ hne).trans ?_
  rw [hnil, List.append_nil]
  exact perm_flatMap_reverse buckets

omit [Hasher K] in
theorem perm_writeLoop {key : K} {old : V} : ∀ {chain : List (K × V)}, (chain.find? (·.1 = key)).map (·.2) = some old →
    ∀ f : V → V, ∃ l, chain.Perm ((key, old) :: l) ∧ (writeLoop key f chain).Perm ((key, f old) :: l) ∧
      (removeLoop key false chain).Perm l
  | [], h, _ => by cases h
  | e :: next, h, f => by
    unfold writeLoop removeLoop
    by_cases he : e.1 = key
    · rw [List.find?_cons_of_pos (by simpa using he)] at h
      cases h
      rw [if_pos he, if_pos he, if_neg Bool.false_ne_true, ← he]
      exact ⟨next, .refl _, .refl _, .refl _⟩
    · rw [List.find?_cons_of_neg (by simpa using he)] at h
      obtain ⟨l, h₁, h₂, h₃⟩ := perm_writeLoop h f
      rw [if_neg he, if_neg he]
      exact ⟨e :: l, (h₁.cons e).trans (.swap _ _ _), (h₂.cons e).trans (.swap _ _ _), h₃.cons e⟩

/-- What is written over and what is removed is the entry a look-up finds. -/
theorem perm_writeEntry {buckets : Buckets K V} {key : K} {old : V} (hf : findEntry buckets key = some old) (f : V → V) :
    ∃ l, buckets.flatten.Perm ((key, old) :: l) ∧ (writeEntry buckets key f).flatten.Perm ((key, f old) :: l) ∧
      (removeImpl buckets key false).flatten.Perm l := by
  have hne : buckets ≠ [] := by
    rintro rfl
    simp [findEntry] at hf
  have hlt := bucketIndex_lt hne key
  obtain ⟨l, h₁, h₂, h₃⟩ := perm_writeLoop hf f
  obtain ⟨before, behind, e₁, e₂⟩ := flatten_modify hlt (writeLoop key f)
  obtain ⟨before', behind', e₁', e₃⟩ := flatten_modify hlt (removeLoop key false)
  have hmid : ∀ {x : K × V} {m : List (K × V)} {b d : List (K × V)}, m.Perm (x :: l) →
      (b ++ m ++ d).Perm (x :: (b ++ l ++ d)) := by
    intro x m b d hm
    refine ((hm.append_left b).append_right d).trans ?_
    rw [List.append_assoc, List.append_assoc]
    exact List.perm_middle
  refine ⟨before ++ l ++ behind, ?_, ?_, ?_⟩
  · rw [e₁]
    exact hmid h₁
  · unfold writeEntry
    rw [e₂]
    exact hmid h₂
  · unfold removeImpl
    have hcancel : (before ++ l ++ behind).Perm (before' ++ l ++ behind') := by
      have hp : ((key, old) :: (before ++ l ++ behind)).Perm ((key, old) :: (before' ++ l ++ behind')) :=
        (hmid h₁).symm.trans (by rw [← e₁, e₁']; exact hmid h₁)
      exact hp.cons_inv
    rw [e₃]
    exact ((h₃.append_left before').append_right behind').trans hcancel.symm

end Buckets

/-! ## The table -/

/-- `FW::Table`; before the first insertion it has no buckets. -/
structure Table (K V : Type) where
  buckets : List (List (K × V))
  count : Nat

namespace Table

section Growth

variable {K V : Type}

def empty : Table K V := ⟨[], 0⟩

/-- What a range-based loop over the table meets. -/
def toList (t : Table K V) : List (K × V) := t.buckets.flatten

def isEmpty (t : Table K V) : Bool := t.count = 0

/-- `MakeExclusive` on a table with one holder allocates the first bucket. -/
def makeExclusive (t : Table K V) : Table K V :=
  if t.buckets = [] then ⟨[[]], 0⟩ else t

theorem makeExclusive_ne_nil (t : Table K V) : t.makeExclusive.buckets ≠ [] := by
  unfold makeExclusive
  split
  · simp
  · assumption

theorem sizeOf_lt_of_mem_toList [SizeOf K] [SizeOf V] {t : Table K V} {entry : K × V} (h : entry ∈ t.toList) :
    sizeOf entry < sizeOf t := by
  obtain ⟨bucket, hb, he⟩ := List.mem_flatten.1 h
  have h₁ := List.sizeOf_lt_of_mem hb
  have h₂ := List.sizeOf_lt_of_mem he
  cases t
  simp only [Table.mk.sizeOf_spec] at *
  omega

variable [Hasher K]

/-- The growth step of `InsertValue`. -/
def grow (t : Table K V) : Table K V :=
  if t.count ≥ t.buckets.length ∧ t.buckets.length &&& 0x80000000 = 0 then
    ⟨moveTable (t.buckets.length * 2) t.buckets, t.count⟩
  else t

def insertValue (t : Table K V) (key : K) (value : V) : Table K V :=
  let t := t.grow
  ⟨insertEntry t.buckets (key, value), t.count + 1⟩

theorem placed_grow {t : Table K V} (hp : Placed t.buckets) : Placed t.grow.buckets := by
  unfold grow
  split
  · exact placed_moveTable _ _
  · exact hp

theorem length_toList_grow {t : Table K V} (hne : t.buckets ≠ []) : t.grow.toList.length = t.toList.length := by
  have hpos := List.length_pos_iff.2 hne
  unfold grow toList
  split
  · exact length_flatten_moveTable (by omega) _
  · rfl

@[simp] theorem count_grow (t : Table K V) : t.grow.count = t.count := by
  unfold grow; split <;> rfl

theorem grow_ne_nil {t : Table K V} (hne : t.buckets ≠ []) : t.grow.buckets ≠ [] := by
  have hpos := List.length_pos_iff.2 hne
  unfold grow
  split
  · rw [← List.length_pos_iff, length_moveTable]; omega
  · exact hne

end Growth

variable {K V : Type} [Hasher K] [DecidableEq K]

def findValue (t : Table K V) (key : K) : Option V := findEntry t.buckets key

/-- `GetOrAddValue`: a key that is missing gets the value a new entry starts with. -/
def getOrAddValue (t : Table K V) (key : K) (new : V) : Table K V :=
  let t := t.makeExclusive
  match findEntry t.buckets key with
  | some _ => t
  | none => t.insertValue key new

/-- A write through the pointer `findValue` or `getOrAddValue` returned. -/
def write (t : Table K V) (key : K) (f : V → V) : Table K V := ⟨writeEntry t.buckets key f, t.count⟩

/-- The assignment `t.GetOrAddValue(key) = value`. -/
def setValue (t : Table K V) (key : K) (value : V) : Table K V :=
  (t.getOrAddValue key value).write key fun _ => value

def remove (t : Table K V) (key : K) : Table K V :=
  let t := t.makeExclusive
  ⟨removeImpl t.buckets key true, t.count - (valuesOf t.buckets key).length⟩

/-- `erase` of the entry an iterator stands on; it leaves `Count` as it is. -/
def erase (t : Table K V) (key : K) : Table K V := ⟨removeImpl t.buckets key false, t.count⟩

/-- `RemoveImpl` of the first entry with a key, taken off the count. -/
def removeFirst (t : Table K V) (key : K) : Table K V :=
  ⟨removeImpl t.buckets key false, t.count - (findEntry t.buckets key).toList.length⟩

/-- Every entry in its place, no key twice, and no entry uncounted; the count may be too high,
since `erase` leaves it. -/
structure WF (t : Table K V) : Prop where
  placed : Placed t.buckets
  unique : ∀ key, (valuesOf t.buckets key).length ≤ 1
  counted : t.toList.length ≤ t.count

/-! ### What each operation does to the look-ups -/

theorem mem_toList_of_findValue {t : Table K V} {key : K} {value : V} (h : t.findValue key = some value) :
    (key, value) ∈ t.toList := by
  unfold findValue findEntry at h
  obtain ⟨⟨k, v⟩, hf, rfl⟩ := Option.map_eq_some_iff.1 h
  have hk : k = key := by simpa using List.find?_some hf
  have hm := List.mem_of_find?_eq_some hf
  rw [List.getD_eq_getElem?_getD] at hm
  rcases hb : t.buckets[bucketIndex t.buckets key]? with _ | bucket
  · rw [hb] at hm; cases hm
  · rw [hb] at hm
    exact List.mem_flatten.2 ⟨bucket, List.mem_of_getElem? hb, hk ▸ hm⟩

theorem empty_wf : (empty : Table K V).WF :=
  ⟨placed_replicate 0, by simp [empty], Nat.le_refl 0⟩

@[simp] theorem findValue_empty (key : K) : (empty : Table K V).findValue key = none := by
  simp [findValue, empty, findEntry_eq]

theorem WF.valuesOf_eq {t : Table K V} (hw : t.WF) (key : K) : valuesOf t.buckets key = (t.findValue key).toList := by
  unfold findValue
  rw [findEntry_eq]
  have hlen := hw.unique key
  generalize valuesOf t.buckets key = values at hlen ⊢
  rcases values with _ | ⟨v, _ | ⟨_, _⟩⟩
  · rfl
  · rfl
  · simp at hlen

theorem WF.mem_toList {t : Table K V} (hw : t.WF) {key : K} {value : V} :
    (key, value) ∈ t.toList ↔ t.findValue key = some value := by
  unfold toList
  rw [← mem_chainValues, chainValues_flatten hw.placed, hw.valuesOf_eq, Option.mem_toList]

/-- `IsEmpty` is to be trusted. -/
theorem WF.findValue_of_isEmpty {t : Table K V} (hw : t.WF) (he : t.isEmpty = true) (key : K) :
    t.findValue key = none := by
  have hnil : t.toList = [] := by
    rw [← List.length_eq_zero_iff]
    have := hw.counted
    simp only [isEmpty, decide_eq_true_eq] at he
    omega
  rw [Option.eq_none_iff_forall_not_mem]
  intro value hv
  have := hw.mem_toList.2 hv
  rw [hnil] at this
  cases this

/-- The walk over a table meets no key twice. -/
theorem WF.nodup_keys {t : Table K V} (hw : t.WF) : (t.toList.map (·.1)).Nodup := by
  rw [List.nodup_iff_count_le_one]
  intro key
  have hlen := hw.unique key
  rw [← chainValues_flatten hw.placed] at hlen
  unfold toList
  calc (t.buckets.flatten.map (·.1)).count key
      = (chainValues key t.buckets.flatten).length := by
        rw [chainValues, List.length_map, ← List.countP_eq_length_filter, List.count, List.countP_map]
        rfl
    _ ≤ 1 := hlen

theorem makeExclusive_wf {t : Table K V} (hw : t.WF) : t.makeExclusive.WF := by
  unfold makeExclusive
  split
  · exact ⟨placed_replicate 1, by simp, Nat.le_refl 0⟩
  · exact hw

theorem valuesOf_makeExclusive (t : Table K V) (key : K) :
    valuesOf t.makeExclusive.buckets key = valuesOf t.buckets key := by
  unfold makeExclusive
  split
  · rename_i h
    rw [h, valuesOf_single, valuesOf_nil]
  · rfl

theorem valuesOf_grow {t : Table K V} (hne : t.buckets ≠ []) (hp : Placed t.buckets) (key : K) :
    valuesOf t.grow.buckets key = valuesOf t.buckets key := by
  have hpos := List.length_pos_iff.2 hne
  unfold grow
  split
  · exact valuesOf_moveTable (by omega) hp key
  · rfl

theorem valuesOf_insertValue {t : Table K V} (hne : t.buckets ≠ []) (hp : Placed t.buckets) (key k : K) (value : V) :
    valuesOf (t.insertValue key value).buckets k =
      if key = k then value :: valuesOf t.buckets k else valuesOf t.buckets k := by
  unfold insertValue
  rw [valuesOf_insertEntry (grow_ne_nil hne), valuesOf_grow hne hp]

omit [DecidableEq K] in
theorem insertValue_ne_nil {t : Table K V} (hne : t.buckets ≠ []) (key : K) (value : V) :
    (t.insertValue key value).buckets ≠ [] :=
  insertEntry_ne_nil (grow_ne_nil hne) _

omit [DecidableEq K] in
theorem placed_insertValue {t : Table K V} (hp : Placed t.buckets) (key : K) (value : V) :
    Placed (t.insertValue key value).buckets :=
  placed_insertEntry (placed_grow hp) _

omit [DecidableEq K] in
theorem perm_insertValue {t : Table K V} (hne : t.buckets ≠ []) (key : K) (value : V) :
    (t.insertValue key value).toList.Perm ((key, value) :: t.toList) := by
  have hpos := List.length_pos_iff.2 hne
  refine (perm_insertEntry (grow_ne_nil hne) _).trans (.cons _ ?_)
  unfold grow toList
  split
  · exact perm_moveTable (by omega) _
  · exact .refl _

theorem findValue_insertValue {t : Table K V} (hne : t.buckets ≠ []) (hp : Placed t.buckets) (key k : K) (value : V) :
    (t.insertValue key value).findValue k = if key = k then some value else t.findValue k := by
  unfold findValue
  rw [findEntry_eq, valuesOf_insertValue hne hp, findEntry_eq]
  split <;> rfl

theorem valuesOf_getOrAddValue {t : Table K V} (hw : t.WF) (key k : K) (new : V) :
    valuesOf (t.getOrAddValue key new).buckets k =
      if key = k ∧ t.findValue k = none then [new] else valuesOf t.buckets k := by
  have hx := makeExclusive_wf hw
  have hfind : findEntry t.makeExclusive.buckets key = t.findValue key := by
    rw [findEntry_eq, valuesOf_makeExclusive, ← findEntry_eq]; rfl
  simp only [getOrAddValue, hfind]
  cases hf : t.findValue key with
  | some v =>
    have : ¬ (key = k ∧ t.findValue k = none) := by
      rintro ⟨rfl, h⟩; rw [hf] at h; cases h
    rw [if_neg this]
    exact valuesOf_makeExclusive t k
  | none =>
    rw [valuesOf_insertValue t.makeExclusive_ne_nil hx.placed, valuesOf_makeExclusive]
    by_cases hk : key = k
    · subst hk
      simp [hf, hw.valuesOf_eq]
    · simp [hk]

theorem getOrAddValue_wf {t : Table K V} (hw : t.WF) (key : K) (new : V) : (t.getOrAddValue key new).WF := by
  refine ⟨?_, ?_, ?_⟩
  · have hx := makeExclusive_wf hw
    simp only [getOrAddValue]
    split
    · exact hx.placed
    · exact placed_insertEntry (placed_grow hx.placed) _
  · intro k
    rw [valuesOf_getOrAddValue hw]
    split
    · simp
    · exact hw.unique k
  · have hx := (makeExclusive_wf hw).counted
    have hne := t.makeExclusive_ne_nil
    simp only [getOrAddValue]
    split
    · exact hx
    · have hlen := length_flatten_insertEntry (grow_ne_nil hne) (key, new)
      have hgrow := length_toList_grow hne
      simp only [insertValue, toList, count_grow] at *
      omega

theorem write_wf {t : Table K V} (hw : t.WF) (key : K) (f : V → V) : (t.write key f).WF := by
  refine ⟨placed_writeEntry hw.placed key f, ?_, ?_⟩
  rotate_left
  · have := hw.counted
    simp only [write, toList, length_flatten_writeEntry] at *
    exact this
  intro k
  have := hw.unique k
  simp only [write]
  rw [valuesOf_writeEntry]
  split
  · rwa [List.length_modifyHead]
  · exact this

theorem setValue_wf {t : Table K V} (hw : t.WF) (key : K) (value : V) : (t.setValue key value).WF :=
  write_wf (getOrAddValue_wf hw key value) key _

theorem remove_wf {t : Table K V} (hw : t.WF) (key : K) : (t.remove key).WF := by
  refine ⟨placed_removeImpl (makeExclusive_wf hw).placed key true, ?_, ?_⟩
  rotate_left
  · have hx := (makeExclusive_wf hw).counted
    have hlen := length_flatten_removeImpl t.makeExclusive.buckets key
    simp only [remove, toList] at *
    omega
  intro k
  simp only [remove, valuesOf_removeImpl, valuesOf_makeExclusive]
  split
  · simp
  · exact hw.unique k

theorem erase_wf {t : Table K V} (hw : t.WF) (key : K) : (t.erase key).WF := by
  refine ⟨placed_removeImpl hw.placed key false, ?_, ?_⟩
  rotate_left
  · have hlen := length_flatten_removeImpl_le t.buckets key false
    have := hw.counted
    simp only [erase, toList] at *
    omega
  intro k
  have := hw.unique k
  simp only [erase, valuesOf_removeImpl]
  split
  · simp only [Bool.false_eq_true, if_false, List.length_tail]; omega
  · exact this

theorem findValue_getOrAddValue {t : Table K V} (hw : t.WF) (key k : K) (new : V) :
    (t.getOrAddValue key new).findValue k = if k = key then some ((t.findValue key).getD new) else t.findValue k := by
  unfold findValue
  rw [findEntry_eq, valuesOf_getOrAddValue hw]
  by_cases hk : key = k
  · subst hk
    cases hf : t.findValue key with
    | none =>
      have : findEntry t.buckets key = none := hf
      simp [this]
    | some v =>
      have : findEntry t.buckets key = some v := hf
      rw [findEntry_eq] at this
      simp [findEntry_eq, this]
  · simp [hk, Ne.symm hk, findEntry_eq]

theorem findValue_write (t : Table K V) (key k : K) (f : V → V) :
    (t.write key f).findValue k = if k = key then (t.findValue k).map f else t.findValue k := by
  simp only [findValue, write, findEntry_eq, valuesOf_writeEntry]
  split
  · cases valuesOf t.buckets k <;> rfl
  · rfl

theorem findValue_setValue {t : Table K V} (hw : t.WF) (key k : K) (value : V) :
    (t.setValue key value).findValue k = if k = key then some value else t.findValue k := by
  unfold setValue
  rw [findValue_write, findValue_getOrAddValue hw]
  split <;> simp

theorem findValue_remove {t : Table K V} (key k : K) :
    (t.remove key).findValue k = if k = key then none else t.findValue k := by
  simp only [findValue, remove, findEntry_eq, valuesOf_removeImpl, valuesOf_makeExclusive]
  split <;> rfl

theorem findValue_erase {t : Table K V} (hw : t.WF) (key k : K) :
    (t.erase key).findValue k = if k = key then none else t.findValue k := by
  have := hw.valuesOf_eq k
  simp only [findValue, erase, findEntry_eq, valuesOf_removeImpl] at this ⊢
  split
  · rw [this]
    cases (valuesOf t.buckets k).head? <;> rfl
  · rfl

/-! ### Tables that are never erased from -/

/-- A table with buckets, no key twice, and the count of its entries. -/
structure Exact (t : Table K V) : Prop where
  buckets_ne : t.buckets ≠ []
  placed : Placed t.buckets
  unique : ∀ key, (valuesOf t.buckets key).length ≤ 1
  count_eq : t.toList.length = t.count

theorem Exact.wf {t : Table K V} (h : t.Exact) : t.WF := ⟨h.placed, h.unique, h.count_eq.le⟩

theorem Exact.write {t : Table K V} (h : t.Exact) (key : K) (f : V → V) : (t.write key f).Exact := by
  refine ⟨?_, placed_writeEntry h.placed key f, fun k => ?_, ?_⟩
  · unfold Table.write writeEntry
    rw [← List.length_pos_iff, List.length_modify]
    exact List.length_pos_iff.2 h.buckets_ne
  · unfold Table.write
    rw [valuesOf_writeEntry]
    split
    · rw [List.length_modifyHead]
      exact h.unique k
    · exact h.unique k
  · exact (length_flatten_writeEntry _ _ _).trans h.count_eq

theorem Exact.insertValue {t : Table K V} (h : t.Exact) {key : K} (hf : t.findValue key = none) (value : V) :
    (t.insertValue key value).Exact := by
  refine ⟨insertValue_ne_nil h.buckets_ne key value, placed_insertValue h.placed key value, fun k => ?_, ?_⟩
  · rw [valuesOf_insertValue h.buckets_ne h.placed]
    split
    · rename_i hk
      rw [h.wf.valuesOf_eq, ← hk, hf]
      exact Nat.le_refl 1
    · exact h.unique k
  · rw [(perm_insertValue h.buckets_ne key value).length_eq, List.length_cons, h.count_eq, Table.insertValue, count_grow]

theorem Exact.removeFirst {t : Table K V} (h : t.Exact) (key : K) : (t.removeFirst key).Exact := by
  refine ⟨?_, placed_removeImpl h.placed key false, fun k => ?_, ?_⟩
  · unfold Table.removeFirst removeImpl
    rw [← List.length_pos_iff, List.length_modify]
    exact List.length_pos_iff.2 h.buckets_ne
  · unfold Table.removeFirst
    rw [valuesOf_removeImpl]
    have hu := h.unique k
    split
    · simp only [Bool.false_eq_true, if_false, List.length_tail]
      omega
    · exact hu
  · have hcount := h.count_eq
    unfold Table.removeFirst toList at *
    cases hf : findEntry t.buckets key with
    | none =>
      have hnil : valuesOf t.buckets key = [] := by
        rw [findEntry_eq, List.head?_eq_none_iff] at hf
        exact hf
      rw [removeImpl_of_valuesOf_nil hnil, hcount]
      rfl
    | some old =>
      obtain ⟨l, h₁, -, h₃⟩ := perm_writeEntry hf id
      rw [h₁.length_eq, List.length_cons] at hcount
      rw [h₃.length_eq, ← hcount]
      rfl

theorem Exact.findValue_removeFirst {t : Table K V} (h : t.Exact) (key k : K) :
    (t.removeFirst key).findValue k = if k = key then none else t.findValue k := by
  unfold findValue
  rw [findEntry_eq, findEntry_eq, Table.removeFirst, valuesOf_removeImpl]
  have hu := h.unique k
  split
  · rw [if_neg Bool.false_ne_true, List.head?_eq_none_iff, ← List.length_eq_zero_iff, List.length_tail]
    omega
  · rfl

theorem exact_replicate {n : Nat} (hn : 0 < n) : (⟨List.replicate n [], 0⟩ : Table K V).Exact := by
  have hnil : ∀ key, valuesOf (List.replicate n [] : Buckets K V) key = [] := by
    intro key
    unfold valuesOf
    rw [List.getD_eq_getElem?_getD, List.getElem?_replicate]
    split <;> rfl
  refine ⟨fun h => ?_, placed_replicate n, fun key => ?_, ?_⟩
  · rw [List.replicate_eq_nil_iff] at h
    omega
  · rw [hnil]
    exact Nat.zero_le 1
  · exact congrArg List.length (List.flatten_eq_nil_iff.2 fun l hl => List.eq_of_mem_replicate hl)

theorem Exact.setValue {t : Table K V} (h : t.Exact) (key : K) (value : V) : (t.setValue key value).Exact := by
  have hadd : (t.getOrAddValue key value).Exact := by
    have hself : t.makeExclusive = t := by rw [makeExclusive, if_neg h.buckets_ne]
    unfold getOrAddValue
    rw [hself]
    dsimp only
    cases hf : findEntry t.buckets key with
    | some old => exact h
    | none => exact h.insertValue hf value
  exact hadd.write key _

end Table

end MajorPrivacy.Core

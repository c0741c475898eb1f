/-
Maps that are kept as the list of their entries in the order of the keys: look-up, a change in
place and the insertion of a new key. Look-up and change split the list at the entry, insertion
splits it where the entry goes; what is said of a whole map is read off the two parts.
-/
import Mathlib.Data.List.Basic
import Mathlib.Data.List.Nodup

namespace MajorPrivacy.Dict

variable {K V : Type}

section Keyed
variable [DecidableEq K]

/-- The value under a key. -/
def find (key : K) : List (K × V) → Option V
  | [] => none
  | (k, v) :: rest => if k = key then some v else find key rest

/-- A change of the value under a key, where it is. -/
def modify (key : K) (f : V → V) : List (K × V) → List (K × V)
  | [] => []
  | (k, v) :: rest => if k = key then (k, f v) :: rest else (k, v) :: modify key f rest

/-- A map without the entry of a key. -/
def erase (key : K) : List (K × V) → List (K × V)
  | [] => []
  | (k, v) :: rest => if k = key then rest else (k, v) :: erase key rest

end Keyed

/-- A new key, placed in front of the first key it comes before. -/
def insert (before : K → K → Bool) (key : K) (value : V) : List (K × V) → List (K × V)
  | [] => [(key, value)]
  | (k, v) :: rest => if before key k then (key, value) :: (k, v) :: rest else (k, v) :: insert before key value rest

/-- A key that is changed if it is there, else placed. -/
def put [DecidableEq K] (before : K → K → Bool) (key : K) (value : V) (l : List (K × V)) : List (K × V) :=
  match find key l with
  | some _ => modify key (fun _ => value) l
  | none => insert before key value l

/-- The keys stand in their order. -/
def Sorted (before : K → K → Bool) (l : List (K × V)) : Prop := l.Pairwise fun a b => before a.1 b.1

section Splitting
variable [DecidableEq K] {key : K} {value : V}

theorem find_eq_none : ∀ {l : List (K × V)}, find key l = none ↔ ∀ e ∈ l, e.1 ≠ key
  | [] => by simp [find]
  | (k, v) :: rest => by
    unfold find
    split
    · simp_all
    · rename_i hk
      rw [find_eq_none, List.forall_mem_cons]
      exact ⟨fun h => ⟨hk, h⟩, fun h => h.2⟩

/-- A key that is found splits the map, and a change happens between the parts. -/
theorem exists_of_find : ∀ {l : List (K × V)}, find key l = some value →
    ∃ a b, l = a ++ (key, value) :: b ∧ (∀ e ∈ a, e.1 ≠ key) ∧ ∀ f, modify key f l = a ++ (key, f value) :: b
  | [], h => by cases h
  | (k, v) :: rest, h => by
    unfold find at h
    split at h
    · rename_i hk
      cases h
      subst hk
      exact ⟨[], rest, rfl, by simp, fun f => by simp [modify]⟩
    · rename_i hk
      rcases exists_of_find h with ⟨a, b, hl, ha, hmodify⟩
      refine ⟨(k, v) :: a, b, by rw [hl]; rfl, List.forall_mem_cons.2 ⟨hk, ha⟩, fun f => ?_⟩
      rw [modify, if_neg hk, hmodify]
      rfl

theorem mem_modify {f : V → V} {e : K × V} : ∀ {l : List (K × V)}, e ∈ modify key f l → (∃ v, (key, v) ∈ l ∧ e = (key, f v)) ∨ e ∈ l
  | [], he => by cases he
  | (k, v) :: rest, he => by
    unfold modify at he
    split at he
    · rename_i hk
      rcases List.mem_cons.1 he with rfl | he
      · exact .inl ⟨v, hk ▸ List.mem_cons_self, by rw [hk]⟩
      · exact .inr (List.mem_cons_of_mem _ he)
    · rcases List.mem_cons.1 he with rfl | he
      · exact .inr List.mem_cons_self
      · rcases mem_modify he with ⟨w, hw, rfl⟩ | he
        · exact .inl ⟨w, List.mem_cons_of_mem _ hw, rfl⟩
        · exact .inr (List.mem_cons_of_mem _ he)

theorem mem_of_find {l : List (K × V)} (h : find key l = some value) : (key, value) ∈ l := by
  rcases exists_of_find h with ⟨a, b, rfl, -, -⟩
  simp

theorem find_append_of_not_mem : ∀ {a b : List (K × V)}, (∀ e ∈ a, e.1 ≠ key) → find key (a ++ b) = find key b
  | [], _, _ => rfl
  | (k, v) :: a, b, h => by
    rw [List.cons_append, find, if_neg (h _ List.mem_cons_self)]
    exact find_append_of_not_mem fun e he => h e (List.mem_cons_of_mem _ he)

theorem find_modify_self {f : V → V} {l : List (K × V)} (h : find key l = some value) : find key (modify key f l) = some (f value) := by
  rcases exists_of_find h with ⟨a, b, -, ha, hmodify⟩
  rw [hmodify, find_append_of_not_mem ha, find, if_pos rfl]

theorem erase_of_find_eq_none : ∀ {l : List (K × V)}, find key l = none → erase key l = l
  | [], _ => rfl
  | (k, v) :: rest, h => by
    unfold find at h
    split at h
    · cases h
    · rename_i hk
      rw [erase, if_neg hk, erase_of_find_eq_none h]

theorem erase_append_of_not_mem : ∀ {a b : List (K × V)}, (∀ e ∈ a, e.1 ≠ key) → erase key (a ++ b) = a ++ erase key b
  | [], _, _ => rfl
  | (k, v) :: a, b, h => by
    rw [List.cons_append, erase, if_neg (h _ List.mem_cons_self), erase_append_of_not_mem fun e he => h e (List.mem_cons_of_mem _ he)]
    rfl

theorem erase_subset : ∀ {l : List (K × V)}, erase key l ⊆ l
  | [] => List.Subset.refl _
  | (k, v) :: rest => by
    unfold erase
    split
    · exact List.subset_cons_self _ _
    · exact List.cons_subset_cons _ erase_subset

/-- A map is the entry of a key and the map without it. -/
theorem perm_of_find {l : List (K × V)} (h : find key l = some value) : l.Perm ((key, value) :: erase key l) := by
  rcases exists_of_find h with ⟨a, b, rfl, ha, -⟩
  rw [erase_append_of_not_mem ha, erase, if_pos rfl]
  exact List.perm_middle

theorem modify_perm {l : List (K × V)} (f : V → V) (h : find key l = some value) :
    (modify key f l).Perm ((key, f value) :: erase key l) := by
  rcases exists_of_find h with ⟨a, b, rfl, ha, hmodify⟩
  rw [hmodify, erase_append_of_not_mem ha, erase, if_pos rfl]
  exact List.perm_middle

theorem find_erase_of_ne {other : K} (hne : other ≠ key) : ∀ l : List (K × V), find key (erase other l) = find key l
  | [] => rfl
  | (k, v) :: rest => by
    unfold erase
    split
    · rename_i hk
      rw [find, if_neg (hk ▸ hne)]
    · rw [find, find, find_erase_of_ne hne rest]

theorem find_modify_of_ne {other : K} (f : V → V) (hne : other ≠ key) : ∀ l : List (K × V), find key (modify other f l) = find key l
  | [] => rfl
  | (k, v) :: rest => by
    unfold modify
    split
    · rename_i hk
      rw [find, if_neg (hk ▸ hne), find, if_neg (hk ▸ hne)]
    · rw [find, find, find_modify_of_ne f hne rest]

end Splitting

section Insertion
variable {before : K → K → Bool} {key : K} {value : V}

/-- A new key splits the map where it goes: no key in front of it comes after it, and it comes before
the key behind it. -/
theorem exists_of_insert (before : K → K → Bool) (key : K) (value : V) : ∀ l : List (K × V), ∃ a b, l = a ++ b ∧ insert before key value l = a ++ (key, value) :: b ∧
    (∀ e ∈ a, before key e.1 = false) ∧ ∀ e, b.head? = some e → before key e.1
  | [] => ⟨[], [], rfl, rfl, by simp, by simp⟩
  | (k, v) :: rest => by
    unfold insert
    split
    · rename_i hk
      exact ⟨[], (k, v) :: rest, rfl, rfl, by simp, by simpa using hk⟩
    · rename_i hk
      rcases exists_of_insert before key value rest with ⟨a, b, hl, hinsert, ha, hb⟩
      refine ⟨(k, v) :: a, b, by rw [hl]; rfl, by rw [hinsert]; rfl, ?_, hb⟩
      rw [List.forall_mem_cons]
      exact ⟨by simpa using hk, ha⟩

theorem insert_perm (l : List (K × V)) : (insert before key value l).Perm ((key, value) :: l) := by
  rcases exists_of_insert before key value l with ⟨a, b, hl, hinsert, -, -⟩
  rw [hinsert, hl]
  exact List.perm_middle

variable [DecidableEq K]

theorem find_insert_of_ne {other : K} (hne : other ≠ key) : ∀ l : List (K × V), find key (insert before other value l) = find key l
  | [] => by simp [insert, find, hne]
  | (k, v) :: rest => by
    unfold insert
    split
    · rw [find, if_neg hne]
    · rw [find, find, find_insert_of_ne hne rest]

theorem find_put_of_ne {other : K} (hne : other ≠ key) (l : List (K × V)) : find key (put before other value l) = find key l := by
  unfold put
  split
  · exact find_modify_of_ne _ hne l
  · exact find_insert_of_ne hne l

/-- A map with a key is its new entry and the map without the key. -/
theorem put_perm (before : K → K → Bool) (key : K) (value : V) (l : List (K × V)) :
    (put before key value l).Perm ((key, value) :: erase key l) := by
  unfold put
  split
  · rename_i hfind
    exact modify_perm _ hfind
  · rename_i hfind
    rw [erase_of_find_eq_none hfind]
    exact insert_perm l

theorem erase_put_perm {other : K} (hne : other ≠ key) (l : List (K × V)) :
    (erase key (put before other value l)).Perm ((other, value) :: erase key (erase other l)) := by
  have hput := put_perm before other value l
  have hsame : find key (erase other l) = find key (put before other value l) := by
    rw [find_erase_of_ne hne, find_put_of_ne hne]
  rcases hfind : find key (put before other value l) with _ | old
  · rw [hfind] at hsame
    rwa [erase_of_find_eq_none hfind, erase_of_find_eq_none hsame]
  · rw [hfind] at hsame
    -- both sides are what is left of the same map without the entry of the key
    have hboth := (perm_of_find hfind).symm.trans (hput.trans ((perm_of_find hsame).cons _))
    exact (hboth.trans (.swap _ _ _)).cons_inv

theorem mem_put {e : K × V} {l : List (K × V)} (h : e ∈ put before key value l) : e = (key, value) ∨ e ∈ l := by
  rcases List.mem_cons.1 ((put_perm before key value l).mem_iff.1 h) with rfl | he
  · exact .inl rfl
  · exact .inr (erase_subset he)

theorem find_put (before : K → K → Bool) (key : K) (value : V) (l : List (K × V)) : find key (put before key value l) = some value := by
  unfold put
  split
  · rename_i hfind
    rcases exists_of_find hfind with ⟨a, b, -, ha, hmodify⟩
    rw [hmodify, find_append_of_not_mem ha, find, if_pos rfl]
  · rename_i hfind
    rcases exists_of_insert before key value l with ⟨a, b, hl, hinsert, -, -⟩
    have ha : ∀ e ∈ a, e.1 ≠ key := fun e he => find_eq_none.1 hfind e (hl ▸ List.mem_append_left b he)
    rw [hinsert, find_append_of_not_mem ha, find, if_pos rfl]

end Insertion

section Keys
variable [DecidableEq K] {key : K} {value : V} {l : List (K × V)}

theorem map_fst_modify (f : V → V) : ∀ l : List (K × V), (modify key f l).map (·.1) = l.map (·.1)
  | [] => rfl
  | (k, v) :: rest => by
    unfold modify
    split
    · rfl
    · rw [List.map_cons, List.map_cons, map_fst_modify f rest]

theorem nodup_put (before : K → K → Bool) (h : (l.map (·.1)).Nodup) : ((put before key value l).map (·.1)).Nodup := by
  unfold put
  split
  · rwa [map_fst_modify]
  · rename_i hfind
    rw [((insert_perm l).map _).nodup_iff, List.map_cons, List.nodup_cons, List.mem_map]
    exact ⟨fun ⟨e, he, hkey⟩ => find_eq_none.1 hfind e he hkey, h⟩

theorem erase_sublist : ∀ l : List (K × V), (erase key l).Sublist l
  | [] => List.Sublist.refl _
  | (k, v) :: rest => by
    unfold erase
    split
    · exact List.sublist_cons_self _ _
    · exact (erase_sublist rest).cons_cons _

theorem find_of_mem (h : (l.map (·.1)).Nodup) (hmem : (key, value) ∈ l) : find key l = some value := by
  rcases List.append_of_mem hmem with ⟨a, b, rfl⟩
  rw [List.map_append, List.nodup_append] at h
  have ha : ∀ e ∈ a, e.1 ≠ key := fun e he hkey =>
    h.2.2 _ (List.mem_map_of_mem he) _ (List.mem_map_of_mem List.mem_cons_self) hkey
  rw [find_append_of_not_mem ha, find, if_pos rfl]

theorem find_erase_self (h : (l.map (·.1)).Nodup) : find key (erase key l) = none := by
  rcases hfind : find key l with _ | value
  · rwa [erase_of_find_eq_none hfind]
  · rcases exists_of_find hfind with ⟨a, b, rfl, ha, -⟩
    rw [List.map_append, List.map_cons, List.nodup_append, List.nodup_cons] at h
    rw [erase_append_of_not_mem ha, erase, if_pos rfl, find_append_of_not_mem ha, find_eq_none]
    exact fun e he hkey => h.2.1.1 (List.mem_map.2 ⟨e, he, hkey⟩)

theorem find_map {V' : Type} (f : K → V → V') : ∀ l : List (K × V), find key (l.map fun e => (e.1, f e.1 e.2)) = (find key l).map (f key)
  | [] => rfl
  | (k, v) :: rest => by
    rw [List.map_cons, find, find]
    split
    · rename_i hk
      rw [hk]
      rfl
    · exact find_map f rest

end Keys

section Sorting
variable {before : K → K → Bool} {key : K} {value : V}

theorem sorted_iff {l : List (K × V)} : Sorted before l ↔ (l.map (·.1)).Pairwise fun a b => before a b := by
  rw [List.pairwise_map]
  rfl

/-- A key that comes after all others is placed at the end. -/
theorem insert_of_after : ∀ {l : List (K × V)}, (∀ e ∈ l, before key e.1 = false) → insert before key value l = l ++ [(key, value)]
  | [], _ => rfl
  | (k, v) :: rest, h => by
    rw [insert, if_neg (by simpa using h _ List.mem_cons_self), insert_of_after fun e he => h e (List.mem_cons_of_mem _ he)]
    rfl

variable [DecidableEq K]

theorem Sorted.modify {l : List (K × V)} (h : Sorted before l) (f : V → V) : Sorted before (Dict.modify key f l) := by
  rw [sorted_iff, map_fst_modify]
  exact sorted_iff.1 h

variable (htrans : ∀ a b c, before a b → before b c → before a c) (htotal : ∀ a b, a ≠ b → before a b ∨ before b a)
include htrans htotal

theorem Sorted.insert {l : List (K × V)} (h : Sorted before l) (hnew : find key l = none) :
    Sorted before (Dict.insert before key value l) := by
  have hne := find_eq_none.1 hnew
  rcases exists_of_insert before key value l with ⟨a, b, rfl, hinsert, ha, hb⟩
  rw [hinsert]
  rcases List.pairwise_append.1 h with ⟨hsa, hsb, hab⟩
  have hfront : ∀ e ∈ a, before e.1 key := fun e he =>
    (htotal e.1 key (hne e (List.mem_append_left _ he))).resolve_right (by rw [ha e he]; simp)
  have hbehind : ∀ e ∈ b, before key e.1 := by
    rintro e he
    cases b with
    | nil => cases he
    | cons first b =>
      have hfirst := hb first rfl
      rcases List.mem_cons.1 he with rfl | he
      · exact hfirst
      · exact htrans _ _ _ hfirst ((List.pairwise_cons.1 hsb).1 e he)
  refine List.pairwise_append.2 ⟨hsa, List.pairwise_cons.2 ⟨hbehind, hsb⟩, fun e he e' he' => ?_⟩
  rcases List.mem_cons.1 he' with rfl | he'
  · exact hfront e he
  · exact hab e he e' he'

theorem Sorted.put {l : List (K × V)} (h : Sorted before l) : Sorted before (Dict.put before key value l) := by
  unfold Dict.put
  split
  · exact h.modify _
  · rename_i hfind
    exact h.insert htrans htotal hfind

end Sorting

end MajorPrivacy.Dict

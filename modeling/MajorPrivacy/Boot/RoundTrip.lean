/-
The boot loader's configuration after any edits, written as XML and read again.
-/
import MajorPrivacy.Boot.DcsConfig
import MajorPrivacy.Buffer.Texts
import Mathlib.Data.List.TakeWhile

namespace MajorPrivacy.Boot

open LittleEndian Search MajorPrivacy.Core MajorPrivacy.Variant
open MajorPrivacy.Firewall (Str text decimal)

namespace DcsConfig

/-! ## The scan ends -/

theorem scanElement_progress {xml : Bytes} {uPos p : Nat}
    (h : scanElement xml uPos = .skipped p ∨ ∃ key value, scanElement xml uPos = .config key value p) :
    uPos < p ∧ uPos < xml.length := by
  have hstart : ∀ {uStart : Nat}, findFrom (startsWith (text "<config")) xml uPos = some uStart → uPos ≤ uStart ∧ uStart < xml.length :=
    findFrom_bounds
  unfold scanElement at h
  split at h
  · obtain h | ⟨_, _, h⟩ := h <;> cases h
  · rename_i uStart hs
    have hle := hstart hs
    split at h
    · rename_i uKeyAt uTagEnd _ htag
      have htag := findFrom_bounds htag
      split at h
      · obtain h | ⟨_, _, h⟩ := h <;> cases h
        omega
      split at h
      · obtain h | ⟨_, _, h⟩ := h <;> cases h
        omega
      split at h
      · obtain h | ⟨_, _, h⟩ := h <;> cases h
        omega
      split at h
      · obtain h | ⟨_, _, h⟩ := h <;> cases h
        omega
      split at h
      · obtain h | ⟨_, _, h⟩ := h <;> cases h
        omega
      dsimp only at h
      split at h
      · obtain h | ⟨_, _, h⟩ := h <;> cases h
        omega
      split at h
      · obtain h | ⟨_, _, h⟩ := h <;> cases h
      · rename_i uValueEnd hv
        have hv := findFrom_bounds hv
        obtain h | ⟨_, _, h⟩ := h <;> cases h
        omega
    · obtain h | ⟨_, _, h⟩ := h <;> cases h
      omega

variable (w : Win32Text)

theorem scan_isSome (xml : Bytes) : ∀ {fuel uPos : Nat} (c : DcsConfig), xml.length < uPos + fuel → fuel ≠ 0 →
    ∃ c', scan w xml fuel uPos c = some c'
  | 0, _, _, _, h => absurd rfl h
  | fuel + 1, uPos, c, hfuel, _ => by
    rw [scan]
    split
    · exact ⟨c, rfl⟩
    · rename_i p hp
      have h := scanElement_progress (.inl hp)
      exact scan_isSome xml c (by omega) (by omega)
    · rename_i key value p hp
      have h := scanElement_progress (.inr ⟨key, value, hp⟩)
      exact scan_isSome xml _ (by omega) (by omega)

theorem scan_mono {xml : Bytes} {r : DcsConfig} : ∀ {fuel uPos : Nat} {c : DcsConfig}, scan w xml fuel uPos c = some r →
    ∀ fuel', fuel ≤ fuel' → scan w xml fuel' uPos c = some r
  | 0, _, _, h, _, _ => by cases h
  | fuel + 1, uPos, c, h, fuel', hle => by
    obtain ⟨fuel', rfl⟩ := Nat.exists_eq_succ_of_ne_zero (show fuel' ≠ 0 by omega)
    rw [scan] at h ⊢
    split at h
    · exact h
    · exact scan_mono h fuel' (by omega)
    · exact scan_mono h fuel' (by omega)

/-- More iterations than the loop needs change nothing. -/
theorem fromXml_eq {xml : Bytes} {fuel : Nat} {c : DcsConfig} (h : scan w xml fuel 0 new = some c) :
    fromXml w xml = some (c, !c.order.isEmpty) := by
  obtain ⟨c', hc'⟩ := @scan_isSome w xml (xml.length + 1) 0 new (by omega) (Nat.succ_ne_zero _)
  have h₁ := scan_mono w h (max fuel (xml.length + 1)) (Nat.le_max_left _ _)
  have h₂ := scan_mono w hc' (max fuel (xml.length + 1)) (Nat.le_max_right _ _)
  rw [h₁] at h₂
  rw [fromXml, hc', ← Option.some.inj h₂]
  rfl

/-! ## An element of the file -/

theorem drop_add {α : Type} {l a b : List α} {n : Nat} (h : l.drop n = a ++ b) : l.drop (n + a.length) = b := by
  rw [← List.drop_drop, h, List.drop_left]

theorem beginsWith_config : BeginsWith (startsWith (text "<config")) (· == (0x3C : UInt8)) := beginsWith_startsWith 0x3C (text "config")

theorem beginsWith_key : BeginsWith (startsWith (text "key=")) (· == (0x6B : UInt8)) := beginsWith_startsWith 0x6B (text "ey=")

theorem beginsWith_end : BeginsWith (startsWith (text "</config>")) (· == (0x3C : UInt8)) := beginsWith_startsWith 0x3C (text "/config>")

theorem beq_of_ne {b c : UInt8} (h : b ≠ c) : (b == c) = false := beq_eq_false_iff_ne.2 h

theorem getD_of_drop {l : Bytes} {n : Nat} {c : UInt8} {rest : Bytes} (h : l.drop n = c :: rest) : l.getD n 0 = c := by
  rw [List.getD_eq_getElem?_getD, ← Nat.add_zero n, ← List.getElem?_drop, h]
  rfl

theorem scanElement_entry {xml junk key value rest : Bytes} {uPos : Nat} (h : xml.drop uPos = junk ++ (xmlEntry key value ++ rest))
    (hjunk : ∀ b ∈ junk, (b == 0x3C) = false) :
    ∃ p, scanElement xml uPos = .config key value p ∧ xml.drop p = text "\r\n" ++ rest := by
  obtain ⟨K, hKeq⟩ : ∃ K, K = xmlEncode key := ⟨_, rfl⟩
  obtain ⟨V, hVeq⟩ : ∃ V, V = xmlEncode value := ⟨_, rfl⟩
  have hK := xmlEncode_plain key
  have hV := xmlEncode_plain value
  have hkey := xmlDecode_xmlEncode key
  have hvalue := xmlDecode_xmlEncode value
  rw [xmlEntry, ← hKeq, ← hVeq] at h
  rw [← hKeq] at hK hkey
  rw [← hVeq] at hV hvalue
  -- where the parts of the element are
  have hfirst : xml.drop uPos = (junk ++ text "\t\t") ++ (text "<config key=\"" ++ (K ++ (text "\">" ++ (V ++ (text "</config>" ++
      (text "\r\n" ++ rest)))))) := by
    rw [h]
    simp only [List.append_assoc]
    rfl
  obtain ⟨n, hn⟩ : ∃ n, n = uPos + (junk ++ text "\t\t").length := ⟨_, rfl⟩
  have hstart := drop_add hfirst
  rw [← hn] at hstart
  have hopen := drop_add hstart
  have hquote := drop_add hopen
  have hclose := drop_add hquote
  have hbehind := drop_add (drop_add hclose)
  have hlen : (text "<config key=\"").length = 13 := rfl
  have hlen₂ : (text "\">").length = 2 := rfl
  have hlen₉ : (text "</config>").length = 9 := rfl
  rw [hlen] at hopen hquote hclose hbehind
  rw [hlen₂] at hclose hbehind
  rw [hlen₉] at hbehind
  have htagEnd : xml.drop (n + 13 + K.length + 1) = 0x3E :: (V ++ (text "</config>" ++ (text "\r\n" ++ rest))) :=
    @drop_add _ xml [0x22] _ _ hquote
  have hfind₁ : findFrom (startsWith (text "<config")) xml uPos = some n := by
    rw [hn]
    refine findFrom_eq beginsWith_config hfirst (fun b hb => ?_) (startsWith_append (text "<config") _)
    obtain hb | hb := List.mem_append.1 hb
    · exact hjunk b hb
    · exact (by decide +kernel : ∀ b ∈ text "\t\t", (b == 0x3C) = false) b hb
  have hfind₂ : findFrom (startsWith (text "key=")) xml n = some (n + 8) :=
    @findFrom_eq _ _ _ beginsWith_key xml (text "<config ") _ _ n hstart (by decide +kernel) (startsWith_append (text "key=") _)
  have hfind₃ : findFrom (oneOf (· == 0x3E)) xml n = some (n + 13 + K.length + 1) := by
    have hsplit : xml.drop n = (text "<config key=\"" ++ (K ++ [0x22])) ++ 0x3E :: (V ++ (text "</config>" ++ (text "\r\n" ++ rest))) := by
      rw [hstart]
      simp only [List.append_assoc]
      rfl
    have hfree : ∀ b ∈ text "<config key=\"" ++ (K ++ [0x22]), (b == (0x3E : UInt8)) = false := by
      intro b hb
      obtain hb | hb := List.mem_append.1 hb
      · exact (by decide +kernel : ∀ b ∈ text "<config key=\"", (b == 0x3E) = false) b hb
      · obtain hb | hb := List.mem_append.1 hb
        · exact beq_of_ne (hK b hb).2.1
        · rw [List.mem_singleton.1 hb]
          rfl
    have hfound := findFrom_eq (beginsWith_oneOf (· == (0x3E : UInt8))) hsplit hfree rfl
    rw [List.length_append, List.length_append, hlen, List.length_singleton] at hfound
    rw [hfound]
    congr 1
    omega
  have hfind₄ : findFrom (oneOf fun c => c == 0x22 || c == 0x27) xml (n + 8 + 4) = some (n + 12) :=
    @findFrom_eq _ _ _ (beginsWith_oneOf _) xml [] _ _ (n + 12) (@drop_add _ xml (text "<config key=") _ _ hstart) (by decide +kernel) rfl
  have hfind₅ : findFrom (oneOf (· == 0x22)) xml (n + 12 + 1) = some (n + 13 + K.length) :=
    findFrom_eq (beginsWith_oneOf _) hopen (fun b hb => beq_of_ne (hK b hb).2.2) rfl
  have hfind₆ : findFrom (startsWith (text "</config>")) xml (n + 13 + K.length + 1) = some (n + 13 + K.length + 1 + (V.length + 1)) :=
    @findFrom_eq _ _ _ beginsWith_end xml (0x3E :: V) _ _ _ htagEnd
      (List.forall_mem_cons.2 ⟨rfl, fun b hb => beq_of_ne (hV b hb).1⟩) (startsWith_append (text "</config>") _)
  have hgetQuote : xml.getD (n + 12) 0 = 0x22 := getD_of_drop (@drop_add _ xml (text "<config key=") _ _ hstart)
  have hgetSlash : xml.getD (n + 13 + K.length) 0 = 0x22 := getD_of_drop hquote
  refine ⟨n + 13 + K.length + 1 + (V.length + 1) + 9, ?_, ?_⟩
  · unfold scanElement
    rw [hfind₁]
    dsimp only
    rw [hfind₂, hfind₃]
    dsimp only
    rw [if_neg (by omega), hfind₄]
    dsimp only
    rw [if_neg (by omega), hgetQuote, hfind₅]
    dsimp only
    rw [if_neg (by omega), Nat.add_sub_cancel, hgetSlash, if_neg (fun h => absurd h.2 (by decide)), hfind₆]
    dsimp only
    have hkeyLen : n + 13 + K.length - (n + 12) - 1 = K.length := by omega
    have hvalueLen : n + 13 + K.length + 1 + (V.length + 1) - (n + 13 + K.length + 1) - 1 = V.length := by omega
    rw [hkeyLen, hvalueLen, hopen, hclose, List.take_left, List.take_left, hkey, hvalue]
  · have hsum : n + 13 + K.length + 1 + (V.length + 1) + 9 = n + 13 + K.length + 2 + V.length + 9 := by omega
    rw [hsum, hbehind]

/-! ## The file -/

theorem scan_entries {xml : Bytes} : ∀ (entries : List (Bytes × Bytes)) {junk : Bytes} {uPos : Nat} (c : DcsConfig),
    (∀ b ∈ junk, (b == 0x3C) = false) →
    xml.drop uPos = junk ++ (entries.flatMap (fun e => xmlEntry e.1 e.2) ++ xmlTail) →
    scan w xml (entries.length + 1) uPos c = some (entries.foldl (fun c e => c.addElement w e.1 e.2) c)
  | [], junk, uPos, c, hjunk, h => by
    have hnone : findFrom (startsWith (text "<config")) xml uPos = none := by
      rw [Search.findFrom, h, find_append beginsWith_config hjunk]
      rfl
    rw [scan, scanElement, hnone]
    rfl
  | (key, value) :: entries, junk, uPos, c, hjunk, h => by
    rw [List.flatMap_cons, List.append_assoc] at h
    obtain ⟨p, hp, hrest⟩ := scanElement_entry h hjunk
    rw [List.length_cons, scan, hp, List.foldl_cons]
    exact scan_entries entries _ (by decide +kernel) hrest

/-- The scan meets `<configuration>` first and goes on behind its name, since the next key is outside of it. -/
theorem scanElement_head {xml rest : Bytes} (h : xml = xmlHead ++ rest) :
    scanElement xml 0 = .skipped 62 ∧ xml.drop 62 = text "uration>\r\n" ++ rest := by
  have hdrop : xml.drop 55 = text "<configuration" ++ 0x3E :: (text "\r\n" ++ rest) := by
    rw [h]
    rfl
  have hfind : findFrom (startsWith (text "<config")) xml 0 = some 55 := by
    have hhead : find (startsWith (text "<config")) xmlHead = some 55 := by decide
    rw [Search.findFrom, List.drop_zero, h, find_append_of_some rest hhead]
    rfl
  have htag : findFrom (oneOf (· == 0x3E)) xml 55 = some 69 :=
    findFrom_eq (beginsWith_oneOf _) hdrop (by decide +kernel) rfl
  refine ⟨?_, @drop_add _ xml (text "<config") _ 55 hdrop⟩
  unfold scanElement
  rw [hfind]
  dsimp only
  rw [htag]
  split
  · rename_i uKeyAt uTagEnd hkey htag
    obtain rfl := Option.some.inj htag
    have hkeyAt : 69 < uKeyAt := by
      obtain ⟨j, hj, rfl⟩ := Option.map_eq_some_iff.1 hkey
      rw [hdrop] at hj
      have hj := @length_le_of_find _ _ _ beginsWith_key (text "<configuration>") (text "\r\n" ++ rest) (by decide +kernel) j hj
      have hlen : (text "<configuration>").length = 15 := rfl
      omega
    rw [if_pos hkeyAt]
  · rfl

theorem fromXml_file (entries : List (Bytes × Bytes)) :
    fromXml w (xmlHead ++ entries.flatMap (fun e => xmlEntry e.1 e.2) ++ xmlTail) =
      some (entries.foldl (fun c e => c.addElement w e.1 e.2) new, !(entries.foldl (fun c e => c.addElement w e.1 e.2) new).order.isEmpty) := by
  obtain ⟨hskip, hdrop⟩ := scanElement_head (List.append_assoc xmlHead (entries.flatMap fun e => xmlEntry e.1 e.2) xmlTail)
  refine @fromXml_eq w _ (entries.length + 1 + 1) _ ?_
  rw [scan, hskip]
  exact scan_entries w entries new (by decide +kernel) hdrop

/-! ## Edits -/

/-- A well-formed text without NUL. -/
structure GoodText (s : Str) : Prop where
  wellFormed : WellFormed s
  ne_zero : ∀ c ∈ s, c ≠ 0

structure GoodKey (s : Str) : Prop extends GoodText s where
  ne_nil : s ≠ []
  short : (Variant.toUtf8 s).length < 255

inductive Edit where
  | setStr (key value : Str)
  | setInt (key : Str) (value : Int)
  | remove (key : Str)
  | setValues (values : Option (Table Bytes Str))

def Edit.apply (c : DcsConfig) : Edit → DcsConfig
  | .setStr key value => c.setStr w key value
  | .setInt key value => c.setInt w key value
  | .remove key => c.remove w key
  | .setValues values => c.setValues w values

/-- Keys and values are good; the map that `SetValues` is given is a map. -/
def Edit.Good : Edit → Prop
  | .setStr key value => GoodKey key ∧ GoodText value
  | .setInt key _ => GoodKey key
  | .remove key => GoodKey key
  | .setValues values => ∀ map, values = some map →
    map.Exact ∧ ∀ name value, map.findValue name = some value → (∃ key, GoodKey key ∧ Variant.toUtf8 key = name) ∧ GoodText value

/-- The value that the map holds under a name. -/
def held (c : DcsConfig) (name : Bytes) : Option Str := c.values.bind fun map => map.findValue name

/-- The order list and the map hold the same keys. -/
structure Consistent (c : DcsConfig) : Prop where
  exact : ∀ map, c.values = some map → map.Exact
  nodup : c.order.Nodup
  keys : ∀ key ∈ c.order, GoodKey key
  texts : ∀ name value, c.held name = some value → GoodText value
  same : ∀ name, (c.held name).isSome ↔ ∃ key ∈ c.order, Variant.toUtf8 key = name

theorem toUtf8_injective {s t : Str} (hs : WellFormed s) (ht : WellFormed t) (h : Variant.toUtf8 s = Variant.toUtf8 t) : s = t := by
  rw [← Variant.fromUtf8_toUtf8 hs, h, Variant.fromUtf8_toUtf8 ht]

theorem GoodKey.toUtf8_ne_nil {key : Str} (h : GoodKey key) : Variant.toUtf8 key ≠ [] := fun hnil =>
  h.ne_nil (toUtf8_injective h.wellFormed .nil (hnil.trans rfl))

theorem GoodText.cStr {s : Str} (h : GoodText s) : cStr (Variant.toUtf8 s) = Variant.toUtf8 s :=
  List.takeWhile_eq_self_iff.2 fun b hb => decide_eq_true (Buffer.toUtf8_ne_zero h.ne_zero b hb)

theorem GoodKey.mapGet {key : Str} (h : GoodKey key) (c : DcsConfig) : mapGet c.values (w.toUtf8 key) = c.held (Variant.toUtf8 key) := by
  have hpool : (Variant.toUtf8 key).length ≤ Content.mapFindLength := Nat.le_of_lt (Nat.lt_trans h.short (by decide))
  unfold Boot.mapGet
  simp only [w.toUtf8_eq h.wellFormed, h.cStr, if_pos hpool]
  rfl

/-! ### What the edits do to the map -/

theorem exact_getD {values : Option (Table Bytes Str)} (h : ∀ map, values = some map → map.Exact) :
    (values.getD ⟨List.replicate 4 [], 0⟩).Exact := by
  cases values with
  | none => exact Table.exact_replicate (by decide)
  | some map => exact h map rfl

theorem held_mapInsert {c : DcsConfig} (h : ∀ map, c.values = some map → map.Exact) {name : Bytes} (hname : cStr name = name) (value : Str)
    (order : List Str) (name' : Bytes) :
    held ⟨mapInsert c.values name value, order⟩ name' = if name' = name then some value else c.held name' := by
  unfold held mapInsert
  rw [Option.bind_some, hname, Table.findValue_setValue (exact_getD h).wf]
  cases hv : c.values with
  | none =>
    -- a new table holds nothing
    have hnew : Table.findValue (⟨List.replicate 4 [], 0⟩ : Table Bytes Str) name' = none := by
      unfold Table.findValue
      rw [findEntry_eq]
      unfold valuesOf
      rw [List.getD_eq_getElem?_getD, List.getElem?_replicate]
      split <;> rfl
    rw [Option.getD_none, hnew, Option.bind_none]
  | some map => rw [Option.getD_some, Option.bind_some]

theorem held_mapRemove {c : DcsConfig} (h : ∀ map, c.values = some map → map.Exact) {name : Bytes} (hname : cStr name = name)
    (hpool : name.length ≤ Content.mapFindLength) (order : List Str) (name' : Bytes) :
    held ⟨mapRemove c.values name, order⟩ name' = if name' = name then none else c.held name' := by
  unfold held mapRemove
  rw [hname]
  cases hv : c.values with
  | none => exact (ite_self _).symm
  | some map =>
    rw [Option.map_some, Option.bind_some, Option.bind_some, if_pos hpool]
    exact (h map hv).findValue_removeFirst name name'

theorem exact_mapInsert {values : Option (Table Bytes Str)} (h : ∀ map, values = some map → map.Exact) (name : Bytes) (value : Str) :
    ∀ map, mapInsert values name value = some map → map.Exact := by
  intro map hmap
  rw [← Option.some.inj hmap]
  exact (exact_getD h).setValue _ value

/-! ### What the edits do to the order -/

theorem mem_added {order : List Str} {key k : Str} : (k ∈ if key ∈ order then order else order ++ [key]) ↔ k ∈ order ∨ k = key := by
  split
  · rename_i hin
    exact ⟨.inl, fun h => h.elim id fun hk => hk ▸ hin⟩
  · rw [List.mem_append, List.mem_singleton]

theorem nodup_added {order : List Str} (h : order.Nodup) (key : Str) : (if key ∈ order then order else order ++ [key]).Nodup := by
  split
  · exact h
  · rename_i hout
    exact h.append (List.nodup_singleton key) (List.disjoint_singleton.2 hout)

/-- Keys added one after the other where they are missing. -/
theorem foldl_added (f : Bytes → Str) : ∀ (names : List Bytes) {order : List Str}, order.Nodup →
    (names.foldl (fun order name => if f name ∈ order then order else order ++ [f name]) order).Nodup ∧
      ∀ k, k ∈ names.foldl (fun order name => if f name ∈ order then order else order ++ [f name]) order ↔
        k ∈ order ∨ ∃ name ∈ names, f name = k
  | [], order, h => by
    refine ⟨h, fun k => ⟨.inl, fun hk => hk.elim id ?_⟩⟩
    rintro ⟨_, hn, -⟩
    cases hn
  | name :: names, order, h => by
    obtain ⟨hnodup, hmem⟩ := foldl_added f names (nodup_added h (f name))
    refine ⟨hnodup, fun k => ?_⟩
    rw [List.foldl_cons, hmem, mem_added, List.exists_mem_cons_iff, or_assoc, eq_comm]

theorem order_touch (c : DcsConfig) (key : Str) : (c.touch key).order = if key ∈ c.order then c.order else c.order ++ [key] := by
  unfold touch
  split <;> rfl

theorem held_touch (c : DcsConfig) (key : Str) : (c.touch key).held = c.held := by
  unfold touch
  split <;> rfl

theorem values_touch (c : DcsConfig) (key : Str) : (c.touch key).values = c.values := by
  unfold touch
  split <;> rfl

/-- Setting a good key to a good text, as `SetStr` and `FromXml` do. -/
theorem Consistent.touch {c : DcsConfig} (hc : Consistent c) {key value : Str} (hkey : GoodKey key) (hvalue : GoodText value) :
    Consistent (DcsConfig.touch { c with values := mapInsert c.values (Variant.toUtf8 key) value } key) := by
  have hheld : ∀ name, (DcsConfig.touch { c with values := mapInsert c.values (Variant.toUtf8 key) value } key).held name =
      if name = Variant.toUtf8 key then some value else c.held name := by
    intro name
    rw [held_touch]
    exact held_mapInsert hc.exact hkey.cStr value c.order name
  refine ⟨?_, ?_, fun k hk => ?_, fun name v hv => ?_, fun name => ?_⟩
  · rw [values_touch]
    exact exact_mapInsert hc.exact _ value
  · rw [order_touch]
    exact nodup_added hc.nodup key
  · rw [order_touch] at hk
    obtain hk | rfl := mem_added.1 hk
    · exact hc.keys k hk
    · exact hkey
  · rw [hheld] at hv
    split at hv
    · rw [← Option.some.inj hv]
      exact hvalue
    · exact hc.texts name v hv
  · simp only [hheld, order_touch, mem_added]
    split
    · rename_i hname
      exact iff_of_true rfl ⟨key, .inr rfl, hname.symm⟩
    · rename_i hname
      rw [hc.same]
      constructor
      · rintro ⟨k, hk, heq⟩
        exact ⟨k, .inl hk, heq⟩
      · rintro ⟨k, hk | rfl, heq⟩
        · exact ⟨k, hk, heq⟩
        · exact absurd heq.symm hname

theorem Consistent.setStr {c : DcsConfig} (hc : Consistent c) {key value : Str} (hkey : GoodKey key) (hvalue : GoodText value) :
    Consistent (c.setStr w key value) := by
  rw [DcsConfig.setStr, w.toUtf8_eq hkey.wellFormed]
  exact hc.touch hkey hvalue

theorem Consistent.remove {c : DcsConfig} (hc : Consistent c) {key : Str} (hkey : GoodKey key) : Consistent (c.remove w key) := by
  have hpool : (Variant.toUtf8 key).length ≤ Content.mapFindLength := Nat.le_of_lt (Nat.lt_trans hkey.short (by decide))
  have hheld : ∀ name, (c.remove w key).held name = if name = Variant.toUtf8 key then none else c.held name := by
    intro name
    rw [DcsConfig.remove, w.toUtf8_eq hkey.wellFormed]
    exact held_mapRemove hc.exact hkey.cStr hpool _ name
  refine ⟨fun map hmap => ?_, hc.nodup.erase key, fun k hk => hc.keys k (List.mem_of_mem_erase hk), fun name v hv => ?_, fun name => ?_⟩
  · obtain ⟨old, hold, rfl⟩ := Option.map_eq_some_iff.1 hmap
    split
    · exact (hc.exact old hold).removeFirst _
    · exact hc.exact old hold
  · rw [hheld] at hv
    split at hv
    · cases hv
    · exact hc.texts name v hv
  · have hmem : ∀ k, k ∈ (c.remove w key).order ↔ k ≠ key ∧ k ∈ c.order := fun k => hc.nodup.mem_erase_iff
    simp only [hheld, hmem]
    split
    · rename_i hname
      refine iff_of_false Bool.false_ne_true ?_
      rintro ⟨k, ⟨hne, hk⟩, heq⟩
      exact hne (toUtf8_injective (hc.keys k hk).wellFormed hkey.wellFormed (heq.trans hname))
    · rename_i hname
      rw [hc.same]
      constructor
      · rintro ⟨k, hk, heq⟩
        exact ⟨k, ⟨fun hkk => hname (heq ▸ hkk ▸ rfl), hk⟩, heq⟩
      · rintro ⟨k, ⟨-, hk⟩, heq⟩
        exact ⟨k, hk, heq⟩

theorem wellFormed_of_lt : ∀ {s : Str}, (∀ c ∈ s, c < 0xD800) → WellFormed s
  | [], _ => .nil
  | _ :: _, h => .unit (.inl (h _ List.mem_cons_self)) (wellFormed_of_lt fun c hc => h c (List.mem_cons_of_mem _ hc))

theorem goodText_toWString (n : Int) : GoodText (toWString n) := by
  have hunit : ∀ c ∈ toWString n, 0 < c.toNat ∧ c.toNat < 0x80 := by
    intro c hc
    obtain hc | hc := List.mem_append.1 hc
    · split at hc
      · rw [List.mem_singleton.1 hc]
        decide
      · cases hc
    · obtain ⟨d, hd, rfl⟩ := List.mem_map.1 hc
      have hdigit := Nat.isDigit_of_mem_toDigits (by decide) (by decide) hd
      simp only [Char.isDigit, Bool.and_eq_true, decide_eq_true_eq, UInt32.le_iff_toNat_le] at hdigit
      have hlow : 48 ≤ d.toNat := hdigit.1
      have hhigh : d.toNat ≤ 57 := hdigit.2
      rw [UInt16.toNat_ofNat_of_lt' (show d.toNat < 65536 by omega)]
      omega
  refine ⟨wellFormed_of_lt fun c hc => ?_, fun c hc h0 => ?_⟩
  · have h := (hunit c hc).2
    rw [UInt16.lt_iff_toNat_lt]
    exact Nat.lt_trans h (by decide)
  · have h := (hunit c hc).1
    rw [h0] at h
    cases h

/-- What a name of the map says about its key. -/
theorem Consistent.setValues {c : DcsConfig} (hc : Consistent c) {values : Option (Table Bytes Str)} (hv : (Edit.setValues values).Good) :
    Consistent (c.setValues w values) := by
  have hexact : ∀ map, values = some map → map.Exact := fun map hmap => (hv map hmap).1
  have hheld : ∀ name, (c.setValues w values).held name = values.bind fun map => map.findValue name := fun _ => rfl
  have hgood : ∀ name value, (values.bind fun map => map.findValue name) = some value →
      (∃ key, GoodKey key ∧ Variant.toUtf8 key = name) ∧ GoodText value := by
    intro name value h
    obtain ⟨map, hmap, hfind⟩ := Option.bind_eq_some_iff.1 h
    exact (hv map hmap).2 name value hfind
  -- the keys of the map, as `Key` gives them
  have hnames : ∀ name, name ∈ mapKeys values ↔ (values.bind fun map => map.findValue name).isSome := by
    intro name
    cases values with
    | none => exact iff_of_false List.not_mem_nil Bool.false_ne_true
    | some map =>
      have hwf := (hexact map rfl).wf
      show name ∈ map.toList.map (·.1) ↔ (map.findValue name).isSome
      rw [List.mem_map, Option.isSome_iff_exists]
      constructor
      · rintro ⟨⟨_, value⟩, hin, rfl⟩
        exact ⟨value, hwf.mem_toList.1 hin⟩
      · rintro ⟨value, hfind⟩
        exact ⟨(name, value), hwf.mem_toList.2 hfind, rfl⟩
  have hkeyOf : ∀ name ∈ mapKeys values, GoodKey (w.fromUtf8 (cStr name)) ∧ Variant.toUtf8 (w.fromUtf8 (cStr name)) = name := by
    intro name hname
    obtain ⟨value, hvalue⟩ := Option.isSome_iff_exists.1 ((hnames name).1 hname)
    obtain ⟨⟨key, hkey, rfl⟩, -⟩ := hgood name value hvalue
    rw [hkey.cStr, w.fromUtf8_toUtf8 hkey.wellFormed]
    exact ⟨hkey, rfl⟩
  obtain ⟨hnodup, hmem⟩ := foldl_added (fun name => w.fromUtf8 (cStr name)) (mapKeys values)
    (hc.nodup.filter (({ c with values := values } : DcsConfig).has w))
  have horder : ∀ k, k ∈ (c.setValues w values).order ↔
      k ∈ c.order.filter (({ c with values := values } : DcsConfig).has w) ∨ ∃ name ∈ mapKeys values, w.fromUtf8 (cStr name) = k := hmem
  refine ⟨hexact, hnodup, fun k hk => ?_, fun name value hvalue => (hgood name value hvalue).2, fun name => ?_⟩
  · obtain hk | ⟨name, hname, rfl⟩ := (horder k).1 hk
    · exact hc.keys k (List.mem_of_mem_filter hk)
    · exact (hkeyOf name hname).1
  · rw [hheld, ← hnames]
    constructor
    · intro hname
      exact ⟨_, (horder _).2 (.inr ⟨name, hname, rfl⟩), (hkeyOf name hname).2⟩
    · rintro ⟨k, hk, rfl⟩
      obtain hk | ⟨name, hname, rfl⟩ := (horder k).1 hk
      · obtain ⟨hin, hhas⟩ := List.mem_filter.1 hk
        rw [has, (hc.keys k hin).mapGet] at hhas
        exact (hnames _).2 hhas
      · rwa [(hkeyOf name hname).2]

theorem Consistent.apply {c : DcsConfig} (hc : Consistent c) {e : Edit} (he : e.Good) : Consistent (e.apply w c) := by
  cases e with
  | setStr key value => exact hc.setStr w he.1 he.2
  | setInt key value => exact hc.setStr w he (goodText_toWString value)
  | remove key => exact hc.remove w he
  | setValues values => exact hc.setValues w he

theorem consistent_new : Consistent new := by
  refine ⟨fun _ h => (by cases h), List.nodup_nil, fun _ h => (by cases h), fun _ _ h => (by cases h), fun name => ?_⟩
  refine iff_of_false Bool.false_ne_true ?_
  rintro ⟨_, h, -⟩
  cases h

/-- A run of edits. -/
theorem consistent_edits : ∀ (edits : List Edit) {c : DcsConfig}, Consistent c → (∀ e ∈ edits, e.Good) →
    Consistent (edits.foldl (Edit.apply w) c)
  | [], _, hc, _ => hc
  | _ :: edits, _, hc, h => consistent_edits edits (hc.apply w (h _ List.mem_cons_self)) fun e he => h e (List.mem_cons_of_mem _ he)

/-! ## Written and read again -/

/-- Reading the settings of a list of keys into a configuration without them. -/
theorem foldl_addElement {c : DcsConfig} (hc : Consistent c) : ∀ (keys : List Str) {r : DcsConfig}, Consistent r → (r.order ++ keys).Nodup →
    (∀ key ∈ keys, key ∈ c.order) →
    ∃ r', (keys.map fun key => (w.toUtf8 key, w.toUtf8 (c.getStr w key []))).foldl (fun c e => c.addElement w e.1 e.2) r = r' ∧
      r'.order = r.order ++ keys ∧ ∀ name, r'.held name = if ∃ key ∈ keys, Variant.toUtf8 key = name then c.held name else r.held name
  | [], r, _, _, _ => by
    refine ⟨r, rfl, (List.append_nil _).symm, fun name => (if_neg ?_).symm⟩
    rintro ⟨_, h, -⟩
    cases h
  | key :: keys, r, hr, hnodup, hin => by
    have hkey := hc.keys key (hin key List.mem_cons_self)
    obtain ⟨value, hvalue⟩ := Option.isSome_iff_exists.1 ((hc.same _).2 ⟨key, hin key List.mem_cons_self, rfl⟩)
    have htext := hc.texts _ value hvalue
    have hget : c.getStr w key [] = value := by
      rw [getStr, hkey.mapGet, hvalue]
      rfl
    have hadd : r.addElement w (w.toUtf8 key) (w.toUtf8 (c.getStr w key [])) =
        DcsConfig.touch { r with values := mapInsert r.values (Variant.toUtf8 key) value } key := by
      rw [addElement, hget, w.toUtf8_eq hkey.wellFormed, w.toUtf8_eq htext.wellFormed, if_neg hkey.toUtf8_ne_nil,
        w.fromUtf8_toUtf8 hkey.wellFormed, w.fromUtf8_toUtf8 htext.wellFormed]
    have hnot : key ∉ r.order := fun h => (List.disjoint_of_nodup_append hnodup) h List.mem_cons_self
    have horder : (DcsConfig.touch { r with values := mapInsert r.values (Variant.toUtf8 key) value } key).order = r.order ++ [key] := by
      rw [order_touch]
      exact if_neg hnot
    obtain ⟨r', hfold, hr'order, hr'held⟩ := foldl_addElement hc keys (hr.touch hkey htext)
      (by rw [horder, List.append_assoc]; exact hnodup) fun k hk => hin k (List.mem_cons_of_mem _ hk)
    refine ⟨r', ?_, ?_, fun name => ?_⟩
    · rw [List.map_cons, List.foldl_cons, hadd]
      exact hfold
    · rw [hr'order, horder, List.append_assoc]
      rfl
    · rw [hr'held, held_touch]
      by_cases hkeys : ∃ k ∈ keys, Variant.toUtf8 k = name
      · obtain ⟨k, hk, heq⟩ := hkeys
        rw [if_pos ⟨k, hk, heq⟩, if_pos ⟨k, List.mem_cons_of_mem _ hk, heq⟩]
      · rw [if_neg hkeys, held_mapInsert hr.exact hkey.cStr]
        by_cases hname : name = Variant.toUtf8 key
        · rw [if_pos hname, if_pos ⟨key, List.mem_cons_self, hname.symm⟩, hname, hvalue]
        · rw [if_neg hname, if_neg]
          rintro ⟨k, hk, heq⟩
          obtain rfl | hk := List.mem_cons.1 hk
          · exact hname heq.symm
          · exact hkeys ⟨k, hk, heq⟩

theorem Consistent.fromXml_toXml {c : DcsConfig} (hc : Consistent c) :
    ∃ r, fromXml w (toXml w c) = some (r, !r.order.isEmpty) ∧ r.order = c.order ∧ ∀ name, r.held name = c.held name := by
  obtain ⟨r, hfold, horder, hheld⟩ := foldl_addElement w hc c.order consistent_new (by rw [new, List.nil_append]; exact hc.nodup) fun _ h => h
  have hfile := fromXml_file w (c.order.map fun key => (w.toUtf8 key, w.toUtf8 (c.getStr w key [])))
  rw [hfold, List.flatMap_map] at hfile
  refine ⟨r, hfile, horder, fun name => ?_⟩
  rw [hheld]
  split
  · rfl
  · -- a name that is no key is in neither map
    rename_i hno
    have hnone : ¬ (c.held name).isSome := fun h => hno ((hc.same name).1 h)
    rw [Option.not_isSome_iff_eq_none] at hnone
    rw [hnone]
    rfl

/-- The settings after any edits are those that are read from the file that is written, and every file can be read. -/
theorem config_roundTrip (edits : List Edit) (h : ∀ e ∈ edits, e.Good) :
    let c := edits.foldl (Edit.apply w) new
    (c.order.Nodup ∧ ∀ name, (c.held name).isSome ↔ ∃ key ∈ c.order, Variant.toUtf8 key = name) ∧
      (∃ r, fromXml w (toXml w c) = some (r, !r.order.isEmpty) ∧ r.order = c.order ∧ ∀ name, r.held name = c.held name) ∧
      ∀ xml, (fromXml w xml).isSome := by
  have hc := consistent_edits w edits consistent_new h
  refine ⟨⟨hc.nodup, hc.same⟩, hc.fromXml_toXml w, fun xml => ?_⟩
  obtain ⟨r, hr⟩ := @scan_isSome w xml (xml.length + 1) 0 new (by omega) (Nat.succ_ne_zero _)
  rw [fromXml, hr]
  rfl

/-- The conversions of the framework serve for those of the system. -/
def frameworkText : Win32Text := ⟨Variant.toUtf8, Variant.fromUtf8, fun _ => rfl, Variant.fromUtf8_toUtf8⟩

/-- `&lt;` as a key and `<"` as a value, a number, and a map without a table in their place. -/
theorem config_roundTrip_markup :
    ∃ r, fromXml frameworkText (toXml frameworkText
        ([.setValues none, .setInt [0x4B] (-7), .setStr [0x26, 0x6C, 0x74, 0x3B] [0x3C, 0x22], .remove [0x4B]].foldl
          (Edit.apply frameworkText) new)) = some (r, !r.order.isEmpty) ∧
      r.order = ([.setValues none, .setInt [0x4B] (-7), .setStr [0x26, 0x6C, 0x74, 0x3B] [0x3C, 0x22], .remove [0x4B]].foldl
          (Edit.apply frameworkText) new).order ∧
      ∀ name, r.held name = ([.setValues none, .setInt [0x4B] (-7), .setStr [0x26, 0x6C, 0x74, 0x3B] [0x3C, 0x22], .remove [0x4B]].foldl
          (Edit.apply frameworkText) new).held name := by
  have hK : GoodKey [0x4B] := ⟨⟨wellFormed_of_lt (by simp), by simp⟩, by simp, by decide⟩
  have hlt : GoodKey [0x26, 0x6C, 0x74, 0x3B] := ⟨⟨wellFormed_of_lt (by simp), by simp⟩, by simp, by decide⟩
  refine (config_roundTrip frameworkText _ fun e he => ?_).2.1
  simp only [List.mem_cons, List.not_mem_nil, or_false] at he
  obtain rfl | rfl | rfl | rfl := he
  · exact fun _ h => (by cases h)
  · exact hK
  · exact ⟨hlt, wellFormed_of_lt (by simp), by simp⟩
  · exact hK

end DcsConfig

end MajorPrivacy.Boot

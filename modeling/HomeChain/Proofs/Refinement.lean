import HomeChain.Proofs.Rebuilding
import HomeChain.Proofs.Session
import Mathlib.Data.Finmap

/-!
# A table is a finite map of bounded size

The abstract side is a finite map together with a capacity. Its operations say in terms of the
map alone what a call does and answers; slots, links and hashes do not occur in them. A table
`Represents` such a state if it is consistent and holds just what the map holds, and every
consistent table represents one.

Each operation of a table goes from a table that represents a state to a table that represents
the next one, with the same answer. So a session answers what the abstract operations answer.
-/

namespace HomeChain

variable {w : LinkWidth} {K V : Type}

/-- A finite map, and the number of keys that there is room for. -/
structure BoundedMap (K V : Type) where
  map : Finmap fun _ : K => V
  capacity : Nat

namespace BoundedMap

variable [DecidableEq K]

/-- The number of keys. -/
def size (m : BoundedMap K V) : Nat := m.map.keys.card

/-- Stores a key. A new key for which there is no room makes the capacity double, unless it is
fixed, or links cannot serve that. -/
def put (m : BoundedMap K V) (w : LinkWidth) (policy : Policy) (key : K) (value : V) :
    Except TableError (BoundedMap K V) :=
  if key ∈ m.map ∨ m.size < m.capacity then .ok ⟨m.map.insert key value, m.capacity⟩
  else
    match policy with
    | .fixed => .error (.capacityExhausted m.capacity)
    | .growable =>
      if 2 * m.capacity ≤ w.maxCapacity then .ok ⟨m.map.insert key value, 2 * m.capacity⟩
      else .error (.capacityTooLarge (2 * m.capacity) w)

/-- Replaces the value of a key, if it is stored. -/
def modify (m : BoundedMap K V) (key : K) (write : V → V) : BoundedMap K V :=
  match m.map.lookup key with
  | some value => ⟨m.map.insert key (write value), m.capacity⟩
  | none => m

/-- Changes the capacity to the least power of two with room for `count` keys. -/
def rehash (m : BoundedMap K V) (w : LinkWidth) (policy : Policy) (count : Nat) :
    Except TableError (BoundedMap K V) :=
  match policy with
  | .fixed => .error .notGrowable
  | .growable =>
    if count < m.size then .error (.belowPopulation count m.size)
    else if 2 ^ Nat.clog 2 count ≤ w.maxCapacity then .ok ⟨m.map, 2 ^ Nat.clog 2 count⟩
    else .error (.capacityTooLarge count w)

/-- Makes a call. -/
def perform (w : LinkWidth) (policy : Policy) (call : MapCall K V) (m : BoundedMap K V) :
    BoundedMap K V × MapAnswer V :=
  match call with
  | .put key value write =>
    match m.put w policy key value with
    | .error e => (m, .declined e)
    | .ok m =>
      let m := match write with
        | some f => m.modify key f
        | none => m
      (m, .value (m.map.lookup key))
  | .get key => (m, .value (m.map.lookup key))
  | .contains key => (m, .flag (decide (key ∈ m.map)))
  | .modify key write => (m.modify key write, .value (m.map.lookup key))
  | .remove key => (⟨m.map.erase key, m.capacity⟩, .flag (decide (key ∈ m.map)))
  | .removeAndGet key => (⟨m.map.erase key, m.capacity⟩, .value (m.map.lookup key))
  | .clear => (⟨∅, m.capacity⟩, .done)
  | .rehash count =>
    match m.rehash w policy count with
    | .error e => (m, .declined e)
    | .ok m => (m, .count m.capacity)
  | .len => (m, .count m.size)
  | .isEmpty => (m, .flag (decide (m.size = 0)))
  | .capacity => (m, .count m.capacity)

/-- The answers to several calls, one after another. -/
def answers (w : LinkWidth) (policy : Policy) : List (MapCall K V) → BoundedMap K V →
    List (MapAnswer V)
  | [], _ => []
  | call :: calls, m =>
    (m.perform w policy call).2 :: answers w policy calls (m.perform w policy call).1

omit [DecidableEq K] in
/-- The state that a table is built with. -/
def start (w : LinkWidth) : Start → Except TableError (BoundedMap K V)
  | .new => .ok ⟨∅, 1⟩
  | .withCapacity count =>
    if 2 ^ Nat.clog 2 count ≤ w.maxCapacity then .ok ⟨∅, 2 ^ Nat.clog 2 count⟩
    else .error (.capacityTooLarge count w)

end BoundedMap

/-! ## Finite maps -/

section Finmap

variable [DecidableEq K] {m : Finmap fun _ : K => V} {k key : K} {v value : V}

theorem lookup_insert_iff : (m.insert key value).lookup k = some v ↔
    (k = key ∧ v = value) ∨ (k ≠ key ∧ m.lookup k = some v) := by
  by_cases hk : k = key
  · subst hk
    rw [Finmap.lookup_insert, Option.some.injEq]
    simp [eq_comm]
  · rw [Finmap.lookup_insert_of_ne m hk]
    simp [hk]

theorem lookup_erase_iff : (m.erase key).lookup k = some v ↔
    k ≠ key ∧ m.lookup k = some v := by
  by_cases hk : k = key
  · subst hk
    rw [Finmap.lookup_erase]
    simp
  · rw [Finmap.lookup_erase_ne hk]
    simp [hk]

theorem keys_insert : (m.insert key value).keys = insert key m.keys := by
  ext k
  rw [Finmap.mem_keys, Finmap.mem_insert, Finset.mem_insert, Finmap.mem_keys]

theorem card_insert_of_mem (h : key ∈ m) : (m.insert key value).keys.card = m.keys.card := by
  rw [keys_insert, Finset.insert_eq_of_mem (Finmap.mem_keys.mpr h)]

theorem card_insert_of_notMem (h : key ∉ m) :
    (m.insert key value).keys.card = m.keys.card + 1 := by
  rw [keys_insert, Finset.card_insert_of_notMem fun hk => h (Finmap.mem_keys.mp hk)]

theorem card_erase_of_mem (h : key ∈ m) : (m.erase key).keys.card + 1 = m.keys.card := by
  rw [Finmap.keys_erase, Finset.card_erase_add_one (Finmap.mem_keys.mpr h)]

theorem erase_of_notMem (h : key ∉ m) : m.erase key = m := by
  refine Finmap.ext_lookup fun k => ?_
  by_cases hk : k = key
  · subst hk
    rw [Finmap.lookup_erase, Finmap.lookup_eq_none.mpr h]
  · rw [Finmap.lookup_erase_ne hk]

end Finmap

/-! ## Tables and states -/

namespace Table

variable {t t' : Table w K V} {m : BoundedMap K V} {key : K} {value : V} {i c n : Nat}
  {P : K → V → Prop}

theorem consistent_iff : t.Consistent ↔ t.InOrder ∧ t.capacity ≤ w.maxCapacity :=
  ⟨fun ht => ⟨ht.toInOrder, ht.capacity_le⟩, fun ht => ⟨ht.1, ht.2⟩⟩

theorem Consistent.exists_laidOut (ht : t.Consistent) : ∃ L, t.LaidOut L :=
  inOrder_iff.mp ht.toInOrder

theorem valueAt_eq (h : t.slots.node.entry i = some (key, value)) : t.valueAt i = .ok value := by
  obtain ⟨next, hi⟩ := Nodes.entry_eq_some_iff.mp h
  exact SlotArray.value_eq (SlotArray.node_eq_some_iff.mp hi)

/-- The entries of a table in order, with their keys, as a list of different keys. -/
theorem LaidOut.exists_entries {L : Layout} (hL : t.LaidOut L) :
    ∃ entries : List (Sigma fun _ : K => V), entries.NodupKeys ∧ entries.length = t.len ∧
      ∀ k v, ⟨k, v⟩ ∈ entries ↔ t.Holds k v := by
  let toSigma (slot : Slot w K V) : Option (Sigma fun _ : K => V) :=
    slot.entry?.map fun (k, v) => ⟨k, v⟩
  have htoSigma : ∀ slot k v, toSigma slot = some ⟨k, v⟩ ↔ slot.entry? = some (k, v) := by
    intro slot k v
    cases slot with
    | free prev next => simp [toSigma, Slot.entry?]
    | used next k' v' => simp [toSigma, Slot.entry?]
  -- the entries in order of slot
  refine ⟨(t.slots.toList.drop 1).filterMap toSigma, ?_, ?_, fun k v => ?_⟩
  · rw [List.NodupKeys, List.keys, List.Nodup, List.pairwise_map, List.pairwise_filterMap]
    refine hL.pairwise_distinct.imp fun {a b} hab => ?_
    rintro ⟨k, v⟩ hx ⟨k', v'⟩ hy rfl
    exact hab k v v' ((htoSigma a k v).mp hx) ((htoSigma b k v').mp hy)
  · rw [List.length_filterMap_eq_countP, hL.len_eq_usedCount, SlotArray.usedCount]
    refine List.countP_congr fun slot _ => ?_
    cases slot <;> rfl
  · rw [Holds, ← SlotArray.exists_mem_drop_iff (hL.circle.node_eq_none List.mem_cons_self),
      List.mem_filterMap]
    simp only [htoSigma]

variable [DecidableEq K]

/-- The table is consistent and holds just what the map holds, with the same capacity. -/
structure Represents (t : Table w K V) (m : BoundedMap K V) : Prop where
  consistent : t.Consistent
  capacity_eq : t.capacity = m.capacity
  len_eq : t.len = m.size
  lookup_iff : ∀ k v, m.map.lookup k = some v ↔ t.Holds k v

/-- The table `t'` represents the state, and it is of the kind of `t`. -/
structure Reaches (t t' : Table w K V) (m : BoundedMap K V) : Prop where
  represents : t'.Represents m
  policy_eq : t'.policy = t.policy
  hash_eq : t'.hash = t.hash

/-- Every consistent table represents a state. -/
theorem Consistent.exists_represents (ht : t.Consistent) : ∃ m, t.Represents m := by
  obtain ⟨L, hL⟩ := ht.exists_laidOut
  obtain ⟨entries, hnodup, hlen, hmem⟩ := hL.exists_entries
  let alist : AList fun _ : K => V := ⟨entries, hnodup⟩
  refine ⟨⟨alist.toFinmap, t.capacity⟩, ht, rfl, ?_, fun k v => ?_⟩
  · show t.len = (Finmap.keys alist.toFinmap).card
    rw [Finset.card_def, Finmap.keys_val, Multiset.coe_card, ← hlen]
    exact List.length_map (fun x : Sigma fun _ : K => V => x.1) |>.symm
  · rw [← hmem k v, Finmap.lookup_toFinmap]
    exact AList.mem_lookup_iff

/-- A new table represents the empty map. -/
theorem IsNew.represents {policy : Policy} {hash : K → UInt64} (h : t.IsNew policy hash c)
    (hc : c ≤ w.maxCapacity) : t.Represents ⟨∅, c⟩ where
  consistent := consistent_iff.mpr ⟨h.inOrder, h.capacity_eq ▸ hc⟩
  capacity_eq := h.capacity_eq
  len_eq := by
    rw [h.len_eq, BoundedMap.size, Finmap.keys_empty, Finset.card_empty]
  lookup_iff k v := by
    rw [Finmap.lookup_empty]
    exact ⟨fun h' => (by cases h'), fun h' => absurd h' (h.not_holds k v)⟩

theorem Reaches.trans {t'' : Table w K V} {m' : BoundedMap K V} (h : t.Reaches t' m)
    (h' : t'.Reaches t'' m') : t.Reaches t'' m' :=
  ⟨h'.represents, h'.policy_eq.trans h.policy_eq, h'.hash_eq.trans h.hash_eq⟩

/-- What is derived from a table represents a state with the same entries. -/
theorem Derived.reaches {map : Finmap fun _ : K => V} (hd : t.Derived t' c n P)
    (hc : c ≤ w.maxCapacity) (hn : n = map.keys.card)
    (hP : ∀ k v, map.lookup k = some v ↔ P k v) : t.Reaches t' ⟨map, c⟩ where
  represents :=
    { consistent := consistent_iff.mpr ⟨hd.inOrder, hd.capacity_eq ▸ hc⟩
      capacity_eq := hd.capacity_eq
      len_eq := hd.len_eq.trans hn
      lookup_iff := fun k v => (hP k v).trans (hd.holds_iff k v).symm }
  policy_eq := hd.policy_eq
  hash_eq := hd.hash_eq

namespace Represents

theorem reaches (h : t.Represents m) : t.Reaches t m := ⟨h, rfl, rfl⟩

theorem has_iff (h : t.Represents m) : t.Has key ↔ key ∈ m.map := by
  rw [Finmap.mem_iff, Has]
  exact exists_congr fun v => (h.lookup_iff key v).symm

theorem lookup_eq_none (h : t.Represents m) (hkey : ¬ t.Has key) : m.map.lookup key = none :=
  Finmap.lookup_eq_none.mpr fun hmem => hkey (h.has_iff.mpr hmem)

/-- Where a key has been stored, it has been inserted into the map. -/
theorem stored (h : t.Represents m) (hs : t.Stored t' key value i c n)
    (hc : c ≤ w.maxCapacity) (hn : n = (m.map.insert key value).keys.card) :
    t.Reaches t' ⟨m.map.insert key value, c⟩ := by
  refine hs.toDerived.reaches hc hn fun k v => ?_
  rw [lookup_insert_iff, h.lookup_iff]
  exact Iff.rfl

/-! ## Lookups -/

theorem find_eq (h : t.Represents m) (key : K) :
    (∃ i v, t.find key = .ok (some i) ∧ t.slots.node.entry i = some (key, v) ∧
      m.map.lookup key = some v) ∨
    (t.find key = .ok none ∧ m.map.lookup key = none) := by
  obtain ⟨L, hL⟩ := h.consistent.exists_laidOut
  rcases hL.find_spec key with ⟨i, hi, hfind⟩ | ⟨hno, hfind⟩
  · obtain ⟨v, hv⟩ := Nodes.exists_entry_of_key hi
    exact .inl ⟨i, v, hfind, hv, (h.lookup_iff key v).mpr ⟨i, hv⟩⟩
  · exact .inr ⟨hfind, h.lookup_eq_none hno⟩

theorem get_eq (h : t.Represents m) (key : K) : t.get key = .ok (m.map.lookup key) := by
  unfold get
  rcases h.find_eq key with ⟨i, v, hfind, hi, hlookup⟩ | ⟨hfind, hlookup⟩
  · have hvalue : t.slots.value i = .ok v := valueAt_eq hi
    rw [hfind, hlookup, ok_bind]
    dsimp only
    rw [hvalue]
    rfl
  · rw [hfind, hlookup]
    rfl

theorem contains_eq (h : t.Represents m) (key : K) :
    t.contains key = .ok (decide (key ∈ m.map)) := by
  unfold contains
  rcases h.find_eq key with ⟨i, v, hfind, -, hlookup⟩ | ⟨hfind, hlookup⟩
  · rw [hfind, decide_eq_true (Finmap.mem_of_lookup_eq_some hlookup)]
    rfl
  · rw [hfind, decide_eq_false (Finmap.lookup_eq_none.mp hlookup)]
    rfl

/-! ## Changes -/

/-- Where a value is written, it is written into the map. -/
theorem updateAt_spec (h : t.Represents m) {v : V}
    (hi : t.slots.node.entry i = some (key, v)) (f : V → V) :
    ∃ t', t.updateAt i f = .ok t' ∧ t.Reaches t' (m.modify key f) ∧
      t'.slots.node.entry i = some (key, f v) := by
  obtain ⟨L, hL⟩ := h.consistent.exists_laidOut
  obtain ⟨t', ht', hstored⟩ := hL.updateAt_spec hi f
  have hlookup : m.map.lookup key = some v := (h.lookup_iff key v).mpr ⟨i, hi⟩
  have hmodify : m.modify key f = ⟨m.map.insert key (f v), m.capacity⟩ := by
    unfold BoundedMap.modify
    rw [hlookup]
  have hcap := h.consistent.capacity_le
  refine ⟨t', ht', ?_, hstored.entry_eq⟩
  rw [hmodify, ← h.capacity_eq]
  refine h.stored hstored hcap (h.len_eq.trans ?_)
  exact (card_insert_of_mem (Finmap.mem_of_lookup_eq_some hlookup)).symm

theorem modify_spec (h : t.Represents m) (key : K) (f : V → V) :
    ∃ t', t.modify key f = .ok (t', m.map.lookup key) ∧ t.Reaches t' (m.modify key f) := by
  unfold Table.modify
  rcases h.find_eq key with ⟨i, v, hfind, hi, hlookup⟩ | ⟨hfind, hlookup⟩
  · obtain ⟨t', ht', hreach, -⟩ := h.updateAt_spec hi f
    have hvalue : t.slots.value i = .ok v := valueAt_eq hi
    have hupdate : t.withSlots (fun s => s.updateValue i f) = .ok t' := ht'
    refine ⟨t', ?_, hreach⟩
    simp only [hfind, hlookup, ok_bind, hvalue, hupdate]
    rfl
  · have hmodify : m.modify key f = m := by
      unfold BoundedMap.modify
      rw [hlookup]
    refine ⟨t, ?_, ?_⟩
    · rw [hfind, hlookup]
      rfl
    · rw [hmodify]
      exact h.reaches

/-- Storing a key in the table stores it in the map, or is declined for the same reason. -/
theorem put_spec (h : t.Represents m) (key : K) (value : V) :
    (∃ e, m.put w t.policy key value = .error e ∧
      (t.put key value).outcome = .ok (t, .error e)) ∨
    (∃ m' t' i, m.put w t.policy key value = .ok m' ∧
      (t.put key value).outcome = .ok (t', .ok i) ∧ t.Reaches t' m' ∧
      t'.slots.node.entry i = some (key, value)) := by
  obtain ⟨L, hL⟩ := h.consistent.exists_laidOut
  have hcap := h.consistent.capacity_le
  obtain ⟨r, hr, -, hspec⟩ := hL.put_spec hcap key value
  have hlen : t.len = m.map.keys.card := h.len_eq
  have hroom : t.len < t.capacity → m.size < m.capacity := by
    rw [h.capacity_eq, h.len_eq]
    exact id
  -- a key is new, and a table full, just if the same is true of the state
  have hnoroom : ¬ t.Has key → t.len = t.capacity →
      ¬ (key ∈ m.map ∨ m.size < m.capacity) := by
    rw [h.capacity_eq, h.len_eq, h.has_iff]
    rintro hnew hfull (hmem | hlt)
    · exact hnew hmem
    · omega
  unfold BoundedMap.put
  rw [hr]
  cases hspec with
  | @replaced i t' hhas hstored =>
    refine .inr ⟨_, t', i, if_pos (.inl (h.has_iff.mp hhas)), rfl, ?_, hstored.entry_eq⟩
    rw [← h.capacity_eq]
    refine h.stored hstored hcap (hlen.trans ?_)
    rw [card_insert_of_mem (h.has_iff.mp hhas)]
  | @added i t' hnew hlt hstored =>
    refine .inr ⟨_, t', i, if_pos (.inr (hroom hlt)), rfl, ?_, hstored.entry_eq⟩
    rw [← h.capacity_eq]
    refine h.stored hstored hcap ?_
    rw [card_insert_of_notMem fun hmem => hnew (h.has_iff.mpr hmem), hlen]
  | @grown i t' hnew hfull hgrowable hle hstored =>
    refine .inr ⟨⟨m.map.insert key value, 2 * m.capacity⟩, t', i, ?_, rfl, ?_, hstored.entry_eq⟩
    · rw [if_neg (hnoroom hnew hfull), hgrowable, ← h.capacity_eq]
      exact if_pos hle
    · rw [← h.capacity_eq]
      refine h.stored hstored hle ?_
      rw [card_insert_of_notMem fun hmem => hnew (h.has_iff.mpr hmem), hlen]
  | exhausted hnew hfull hfixed =>
    refine .inl ⟨_, ?_, rfl⟩
    rw [if_neg (hnoroom hnew hfull), hfixed, h.capacity_eq]
  | tooLarge hnew hfull hgrowable hlt =>
    refine .inl ⟨_, ?_, rfl⟩
    rw [if_neg (hnoroom hnew hfull), hgrowable, h.capacity_eq]
    exact if_neg (by rw [← h.capacity_eq]; omega)

theorem removeAndGet_spec (h : t.Represents m) (key : K) :
    ∃ t', (t.removeAndGet key).outcome = .ok (t', m.map.lookup key) ∧
      t.Reaches t' ⟨m.map.erase key, m.capacity⟩ := by
  obtain ⟨L, hL⟩ := h.consistent.exists_laidOut
  have hcap := h.consistent.capacity_le
  rcases hL.removeAndGet_spec hcap key with ⟨v, t', n, hv, hn, ht', hderived⟩ | ⟨hno, ht'⟩
  · have hlookup : m.map.lookup key = some v := (h.lookup_iff key v).mpr hv
    have hcard := card_erase_of_mem (Finmap.mem_of_lookup_eq_some hlookup)
    have hlen : t.len = m.map.keys.card := h.len_eq
    refine ⟨t', by rw [ht', hlookup], ?_⟩
    rw [← h.capacity_eq]
    refine hderived.reaches hcap (by omega) fun k v => ?_
    rw [lookup_erase_iff, h.lookup_iff]
    exact Iff.rfl
  · have hlookup := h.lookup_eq_none hno
    refine ⟨t, by rw [ht', hlookup], ?_⟩
    rw [erase_of_notMem (Finmap.lookup_eq_none.mp hlookup)]
    exact h.reaches

theorem clear_spec (h : t.Represents m) :
    ∃ t', t.clear = .ok t' ∧ t.Reaches t' ⟨∅, m.capacity⟩ := by
  obtain ⟨L, hL⟩ := h.consistent.exists_laidOut
  have hcap := h.consistent.capacity_le
  obtain ⟨t', ht', hderived⟩ := hL.clear_spec hcap
  refine ⟨t', ht', ?_⟩
  rw [← h.capacity_eq]
  refine hderived.reaches hcap (by rw [Finmap.keys_empty, Finset.card_empty]) fun k v => ?_
  rw [Finmap.lookup_empty]
  exact ⟨fun h' => (by cases h'), False.elim⟩

/-- Rebuilding the table keeps the map, or is declined for the same reason. -/
theorem rehash_spec (h : t.Represents m) (count : Nat) :
    (∃ e, m.rehash w t.policy count = .error e ∧
      (t.rehash count).outcome = .ok (t, .error e)) ∨
    (∃ m' t', m.rehash w t.policy count = .ok m' ∧
      (t.rehash count).outcome = .ok (t', .ok m'.capacity) ∧ t.Reaches t' m') := by
  obtain ⟨L, hL⟩ := h.consistent.exists_laidOut
  obtain ⟨r, hr, hspec⟩ := hL.rehash_spec count
  unfold BoundedMap.rehash
  rw [hr, ← h.len_eq]
  -- the guards of the state are those of the table, in the same order
  cases hspec with
  | @rebuilt t' hgrowable hlen hle hderived =>
    refine .inr ⟨⟨m.map, 2 ^ Nat.clog 2 count⟩, t', ?_, rfl,
      hderived.reaches hle h.len_eq h.lookup_iff⟩
    rw [hgrowable]
    dsimp only
    rw [if_neg (by omega), if_pos hle]
  | fixed hfixed => exact .inl ⟨_, by rw [hfixed], rfl⟩
  | below hgrowable hlt =>
    refine .inl ⟨_, ?_, rfl⟩
    rw [hgrowable]
    exact if_pos hlt
  | tooLarge hgrowable hlen hlt =>
    refine .inl ⟨_, ?_, rfl⟩
    rw [hgrowable]
    dsimp only
    rw [if_neg (by omega), if_neg (by omega)]

/-! ## Calls -/

/-- Storing a key, and then writing to the slot answered with. -/
theorem perform_put (h : t.Represents m) (key : K) (value : V) (write : Option (V → V)) :
    ∃ t', (MapCall.put key value write).perform t =
        .ok (t', (m.perform w t.policy (.put key value write)).2) ∧
      t.Reaches t' (m.perform w t.policy (.put key value write)).1 := by
  unfold MapCall.perform BoundedMap.perform
  dsimp only
  rcases h.put_spec key value with ⟨e, he, ht⟩ | ⟨m', t', i, hm', ht', hreach, hi⟩
  · rw [he, ht]
    exact ⟨t, rfl, h.reaches⟩
  have hrep := hreach.represents
  rw [hm', ht', ok_bind]
  dsimp only
  cases write with
  | none =>
    have hlookup : m'.map.lookup key = some value := (hrep.lookup_iff key value).mpr ⟨i, hi⟩
    rw [pure_eq_ok, ok_bind, valueAt_eq hi, hlookup]
    exact ⟨t', rfl, hreach⟩
  | some f =>
    obtain ⟨t'', ht'', hreach', hi'⟩ := hrep.updateAt_spec hi f
    have hlookup : (m'.modify key f).map.lookup key = some (f value) :=
      (hreach'.represents.lookup_iff key (f value)).mpr ⟨i, hi'⟩
    dsimp only
    rw [ht'', ok_bind, valueAt_eq hi', hlookup]
    exact ⟨t'', rfl, hreach.trans hreach'⟩

/-- A call goes from a table that represents a state to one that represents the next state, and
gives the answer that the state gives. -/
theorem perform_spec (h : t.Represents m) (call : MapCall K V) :
    ∃ t', call.perform t = .ok (t', (m.perform w t.policy call).2) ∧
      t.Reaches t' (m.perform w t.policy call).1 := by
  cases call with
  | put key value write => exact h.perform_put key value write
  | get key =>
    refine ⟨t, ?_, h.reaches⟩
    dsimp only [MapCall.perform]
    rw [h.get_eq key]
    rfl
  | contains key =>
    refine ⟨t, ?_, h.reaches⟩
    dsimp only [MapCall.perform]
    rw [h.contains_eq key]
    rfl
  | modify key write =>
    obtain ⟨t', ht', hreach⟩ := h.modify_spec key write
    refine ⟨t', ?_, hreach⟩
    dsimp only [MapCall.perform]
    rw [ht']
    rfl
  | remove key =>
    obtain ⟨t', ht', hreach⟩ := h.removeAndGet_spec key
    have hstored : (m.map.lookup key).isSome = decide (key ∈ m.map) := by
      rw [Bool.eq_iff_iff, decide_eq_true_iff]
      exact Finmap.lookup_isSome
    refine ⟨t', ?_, hreach⟩
    dsimp only [MapCall.perform, remove]
    rw [Traced.outcome_bind, ht', ok_bind, Traced.outcome_pure, ok_bind, hstored]
    rfl
  | removeAndGet key =>
    obtain ⟨t', ht', hreach⟩ := h.removeAndGet_spec key
    refine ⟨t', ?_, hreach⟩
    dsimp only [MapCall.perform]
    rw [ht']
    rfl
  | clear =>
    obtain ⟨t', ht', hreach⟩ := h.clear_spec
    refine ⟨t', ?_, hreach⟩
    dsimp only [MapCall.perform]
    rw [ht']
    rfl
  | rehash count =>
    dsimp only [MapCall.perform, BoundedMap.perform]
    rcases h.rehash_spec count with ⟨e, he, ht⟩ | ⟨m', t', hm', ht', hreach⟩
    · rw [he, ht]
      exact ⟨t, rfl, h.reaches⟩
    · rw [hm', ht']
      exact ⟨t', rfl, hreach⟩
  | len =>
    refine ⟨t, ?_, h.reaches⟩
    dsimp only [MapCall.perform]
    rw [h.len_eq]
    rfl
  | isEmpty =>
    refine ⟨t, ?_, h.reaches⟩
    dsimp only [MapCall.perform, isEmpty]
    rw [h.len_eq]
    rfl
  | capacity =>
    refine ⟨t, ?_, h.reaches⟩
    dsimp only [MapCall.perform]
    rw [h.capacity_eq]
    rfl

/-- Calls made one after another give the answers that the states give. -/
theorem run_spec (h : t.Represents m) (calls : List (MapCall K V)) :
    ∃ t', run MapCall.perform calls t = .ok (t', m.answers w t.policy calls) := by
  induction calls generalizing t m with
  | nil => exact ⟨t, rfl⟩
  | cons call calls ih =>
    obtain ⟨t₁, ht₁, hreach⟩ := h.perform_spec call
    obtain ⟨t', ht'⟩ := ih hreach.represents
    refine ⟨t', ?_⟩
    rw [run, ht₁, ok_bind]
    dsimp only
    rw [ht', hreach.policy_eq]
    rfl

end Represents

end Table

/-! ## Sessions -/

variable [DecidableEq K]

/-- A table is built just if there is a state to start with, and represents it. -/
theorem Start.build_spec (start : Start) (policy : Policy) (hash : K → UInt64) :
    (∃ e, BoundedMap.start (K := K) (V := V) w start = .error e ∧
      (start.build policy hash : Except Fault (Except TableError (Table w K V))) =
        .ok (.error e)) ∨
    (∃ m, ∃ t : Table w K V, BoundedMap.start w start = .ok m ∧
      start.build policy hash = .ok (.ok t) ∧ t.Represents m ∧ t.policy = policy ∧
      t.hash = hash) := by
  cases start with
  | new =>
    obtain ⟨t, ht, hnew⟩ := Table.new_spec (w := w) (V := V) policy hash
    refine .inr ⟨⟨∅, 1⟩, t, rfl, ?_, hnew.represents w.maxCapacity_pos, hnew.policy_eq,
      hnew.hash_eq⟩
    unfold build
    rw [ht]
    rfl
  | withCapacity count =>
    rcases Table.withCapacity_spec (w := w) (V := V) policy hash count with
      ⟨hle, t, ht, hnew⟩ | ⟨hlt, ht⟩
    · exact .inr ⟨_, t, if_pos hle, ht, hnew.represents hle, hnew.policy_eq, hnew.hash_eq⟩
    · exact .inl ⟨_, if_neg (by omega), ht⟩

/-- The calls of a session, whatever they are, are answered as the finite map answers them, from
the first one to the last; where there is no state to start with, no table is built. -/
theorem session_answers (policy : Policy) (hash : K → UInt64) (start : Start)
    (calls : List (MapCall K V)) :
    (session (w := w) MapCall.perform policy hash start calls).map (Except.map Prod.snd) =
      .ok ((BoundedMap.start w start).map fun m => m.answers w policy calls) := by
  unfold session
  rcases start.build_spec (w := w) (V := V) policy hash with
    ⟨e, he, hbuild⟩ | ⟨m, t, hm, hbuild, hrep, rfl, -⟩
  · rw [he, hbuild]
    rfl
  · obtain ⟨t', ht'⟩ := hrep.run_spec calls
    rw [hm, hbuild, ok_bind]
    dsimp only
    rw [ht']
    rfl

end HomeChain

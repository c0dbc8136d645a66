import HomeChain.Consistency.Check
import HomeChain.Proofs.Chains
import HomeChain.Proofs.FreeCircle
import Mathlib.Algebra.Group.Nat.Defs
import Mathlib.Data.List.Perm.Basic
import Mathlib.Tactic.Cases

/-!
# Tables in order

`Table.InOrder` says what it means for a table to be in order: the array has the right size,
every link has the sign and the range of its slot, the entries are counted right, the free
slots and the anchor form one circle, the used slots fall into home chains, and no key is
stored twice. A table is `Consistent` if in addition links of its width can serve it.

The proofs work with a `Layout`, which names the lists that `InOrder` claims to exist: the
order of the free list, and the chain of each home address. A table is in order just if it has
a layout (`inOrder_iff`), and it has one only.
-/

namespace HomeChain

variable {w : LinkWidth} {K V : Type}

/-- The key in slot `i`. -/
def Nodes.key (n : Nodes w K V) (i : Nat) : Option K := (n i).map fun x => x.2.1

theorem Nodes.key_eq_some_iff {n : Nodes w K V} {i : Nat} {k : K} :
    n.key i = some k ↔ ∃ next v, n i = some (next, k, v) := by
  simp only [Nodes.key, Option.map_eq_some_iff, Prod.exists]
  constructor
  · rintro ⟨next, _, v, h, rfl⟩
    exact ⟨next, v, h⟩
  · rintro ⟨next, v, h⟩
    exact ⟨next, k, v, h, rfl⟩

theorem SlotArray.key_eq_some_iff {s : SlotArray w K V} {i : Nat} {k : K} :
    s.node.key i = some k ↔ ∃ next v, s[i]? = some (.used next k v) := by
  simp only [Nodes.key_eq_some_iff, SlotArray.node_eq_some_iff]

namespace Table

/-! ## What it means to be in order -/

/-- The list `c` is the chain of home address `h`: it starts in slot `h`, the links lead along
it and end with the null link, and all its members hold keys with home address `h`. -/
structure IsHomeChain (t : Table w K V) (h : Nat) (c : List Nat) : Prop where
  head : c.head? = some h
  route : Route t.slots.node.succ (c ++ [0])
  home : ∀ i ∈ c, ∃ next k v, t.slots[i]? = some (.used next k v) ∧ t.home k = h

/-- The table is in order. -/
structure InOrder (t : Table w K V) : Prop where
  /-- The capacity is a power of two. -/
  capacity_pow : ∃ n, t.capacity = 2 ^ n
  /-- The array has the slots for entries, and the anchor. -/
  size_eq : t.slots.size = t.capacity + 1
  /-- The anchor holds no entry. -/
  anchor_free : ∃ prev next, t.slots[0]? = some (.free prev next)
  /-- A free slot has a plain link and a negated one, and both stay in the array. -/
  free_links : ∀ (i : Nat) (prev next : Link w), t.slots[i]? = some (.free prev next) →
    (0 ≤ prev.toInt ∧ prev.toInt ≤ t.capacity) ∧
      (-(t.capacity + 1 : Int) ≤ next.toInt ∧ next.toInt < 0)
  /-- A used slot has a plain link that stays in the array. -/
  used_links : ∀ (i : Nat) (next : Link w) (k : K) (v : V), t.slots[i]? = some (.used next k v) →
    0 ≤ next.toInt ∧ next.toInt ≤ t.capacity
  /-- The table counts its entries right. -/
  len_eq : t.len = t.slots.usedCount
  /-- The free slots form one circle with the anchor, linked both ways. -/
  free_circle : ∃ order, FreeCircle t.slots order ∧
    ∀ i, i ∈ order ↔ 0 < i ∧ ∃ prev next, t.slots[i]? = some (.free prev next)
  /-- Every used slot is on exactly one home chain. -/
  home_chain : ∀ (i : Nat) (next : Link w) (k : K) (v : V), t.slots[i]? = some (.used next k v) →
    ∃! c, i ∈ c ∧ ∃ h, t.IsHomeChain h c
  /-- No key is stored twice. -/
  key_unique : ∀ (i j : Nat) (next next' : Link w) (k : K) (v v' : V),
    t.slots[i]? = some (.used next k v) → t.slots[j]? = some (.used next' k v') → i = j

/-- The table is in order, and links of its width can serve it. -/
structure Consistent (t : Table w K V) : Prop extends t.InOrder where
  capacity_le : t.capacity ≤ w.maxCapacity

end Table

/-! ## Layouts -/

/-- Where the lists of a table run. -/
structure Layout where
  /-- The order of the free list. -/
  free : List Nat
  /-- The chain of each home address. -/
  chain : Nat → List Nat

/-- The table is in order, with its lists as in the layout `L`. -/
structure Table.LaidOut (t : Table w K V) (L : Layout) : Prop where
  capacity_pow : ∃ n, t.capacity = 2 ^ n
  size_eq : t.slots.size = t.capacity + 1
  circle : FreeCircle t.slots L.free
  mem_free : ∀ i, i ∈ L.free ↔ 0 < i ∧ i < t.slots.size ∧ t.slots.node i = none
  chains : Chains t.home t.slots.node.key t.slots.node.succ L.chain
  count : t.len + L.free.length = t.capacity

/-! ## Counting -/

theorem map_getElem?_range' {α : Type} (l : List α) :
    (List.range' 1 (l.length - 1)).map (fun i => l[i]?) = (l.drop 1).map some := by
  refine List.ext_getElem? fun i => ?_
  rw [List.getElem?_map, List.getElem?_map, List.getElem?_drop]
  rcases Nat.lt_or_ge i (l.length - 1) with hi | hi
  · rw [List.getElem?_range' hi, Option.map_some, Nat.one_mul,
      List.getElem?_eq_getElem (by omega)]
    rfl
  · rw [List.getElem?_eq_none (by rwa [List.length_range']),
      List.getElem?_eq_none (by omega)]
    rfl

namespace SlotArray

theorem usedCount_eq (s : SlotArray w K V) :
    s.usedCount = (List.range' 1 s.capacity).countP s.isUsed := by
  have hmap := map_getElem?_range' s.toList
  rw [usedCount, capacity, ← Array.length_toList]
  have hany : ∀ o : List (Slot w K V),
      o.countP Slot.isUsed = (o.map some).countP (fun x => x.any Slot.isUsed) := fun o => by
    rw [List.countP_map]
    rfl
  rw [hany, ← hmap, List.countP_map]
  refine List.countP_congr fun i _ => ?_
  rw [Function.comp_apply, Array.getElem?_toList, isUsed]
  cases s[i]? <;> simp

/-- The used slots and the free ones make up the capacity. -/
theorem usedCount_add_length {s : SlotArray w K V} {free : List Nat} (hnodup : free.Nodup)
    (hmem : ∀ i, i ∈ free ↔ 0 < i ∧ i < s.size ∧ s.node i = none) :
    s.usedCount + free.length = s.capacity := by
  have hperm : free.Perm ((List.range' 1 s.capacity).filter fun i => !s.isUsed i) := by
    refine (List.perm_ext_iff_of_nodup hnodup
      (List.Nodup.filter _ List.nodup_range')).mpr fun i => ?_
    rw [hmem, List.mem_filter, List.mem_range'_1, isUsed_eq_isSome, capacity]
    simp only [Bool.not_eq_true', Option.isSome_eq_false_iff, Option.isNone_iff_eq_none]
    constructor
    · rintro ⟨h0, hsize, hnone⟩
      exact ⟨⟨h0, by omega⟩, hnone⟩
    · rintro ⟨⟨h1, h2⟩, hnone⟩
      exact ⟨h1, by omega, hnone⟩
  have hsplit := List.length_eq_countP_add_countP s.isUsed (l := List.range' 1 s.capacity)
  rw [List.length_range'] at hsplit
  rw [hperm.length_eq, ← List.countP_eq_length_filter, usedCount_eq]
  simpa using hsplit.symm

end SlotArray

/-! ## Tables with a layout -/

namespace Table

variable {t : Table w K V} {L : Layout} {i h : Nat} {c : List Nat}

theorem IsHomeChain.zero_notMem (hc : t.IsHomeChain h c)
    (hanchor : ∃ prev next, t.slots[0]? = some (.free prev next)) : 0 ∉ c := by
  intro h0
  obtain ⟨prev, next, hfree⟩ := hanchor
  obtain ⟨next', k, v, hused, -⟩ := hc.home 0 h0
  rw [hfree] at hused
  cases hused

/-- The keys on a home chain have its home address. -/
theorem IsHomeChain.home_eq (hc : t.IsHomeChain h c) (hi : i ∈ c) {next : Link w} {k : K} {v : V}
    (hs : t.slots[i]? = some (.used next k v)) : t.home k = h := by
  obtain ⟨next', k', v', hs', hk'⟩ := hc.home i hi
  rw [hs, Option.some.injEq, Slot.used.injEq] at hs'
  rw [hs'.2.1, hk']

/-- A home chain is settled by its home address. -/
theorem IsHomeChain.unique {c' : List Nat} (hc : t.IsHomeChain h c) (hc' : t.IsHomeChain h c')
    (hanchor : ∃ prev next, t.slots[0]? = some (.free prev next)) : c = c' := by
  obtain ⟨rest, rfl⟩ := List.head?_eq_some_iff.mp hc.head
  obtain ⟨rest', rfl⟩ := List.head?_eq_some_iff.mp hc'.head
  have h0 := hc.zero_notMem hanchor
  have h0' := hc'.zero_notMem hanchor
  rw [hc.route.unique hc'.route (fun hm => h0 (List.mem_cons_of_mem h hm))
    (fun hm => h0' (List.mem_cons_of_mem h hm))]

namespace LaidOut

theorem anchor_free (hL : t.LaidOut L) : ∃ prev next, t.slots[0]? = some (.free prev next) := by
  obtain ⟨prev, next, -, -, h, -⟩ := hL.circle.exists_free List.mem_cons_self
  exact ⟨prev, next, h⟩

theorem mem_free_iff (hL : t.LaidOut L) :
    i ∈ L.free ↔ 0 < i ∧ ∃ prev next, t.slots[i]? = some (.free prev next) := by
  rw [hL.mem_free, SlotArray.free_iff]

theorem le_capacity_of_mem_free (hL : t.LaidOut L) (hi : i ∈ 0 :: L.free) : i ≤ t.capacity := by
  have := hL.circle.lt_size hi
  have := hL.size_eq
  omega

theorem mem_chain_iff (hL : t.LaidOut L) :
    i ∈ L.chain h ↔ ∃ next k v, t.slots[i]? = some (.used next k v) ∧ t.home k = h := by
  rw [hL.chains.mem_iff]
  simp only [SlotArray.key_eq_some_iff]
  constructor
  · rintro ⟨k, ⟨next, v, hs⟩, hk⟩
    exact ⟨next, k, v, hs, hk⟩
  · rintro ⟨next, k, v, hs, hk⟩
    exact ⟨k, ⟨next, v, hs⟩, hk⟩

theorem exists_node_of_mem_chain (hL : t.LaidOut L) (hi : i ∈ L.chain h) :
    ∃ x, t.slots.node i = some x := by
  obtain ⟨next, k, v, hs, -⟩ := hL.mem_chain_iff.mp hi
  exact ⟨_, SlotArray.node_eq_some_iff.mpr hs⟩

/-- A key is in one slot only. -/
theorem eq_of_key (hL : t.LaidOut L) {k : K} (hi : t.slots.node.key i = some k) (j : Nat)
    (hj : t.slots.node.key j = some k) : j = i := hL.chains.key_inj j i k hj hi

theorem le_capacity_of_mem_chain (hL : t.LaidOut L) (hi : i ∈ L.chain h) :
    0 < i ∧ i ≤ t.capacity := by
  obtain ⟨next, k, v, hs, -⟩ := hL.mem_chain_iff.mp hi
  have hsize := hL.size_eq
  have hi' := (Array.getElem?_eq_some_iff.mp hs).1
  have h0 : i ≠ 0 := fun h0 => hL.chains.zero_notMem h (h0 ▸ hi)
  omega

/-- No chain is longer than there are slots for entries. -/
theorem length_chain_le (hL : t.LaidOut L) (h : Nat) : (L.chain h).length ≤ t.capacity := by
  have hsub : L.chain h ⊆ List.range' 1 t.capacity := fun i hi => by
    obtain ⟨h0, hle⟩ := hL.le_capacity_of_mem_chain hi
    exact List.mem_range'_1.mpr ⟨h0, by omega⟩
  have hlen := List.Nodup.length_le_of_subset (hL.chains.nodup h) hsub
  rwa [List.length_range'] at hlen

theorem len_eq_usedCount (hL : t.LaidOut L) : t.len = t.slots.usedCount := by
  have hcount := hL.count
  have hused := SlotArray.usedCount_add_length (List.nodup_cons.mp hL.circle.nodup).2 hL.mem_free
  have hsize := hL.size_eq
  rw [SlotArray.capacity] at hused
  omega

theorem len_le_capacity (hL : t.LaidOut L) : t.len ≤ t.capacity := by
  have := hL.count
  omega

theorem isHomeChain (hL : t.LaidOut L) (hi : i ∈ L.chain h) : t.IsHomeChain h (L.chain h) where
  head := by
    obtain ⟨rest, hrest⟩ := hL.chains.eq_cons hi
    rw [hrest]
    rfl
  route := hL.chains.route h
  home i hi := hL.mem_chain_iff.mp hi

theorem inOrder (hL : t.LaidOut L) : t.InOrder where
  capacity_pow := hL.capacity_pow
  size_eq := hL.size_eq
  anchor_free := hL.anchor_free
  free_links i prev next hs := by
    have hi : i ∈ 0 :: L.free := by
      rcases Nat.eq_zero_or_pos i with rfl | hpos
      · exact List.mem_cons_self
      · exact List.mem_cons_of_mem 0 (hL.mem_free_iff.mpr ⟨hpos, prev, next, hs⟩)
    obtain ⟨prev', next', p, q, hs', hp, hq, hpm, hqm⟩ := hL.circle.exists_free hi
    rw [hs, Option.some.injEq, Slot.free.injEq] at hs'
    obtain ⟨rfl, rfl⟩ := hs'
    have hpc := hL.le_capacity_of_mem_free hpm
    have hqc := hL.le_capacity_of_mem_free hqm
    rw [Link.decodeIndex_eq_ok_iff] at hp
    rw [Link.decodeSuccessor_eq_ok_iff] at hq
    omega
  used_links i next k v hs := by
    have hi : i ∈ L.chain (t.home k) := hL.mem_chain_iff.mpr ⟨next, k, v, hs, rfl⟩
    -- a link leads to the next member or to the anchor
    obtain ⟨j, hj, hij⟩ := (hL.chains.route (t.home k)).leads hi
    rw [SlotArray.succ_of_used hs, Link.index?_eq_some_iff, Link.decodeIndex_eq_ok_iff] at hij
    have hjc : j ≤ t.capacity := by
      rcases List.mem_append.mp hj with hj | hj
      · exact (hL.le_capacity_of_mem_chain hj).2
      · simp at hj
        omega
    omega
  len_eq := hL.len_eq_usedCount
  free_circle := ⟨L.free, hL.circle, fun _ => hL.mem_free_iff⟩
  home_chain i next k v hs := by
    have hi : i ∈ L.chain (t.home k) := hL.mem_chain_iff.mpr ⟨next, k, v, hs, rfl⟩
    refine ⟨L.chain (t.home k), ⟨hi, t.home k, hL.isHomeChain hi⟩, ?_⟩
    rintro c ⟨hic, h, hc⟩
    rw [← hc.home_eq hic hs] at hc
    exact hc.unique (hL.isHomeChain hi) hL.anchor_free
  key_unique i j next next' k v v' hi hj :=
    hL.chains.key_inj i j k (SlotArray.key_eq_some_iff.mpr ⟨next, v, hi⟩)
      (SlotArray.key_eq_some_iff.mpr ⟨next', v', hj⟩)

end LaidOut

open Classical in
/-- The chain of home address `h`, which is empty if there is none. -/
noncomputable def homeChain (t : Table w K V) (h : Nat) : List Nat :=
  if hc : ∃ c, t.IsHomeChain h c then hc.choose else []

namespace InOrder

theorem homeChain_eq (ht : t.InOrder) (hc : t.IsHomeChain h c) : t.homeChain h = c := by
  have hex : ∃ c, t.IsHomeChain h c := ⟨c, hc⟩
  rw [homeChain, dif_pos hex]
  exact hex.choose_spec.unique hc ht.anchor_free

theorem homeChain_eq_nil_or (ht : t.InOrder) (h : Nat) :
    t.homeChain h = [] ∨ t.IsHomeChain h (t.homeChain h) := by
  by_cases hex : ∃ c, t.IsHomeChain h c
  · obtain ⟨c, hc⟩ := hex
    rw [ht.homeChain_eq hc]
    exact .inr hc
  · exact .inl (dif_neg hex)

/-- Every used slot is on the home chain of its key. -/
theorem mem_homeChain (ht : t.InOrder) {next : Link w} {k : K} {v : V}
    (hs : t.slots[i]? = some (.used next k v)) : i ∈ t.homeChain (t.home k) := by
  obtain ⟨c, ⟨hic, h, hc⟩, -⟩ := ht.home_chain i next k v hs
  rw [hc.home_eq hic hs, ht.homeChain_eq hc]
  exact hic

/-- The used slots of a table in order form chains. -/
theorem chains (ht : t.InOrder) :
    Chains t.home t.slots.node.key t.slots.node.succ t.homeChain := by
  -- an address without a chain has the empty list, which ends at once
  refine ⟨?_, fun h => ?_, fun h i hi => ?_, fun h i => ⟨fun hi => ?_, ?_⟩, fun i j k hi hj => ?_⟩
  · have hnone := (SlotArray.free_iff.mp ht.anchor_free).2
    rw [Nodes.key, hnone]
    rfl
  · rcases ht.homeChain_eq_nil_or h with hnil | hc
    · rw [hnil]
      exact Route.singleton 0
    · exact hc.route
  · rcases ht.homeChain_eq_nil_or h with hnil | hc
    · rw [hnil] at hi
      cases hi
    · exact Option.some.inj (hi.symm.trans hc.head)
  · rcases ht.homeChain_eq_nil_or h with hnil | hc
    · rw [hnil] at hi
      cases hi
    · obtain ⟨next, k, v, hs, hk⟩ := hc.home i hi
      exact ⟨k, SlotArray.key_eq_some_iff.mpr ⟨next, v, hs⟩, hk⟩
  · rintro ⟨k, hk, rfl⟩
    obtain ⟨next, v, hs⟩ := SlotArray.key_eq_some_iff.mp hk
    exact ht.mem_homeChain hs
  · obtain ⟨next, v, hs⟩ := SlotArray.key_eq_some_iff.mp hi
    obtain ⟨next', v', hs'⟩ := SlotArray.key_eq_some_iff.mp hj
    exact ht.key_unique i j next next' k v v' hs hs'

theorem exists_laidOut (ht : t.InOrder) : ∃ L, t.LaidOut L := by
  obtain ⟨order, hcircle, hmem⟩ := ht.free_circle
  have hfree : ∀ i, i ∈ order ↔ 0 < i ∧ i < t.slots.size ∧ t.slots.node i = none := by
    intro i
    rw [hmem, SlotArray.free_iff]
  -- what is not on the free list is counted by `len`
  have hcount : t.len + order.length = t.capacity := by
    have hused := SlotArray.usedCount_add_length (List.nodup_cons.mp hcircle.nodup).2 hfree
    have hsize := ht.size_eq
    rw [SlotArray.capacity, ← ht.len_eq] at hused
    omega
  exact ⟨⟨order, t.homeChain⟩, ht.capacity_pow, ht.size_eq, hcircle, hfree, ht.chains, hcount⟩

end InOrder

/-- Tables in order are the tables with a layout. -/
theorem inOrder_iff : t.InOrder ↔ ∃ L, t.LaidOut L := by
  constructor
  · exact InOrder.exists_laidOut
  · intro h
    obtain ⟨L, hL⟩ := h
    exact hL.inOrder

/-- A table has one layout only. -/
theorem LaidOut.unique {L' : Layout} (hL : t.LaidOut L) (hL' : t.LaidOut L') : L = L' := by
  obtain ⟨free, chain⟩ := L
  obtain ⟨free', chain'⟩ := L'
  obtain rfl : chain = chain' := hL.chains.chain_unique hL'.chains
  have hfree : free = free' := hL.circle.unique hL'.circle
  rw [hfree]

end Table

end HomeChain

import HomeChain.Proofs.Insertion
import HomeChain.Table.Remove

/-!
# Removing a key, and all keys

On a table in order, a removal finds the key at the end of a trail and takes one slot out of
use. Which slot it is depends on where the key stands on its chain `a ++ j :: b`:

* it is the only member: its slot, and the chain is empty;
* it is the last of several: its slot, and the one in front becomes the end;
* it has a successor: the slot of the successor, which moves up.

In each case (`Drops`) the slot goes to the front of the free list and `Holds` is false of the key
(`removeAndGet_dropped`). A key that is not stored leaves the table as it is
(`removeAndGet_absent`). Removing all keys starts over with a fresh array (`clear_spec`).
-/

namespace HomeChain

open Function (update update_self update_of_ne)

variable {w : LinkWidth} {K V : Type}

/-! ## Used slots and their chains -/

namespace Nodes

variable {n : Nodes w K V} {home : K → Nat} {chain : Nat → List Nat} {a b : List Nat}
  {h j p x : Nat} {k key : K} {v : V} {y : Link w × K × V}

/-- The only member of a chain is dropped. -/
theorem chains_close (hc : Chains home n.key n.succ chain) (hx : chain h = [x]) :
    Chains home (Nodes.key (update n x none)) (succ (update n x none)) (update chain h []) := by
  rw [key_update, succ_update]
  exact hc.close hx

/-- The last member of a chain is dropped; `p` is in front of it. -/
theorem chains_dropLast (hc : Chains home n.key n.succ chain) (hx : chain h = a ++ [p, x])
    (hp : n p = some y) :
    let n' := update (n.relink p .null) x none
    Chains home (Nodes.key n') (succ n') (update chain h (a ++ [p])) := by
  intro n'
  have hdrop := hc.dropLast hx
  rw [key_update, succ_update, key_relink, succ_relink hp]
  rwa [← Link.index?_null (w := w)] at hdrop

/-- A member is overwritten by the one behind it. -/
theorem chains_pull (hc : Chains home n.key n.succ chain) (hx : chain h = a ++ x :: j :: b) :
    let n' := update (update n x (n j)) j none
    Chains home (Nodes.key n') (succ n') (update chain h (a ++ x :: b)) := by
  intro n'
  rw [key_update, succ_update, key_update, succ_update]
  exact hc.pull hx

/-- Where an entry is overwritten by another one, which is dropped from its own slot, the
first of the two is gone. -/
theorem holds_pull (hx : n.key x = some key) (hxj : x ≠ j)
    (huniq : ∀ i, n.key i = some key → i = x) :
    Holds (update (update n x (n j)) j none) k v ↔ k ≠ key ∧ n.Holds k v := by
  have hjn : update n x none j = n j := update_of_ne (Ne.symm hxj) ..
  rw [← holds_erase hx huniq, ← holds_move (n := update n x none) (update_self ..) hxj, hjn,
    Function.update_idem]

end Nodes

namespace Table

variable {t : Table w K V} {L : Layout} {u : SlotArray w K V} {i j h p : Nat} {key : K} {v : V}
  {a b : List Nat} {next : Link w} {x : Link w × K × V}

/-- What a table holds once `key` is removed. -/
def HoldsWithout (t : Table w K V) (key : K) (k : K) (v : V) : Prop := k ≠ key ∧ t.Holds k v

/-- The ways to remove the key in slot `i` of a table that is laid out as `L`: what the slots hold
then, and how the lists run. -/
inductive Drops (t : Table w K V) (L : Layout) (key : K) (i : Nat) :
    Nodes w K V → Layout → Prop where
  /-- The entry was the only member of its chain. -/
  | only (chain : L.chain (t.home key) = [i]) :
      Drops t L key i (update t.slots.node i none)
        ⟨i :: L.free, update L.chain (t.home key) []⟩
  /-- The entry was the last member of its chain, and the one in front is the last now. -/
  | last {p : Nat} {a : List Nat} (chain : L.chain (t.home key) = a ++ [p, i]) :
      Drops t L key i (update (t.slots.node.relink p .null) i none)
        ⟨i :: L.free, update L.chain (t.home key) (a ++ [p])⟩
  /-- The entry had a successor, which has taken its slot. -/
  | inner {j : Nat} {a b : List Nat} (chain : L.chain (t.home key) = a ++ i :: j :: b) :
      Drops t L key i (update (update t.slots.node i (t.slots.node j)) j none)
        ⟨j :: L.free, update L.chain (t.home key) (a ++ i :: b)⟩

/-- The table `t'` is `t` without the key `key`, which was in slot `i`; the layout was `L`, and is
`L'`. -/
structure Dropped (t t' : Table w K V) (L L' : Layout) (key : K) (i : Nat) : Prop where
  derived : ∃ n, t.len = n + 1 ∧ t.Derived t' t.capacity n (t.HoldsWithout key)
  laidOut : t'.LaidOut L'
  drops : t.Drops L key i t'.slots.node L'

theorem vacate_eq_bind (t : Table w K V) (i : Nat) : t.vacate i = t.slots.release i >>= fun s =>
    match t.len with
    | 0 => .error .countOutOfRange
    | len + 1 => .ok { t with slots := s, len } := by
  unfold vacate
  dsimp only
  cases t.slots.release i <;> rfl

namespace LaidOut

/-! ## Giving a slot back -/

/-- A table with a used slot counts at least one entry. -/
theorem exists_len_eq (hL : t.LaidOut L) (hi : t.slots.node i = some x) :
    ∃ n, t.len = n + 1 := by
  have hcount := hL.count
  have hisize := SlotArray.lt_size_of_node hi
  have hsize := hL.size_eq
  have hi0 : i ≠ 0 := by
    rintro rfl
    rw [hL.circle.node_eq_none List.mem_cons_self] at hi
    cases hi
  have hnotin : i ∉ L.free := fun hm => by
    rw [hL.circle.node_eq_none (List.mem_cons_of_mem 0 hm)] at hi
    cases hi
  -- with `i` left out, the free list is shorter than the capacity
  have hsub : i :: L.free ⊆ List.range' 1 t.capacity := fun m hm => by
    rw [List.mem_range'_1]
    rcases List.mem_cons.mp hm with rfl | hm
    · omega
    · have hle := hL.le_capacity_of_mem_free (List.mem_cons_of_mem 0 hm)
      have hpos := ((hL.mem_free m).mp hm).1
      omega
  have hnodup : (i :: L.free).Nodup :=
    List.nodup_cons.mpr ⟨hnotin, (List.nodup_cons.mp hL.circle.nodup).2⟩
  have hlen := List.Nodup.length_le_of_subset hnodup hsub
  rw [List.length_cons, List.length_range'] at hlen
  exact ⟨t.len - 1, by omega⟩

/-- Slot `i` is given back, after the links and entries have changed to those of `u`. -/
theorem vacate_spec (hL : t.LaidOut L) (hcap : t.capacity ≤ w.maxCapacity)
    (hsize : u.size = t.slots.size) (hcircle : FreeCircle u L.free)
    (hnone : ∀ m, u.node m = none ↔ t.slots.node m = none)
    (hi : u.node i = some x) {chain : Nat → List Nat}
    (hchains : Chains t.home (Nodes.key (update u.node i none))
      (Nodes.succ (update u.node i none)) chain)
    (hholds : ∀ k v, Nodes.Holds (update u.node i none) k v ↔ t.HoldsWithout key k v) :
    ∃ t', vacate { t with slots := u } i = .ok t' ∧
      (∃ n, t.len = n + 1 ∧ t.Derived t' t.capacity n (t.HoldsWithout key)) ∧
      t'.LaidOut ⟨i :: L.free, chain⟩ ∧ t'.slots.node = update u.node i none := by
  have hle : u.size ≤ w.maxCapacity + 1 := by
    have := hL.size_eq
    omega
  -- the slot is used still, so it can go to the front of the free list
  obtain ⟨s', h, hsize', hnode', hcircle'⟩ := hcircle.release hi hle
  obtain ⟨y, hy⟩ : ∃ y, t.slots.node i = some y := by
    refine Option.ne_none_iff_exists'.mp fun hn => ?_
    rw [(hnone i).mpr hn] at hi
    cases hi
  obtain ⟨n, hn⟩ := hL.exists_len_eq hy
  have hnone' : ∀ m, s'.node m = none ↔ m = i ∨ t.slots.node m = none := by
    intro m
    rw [hnode', Nodes.update_none_eq_none, hnone]
  have hL' : ({ t with slots := s', len := n } : Table w K V).LaidOut ⟨i :: L.free, chain⟩ :=
    hL.drain hn (hsize'.trans hsize) hcircle' hnone' (hnode' ▸ hchains)
  refine ⟨_, ?_, ⟨n, hn, hL'.derived fun k v => by rw [hnode', hholds]⟩, hL', hnode'⟩
  simp only [vacate_eq_bind, h, ok_bind, hn]

/-! ## Removing a key -/

/-- The only member of a chain is cut out. -/
theorem cut_only (hL : t.LaidOut L) (hcap : t.capacity ≤ w.maxCapacity)
    (hchain : L.chain (t.home key) = [j]) (hj : t.slots[j]? = some (.used next key v)) :
    ∃ t' L', (t.cut ⟨j, [], true⟩).outcome = .ok t' ∧ t.Dropped t' L L' key j := by
  have hkey : t.slots.node.key j = some key := SlotArray.key_eq_some_iff.mpr ⟨next, v, hj⟩
  have hnext : next = .null := Link.eq_null_of_decodeIndex (hL.decodeIndex_eq (a := []) hchain hj)
  have hholds : ∀ k v, Nodes.Holds (update t.slots.node j none) k v ↔ t.HoldsWithout key k v :=
    fun k v => Nodes.holds_erase hkey (hL.eq_of_key hkey)
  obtain ⟨t', ht', hderived, hL', hnode'⟩ := hL.vacate_spec hcap rfl hL.circle (fun _ => Iff.rfl)
    (SlotArray.node_eq_some_iff.mpr hj) (Nodes.chains_close hL.chains hchain) hholds
  refine ⟨t', _, ?_, ⟨hderived, hL', hnode' ▸ .only hchain⟩⟩
  unfold cut
  simp only [Traced.outcome_bind, Traced.outcome_lift, SlotArray.chainNext_eq hj, ok_bind,
    if_pos hnext]
  exact ht'

/-- The last member of a chain is cut out; `p` is in front of it. -/
theorem cut_last (hL : t.LaidOut L) (hcap : t.capacity ≤ w.maxCapacity)
    (hchain : L.chain (t.home key) = a ++ [p, j]) (hj : t.slots[j]? = some (.used next key v))
    (before : List Nat) :
    ∃ t' L', (t.cut ⟨j, p :: before, true⟩).outcome = .ok t' ∧ t.Dropped t' L L' key j := by
  have hkey : t.slots.node.key j = some key := SlotArray.key_eq_some_iff.mpr ⟨next, v, hj⟩
  have hnj : t.slots.node j = some (next, key, v) := SlotArray.node_eq_some_iff.mpr hj
  have hnext : next = .null := by
    rw [List.append_cons] at hchain
    exact Link.eq_null_of_decodeIndex (hL.decodeIndex_eq hchain hj)
  obtain ⟨y, hy⟩ := hL.exists_node_of_mem_chain (i := p) (h := t.home key) (by simp [hchain])
  have hpj : p ≠ j := (hL.chains.ne_of_neighbours hchain).1
  -- `p` becomes the end; after that `j` is on no chain, but still used
  obtain ⟨u, hset, hsize, hnode, hcircle⟩ := hL.circle.setChainNext hy .null
  have hnone : ∀ m, u.node m = none ↔ t.slots.node m = none := by
    intro m
    rw [hnode, Nodes.relink_eq_none]
  have hnju : u.node j = some (next, key, v) := by
    rw [hnode, Nodes.relink, update_of_ne (Ne.symm hpj), hnj]
  have hkeys : u.node.key = t.slots.node.key := by rw [hnode, Nodes.key_relink]
  have hholds : ∀ k v, Nodes.Holds (update u.node j none) k v ↔ t.HoldsWithout key k v := by
    intro k v
    rw [Nodes.holds_erase (hkeys ▸ hkey) (hkeys ▸ hL.eq_of_key hkey), hnode, Nodes.holds_relink]
    exact Iff.rfl
  obtain ⟨t', ht', hderived, hL', hnode'⟩ := hL.vacate_spec hcap hsize hcircle hnone hnju
    (hnode ▸ Nodes.chains_dropLast hL.chains hchain hy) hholds
  rw [hnode] at hnode'
  refine ⟨t', _, ?_, ⟨hderived, hL', hnode' ▸ .last hchain⟩⟩
  have hunlink : t.withSlots (fun s => s.setChainNext p .null) = .ok { t with slots := u } :=
    withSlots_eq hset
  unfold cut
  simp only [Traced.outcome_bind, Traced.outcome_lift, SlotArray.chainNext_eq hj, ok_bind,
    if_pos hnext, hunlink]
  exact ht'

/-- A member of a chain is cut out that has a successor, which moves up. -/
theorem cut_inner (hL : t.LaidOut L) (hcap : t.capacity ≤ w.maxCapacity)
    (hchain : L.chain (t.home key) = a ++ j :: i :: b)
    (hj : t.slots[j]? = some (.used next key v)) (before : List Nat) :
    ∃ t' L', (t.cut ⟨j, before, true⟩).outcome = .ok t' ∧ t.Dropped t' L L' key j := by
  have hkey : t.slots.node.key j = some key := SlotArray.key_eq_some_iff.mpr ⟨next, v, hj⟩
  have hnj : t.slots.node j = some (next, key, v) := SlotArray.node_eq_some_iff.mpr hj
  have hdecode : next.decodeIndex = .ok i := hL.decodeIndex_eq hchain hj
  have hi0 : i ≠ 0 := by
    intro hi0
    apply hL.chains.zero_notMem (t.home key)
    simp [hchain, hi0]
  obtain ⟨⟨li, ki, vi⟩, hi⟩ :=
    hL.exists_node_of_mem_chain (i := i) (h := t.home key) (by simp [hchain])
  have hji : j ≠ i := (hL.chains.ne_of_neighbours hchain).1
  -- slot `j` takes over what slot `i` holds, its link included
  obtain ⟨u, hwrite, hsize, hnode, hcircle⟩ := hL.circle.write_used
    (hL.circle.notMem_of_node hnj) (SlotArray.lt_size_of_node hnj) li ki vi
  have hpull : u.node = update t.slots.node j (t.slots.node i) := by rw [hnode, hi]
  have hnone : ∀ m, u.node m = none ↔ t.slots.node m = none := by
    intro m
    have hmj : t.slots.node m = none → m ≠ j := by
      intro hm hmj
      rw [hmj, hnj] at hm
      cases hm
    rw [hnode, Nodes.update_some_eq_none]
    tauto
  have hniu : u.node i = some (li, ki, vi) := by rw [hpull, update_of_ne (Ne.symm hji), hi]
  have hholds : ∀ k v, Nodes.Holds (update u.node i none) k v ↔ t.HoldsWithout key k v := by
    intro k v
    rw [hpull]
    exact Nodes.holds_pull hkey hji (hL.eq_of_key hkey)
  obtain ⟨t', ht', hderived, hL', hnode'⟩ := hL.vacate_spec hcap hsize hcircle hnone hniu
    (hpull ▸ Nodes.chains_pull hL.chains hchain) hholds
  rw [hpull] at hnode'
  refine ⟨t', _, ?_, ⟨hderived, hL', hnode' ▸ .inner hchain⟩⟩
  have hcopy : t.withSlots (fun s => do s.write j (← s.read i)) = .ok { t with slots := u } := by
    apply withSlots_eq
    rw [SlotArray.read_eq (SlotArray.node_eq_some_iff.mp hi)]
    exact hwrite
  unfold cut
  simp only [Traced.outcome_bind, Traced.outcome_lift, SlotArray.chainNext_eq hj, ok_bind,
    if_neg (Link.ne_null_of_decodeIndex hdecode hi0), hdecode, Traced.outcome_emit, hcopy]
  exact ht'

/-- The entry in slot `j` is cut out of its chain. -/
theorem cut_spec (hL : t.LaidOut L) (hcap : t.capacity ≤ w.maxCapacity)
    (hchain : L.chain (t.home key) = a ++ j :: b) (hj : t.slots[j]? = some (.used next key v)) :
    ∃ t' L', (t.cut ⟨j, a.reverse, true⟩).outcome = .ok t' ∧ t.Dropped t' L L' key j := by
  cases b with
  | cons i b => exact hL.cut_inner hcap hchain hj a.reverse
  | nil =>
    rcases List.eq_nil_or_concat' a with ha | ⟨before, p, ha⟩
    · subst ha
      exact hL.cut_only hcap hchain hj
    · rw [ha, List.append_assoc] at hchain
      rw [ha, List.reverse_append, List.reverse_singleton, List.singleton_append]
      exact hL.cut_last hcap hchain hj before.reverse

/-- A key that is stored is removed, and its value is answered. -/
theorem removeAndGet_dropped [DecidableEq K] (hL : t.LaidOut L)
    (hcap : t.capacity ≤ w.maxCapacity) (hj : t.slots[j]? = some (.used next key v)) :
    ∃ t' L', (t.removeAndGet key).outcome = .ok (t', some v) ∧ t.Dropped t' L L' key j := by
  have hkey : t.slots.node.key j = some key := SlotArray.key_eq_some_iff.mpr ⟨next, v, hj⟩
  rcases hL.trail_spec key .freeInChain with ⟨a, x, b, hchain, hx, htrail⟩ | ⟨habsent, -⟩
  · obtain rfl : x = j := hL.eq_of_key hkey x hx
    obtain ⟨t', L', ht', hdropped⟩ := hL.cut_spec hcap hchain hj
    refine ⟨t', L', ?_, hdropped⟩
    unfold removeAndGet
    simp only [Traced.outcome_bind, Traced.outcome_lift, htrail, ok_bind, if_true,
      SlotArray.value_eq hj, ht', Traced.outcome_pure]
  · exact absurd (has_iff.mpr ⟨j, hkey⟩) habsent

/-- Where a key is not stored, nothing is removed. -/
theorem removeAndGet_absent [DecidableEq K] (hL : t.LaidOut L) (habsent : ¬ t.Has key) :
    (t.removeAndGet key).outcome = .ok (t, none) := by
  rcases hL.trail_spec key .freeInChain with ⟨a, x, b, -, hx, -⟩ | ⟨-, r, htrail, hr⟩
  · exact absurd (has_iff.mpr ⟨x, hx⟩) habsent
  · unfold removeAndGet
    simp only [Traced.outcome_bind, Traced.outcome_lift]
    rw [htrail, ok_bind]
    cases r with
    | none => rfl
    | some r => simp only [hr r rfl, Bool.false_eq_true, if_false, Traced.outcome_pure]

/-- A removal on a table in order runs into no fault; the key and its value are gone. -/
theorem removeAndGet_spec [DecidableEq K] (hL : t.LaidOut L) (hcap : t.capacity ≤ w.maxCapacity)
    (key : K) :
    (∃ v t' n, t.Holds key v ∧ t.len = n + 1 ∧
      (t.removeAndGet key).outcome = .ok (t', some v) ∧
      t.Derived t' t.capacity n (t.HoldsWithout key)) ∨
    (¬ t.Has key ∧ (t.removeAndGet key).outcome = .ok (t, none)) := by
  by_cases hhas : t.Has key
  · obtain ⟨v, i, hi⟩ := hhas
    obtain ⟨next, hn⟩ := Nodes.entry_eq_some_iff.mp hi
    obtain ⟨t', L', ht', hdropped⟩ :=
      hL.removeAndGet_dropped hcap (SlotArray.node_eq_some_iff.mp hn)
    obtain ⟨n, hlen, hderived⟩ := hdropped.derived
    exact .inl ⟨v, t', n, ⟨i, hi⟩, hlen, ht', hderived⟩
  · exact .inr ⟨hhas, hL.removeAndGet_absent hhas⟩

end LaidOut

/-! ## Removing all keys -/

/-- A table with fresh slots is in order, and holds nothing. -/
theorem laidOut_fresh (policy : Policy) (hash : K → UInt64) {mask e : Nat}
    (hpow : mask + 1 = 2 ^ e) (hcap : mask + 1 ≤ w.maxCapacity) :
    (⟨policy, hash, SlotArray.fresh (mask + 1), 0, mask⟩ : Table w K V).LaidOut
      ⟨List.range' 1 (mask + 1), fun _ => []⟩ where
  capacity_pow := ⟨e, hpow⟩
  size_eq := SlotArray.size_fresh (mask + 1)
  circle := freeCircle_fresh hcap
  mem_free i := by
    have hsize := SlotArray.size_fresh (w := w) (K := K) (V := V) (mask + 1)
    rw [List.mem_range'_1, hsize, SlotArray.node_fresh]
    simp only [and_true]
    omega
  chains := by
    have hnone : ∀ i, (SlotArray.fresh (mask + 1) : SlotArray w K V).node.key i = none :=
      fun i => Nodes.key_eq_none (SlotArray.node_fresh (mask + 1) i)
    refine ⟨hnone 0, fun h => Route.singleton 0, ?_, fun h i => ?_, fun i j k hi => ?_⟩
    · intro h i hi
      cases hi
    · simp [hnone]
    · rw [hnone] at hi
      cases hi
  count := by
    show 0 + (List.range' 1 (mask + 1)).length = mask + 1
    rw [List.length_range', Nat.zero_add]

theorem not_holds_fresh (c : Nat) (k : K) (v : V) :
    ¬ (SlotArray.fresh c : SlotArray w K V).node.Holds k v := by
  rintro ⟨i, hi⟩
  rw [Nodes.entry_eq_none (SlotArray.node_fresh c i)] at hi
  cases hi

theorem clear_eq_bind (t : Table w K V) : t.clear = t.slots.reset >>= fun s =>
    .ok { t with slots := s, len := 0 } := by
  unfold clear
  dsimp only
  cases t.slots.reset <;> rfl

theorem LaidOut.clear_eq (hL : t.LaidOut L) (hcap : t.capacity ≤ w.maxCapacity) :
    t.clear = .ok { t with slots := SlotArray.fresh t.capacity, len := 0 } := by
  rw [clear_eq_bind, SlotArray.reset_eq hL.size_eq hcap, ok_bind]

/-- Removing all keys of a table in order runs into no fault, and keeps the capacity. -/
theorem LaidOut.clear_spec (hL : t.LaidOut L) (hcap : t.capacity ≤ w.maxCapacity) :
    ∃ t', t.clear = .ok t' ∧ t.Derived t' t.capacity 0 fun _ _ => False := by
  obtain ⟨e, he⟩ := hL.capacity_pow
  refine ⟨_, hL.clear_eq hcap, (laidOut_fresh t.policy t.hash he hcap).derived fun k v => ?_⟩
  exact iff_false_intro (not_holds_fresh t.capacity k v)

end Table

end HomeChain

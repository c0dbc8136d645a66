import HomeChain.Proofs.Layout

/-!
# What a table holds

`t.Holds k v` says that some slot of the table holds the key `k` with the value `v`. What an
operation does to the slots is a handful of overwritings; this file says what those do to the
keys, the links and the entries, and to `Holds`:

* where a new entry, or another value, is written, `Holds` changes at that key only;
* where an entry moves, or a slot is only relinked, nothing changes;
* where an entry is dropped, `Holds` is false of its key afterwards.

A write of a value is the one overwriting that keeps the `SameShape`: keys and links stay.

`Derived t t' c n P` collects what an operation leaves behind: a table `t'` in order, of the
kind of `t`, with capacity `c` and `n` entries, which are those that satisfy `P`.
-/

namespace HomeChain

open Function (update update_self update_of_ne)

variable {w : LinkWidth} {K V : Type}

namespace Nodes

variable {n n' : Nodes w K V} {i j s x p : Nat} {k k' : K} {v v' : V} {l : Link w}

/-- The entry in slot `i`. -/
def entry (n : Nodes w K V) (i : Nat) : Option (K × V) := (n i).map Prod.snd

/-- Some slot holds the key `k` with the value `v`. -/
def Holds (n : Nodes w K V) (k : K) (v : V) : Prop := ∃ i, n.entry i = some (k, v)

theorem key_eq (n : Nodes w K V) (i : Nat) : n.key i = (n.entry i).map Prod.fst := by
  rw [key, entry, Option.map_map]
  rfl

theorem entry_eq_some_iff : n.entry i = some (k, v) ↔ ∃ next, n i = some (next, k, v) := by
  simp only [entry, Option.map_eq_some_iff, Prod.exists]
  constructor
  · rintro ⟨next, _, _, h, hkv⟩
    cases hkv
    exact ⟨next, h⟩
  · rintro ⟨next, h⟩
    exact ⟨next, k, v, h, rfl⟩

theorem key_of_entry (h : n.entry i = some (k, v)) : n.key i = some k := by
  rw [key_eq, h]
  rfl

theorem exists_entry_of_key (h : n.key i = some k) : ∃ v, n.entry i = some (k, v) := by
  obtain ⟨next, v, hi⟩ := key_eq_some_iff.mp h
  exact ⟨v, entry_eq_some_iff.mpr ⟨next, hi⟩⟩

theorem key_eq_none_iff : n.key i = none ↔ n i = none := Option.map_eq_none_iff

theorem key_eq_none (h : n i = none) : n.key i = none := key_eq_none_iff.mpr h

theorem entry_eq_none (h : n i = none) : n.entry i = none := by
  rw [entry, h]
  rfl

/-! ## Overwriting -/

theorem key_update (n : Nodes w K V) (i : Nat) (a : Option (Link w × K × V)) :
    key (update n i a) = update n.key i (a.map fun y => y.2.1) :=
  Function.comp_update (fun b : Option (Link w × K × V) => b.map fun y : Link w × K × V => y.2.1) n i a

theorem succ_update (n : Nodes w K V) (i : Nat) (a : Option (Link w × K × V)) :
    succ (update n i a) = update n.succ i (a.bind fun y => y.1.index?) :=
  Function.comp_update (fun b : Option (Link w × K × V) => b.bind fun y => y.1.index?) n i a

theorem entry_update (n : Nodes w K V) (i : Nat) (a : Option (Link w × K × V)) :
    entry (update n i a) = update n.entry i (a.map Prod.snd) :=
  Function.comp_update (fun b : Option (Link w × K × V) => b.map Prod.snd) n i a

theorem update_some_eq_none (n : Nodes w K V) (i j : Nat) (y : Link w × K × V) :
    update n i (some y) j = none ↔ j ≠ i ∧ n j = none := by
  rw [Function.update_apply]
  by_cases hji : j = i
  · simp [hji]
  · simp [hji]

theorem update_none_eq_none (n : Nodes w K V) (i j : Nat) :
    update n i none j = none ↔ j = i ∨ n j = none := by
  rw [Function.update_apply]
  by_cases hji : j = i
  · simp [hji]
  · simp [hji]

/-! ## Another link

A slot that is linked to another one keeps its entry, so only `succ` changes.
-/

theorem key_relink (n : Nodes w K V) (i : Nat) (l : Link w) : (n.relink i l).key = n.key := by
  rw [relink, key_update, Option.map_map]
  exact Function.update_eq_self_iff.mpr rfl

theorem entry_relink (n : Nodes w K V) (i : Nat) (l : Link w) :
    (n.relink i l).entry = n.entry := by
  rw [relink, entry_update, Option.map_map]
  exact Function.update_eq_self_iff.mpr rfl

theorem succ_relink {y : Link w × K × V} (hi : n i = some y) (l : Link w) :
    (n.relink i l).succ = update n.succ i l.index? := by
  rw [relink, succ_update, hi]
  rfl

theorem relink_eq_none (n : Nodes w K V) (i : Nat) (l : Link w) :
    n.relink i l j = none ↔ n j = none := by
  rw [← key_eq_none_iff, key_relink, key_eq_none_iff]

/-! ## Changes of what is held -/

theorem holds_congr (h : n'.entry = n.entry) : n'.Holds k v ↔ n.Holds k v := by
  rw [Holds, Holds, h]

theorem holds_relink (n : Nodes w K V) (i : Nat) (l : Link w) :
    (n.relink i l).Holds k v ↔ n.Holds k v := holds_congr (entry_relink n i l)

theorem key_ne_of_not_holds (hk : ∀ v, ¬ n.Holds k v) (i : Nat) : n.key i ≠ some k := by
  intro hi
  obtain ⟨v, hv⟩ := exists_entry_of_key hi
  exact hk v ⟨i, hv⟩

/-- An entry is written where there was none, or one with the same key. -/
theorem holds_update (hi : ∀ k', n.key i = some k' → k' = k)
    (hk : ∀ j, n.key j = some k → j = i) :
    Holds (update n i (some (l, k, v))) k' v' ↔
      (k' = k ∧ v' = v) ∨ (k' ≠ k ∧ n.Holds k' v') := by
  rw [Holds, entry_update]
  constructor
  · -- an entry found in another slot than `i` has another key
    rintro ⟨j, hj⟩
    rcases eq_or_ne j i with rfl | hji
    · rw [update_self] at hj
      cases hj
      exact .inl ⟨rfl, rfl⟩
    · rw [update_of_ne hji] at hj
      refine .inr ⟨fun hkk => hji (hk j ?_), j, hj⟩
      rw [← hkk]
      exact key_of_entry hj
  · rintro (⟨rfl, rfl⟩ | ⟨hne, j, hj⟩)
    · exact ⟨i, update_self ..⟩
    · refine ⟨j, ?_⟩
      rw [update_of_ne, hj]
      rintro rfl
      exact hne (hi k' (key_of_entry hj))

/-- An entry moves from `x` to the free slot `s`. -/
theorem holds_move (hs : n s = none) (hsx : s ≠ x) :
    Holds (update (update n s (n x)) x none) k v ↔ n.Holds k v := by
  rw [Holds, entry_update, entry_update]
  constructor
  · -- the entry found in `s` is the one that was in `x`
    rintro ⟨j, hj⟩
    rcases eq_or_ne j x with rfl | hjx
    · rw [update_self] at hj
      cases hj
    rw [update_of_ne hjx] at hj
    rcases eq_or_ne j s with rfl | hjs
    · rw [update_self] at hj
      exact ⟨x, hj⟩
    · rw [update_of_ne hjs] at hj
      exact ⟨j, hj⟩
  · rintro ⟨j, hj⟩
    rcases eq_or_ne j x with rfl | hjx
    · refine ⟨s, ?_⟩
      rw [update_of_ne hsx, update_self]
      exact hj
    · have hjs : j ≠ s := by
        rintro rfl
        rw [entry_eq_none hs] at hj
        cases hj
      refine ⟨j, ?_⟩
      rw [update_of_ne hjx, update_of_ne hjs, hj]

/-- The entry of the key `k` is dropped. -/
theorem holds_erase (hi : n.key i = some k) (hk : ∀ j, n.key j = some k → j = i) :
    Holds (update n i none) k' v' ↔ k' ≠ k ∧ n.Holds k' v' := by
  rw [Holds, entry_update]
  constructor
  · rintro ⟨j, hj⟩
    rcases eq_or_ne j i with rfl | hji
    · rw [update_self] at hj
      cases hj
    · rw [update_of_ne hji] at hj
      refine ⟨fun hkk => hji (hk j ?_), j, hj⟩
      rw [← hkk]
      exact key_of_entry hj
  · rintro ⟨hne, j, hj⟩
    refine ⟨j, ?_⟩
    rw [update_of_ne, hj]
    rintro rfl
    rw [key_of_entry hj, Option.some.injEq] at hi
    exact hne hi

end Nodes

/-! ## Slots of the same shape -/

/-- The two arrays have the same links in free and in used slots, and the same keys. -/
structure SlotArray.SameShape (s s' : SlotArray w K V) : Prop where
  size_eq : s'.size = s.size
  links_eq : s'.links = s.links
  key_eq : s'.node.key = s.node.key
  succ_eq : s'.node.succ = s.node.succ

namespace SlotArray.SameShape

variable {s s' s'' : SlotArray w K V}

theorem refl (s : SlotArray w K V) : s.SameShape s := ⟨rfl, rfl, rfl, rfl⟩

theorem trans (h : s.SameShape s') (h' : s'.SameShape s'') : s.SameShape s'' :=
  ⟨h'.size_eq.trans h.size_eq, h'.links_eq.trans h.links_eq, h'.key_eq.trans h.key_eq,
    h'.succ_eq.trans h.succ_eq⟩

/-- Another value in a used slot does not change the shape. -/
theorem setValue {i : Nat} {next : Link w} {k : K} {v : V}
    (hs : s[i]? = some (.used next k v)) (v' : V) :
    s.SameShape (s.setIfInBounds i (.used next k v')) := by
  have hi : i < s.size := (Array.getElem?_eq_some_iff.mp hs).1
  have hn : s.node i = some (next, k, v) := node_eq_some_iff.mpr hs
  have hkey : s.node.key i = some k := Nodes.key_eq_some_iff.mpr ⟨next, v, hn⟩
  refine ⟨Array.size_setIfInBounds, ?_, ?_, ?_⟩
  · rw [links_setIfInBounds hi]
    exact Function.update_eq_self_iff.mpr (links_eq_none_of_node hn).symm
  · rw [node_setIfInBounds hi, Nodes.key_update]
    exact Function.update_eq_self_iff.mpr hkey.symm
  · rw [node_setIfInBounds hi, Nodes.succ_update]
    exact Function.update_eq_self_iff.mpr (succ_of_used hs).symm

end SlotArray.SameShape

namespace Table

variable {t t' t'' : Table w K V} {L : Layout} {k : K} {v : V} {P Q : K → V → Prop} {c n : Nat}

/-- The table holds the key `k` with the value `v`. -/
def Holds (t : Table w K V) (k : K) (v : V) : Prop := t.slots.node.Holds k v

/-- The table holds the key `k`. -/
def Has (t : Table w K V) (k : K) : Prop := ∃ v, t.Holds k v

theorem has_iff : t.Has k ↔ ∃ i, t.slots.node.key i = some k := by
  constructor
  · rintro ⟨v, i, hi⟩
    exact ⟨i, Nodes.key_of_entry hi⟩
  · rintro ⟨i, hi⟩
    obtain ⟨v, hv⟩ := Nodes.exists_entry_of_key hi
    exact ⟨v, i, hv⟩

/-! ## What an operation leaves behind -/

/-- The table `t'` is in order and of the kind of `t`; its capacity is `c`, it has `n` entries,
and they are those that satisfy `P`. -/
structure Derived (t t' : Table w K V) (c n : Nat) (P : K → V → Prop) : Prop where
  inOrder : t'.InOrder
  policy_eq : t'.policy = t.policy
  hash_eq : t'.hash = t.hash
  capacity_eq : t'.capacity = c
  len_eq : t'.len = n
  holds_iff : ∀ k v, t'.Holds k v ↔ P k v

/-- A table is derived from itself. -/
theorem InOrder.derived (ht : t.InOrder) : t.Derived t t.capacity t.len t.Holds :=
  ⟨ht, rfl, rfl, rfl, rfl, fun _ _ => Iff.rfl⟩

/-- What is derived from a table of the same kind is derived from this one. -/
theorem Derived.trans (h : t'.Derived t'' c n P) (hpolicy : t'.policy = t.policy)
    (hhash : t'.hash = t.hash) : t.Derived t'' c n P :=
  { h with policy_eq := h.policy_eq.trans hpolicy, hash_eq := h.hash_eq.trans hhash }

/-- The home addresses are those of the table that this one is derived from, if the capacity is. -/
theorem Derived.home_eq (h : t.Derived t' t.capacity n P) :
    t'.home = t.home := by
  have hmask : t'.mask = t.mask := Nat.succ.inj h.capacity_eq
  funext k
  rw [home, home, h.hash_eq, hmask]

theorem Derived.congr (h : t.Derived t' c n P) (hPQ : ∀ k v, P k v ↔ Q k v) :
    t.Derived t' c n Q :=
  { h with holds_iff := fun k v => (h.holds_iff k v).trans (hPQ k v) }

/-- New slots for the table, with a layout of their own. -/
theorem LaidOut.derived {s : SlotArray w K V} {len : Nat}
    (hL : ({ t with slots := s, len := len } : Table w K V).LaidOut L)
    (hP : ∀ k v, s.node.Holds k v ↔ P k v) :
    t.Derived { t with slots := s, len := len } t.capacity len P :=
  ⟨hL.inOrder, rfl, rfl, rfl, rfl, hP⟩

/-- Slots of the same shape have the same layout. -/
theorem LaidOut.sameShape {s : SlotArray w K V} (hL : t.LaidOut L)
    (h : t.slots.SameShape s) : ({ t with slots := s } : Table w K V).LaidOut L where
  capacity_pow := hL.capacity_pow
  size_eq := h.size_eq.trans hL.size_eq
  circle := hL.circle.congr fun i _ => by rw [h.links_eq]
  mem_free i := by
    show i ∈ L.free ↔ 0 < i ∧ i < s.size ∧ s.node i = none
    rw [hL.mem_free, h.size_eq, ← Nodes.key_eq_none_iff, ← Nodes.key_eq_none_iff, h.key_eq]
  chains := by
    show Chains t.home s.node.key s.node.succ L.chain
    rw [h.key_eq, h.succ_eq]
    exact hL.chains
  count := hL.count

/-! ## Changes of the free list -/

variable {u : SlotArray w K V} {free : List Nat} {chain : Nat → List Nat} {i : Nat}

/-- A slot is taken from the free list, and the used slots form chains again. -/
theorem LaidOut.fill (hL : t.LaidOut L) (hperm : L.free.Perm (i :: free))
    (hsize : u.size = t.slots.size) (hcircle : FreeCircle u free)
    (hnone : ∀ j, u.node j = none ↔ j ≠ i ∧ t.slots.node j = none)
    (hchains : Chains t.home u.node.key u.node.succ chain) :
    ({ t with slots := u, len := t.len + 1 } : Table w K V).LaidOut ⟨free, chain⟩ where
  capacity_pow := hL.capacity_pow
  size_eq := hsize.trans hL.size_eq
  circle := hcircle
  mem_free j := by
    -- the free list loses `i`, which occurs on it once
    show j ∈ free ↔ 0 < j ∧ j < u.size ∧ u.node j = none
    have hnodup := hperm.nodup_iff.mp (List.nodup_cons.mp hL.circle.nodup).2
    have hmem : j ∈ L.free ↔ j = i ∨ j ∈ free := by rw [hperm.mem_iff, List.mem_cons]
    have hne : j ∈ free → j ≠ i := fun hj =>
      ne_of_mem_of_not_mem hj (List.nodup_cons.mp hnodup).1
    rw [hnone, hsize]
    rw [hL.mem_free] at hmem
    tauto
  chains := hchains
  count := by
    have hcount := hL.count
    rw [hperm.length_eq, List.length_cons] at hcount
    show t.len + 1 + free.length = t.capacity
    omega

/-- The slots on the free list that has got one slot more. -/
theorem LaidOut.mem_drain (hL : t.LaidOut L) (hsize : u.size = t.slots.size)
    (hcircle : FreeCircle u (i :: L.free))
    (hnone : ∀ j, u.node j = none ↔ j = i ∨ t.slots.node j = none) (j : Nat) :
    j ∈ i :: L.free ↔ 0 < j ∧ j < u.size ∧ u.node j = none := by
  have hi0 : i ≠ 0 := by
    rintro rfl
    exact hcircle.anchor_notMem List.mem_cons_self
  -- the new member is in the array since the circle visits it
  have hisize : i < u.size := hcircle.lt_size (by simp)
  rw [List.mem_cons, hL.mem_free, hnone, hsize]
  rw [hsize] at hisize
  constructor
  · rintro (rfl | ⟨h0, hj, hnone⟩)
    · exact ⟨Nat.pos_of_ne_zero hi0, hisize, .inl rfl⟩
    · exact ⟨h0, hj, .inr hnone⟩
  · rintro ⟨h0, hj, hji | hnone⟩
    · exact .inl hji
    · exact .inr ⟨h0, hj, hnone⟩

/-- A slot is given back to the free list, and the used slots form chains again. -/
theorem LaidOut.drain (hL : t.LaidOut L) (hlen : t.len = n + 1)
    (hsize : u.size = t.slots.size) (hcircle : FreeCircle u (i :: L.free))
    (hnone : ∀ j, u.node j = none ↔ j = i ∨ t.slots.node j = none)
    (hchains : Chains t.home u.node.key u.node.succ chain) :
    ({ t with slots := u, len := n } : Table w K V).LaidOut ⟨i :: L.free, chain⟩ where
  capacity_pow := hL.capacity_pow
  size_eq := hsize.trans hL.size_eq
  circle := hcircle
  mem_free := hL.mem_drain hsize hcircle hnone
  chains := hchains
  count := by
    have hcount := hL.count
    show n + (i :: L.free).length = t.capacity
    rw [List.length_cons]
    omega

end Table

end HomeChain

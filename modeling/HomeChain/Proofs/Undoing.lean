import HomeChain.Proofs.Disturbance
import HomeChain.Proofs.Examination.SingleFaults

/-!
# Storing a new key and removing it again

A new key goes to the end of its chain, so a removal right after takes the branch for the last
member, and what is left is the table before, up to one change that `Restores` describes on layouts
and `Undone` on slots. Let `h` be the home slot of the key, and let `order` list the free slots.

* If `h` belongs to the chain of the key, the slot that was first in `order` is first again, and
  there is no change at all.
* If `h` is free, it comes to the front of `order`.
* If `h` holds a member of another chain, that entry stays in the slot that was first in `order`,
  and `h` takes the place of this slot there.

That the links of the free slots are the old ones as well follows from where they lead
(`FreeCircle.links_eq`): the order of the free list settles them.
-/

namespace HomeChain

open Function (update update_self update_of_ne)

variable {w : LinkWidth} {K V : Type}

/-! ## What the order of the free list settles -/

namespace FreeCircle

variable {s s' : SlotArray w K V} {order : List Nat} {i : Nat}

/-- Two free lists with the same order have the same links. -/
theorem links_eq (h : FreeCircle s order) (h' : FreeCircle s' order) (hi : i ∈ 0 :: order) :
    s'.links i = s.links i := by
  have hforward : (0 :: order).map s'.freeSucc = (0 :: order).map s.freeSucc := by
    rw [h'.forward.map_eq, h.forward.map_eq]
  have hbackward : (0 :: order.reverse).map s'.freePred = (0 :: order.reverse).map s.freePred := by
    rw [h'.backward.map_eq, h.backward.map_eq]
  have hsucc : s'.freeSucc i = s.freeSucc i := List.map_inj_left.mp hforward i hi
  have hpred : s'.freePred i = s.freePred i :=
    List.map_inj_left.mp hbackward i (by simpa using hi)
  obtain ⟨prev, next, p, q, hs, hp, hq, -⟩ := h.exists_free hi
  obtain ⟨prev', next', p', q', hs', -⟩ := h'.exists_free hi
  -- a link is settled by the slot that it names
  rw [SlotArray.freeSucc_of_free hs, SlotArray.freeSucc_of_free hs'] at hsucc
  rw [SlotArray.freePred_of_free hs, SlotArray.freePred_of_free hs'] at hpred
  have hprev : prev' = prev := by
    rw [← Link.index?_eq_some_iff] at hp
    exact Link.eq_of_index? (hpred.trans hp) hp
  have hnext : next' = next := by
    rw [← Link.successor?_eq_some_iff] at hq
    exact Link.eq_of_successor? (hsucc.trans hq) hq
  rw [SlotArray.links_eq_some_iff.mpr hs, SlotArray.links_eq_some_iff.mpr hs', hprev, hnext]

end FreeCircle

namespace Nodes

variable {n : Nodes w K V} {i j : Nat} {l : Link w} {x : K × V} {y : Link w × K × V}

/-- A slot that was linked behind the last one, and used, is cut off and emptied. -/
theorem cut_append (hi : n i = none) (hj : n j = some (.null, x)) :
    update (relink (update (n.relink j l) i (some y)) j .null) i none = n := by
  have hji : j ≠ i := by
    intro hji
    rw [hji, hi] at hj
    cases hj
  funext m
  rcases eq_or_ne m i with rfl | hmi
  · rw [update_self, hi]
  rw [update_of_ne hmi, relink]
  rcases eq_or_ne m j with rfl | hmj
  · rw [update_self, update_of_ne hji, relink, update_self, hj]
    rfl
  · rw [update_of_ne hmj, update_of_ne hmi, relink, update_of_ne hmj]

end Nodes

namespace Table

variable {t t' t'' : Table w K V} {L L' L'' : Layout} {key : K} {value : V} {i : Nat}
  {n : Nodes w K V}

/-! ## What is left -/

/-- The entry in slot `x` has moved to slot `s`, and is reached from slot `p` in the same place of
its chain. The other entries are where they were, with the links that they had, but for `p`. -/
structure Moves (t t' : Table w K V) (x s p : Nat) : Prop where
  slot_eq : t'.slots[s]? = t.slots[x]?
  keeps : t.Keeps t' (fun j => j ≠ x) id (some p)
  chain : ∃ h a b, t.IsHomeChain h (a ++ p :: x :: b) ∧ t'.IsHomeChain h (a ++ p :: s :: b)

/-- The table `t'` is what `t`, with the free slots in the order `order`, has become when a new key
was stored and removed again. -/
structure Undone (t t' : Table w K V) (key : K) (order : List Nat) : Prop where
  inOrder : t'.InOrder
  policy_eq : t'.policy = t.policy
  hash_eq : t'.hash = t.hash
  capacity_eq : t'.capacity = t.capacity
  len_eq : t'.len = t.len
  /-- If the key joins a chain in its home slot, there is no change. -/
  shared : t.Shared key → t' = t
  /-- If the home slot is free, it comes to the front of the free list. -/
  vacant : t.Vacant key →
    (∀ (j : Nat) (next : Link w) (k : K) (v : V),
      t'.slots[j]? = some (.used next k v) ↔ t.slots[j]? = some (.used next k v)) ∧
      t'.FreeOrder (t.home key :: order.erase (t.home key))
  /-- If the home slot is lent, its entry and the first free slot change places. -/
  lent : t.Lent key → ∃ spare rest p, order = spare :: rest ∧ t.Moves t' (t.home key) spare p ∧
    t'.FreeOrder (t.home key :: rest)

theorem eq_of_slots (hpolicy : t'.policy = t.policy) (hhash : t'.hash = t.hash)
    (hcap : t'.capacity = t.capacity) (hlen : t'.len = t.len) (hslots : t'.slots = t.slots) :
    t' = t := by
  obtain ⟨policy, hash, slots, len, mask⟩ := t
  obtain ⟨policy', hash', slots', len', mask'⟩ := t'
  obtain rfl : mask' = mask := Nat.add_right_cancel hcap
  subst hpolicy hhash hlen hslots
  rfl

/-- What the used slots hold and the order of the free list settle all slots. -/
theorem LaidOut.slots_eq (hL : t.LaidOut L) (hL' : t'.LaidOut L')
    (hsize : t'.slots.size = t.slots.size) (hnode : t'.slots.node = t.slots.node)
    (hfree : L'.free = L.free) : t'.slots = t.slots := by
  refine Array.ext_getElem? fun i => ?_
  rcases Nat.lt_or_ge i t.slots.size with hi | hi
  · cases hx : t.slots.node i with
    | some x =>
      rw [SlotArray.node_eq_some_iff.mp hx, SlotArray.node_eq_some_iff.mp (hnode ▸ hx)]
    | none =>
      have hmem : i ∈ 0 :: L.free := hL.mem_of_node hi hx
      have hlinks := hL.circle.links_eq (hfree ▸ hL'.circle) hmem
      obtain ⟨prev, next, hs⟩ := SlotArray.free_iff.mpr ⟨hi, hx⟩
      rw [hs, SlotArray.links_eq_some_iff.mp (hlinks.trans (SlotArray.links_eq_some_iff.mpr hs))]
  · rw [Array.getElem?_eq_none hi, Array.getElem?_eq_none (hsize ▸ hi)]

/-! ## Layouts -/

/-- What is left of a table that is laid out as `L` once a new key was stored and removed again:
what the slots hold, and how the lists run. -/
inductive Restores (t : Table w K V) (L : Layout) (key : K) : Nodes w K V → Layout → Prop where
  /-- The home slot was free; now it is the first free slot. -/
  | opened {a b : List Nat} (free : L.free = a ++ t.home key :: b) :
      Restores t L key t.slots.node ⟨t.home key :: (a ++ b), L.chain⟩
  /-- The home slot was the head of the chain. Nothing has changed. -/
  | appended (mem : t.home key ∈ L.chain (t.home key)) : Restores t L key t.slots.node L
  /-- The home slot held an entry behind slot `p` on another chain. That entry is in what was the
  first free slot, and the home slot is the first free slot. -/
  | displaced {s p h : Nat} {rest a b : List Nat} (free : L.free = s :: rest)
      (chain : L.chain h = a ++ p :: t.home key :: b) (ne : h ≠ t.home key) :
      Restores t L key (t.slots.node.moved s (t.home key) p)
        ⟨t.home key :: rest, update L.chain h (a ++ p :: s :: b)⟩

/-- A key that is alone on its chain leaves an empty one. -/
theorem Drops.of_only (h : t.Drops L key i n L') (hchain : L.chain (t.home key) = [i]) :
    n = update t.slots.node i none ∧ L' = ⟨i :: L.free, update L.chain (t.home key) []⟩ := by
  cases h with
  | only => exact ⟨rfl, rfl⟩
  | @last p a hlast =>
    rw [hchain] at hlast
    simp [List.singleton_eq_append_iff] at hlast
  | @inner j a b hinner =>
    rw [hchain] at hinner
    simp [List.singleton_eq_append_iff] at hinner

/-- A key at the end of its chain leaves the slot in front of it for the end. -/
theorem Drops.of_end (h : t.Drops L key i n L') {a : List Nat} {p : Nat}
    (hchain : L.chain (t.home key) = a ++ [p, i]) (hi : i ∉ a ++ [p]) :
    n = update (t.slots.node.relink p .null) i none ∧
      L' = ⟨i :: L.free, update L.chain (t.home key) (a ++ [p])⟩ := by
  rw [List.append_cons] at hchain
  cases h with
  | only honly =>
    rw [honly] at hchain
    simp [List.singleton_eq_append_iff] at hchain
  | @last p' a' hlast =>
    rw [hchain, List.append_cons a' p' [i]] at hlast
    obtain ⟨rfl, hp⟩ := List.append_inj' (List.append_inj' hlast rfl).1 rfl
    obtain rfl : p = p' := List.singleton_inj.mp hp
    exact ⟨rfl, rfl⟩
  | @inner j a' b hinner =>
    rw [hchain] at hinner
    cases ((List.append_cons_inj_of_notMem hi List.not_mem_nil).mp hinner).2.2

namespace LaidOut

/-- The removal of a key that was just stored takes it from the end of its chain. -/
theorem restores (hL : t.LaidOut L) (hadds : t.Adds L key value i t'.slots.node L')
    (hhome : t'.home = t.home) (hdrops : t'.Drops L' key i n L'') : t.Restores L key n L'' := by
  -- a chain that was opened for the key is empty again
  have hclosed : ∀ {c : Nat → List Nat} {h : Nat}, c h = [] →
      update (update c h [h]) h [] = c := by
    intro c h hc
    rw [Function.update_idem, ← hc, Function.update_eq_self]
  generalize hn' : t'.slots.node = n' at hadds
  cases hadds with
  | @opened a b hfree =>
    have hnone : t.slots.node (t.home key) = none :=
      ((hL.mem_free (t.home key)).mp (by simp [hfree])).2.2
    have hnil : L.chain (t.home key) = [] := hL.chains.eq_nil fun k hk => by
      rw [Nodes.key_eq_none hnone] at hk
      cases hk
    obtain ⟨rfl, rfl⟩ := hdrops.of_only (by rw [hhome]; exact update_self ..)
    rw [hhome, hn', Function.update_idem, hclosed hnil, ← hnone, Function.update_eq_self]
    exact .opened hfree
  | @appended _ j rest a hfree hchain =>
    have hnone : t.slots.node i = none := ((hL.mem_free i).mp (by simp [hfree])).2.2
    have hi : i ∉ a ++ [j] := fun hi =>
      hL.chains.ne_of_free (Nodes.key_eq_none hnone) (hchain ▸ hi) rfl
    obtain ⟨⟨next, k, v⟩, hj⟩ :=
      hL.exists_node_of_mem_chain (i := j) (h := t.home key) (by simp [hchain])
    obtain rfl : next = .null := Link.eq_null_of_decodeIndex
      (hL.decodeIndex_eq hchain (SlotArray.node_eq_some_iff.mp hj))
    obtain ⟨c, hc⟩ := hL.chains.eq_cons (i := j) (h := t.home key) (by simp [hchain])
    obtain ⟨rfl, rfl⟩ := hdrops.of_end (a := a) (p := j) (by
      rw [hhome, hchain]
      simp) hi
    rw [hhome, hn', Nodes.cut_append hnone hj, Function.update_idem, ← hchain,
      Function.update_eq_self, ← hfree]
    exact .appended (hc ▸ List.mem_cons_self)
  | @displaced s p h rest a b hfree hchain hne =>
    have hmem : t.home key ∈ L.chain h := by simp [hchain]
    have hnil : L.chain (t.home key) = [] := hL.chains.eq_nil fun k hk hkh => by
      have hmem' := hL.chains.mem_of_key hk
      rw [hkh] at hmem'
      exact hne (hL.chains.eq_of_mem hmem hmem')
    obtain ⟨rfl, rfl⟩ := hdrops.of_only (by rw [hhome]; exact update_self ..)
    rw [hhome, hn', Function.update_idem, hclosed, Nodes.moved, Function.update_idem]
    · exact .displaced hfree hchain hne
    · rw [update_of_ne (Ne.symm hne), hnil]

/-! ## From layouts to slots -/

theorem freeOrder (hL : t.LaidOut L) : t.FreeOrder L.free := ⟨hL.circle, hL.mem_free⟩

/-- A member of a chain has moved to the first free slot. -/
theorem moves (hL : t.LaidOut L) (hL' : t'.LaidOut L') {s x p h : Nat} {a b : List Nat}
    (hs : t.slots.node s = none) (hchain : L.chain h = a ++ p :: x :: b)
    (hchain' : L'.chain h = a ++ p :: s :: b) (hnode : t'.slots.node = t.slots.node.moved s x p) :
    t.Moves t' x s p := by
  have hpx : p ≠ x := (hL.chains.ne_of_neighbours hchain).1
  obtain ⟨y, hy⟩ := hL.exists_node_of_mem_chain (i := p) (h := h) (by simp [hchain])
  obtain ⟨⟨next, k, v⟩, hx⟩ := hL.exists_node_of_mem_chain (i := x) (h := h) (by simp [hchain])
  have hp : t.slots.node p ≠ none := by simp [hy]
  have hkeeps : ∀ j next k v, t.slots.node j = some (next, k, v) → ∃ next',
      t'.slots.node (update id x s j) = some (next', k, v) ∧ (j ∉ some p → next' = next) := by
    intro j next k v hj
    obtain ⟨next', hnext'⟩ := moved_keeps hs hx hp hj none
    refine ⟨next', ?_⟩
    rwa [Nodes.moved, Function.update_idem, ← Nodes.moved, ← hnode] at hnext'
  refine ⟨?_, keeps_iff.mpr fun j next k v hjx hj => ?_, h, a, b, ?_, ?_⟩
  · obtain ⟨next', hx', hnext'⟩ := hkeeps x next k v hx
    obtain rfl : next' = next := hnext' fun hxp => hpx (Option.some.inj hxp)
    rw [update_self] at hx'
    rw [SlotArray.node_eq_some_iff.mp hx, SlotArray.node_eq_some_iff.mp hx']
  · have hj' := hkeeps j next k v hj
    rwa [update_of_ne hjx] at hj'
  · exact hchain ▸ hL.isHomeChain (i := p) (by simp [hchain])
  · exact hchain' ▸ hL'.isHomeChain (i := p) (by simp [hchain'])

/-- What the layouts say of the table that is left, its slots say. -/
theorem undone (hL : t.LaidOut L) (hL' : t'.LaidOut L')
    (hrestores : t.Restores L key t'.slots.node L') (hpolicy : t'.policy = t.policy)
    (hhash : t'.hash = t.hash) (hcap : t'.capacity = t.capacity) (hlen : t'.len = t.len) :
    t.Undone t' key L.free := by
  generalize hnode : t'.slots.node = n at hrestores
  cases hrestores with
  | @opened a b hfree =>
    have hmem : t.home key ∈ L.free := by simp [hfree]
    have hvacant : t.Vacant key := (hL.mem_free_iff.mp hmem).2
    refine ⟨hL'.inOrder, hpolicy, hhash, hcap, hlen, fun h => absurd h hvacant.not_shared,
      fun _ => ⟨?_, ?_⟩, fun h => absurd h hvacant.not_lent⟩
    · intro j next k v
      rw [← SlotArray.node_eq_some_iff, hnode, SlotArray.node_eq_some_iff]
    · have hnodup := (List.nodup_cons.mp hL.circle.nodup).2
      rw [hfree, List.nodup_middle, List.nodup_cons, List.mem_append, not_or] at hnodup
      rw [hfree, List.erase_append_right _ hnodup.1.1, List.erase_cons_head]
      exact hL'.freeOrder
  | appended hmem =>
    have hshared : t.Shared key := hL.mem_chain_iff.mp hmem
    have hsize : t'.slots.size = t.slots.size := by rw [hL'.size_eq, hL.size_eq, hcap]
    have hslots : t'.slots = t.slots := hL.slots_eq hL' hsize hnode rfl
    exact ⟨hL'.inOrder, hpolicy, hhash, hcap, hlen,
      fun _ => eq_of_slots hpolicy hhash hcap hlen hslots,
      fun h => absurd hshared h.not_shared, fun h => absurd h hshared.not_lent⟩
  | @displaced s p h rest a b hfree hchain hne =>
    have hmem : t.home key ∈ L.chain h := by simp [hchain]
    obtain ⟨next, k, v, hx, hk⟩ := hL.mem_chain_iff.mp hmem
    have hlent : t.Lent key := ⟨next, k, v, hx, fun hk' => hne (hk.symm.trans hk')⟩
    have hs : t.slots.node s = none := ((hL.mem_free s).mp (by simp [hfree])).2.2
    exact ⟨hL'.inOrder, hpolicy, hhash, hcap, hlen, fun h => absurd hlent h.not_lent,
      fun h => absurd hlent h.not_lent, fun _ => ⟨s, rest, p, hfree,
        hL.moves hL' hs hchain (update_self ..) hnode, hL'.freeOrder⟩⟩

end LaidOut

/-! ## Storing and removing -/

variable [DecidableEq K]

/-- On a table that passes an examination and is not full, a new key is stored and removed again.
What is left is the table, up to the place of one free slot on the free list or, where the home
slot of the key was lent, up to the place of one entry. -/
theorem remove_undoes_put (t : Table w K V) (hcheck : t.check.outcome = .ok (.ok ()))
    (hcap : t.capacity ≤ w.maxCapacity) (hroom : t.len < t.capacity) {key : K} (hnew : ¬ t.Has key)
    (value : V) :
    ∃ order, t.FreeOrder order ∧ ∃ i stored left,
      (t.put key value).outcome = .ok (stored, .ok i) ∧
      (stored.removeAndGet key).outcome = .ok (left, some value) ∧
      (stored.remove key).outcome = .ok (left, true) ∧ t.Undone left key order := by
  obtain ⟨L, hL⟩ := inOrder_iff.mp (check_eq_ok_iff.mp hcheck)
  obtain ⟨i, stored, L', hinsert, hadded⟩ := hL.insert_added hcap hnew hroom value
  have hcap' : stored.capacity ≤ w.maxCapacity := hadded.capacity_eq ▸ hcap
  obtain ⟨next, hi⟩ := Nodes.entry_eq_some_iff.mp hadded.entry_eq
  obtain ⟨left, L'', hremove, hdropped⟩ :=
    hadded.laidOut.removeAndGet_dropped hcap' (SlotArray.node_eq_some_iff.mp hi)
  obtain ⟨n, hlen, hleft⟩ := hdropped.derived
  have hrestores := hL.restores hadded.adds hadded.toDerived.home_eq hdropped.drops
  refine ⟨L.free, hL.freeOrder, i, stored, left, put_stored hinsert, hremove, ?_,
    hL.undone hdropped.laidOut hrestores (hleft.policy_eq.trans hadded.policy_eq)
      (hleft.hash_eq.trans hadded.hash_eq) (hleft.capacity_eq.trans hadded.capacity_eq) ?_⟩
  · rw [remove, Traced.outcome_bind, hremove]
    rfl
  · have hstored := hadded.len_eq
    have hleft' := hleft.len_eq
    omega

/-- The home slot of the key `1` is lent to the key `4`, and `3` and `4` are the free slots. Once
`1` was stored and removed again, `4` is in slot `3`, and `2` and `4` are the free slots. -/
theorem remove_undoes_put_lent_home : ∃ t stored left : Table .bits16 Nat Nat,
    t.check.outcome = .ok (.ok ()) ∧ t.slots[2]? = some (.used .null 4 40) ∧
    t.FreeOrder [3, 4] ∧ (t.put 1 10).outcome = .ok (stored, .ok 2) ∧
    (stored.remove 1).outcome = .ok (left, true) ∧ left.slots[3]? = some (.used .null 4 40) ∧
    left.FreeOrder [2, 4] := by
  let t : Table .bits16 Nat Nat :=
    ⟨.growable, UInt64.ofNat, #[.free (.ofIndex 4) (.ofSuccessor 3), .used (.ofIndex 2) 0 0,
      .used .null 4 40, .free .null (.ofSuccessor 4), .free (.ofIndex 3) (.ofSuccessor 0)], 2, 3⟩
  have hcheck : t.check.outcome = .ok (.ok ()) := by cbv
  have hcap : t.capacity ≤ LinkWidth.bits16.maxCapacity := by decide
  have h4 : t.slots[2]? = some (.used .null 4 40) := rfl
  have hhome : t.home 1 = 2 := by decide
  have hlent : t.Lent 1 := ⟨.null, 4, 40, hhome ▸ h4, by decide⟩
  have hnew : ¬ t.Has 1 := by
    rw [has_iff]
    rintro ⟨_ | _ | _ | _ | _ | i, hi⟩ <;> cases hi
  obtain ⟨order, horder, i, stored, left, hput, -, hremove, hundone⟩ :=
    remove_undoes_put t hcheck hcap (by decide) hnew 10
  have hcircle : FreeCircle t.slots [3, 4] := ⟨by decide, by decide, by decide⟩
  have hi : (t.put 1 10).outcome.map (fun x => x.2) = .ok (.ok 2) := by decide +kernel
  obtain rfl : order = [3, 4] := horder.1.unique hcircle
  obtain ⟨spare, rest, p, hrest, hmoves, hleft⟩ := hundone.lent hlent
  obtain ⟨rfl, rfl⟩ : 3 = spare ∧ [4] = rest := List.cons.inj hrest
  rw [hput, Except.map, Except.ok.injEq] at hi
  rw [hhome] at hmoves hleft
  exact ⟨t, stored, left, hcheck, h4, horder, hi ▸ hput, hremove, hmoves.slot_eq.trans h4, hleft⟩

end Table

end HomeChain

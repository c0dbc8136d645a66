import HomeChain.Proofs.Examination.Verdict
import HomeChain.Table.Tamper

/-!
# Single faults

A table that passes an examination fails it after any one fault. Two tables in order that differ
in one slot agree on where that slot leads: its chain, or the free list, goes over the same slots
in both, and of these the others lead to the same places. So no other link in its place makes a
table in order, nor does a slot of the other kind, since that changes the number of free slots.

Of the faults that leave all links within the array the first thing found wrong can be told: the
count, or a free list that comes back to the anchor too early.
-/

namespace HomeChain

variable {w : LinkWidth} {K V : Type}

/-- The two slots differ in one link. -/
inductive Slot.OneLinkChanged : Slot w K V → Slot w K V → Prop where
  | chain {next next' : Link w} {key : K} {value : V} (ne : next ≠ next') :
      OneLinkChanged (.used next key value) (.used next' key value)
  | prev {prev prev' next : Link w} (ne : prev ≠ prev') :
      OneLinkChanged (.free prev next) (.free prev' next)
  | next {prev next next' : Link w} (ne : next ≠ next') :
      OneLinkChanged (.free prev next) (.free prev next')

namespace Table

/-- What an examination makes of a table after a single fault. -/
structure FindsFaults [DecidableEq K] (t : Table w K V) : Prop where
  /-- A slot, which may be the anchor, with another link, or of the other kind. -/
  overwritten : ∀ i old new, t.slots[i]? = some old →
    old.OneLinkChanged new ∨ old.isUsed ≠ new.isUsed →
      ∃ t' d, t.setSlot i new = .ok t' ∧ t'.check.outcome = .ok (.error d)
  /-- Another count. -/
  miscounted : ∀ n, n ≠ t.len →
    (t.setLen n).check.outcome = .ok (.error (.countMismatch n t.slots.usedCount))
  /-- The first free slot, if there is one, taken and not used. -/
  taken : (∃ i prev next, 0 < i ∧ t.slots[i]? = some (.free prev next)) →
    ∃ i t', t.slots.firstFree = .ok i ∧ t.acquire.outcome = .ok (i, t') ∧
      t'.check.outcome = .ok (.error (.brokenFreeList .forward 0))
  /-- A used slot given back and not discounted. -/
  givenBack : ∀ i next k v, t.slots[i]? = some (.used next k v) →
    ∃ t' n, t.len = n + 1 ∧ t.releaseSlot i = .ok t' ∧
      t'.check.outcome = .ok (.error (.countMismatch t.len n))

end Table

/-! ## Links that are settled -/

theorem Link.eq_of_index? {a b : Link w} {i : Nat} (ha : a.index? = some i)
    (hb : b.index? = some i) : a = b := by
  rw [index?_eq_some_iff, decodeIndex_eq_ok_iff] at ha hb
  exact ext_toInt (ha.trans hb.symm)

theorem Link.eq_of_successor? {a b : Link w} {i : Nat} (ha : a.successor? = some i)
    (hb : b.successor? = some i) : a = b := by
  rw [successor?_eq_some_iff, decodeSuccessor_eq_ok_iff] at ha hb
  exact ext_toInt (ha.trans hb.symm)

/-- If all other slots lead to the same places, then so does this one: a chain in the one table
is a chain in the other, in some order. -/
theorem Chains.succ_eq {home : K → Nat} {key : Nat → Option K} {succ succ' : Nat → Option Nat}
    {chain chain' : Nat → List Nat} {i : Nat} {k : K} (hc : Chains home key succ chain)
    (hc' : Chains home key succ' chain') (hi : key i = some k)
    (hsucc : ∀ j, j ≠ i → succ' j = succ j) : succ' i = succ i := by
  have hmem := hc.mem_of_key hi
  have hperm : (chain (home k)).Perm (chain' (home k)) :=
    (List.perm_ext_iff_of_nodup (hc.nodup _) (hc'.nodup _)).mpr fun j => by
      rw [hc.mem_iff, hc'.mem_iff]
  obtain ⟨rest, hrest⟩ := hc.eq_cons hmem
  obtain ⟨rest', hrest'⟩ := hc'.eq_cons (hc'.mem_of_key hi)
  have hroute := hc.route (home k)
  have hroute' := hc'.route (home k)
  have hnodup := hc.nodup (home k)
  rw [hrest] at hroute hnodup hmem hperm
  rw [hrest'] at hroute' hperm
  exact hroute.leads_eq hroute' ((List.perm_cons _).mp hperm) hnodup hmem hsucc

namespace FreeCircle

variable {s s' : SlotArray w K V} {order order' : List Nat} {i : Nat}

theorem freeSucc_eq (h : FreeCircle s order) (h' : FreeCircle s' order')
    (hperm : order.Perm order') (hi : i ∈ 0 :: order)
    (hsucc : ∀ j, j ≠ i → s'.freeSucc j = s.freeSucc j) : s'.freeSucc i = s.freeSucc i :=
  h.forward.leads_eq h'.forward hperm h.nodup hi hsucc

theorem freePred_eq (h : FreeCircle s order) (h' : FreeCircle s' order')
    (hperm : order.Perm order') (hi : i ∈ 0 :: order)
    (hpred : ∀ j, j ≠ i → s'.freePred j = s.freePred j) : s'.freePred i = s.freePred i := by
  refine h.backward.leads_eq h'.backward ?_ ?_ ?_ hpred
  · exact (List.reverse_perm order).trans (hperm.trans (List.reverse_perm order').symm)
  · simpa using h.nodup
  · simpa using hi

/-- The links of a slot on the circle lead to slots on the circle. -/
theorem exists_leads (h : FreeCircle s order) (hi : i ∈ 0 :: order) :
    ∃ p q, s.freePred i = some p ∧ s.freeSucc i = some q ∧ p ∈ 0 :: order ∧ q ∈ 0 :: order := by
  obtain ⟨prev, next, p, q, hs, hprev, hnext, hp, hq⟩ := h.exists_free hi
  exact ⟨p, q, SlotArray.freePred_eq_some_iff.mpr ⟨prev, next, hs, hprev⟩,
    SlotArray.freeSucc_eq_some_iff.mpr ⟨prev, next, hs, hnext⟩, hp, hq⟩

/-- The links of a slot on the circle stay in the array. -/
theorem leads_le {c : Nat} (h : FreeCircle s order) (hsize : s.size = c + 1)
    (hi : i ∈ 0 :: order) :
    (∃ p ≤ c, s.freePred i = some p) ∧ ∃ q ≤ c, s.freeSucc i = some q := by
  obtain ⟨p, q, hp, hq, hpm, hqm⟩ := h.exists_leads hi
  have hpc := h.lt_size hpm
  have hqc := h.lt_size hqm
  exact ⟨⟨p, by omega, hp⟩, q, by omega, hq⟩

end FreeCircle

/-- Where one more place is led to, all places led to are within the same bound. -/
theorem exists_le_update {f : Nat → Option Nat} {a b c j : Nat} (hb : b ≤ c)
    (hj : ∃ p ≤ c, f j = some p) : ∃ p ≤ c, Function.update f a (some b) j = some p := by
  rw [Function.update_apply]
  split
  · exact ⟨b, hb, rfl⟩
  · exact hj

/-! ## Slots that are overwritten -/

/-- The two arrays differ in slot `i` at most. -/
structure SlotArray.SameBut (s s' : SlotArray w K V) (i : Nat) : Prop where
  size_eq : s'.size = s.size
  slot_eq : ∀ j, j ≠ i → s'[j]? = s[j]?

namespace SlotArray.SameBut

variable {s s' : SlotArray w K V} {i : Nat}

theorem setIfInBounds (s : SlotArray w K V) (i : Nat) (slot : Slot w K V) :
    s.SameBut (s.setIfInBounds i slot) i where
  size_eq := Array.size_setIfInBounds
  slot_eq _ hj := Array.getElem?_setIfInBounds_ne (Ne.symm hj)

theorem symm (h : s.SameBut s' i) : s'.SameBut s i :=
  ⟨h.size_eq.symm, fun j hj => (h.slot_eq j hj).symm⟩

theorem node_eq (h : s.SameBut s' i) {j : Nat} (hj : j ≠ i) : s'.node j = s.node j := by
  rw [node, node, h.slot_eq j hj]

theorem links_eq (h : s.SameBut s' i) {j : Nat} (hj : j ≠ i) : s'.links j = s.links j := by
  rw [links, links, h.slot_eq j hj]

end SlotArray.SameBut

namespace Table

variable {t t' : Table w K V} {L L' : Layout} {i n : Nat} {old new : Slot w K V}
  {u : SlotArray w K V}

namespace LaidOut

/-- A slot that is not used is the anchor or on the free list. -/
theorem mem_of_node (hL : t.LaidOut L) (hi : i < t.slots.size) (hnone : t.slots.node i = none) :
    i ∈ 0 :: L.free := by
  rcases Nat.eq_zero_or_pos i with rfl | hpos
  · exact List.mem_cons_self
  · exact List.mem_cons_of_mem 0 ((hL.mem_free i).mpr ⟨hpos, hi, hnone⟩)

/-- The chain link of a slot is settled by all other slots. -/
theorem chain_link_eq (hL : t.LaidOut L) (hL' : t'.LaidOut L') (hhome : t'.home = t.home)
    (hsame : t.slots.SameBut t'.slots i) {next next' : Link w} {k : K} {v v' : V}
    (hs : t.slots[i]? = some (.used next k v)) (hs' : t'.slots[i]? = some (.used next' k v')) :
    next' = next := by
  have hki : t.slots.node.key i = some k := SlotArray.key_eq_some_iff.mpr ⟨next, v, hs⟩
  have hkey : t'.slots.node.key = t.slots.node.key := by
    funext j
    by_cases hj : j = i
    · rw [hj, hki, SlotArray.key_eq_some_iff]
      exact ⟨next', v', hs'⟩
    · rw [Nodes.key, Nodes.key, hsame.node_eq hj]
  have hc' := hL'.chains
  rw [hhome, hkey] at hc'
  have hsucc := hL.chains.succ_eq hc' hki fun j hj => by
    rw [Nodes.succ, Nodes.succ, hsame.node_eq hj]
  rw [SlotArray.succ_of_used hs, SlotArray.succ_of_used hs'] at hsucc
  obtain ⟨j, -, hj⟩ := (hL.chains.route (t.home k)).leads (hL.chains.mem_of_key hki)
  rw [SlotArray.succ_of_used hs] at hj
  exact Link.eq_of_index? (hsucc.trans hj) hj

/-- The two links of a free slot are settled by all other slots. -/
theorem free_links_eq (hL : t.LaidOut L) (hL' : t'.LaidOut L')
    (hsame : t.slots.SameBut t'.slots i) {prev prev' next next' : Link w}
    (hs : t.slots[i]? = some (.free prev next)) (hs' : t'.slots[i]? = some (.free prev' next')) :
    prev' = prev ∧ next' = next := by
  have hlinks := SlotArray.links_eq_some_iff.mpr hs
  have hlinks' := SlotArray.links_eq_some_iff.mpr hs'
  have hnone := SlotArray.node_eq_none_of_links hlinks
  have hi : i ∈ 0 :: L.free := hL.mem_of_node (SlotArray.lt_size_of_links hlinks) hnone
  -- the free slots are the same ones, so the two circles go over the same slots
  have hperm : L.free.Perm L'.free := by
    have hnodup := (List.nodup_cons.mp hL.circle.nodup).2
    have hnodup' := (List.nodup_cons.mp hL'.circle.nodup).2
    refine (List.perm_ext_iff_of_nodup hnodup hnodup').mpr fun j => ?_
    rw [hL.mem_free, hL'.mem_free, hsame.size_eq]
    by_cases hj : j = i
    · rw [hj, hnone, SlotArray.node_eq_none_of_links hlinks']
    · rw [hsame.node_eq hj]
  obtain ⟨p, q, hp, hq, -⟩ := hL.circle.exists_leads hi
  have hpred := hL.circle.freePred_eq hL'.circle hperm hi fun j hj => by
    rw [SlotArray.freePred, SlotArray.freePred, hsame.links_eq hj]
  have hsucc := hL.circle.freeSucc_eq hL'.circle hperm hi fun j hj => by
    rw [SlotArray.freeSucc, SlotArray.freeSucc, hsame.links_eq hj]
  rw [hp, SlotArray.freePred_of_free hs'] at hpred
  rw [hq, SlotArray.freeSucc_of_free hs'] at hsucc
  rw [SlotArray.freePred_of_free hs] at hp
  rw [SlotArray.freeSucc_of_free hs] at hq
  exact ⟨Link.eq_of_index? hpred hp, Link.eq_of_successor? hsucc hq⟩

/-- No two tables in order with the same count differ in that one slot is free in the one and used
in the other. -/
theorem not_converted (hL : t.LaidOut L) (hL' : t'.LaidOut L') (hcap : t'.capacity = t.capacity)
    (hlen : t'.len = t.len) (hsame : t.slots.SameBut t'.slots i) {prev next next' : Link w} {k : K}
    {v : V} (hs : t.slots[i]? = some (.free prev next))
    (hs' : t'.slots[i]? = some (.used next' k v)) : False := by
  have hnode' := SlotArray.node_eq_some_iff.mpr hs'
  have hlinks := SlotArray.links_eq_some_iff.mpr hs
  have hnone := SlotArray.node_eq_none_of_links hlinks
  have hi : i < t.slots.size := SlotArray.lt_size_of_links hlinks
  have hi0 : i ≠ 0 := fun h0 => hL'.circle.notMem_of_node hnode' (h0 ▸ List.mem_cons_self)
  -- one of the two free lists has the slot in addition to the slots of the other one
  have hperm : L.free.Perm (i :: L'.free) := by
    have hnodup := (List.nodup_cons.mp hL.circle.nodup).2
    have hnodup' := (List.nodup_cons.mp hL'.circle.nodup).2
    have hnotMem : i ∉ L'.free := fun h =>
      hL'.circle.notMem_of_node hnode' (List.mem_cons_of_mem 0 h)
    refine (List.perm_ext_iff_of_nodup hnodup (List.nodup_cons.mpr ⟨hnotMem, hnodup'⟩)).mpr
      fun j => ?_
    rw [List.mem_cons, hL.mem_free, hL'.mem_free, hsame.size_eq]
    by_cases hj : j = i
    · rw [hj]
      exact ⟨fun _ => .inl rfl, fun _ => ⟨Nat.pos_of_ne_zero hi0, hi, hnone⟩⟩
    · rw [hsame.node_eq hj]
      exact (or_iff_right hj).symm
  have hlength := hperm.length_eq
  have hcount := hL.count
  have hcount' := hL'.count
  rw [List.length_cons] at hlength
  omega

/-- With another link in one slot, or a slot of the other kind in its place, a table is not in
order. -/
theorem not_inOrder_overwritten (hL : t.LaidOut L) (hs : t.slots[i]? = some old)
    (hnew : old.OneLinkChanged new ∨ old.isUsed ≠ new.isUsed) :
    ¬ ({ t with slots := t.slots.setIfInBounds i new } : Table w K V).InOrder := by
  intro hin
  obtain ⟨L', hL'⟩ := hin.exists_laidOut
  have hsame := SlotArray.SameBut.setIfInBounds t.slots i new
  have hs' : (t.slots.setIfInBounds i new)[i]? = some new :=
    Array.getElem?_setIfInBounds_self_of_lt (Array.getElem?_eq_some_iff.mp hs).1
  rcases hnew with hlink | hkind
  · cases hlink with
    | chain ne => exact ne (hL.chain_link_eq hL' rfl hsame hs hs').symm
    | prev ne => exact ne (hL.free_links_eq hL' hsame hs hs').1.symm
    | next ne => exact ne (hL.free_links_eq hL' hsame hs hs').2.symm
  · cases old <;> cases new
    · exact hkind rfl
    · exact hL.not_converted hL' rfl rfl hsame hs hs'
    · exact hL'.not_converted hL rfl rfl hsame.symm hs' hs
    · exact hkind rfl

end LaidOut

/-! ## The first finding -/

/-- A shapely table passes the first stage. -/
theorem Shapely.checkShape_eq (ht : t.Shapely) : t.checkShape = .ok t.len :=
  t.checkShape_decides.eq_ok ⟨rfl, ht⟩ fun _ h => h.1

section Check

variable [DecidableEq K]

/-- If nothing but the count is wrong, the count is found to be wrong. -/
theorem check_eq_countMismatch (ht : (t.setLen n).Shapely) (hn : t.len ≠ n) :
    t.check.outcome = .ok (.error (.countMismatch t.len n)) := by
  have hpow : ∃ e, t.capacity = 2 ^ e := ht.capacity_pow
  have hsize : t.slots.size = t.capacity + 1 := ht.size_eq
  obtain ⟨hcount, hlinked⟩ := (shapely_iff (t := t.setLen n) hpow hsize).mp ht
  have hscan : SlotArray.scan t.capacity 0 0 t.slots.toList = .ok n := by
    refine (SlotArray.scan_decides t.capacity 0 0 t.slots.toList).eq_ok ⟨?_, hlinked⟩ fun m hm => ?_
    · rw [Nat.zero_add]
      exact hcount
    · rw [hm.1, Nat.zero_add]
      exact hcount.symm
  have hshape : t.checkShape = .error (.defect (.countMismatch t.len n)) := by
    rw [checkShape, isPowerOfTwo_iff.mpr hpow, hscan, ok_bind, if_pos (Ne.symm hn)]
    simp [hsize]
  rw [check, hshape]
  rfl

/-- If the first walk over the free list of a shapely table finds a defect, so does the
examination. -/
theorem Shapely.check_eq_of_forward (ht : t.Shapely) {d : Inconsistency}
    (hwalk : t.slots.checkFreeList (t.capacity - t.len) .forward = .error (.defect d)) :
    t.check.outcome = .ok (.error d) := by
  rw [check, ht.checkShape_eq]
  simp only [Traced.outcome_bind, Traced.outcome_emit, ok_bind, hwalk]
  rfl

end Check

end Table

/-- A walk that should go over more slots than the circuit has comes back to the anchor too
early. -/
theorem SlotArray.Circuit.walk_too_long {s : SlotArray w K V} {c i : Nat} {d : Direction}
    {order : List Nat} {seen : Array Bool} (h : s.Circuit d i order seen) (hs : s.Bounded c)
    (hi : i ≤ c) (hseen : seen.size = s.size) (n : Nat) :
    s.walkFreeList d (order.length + (n + 1)) i seen = .error (.defect (.brokenFreeList d 0)) := by
  -- the walk takes the circuit step by step; at its end, there are steps left
  induction order generalizing i seen with
  | nil =>
    obtain ⟨r, hr, hmap⟩ := hs.neighbours_spec hi
    have hahead := (hmap d).1
    rw [circuit_nil_iff.mp h, Option.map_eq_some_iff] at hahead
    obtain ⟨x, rfl, hx⟩ := hahead
    rw [List.length_nil, Nat.zero_add, walkFreeList, hr, ok_bind]
    simp [hx]
  | cons j order ih =>
    have hle : j ≤ c := hs.ahead_le (h.route.head_leads rfl)
    have hj : j < seen.size := by
      have := hs.size_eq
      omega
    obtain ⟨⟨hij, hj0, hunseen, hback⟩, hrest⟩ := (circuit_cons_iff hj).mp h
    obtain ⟨r, hr, hmap⟩ := hs.neighbours_spec hi
    obtain ⟨r', hr', hmap'⟩ := hs.neighbours_spec hle
    have hahead := (hmap d).1
    rw [hij, Option.map_eq_some_iff] at hahead
    obtain ⟨x, rfl, hx⟩ := hahead
    have hfree : s.isUsed j = false := by
      rw [isUsed_eq_isSome, (h.free_of_mem (List.mem_cons_of_mem i List.mem_cons_self)).2]
      rfl
    rw [List.length_cons, Nat.add_right_comm, walkFreeList, hr, ok_bind]
    dsimp only
    rw [hx, hfree, hunseen, hr', ok_bind, (hmap' d).2, hback]
    simp only [hj0, decide_false, Bool.or_false, Bool.false_eq_true, if_false, ne_eq,
      not_true_eq_false]
    exact ih hrest hle (Array.size_setIfInBounds.trans hseen)

namespace Table

variable {t : Table w K V} {L : Layout} {i n : Nat} {u : SlotArray w K V} {order : List Nat}

/-! ## Faults within the free list -/

/-- New slots for a table in order make it shapely if the used ones have been used before, and the
links of the others stay in the array. -/
theorem LaidOut.shapely (hL : t.LaidOut L) (hsize : u.size = t.slots.size)
    (hused : ∀ i x, u.node i = some x → t.slots.node i = some x)
    (hfree : ∀ i, i < u.size → u.node i = none →
      (∃ p ≤ t.capacity, u.freePred i = some p) ∧ ∃ q ≤ t.capacity, u.freeSucc i = some q)
    (hlen : n = u.usedCount) : ({ t with slots := u, len := n } : Table w K V).Shapely where
  capacity_pow := hL.capacity_pow
  size_eq := hsize.trans hL.size_eq
  anchor_free := by
    have hanchor : u.node 0 = none := by
      cases h0 : u.node 0 with
      | none => rfl
      | some x => exact absurd List.mem_cons_self (hL.circle.notMem_of_node (hused 0 x h0))
    have h0 : 0 < u.size := by
      rw [hsize, hL.size_eq]
      exact Nat.succ_pos _
    exact SlotArray.exists_links_of_node_eq_none h0 hanchor
  links i slot hs := by
    cases slot with
    | used next k v =>
      have hnode := hused i _ (SlotArray.node_eq_some_iff.mpr hs)
      exact hL.inOrder.used_links i next k v (SlotArray.node_eq_some_iff.mp hnode)
    | free prev next =>
      have hlinks := SlotArray.links_eq_some_iff.mpr hs
      obtain ⟨⟨p, hpc, hp⟩, q, hqc, hq⟩ :=
        hfree i (SlotArray.lt_size_of_links hlinks) (SlotArray.node_eq_none_of_links hlinks)
      rw [SlotArray.freePred_of_free hs, Link.index?_eq_some_iff, Link.decodeIndex_eq_ok_iff] at hp
      rw [SlotArray.freeSucc_of_free hs, Link.successor?_eq_some_iff,
        Link.decodeSuccessor_eq_ok_iff] at hq
      show (0 ≤ prev.toInt ∧ prev.toInt ≤ t.capacity) ∧
        -(t.capacity + 1 : Int) ≤ next.toInt ∧ next.toInt < 0
      omega
  len_eq := hlen

section Check

variable [DecidableEq K]

/-- The first free slot is taken and not used: the walk over the free list goes one slot short. -/
theorem LaidOut.acquire_found (hL : t.LaidOut L) (hfree : L.free = i :: order) :
    ∃ t', t.slots.firstFree = .ok i ∧ t.acquire.outcome = .ok (i, t') ∧
      t'.check.outcome = .ok (.error (.brokenFreeList .forward 0)) := by
  have hcount := hL.count
  have hcap := hL.size_eq
  have hcircle := hL.circle
  rw [hfree] at hcount hcircle
  obtain ⟨q, s', hs', hsize, hnode, hiq, hsucc, hpred⟩ := hcircle.acquire_links
  have hcircle' : FreeCircle s' order := hcircle.erase (a := []) hcircle.first.2 hiq hsucc hpred
  have hqc : q ≤ t.capacity := by
    obtain ⟨-, q', hle, hq'⟩ := hcircle.leads_le hcap (List.mem_cons_of_mem 0 List.mem_cons_self)
    rw [hiq, Option.some.injEq] at hq'
    omega
  -- the slot taken is as free as before, and no link leads out of the array
  have hshapely : ({ t with slots := s', len := t.len } : Table w K V).Shapely := by
    refine hL.shapely hsize (fun j x hx => hnode ▸ hx) (fun j hj hnone => ?_) ?_
    · rw [hsize] at hj
      rw [hnode] at hnone
      obtain ⟨hp, hq⟩ := hL.circle.leads_le hcap (hL.mem_of_node hj hnone)
      rw [hsucc, hpred]
      exact ⟨exists_le_update (Nat.zero_le _) hp, exists_le_update hqc hq⟩
    · have hused : s'.isUsed = t.slots.isUsed := funext fun j => by
        rw [SlotArray.isUsed_eq_isSome, SlotArray.isUsed_eq_isSome, hnode]
      rw [hL.len_eq_usedCount, SlotArray.usedCount_eq, SlotArray.usedCount_eq, hused,
        SlotArray.capacity, SlotArray.capacity, hsize]
  refine ⟨{ t with slots := s' }, hcircle.first.1, acquire_outcome hs',
    hshapely.check_eq_of_forward ?_⟩
  have hwalk := (SlotArray.circuit_of_freeCircle hcircle' s'.size).1.walk_too_long
    hshapely.bounded (Nat.zero_le _) Array.size_replicate 0
  have hsteps : t.capacity - t.len = order.length + (0 + 1) := by
    rw [List.length_cons] at hcount
    omega
  rw [← hsteps] at hwalk
  exact hwalk

/-- A used slot is given back and not discounted: the count is one too high. -/
theorem LaidOut.release_found (hL : t.LaidOut L) (hcap : t.capacity ≤ w.maxCapacity)
    {x : Link w × K × V} (hx : t.slots.node i = some x) :
    ∃ t' n, t.len = n + 1 ∧ t.releaseSlot i = .ok t' ∧
      t'.check.outcome = .ok (.error (.countMismatch t.len n)) := by
  have hcount := hL.count
  have hsize := hL.size_eq
  obtain ⟨n, hn⟩ := hL.exists_len_eq hx
  obtain ⟨s', hs', hsize', hnode, hcircle⟩ := hL.circle.release hx (by omega)
  have hmem := hL.mem_drain hsize' hcircle fun j => by rw [hnode, Nodes.update_none_eq_none]
  have hlen : n = s'.usedCount := by
    have hused := SlotArray.usedCount_add_length (List.nodup_cons.mp hcircle.nodup).2 hmem
    rw [SlotArray.capacity, List.length_cons] at hused
    omega
  have hshapely : ({ t with slots := s', len := n } : Table w K V).Shapely := by
    refine hL.shapely hsize' (fun j y hy => ?_) (fun j hj hj' => ?_) hlen
    · rw [hnode, Function.update_apply] at hy
      split at hy
      · cases hy
      · exact hy
    · refine hcircle.leads_le (hsize'.trans hsize) ?_
      rcases Nat.eq_zero_or_pos j with rfl | hpos
      · exact List.mem_cons_self
      · exact List.mem_cons_of_mem 0 ((hmem j).mpr ⟨hpos, hj, hj'⟩)
  have hne : t.len ≠ n := by omega
  exact ⟨{ t with slots := s' }, n, hn, withSlots_eq hs',
    check_eq_countMismatch (t := { t with slots := s' }) hshapely hne⟩

/-- Whatever single fault a table that passed an examination has got since, it is found. -/
theorem finds_faults (hcheck : t.check.outcome = .ok (.ok ())) (hcap : t.capacity ≤ w.maxCapacity) :
    t.FindsFaults := by
  obtain ⟨L, hL⟩ := inOrder_iff.mp (check_eq_ok_iff.mp hcheck)
  refine ⟨fun i old new hs hnew => ?_, fun n hn => ?_, ?_, fun i next k v hs => ?_⟩
  · have hwrite : t.setSlot i new = .ok { t with slots := t.slots.setIfInBounds i new } :=
      withSlots_eq (SlotArray.write_eq (Array.getElem?_eq_some_iff.mp hs).1 new)
    obtain ⟨d, hd⟩ := exists_check_eq_error (hL.not_inOrder_overwritten hs hnew)
    exact ⟨_, d, hwrite, hd⟩
  · rw [← hL.len_eq_usedCount]
    exact check_eq_countMismatch (t := t.setLen n) hL.inOrder.shapely hn
  · rintro ⟨i, prev, next, hi, hs⟩
    have hmem : i ∈ L.free := hL.mem_free_iff.mpr ⟨hi, prev, next, hs⟩
    cases hfree : L.free with
    | nil =>
      rw [hfree] at hmem
      cases hmem
    | cons j order =>
      obtain ⟨t', hfound⟩ := hL.acquire_found hfree
      exact ⟨j, t', hfound⟩
  · exact hL.release_found hcap (SlotArray.node_eq_some_iff.mpr hs)

/-- One entry in a table of two slots. -/
theorem finds_faults_one_entry : ∃ t : Table .bits16 Nat Nat,
    t.check.outcome = .ok (.ok ()) ∧ t.capacity ≤ LinkWidth.bits16.maxCapacity ∧ t.len = 1 ∧
      t.FindsFaults := by
  let t : Table .bits16 Nat Nat :=
    ⟨.fixed, UInt64.ofNat, #[.free (.ofIndex 2) (.ofSuccessor 2), .used .null 2 4,
      .free .null (.ofSuccessor 0)], 1, 1⟩
  have hcheck : t.check.outcome = .ok (.ok ()) := by cbv
  have hcap : t.capacity ≤ LinkWidth.bits16.maxCapacity := by decide
  exact ⟨t, hcheck, hcap, rfl, finds_faults hcheck hcap⟩

end Check

end Table

end HomeChain

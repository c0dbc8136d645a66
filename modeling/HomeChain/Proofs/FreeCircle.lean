import HomeChain.Proofs.Route
import HomeChain.Proofs.SlotView
import Mathlib.Data.List.Range

/-!
# The free list as a circle

`FreeCircle s order` says that the links of the free slots lead from the anchor over `order`
and back to the anchor, and that the links the other way lead over the reverse of it. Through
this view the operations on the free list are operations on `order`:

* `acquire` takes the first member away, `unlink` a member anywhere;
* `release` puts a new member in front;
* a fresh array has `order = 1, …, capacity`.

None of them touches a used slot: `node` is as before, at the released slot excepted. The
writes to slots that are not on the list leave `order` alone.
-/

namespace HomeChain

variable {w : LinkWidth} {K V : Type}

/-- The free list visits the slots of `order`, in this order, and is linked both ways. -/
structure FreeCircle (s : SlotArray w K V) (order : List Nat) : Prop where
  /-- The anchor is not one of the slots visited. -/
  anchor_notMem : 0 ∉ order
  /-- The `next` links lead from the anchor over `order` and back to it. -/
  forward : Route s.freeSucc (0 :: order ++ [0])
  /-- The `prev` links lead over the same slots in reverse. -/
  backward : Route s.freePred (0 :: order.reverse ++ [0])

namespace FreeCircle

variable {s s' : SlotArray w K V} {order : List Nat} {i p q : Nat} {x : Link w × K × V}

theorem nodup (h : FreeCircle s order) : (0 :: order).Nodup :=
  List.nodup_cons.mpr ⟨h.anchor_notMem, h.forward.tail.nodup h.anchor_notMem⟩

/-- The free list visits the slots in one order only. -/
theorem unique {order' : List Nat} (h : FreeCircle s order) (h' : FreeCircle s order') :
    order = order' := h.forward.unique h'.forward h.anchor_notMem h'.anchor_notMem

/-- The anchor and the slots visited are free, and their links name one another. -/
theorem exists_free (h : FreeCircle s order) (hi : i ∈ 0 :: order) :
    ∃ prev next p q, s[i]? = some (.free prev next) ∧ prev.decodeIndex = .ok p ∧
      next.decodeSuccessor = .ok q ∧ p ∈ 0 :: order ∧ q ∈ 0 :: order := by
  have hi' : i ∈ 0 :: order.reverse := by simpa using hi
  obtain ⟨q, hq, hiq⟩ := h.forward.leads hi
  obtain ⟨p, hp, hip⟩ := h.backward.leads hi'
  obtain ⟨prev, next, hs, hnext⟩ := SlotArray.freeSucc_eq_some_iff.mp hiq
  obtain ⟨prev', next', hs', hprev⟩ := SlotArray.freePred_eq_some_iff.mp hip
  rw [hs, Option.some.injEq, Slot.free.injEq] at hs'
  obtain ⟨rfl, rfl⟩ := hs'
  refine ⟨prev, next, p, q, hs, hprev, hnext, ?_, ?_⟩
  · simp only [List.cons_append, List.mem_cons, List.mem_append, List.mem_reverse] at hp ⊢
    tauto
  · simp only [List.cons_append, List.mem_cons, List.mem_append] at hq ⊢
    tauto

theorem node_eq_none (h : FreeCircle s order) (hi : i ∈ 0 :: order) : s.node i = none := by
  obtain ⟨prev, next, -, -, hs, -⟩ := h.exists_free hi
  exact SlotArray.node_eq_none_of_links (SlotArray.links_eq_some_iff.mpr hs)

/-- A used slot is not on the list. -/
theorem notMem_of_node (h : FreeCircle s order) (hx : s.node i = some x) : i ∉ 0 :: order := by
  intro hi
  rw [h.node_eq_none hi] at hx
  cases hx

theorem lt_size (h : FreeCircle s order) (hi : i ∈ 0 :: order) : i < s.size := by
  obtain ⟨prev, next, -, -, hs, -⟩ := h.exists_free hi
  exact (Array.getElem?_eq_some_iff.mp hs).1

/-- The first slot of the list, the anchor if there is none, leads back to the anchor. -/
theorem first (h : FreeCircle s order) :
    s.firstFree = .ok (order.headD 0) ∧ s.freePred (order.headD 0) = some 0 := by
  have hfirst : (order ++ [0]).head? = some (order.headD 0) := by cases order <;> rfl
  obtain ⟨prev, next, hs, hnext⟩ :=
    SlotArray.freeSucc_eq_some_iff.mp (h.forward.head_leads hfirst)
  refine ⟨?_, ?_⟩
  · rw [SlotArray.firstFree, SlotArray.read_eq hs]
    exact hnext
  · cases order with
    | nil => exact h.backward.head_leads rfl
    | cons i order =>
      have hback : Route s.freePred (0 :: order.reverse ++ i :: [0]) := by
        simpa using h.backward
      exact (Route.append_cons.mp hback).2.head_leads rfl

/-- The circle depends on the links of its members only. -/
theorem congr (h : FreeCircle s order) (hlinks : ∀ i ∈ 0 :: order, s'.links i = s.links i) :
    FreeCircle s' order where
  anchor_notMem := h.anchor_notMem
  forward := h.forward.congr fun i hi => by
    rw [SlotArray.freeSucc, SlotArray.freeSucc, hlinks i hi]
  backward := h.backward.congr fun i hi => by
    rw [SlotArray.freePred, SlotArray.freePred, hlinks i (by simpa using hi)]

/-! ## Changes of the circle -/

/-- The neighbours of a member are made to lead past it. -/
theorem erase {a b : List Nat} (h : FreeCircle s (a ++ i :: b)) (hp : s.freePred i = some p)
    (hq : s.freeSucc i = some q) (hsucc : s'.freeSucc = Function.update s.freeSucc p (some q))
    (hpred : s'.freePred = Function.update s.freePred q (some p)) :
    FreeCircle s' (a ++ b) := by
  have hforward : Route s.freeSucc (0 :: a ++ i :: (b ++ [0])) := by
    simpa using h.forward
  have hbackward : Route s.freePred (0 :: b.reverse ++ i :: (a.reverse ++ [0])) := by
    simpa using h.backward
  -- `p` is the last slot in front of the member, and `q` is the first behind it
  have hpa := (Route.append_cons.mp hbackward).2.getLast?_of_leads hp
  have hqb : (0 :: b.reverse).getLast? = some q := by
    refine Route.getLast?_of_leads ?_ hq
    rw [List.reverse_reverse]
    exact (Route.append_cons.mp hforward).2
  have hnodup := h.nodup
  rw [← List.cons_append, List.nodup_middle, List.nodup_cons] at hnodup
  refine ⟨fun h0 => h.anchor_notMem ?_, ?_, ?_⟩
  · rcases List.mem_append.mp h0 with h0 | h0 <;> simp [h0]
  · obtain ⟨a', ha⟩ := List.getLast?_eq_some_iff.mp hpa
    have hp' : p ∉ a' ++ b := by
      have := hnodup.2
      rw [ha, List.append_assoc, List.singleton_append, List.nodup_middle, List.nodup_cons] at this
      exact this.1
    rw [ha, List.append_assoc, List.singleton_append] at hforward
    rw [← List.cons_append, ha, List.append_assoc, List.append_assoc, List.singleton_append]
    refine hforward.bypass ?_ fun k hk => ?_
    · rw [hsucc, Function.update_self, hq]
    · rw [hsucc, Function.update_of_ne (ne_of_mem_of_not_mem hk hp')]
  · obtain ⟨b', hb⟩ := List.getLast?_eq_some_iff.mp hqb
    have hq' : q ∉ b' ++ a.reverse := by
      have hperm : (0 :: b.reverse ++ a.reverse).Perm (0 :: a ++ b) := by
        rw [List.cons_append, List.cons_append, List.perm_cons, ← List.reverse_append]
        exact List.reverse_perm (a ++ b)
      have := hperm.nodup_iff.mpr hnodup.2
      rw [hb, List.append_assoc, List.singleton_append, List.nodup_middle, List.nodup_cons] at this
      exact this.1
    rw [hb, List.append_assoc, List.singleton_append] at hbackward
    rw [List.reverse_append, ← List.cons_append, hb, List.append_assoc, List.append_assoc,
      List.singleton_append]
    refine hbackward.bypass ?_ fun k hk => ?_
    · rw [hpred, Function.update_self, hp]
    · rw [hpred, Function.update_of_ne (ne_of_mem_of_not_mem hk hq')]

/-- A new slot is linked in behind the anchor; `q` was there before. -/
theorem cons (h : FreeCircle s order) (hi : i ∉ 0 :: order) (hq : order.headD 0 = q)
    (hsucc : s'.freeSucc =
      Function.update (Function.update s.freeSucc i (some q)) 0 (some i))
    (hpred : s'.freePred =
      Function.update (Function.update s.freePred q (some i)) i (some 0)) :
    FreeCircle s' (i :: order) := by
  have hi0 : i ≠ 0 := fun h0 => hi (h0 ▸ List.mem_cons_self)
  have hq0 : s.freePred q = some 0 := hq ▸ h.first.2
  have hqmem : q ∈ 0 :: order := by
    subst hq
    cases order <;> simp
  refine ⟨fun h0 => ?_, ?_, ?_⟩
  · rcases List.mem_cons.mp h0 with h0 | h0
    · exact hi0 h0.symm
    · exact h.anchor_notMem h0
  · -- forward, the new slot comes between the anchor and `q`
    have hfirst : (order ++ [0]).head? = some q := by
      subst hq
      cases order <;> rfl
    refine Route.interpose (l := []) (p := 0) (m := order) h.forward ?_ ?_ fun k hk => ?_
    · rw [hsucc, Function.update_self]
    · rw [hsucc, Function.update_of_ne hi0, Function.update_self, h.forward.head_leads hfirst]
    · have hk0 : k ≠ 0 := ne_of_mem_of_not_mem hk h.anchor_notMem
      have hki : k ≠ i := ne_of_mem_of_not_mem (List.mem_cons_of_mem 0 hk) hi
      rw [hsucc, Function.update_of_ne hk0, Function.update_of_ne hki]
  · -- backward, it comes last, behind `q`
    obtain ⟨b, hb⟩ : ∃ b, 0 :: order.reverse = b ++ [q] := by
      subst hq
      cases order with
      | nil => exact ⟨[], rfl⟩
      | cons j order => exact ⟨0 :: order.reverse, by simp⟩
    have hbq : q ∉ b := by
      have hnodup : (0 :: order.reverse).Nodup := by simpa using h.nodup
      rw [hb, List.nodup_middle, List.nodup_cons] at hnodup
      simpa using hnodup.1
    have hbmem : ∀ k ∈ b, k ∈ 0 :: order := fun k hk => by
      have : k ∈ 0 :: order.reverse := hb ▸ List.mem_append_left [q] hk
      simpa using this
    have hback := h.backward
    rw [hb, List.append_assoc] at hback
    rw [List.reverse_cons, ← List.cons_append, hb]
    have hroute : Route s'.freePred (b ++ q :: i :: ([] ++ [0])) := by
      refine hback.interpose (m := []) ?_ ?_ fun k hk => ?_
      · rw [hpred, Function.update_of_ne (ne_of_mem_of_not_mem hqmem hi), Function.update_self]
      · rw [hpred, Function.update_self, hq0]
      · rw [List.append_nil] at hk
        rw [hpred, Function.update_of_ne (ne_of_mem_of_not_mem (hbmem k hk) hi),
          Function.update_of_ne (ne_of_mem_of_not_mem hk hbq)]
    simpa using hroute

/-! ## The operations -/

/-- Taking the first slot of the list off it writes to its neighbours `0` and `q` only. -/
theorem acquire_links (h : FreeCircle s (i :: order)) :
    ∃ q s', s.acquire = .ok (i, s') ∧ s'.size = s.size ∧ s'.node = s.node ∧
      s.freeSucc i = some q ∧ s'.freeSucc = Function.update s.freeSucc 0 (some q) ∧
      s'.freePred = Function.update s.freePred q (some 0) := by
  have hi0 : i ≠ 0 := by
    rintro rfl
    exact h.anchor_notMem List.mem_cons_self
  obtain ⟨q, hq⟩ : ∃ q, (order ++ [0]).head? = some q := by cases order <;> simp
  have hiq : s.freeSucc i = some q := h.forward.tail.head_leads hq
  obtain ⟨prev, next, hs, hnext⟩ := SlotArray.freeSucc_eq_some_iff.mp hiq
  have hqmem : q ∈ 0 :: i :: order := by
    have hq' := List.mem_of_mem_head? hq
    simp only [List.mem_append, List.mem_cons] at hq' ⊢
    tauto
  obtain ⟨_, _, -, -, hsq, -⟩ := h.exists_free hqmem
  obtain ⟨s₁, h₁, hsize₁, hnode₁, hsucc₁, hpred₁⟩ := SlotArray.setPrev_spec hsq .null
  -- the anchor is still free, for it leads to `i` as before
  have h0 : s₁.freeSucc 0 = some i := by rw [hsucc₁, h.forward.head_leads rfl]
  obtain ⟨_, _, hs0, -⟩ := SlotArray.freeSucc_eq_some_iff.mp h0
  obtain ⟨s₂, h₂, hsize₂, hnode₂, hsucc₂, hpred₂⟩ := SlotArray.setFreeNext_spec hs0 next
  refine ⟨q, s₂, ?_, hsize₂.trans hsize₁, hnode₂.trans hnode₁, hiq, ?_, ?_⟩
  · rw [SlotArray.acquire, h.first.1, ok_bind, List.headD_cons, if_neg hi0, SlotArray.read_eq hs,
      ok_bind]
    show (next.decodeSuccessor >>= fun second => s.setPrev second .null >>= fun s =>
      s.setFreeNext 0 next >>= fun s => pure (i, s)) = _
    rw [hnext, ok_bind, h₁, ok_bind, h₂]
    rfl
  · rw [hsucc₂, hsucc₁, Link.successor?_eq_some_iff.mpr hnext]
  · rw [hpred₂, hpred₁, Link.index?_null]

/-- The first slot of the list is taken off it. -/
theorem acquire (h : FreeCircle s (i :: order)) :
    ∃ s', s.acquire = .ok (i, s') ∧ s'.size = s.size ∧ s'.node = s.node ∧
      FreeCircle s' order := by
  obtain ⟨q, s', hs', hsize, hnode, hiq, hsucc, hpred⟩ := h.acquire_links
  exact ⟨s', hs', hsize, hnode, h.erase (a := []) h.first.2 hiq hsucc hpred⟩

/-- A slot is taken off the list, wherever it stands. -/
theorem unlink {a b : List Nat} (h : FreeCircle s (a ++ i :: b)) :
    ∃ s', s.unlink i = .ok s' ∧ s'.size = s.size ∧ s'.node = s.node ∧
      FreeCircle s' (a ++ b) := by
  have hi : i ∈ 0 :: (a ++ i :: b) := by simp
  obtain ⟨prev, next, p, q, hs, hprev, hnext, hp, hq⟩ := h.exists_free hi
  have hip : s.freePred i = some p := SlotArray.freePred_eq_some_iff.mpr ⟨_, _, hs, hprev⟩
  have hiq : s.freeSucc i = some q := SlotArray.freeSucc_eq_some_iff.mpr ⟨_, _, hs, hnext⟩
  obtain ⟨_, _, -, -, hsp, -⟩ := h.exists_free hp
  obtain ⟨s₁, h₁, hsize₁, hnode₁, hsucc₁, hpred₁⟩ := SlotArray.setFreeNext_spec hsp next
  obtain ⟨_, _, q', -, hsq, hprevq, -⟩ := h.exists_free hq
  -- the second neighbour is free after the first write too, also where both are the anchor
  have hpred : s₁.freePred q = some q' := by
    rw [hpred₁]
    exact SlotArray.freePred_eq_some_iff.mpr ⟨_, _, hsq, hprevq⟩
  obtain ⟨_, _, hsq₁, -⟩ := SlotArray.freePred_eq_some_iff.mp hpred
  obtain ⟨s₂, h₂, hsize₂, hnode₂, hsucc₂, hpred₂⟩ := SlotArray.setPrev_spec hsq₁ prev
  refine ⟨s₂, ?_, hsize₂.trans hsize₁, hnode₂.trans hnode₁, h.erase hip hiq ?_ ?_⟩
  · rw [SlotArray.unlink, SlotArray.read_eq hs, ok_bind]
    show (prev.decodeIndex >>= fun p => s.setFreeNext p next >>= fun s =>
      next.decodeSuccessor >>= fun q => s.setPrev q prev) = _
    rw [hprev, ok_bind, h₁, ok_bind, hnext, ok_bind, h₂]
  · rw [hsucc₂, hsucc₁, Link.successor?_eq_some_iff.mpr hnext]
  · rw [hpred₂, hpred₁, Link.index?_eq_some_iff.mpr hprev]

/-- A used slot is emptied and put in front of the list. -/
theorem release (h : FreeCircle s order) (hx : s.node i = some x)
    (hsize : s.size ≤ w.maxCapacity + 1) :
    ∃ s', s.release i = .ok s' ∧ s'.size = s.size ∧
      s'.node = Function.update s.node i none ∧ FreeCircle s' (i :: order) := by
  have hi : i ∉ 0 :: order := h.notMem_of_node hx
  have hi0 : i ≠ 0 := fun h0 => hi (h0 ▸ List.mem_cons_self)
  have hisize : i < s.size := SlotArray.lt_size_of_node hx
  obtain ⟨q, hq⟩ : ∃ q, q = order.headD 0 := ⟨_, rfl⟩
  have hqmem : q ∈ 0 :: order := by
    subst hq
    cases order <;> simp
  have hqsize : q < s.size := h.lt_size hqmem
  obtain ⟨prev, next, -, -, hs, -⟩ := h.exists_free hqmem
  have hil : (Link.ofIndex i : Link w).index? = some i :=
    Link.index?_eq_some_iff.mpr (Link.decodeIndex_ofIndex (by omega))
  have his : (Link.ofSuccessor i : Link w).successor? = some i :=
    Link.successor?_eq_some_iff.mpr (Link.decodeSuccessor_ofSuccessor (by omega))
  have hqs : (Link.ofSuccessor q : Link w).successor? = some q :=
    Link.successor?_eq_some_iff.mpr (Link.decodeSuccessor_ofSuccessor (by omega))
  -- the old first slot leads back to `i`, then `i` is written, then the anchor leads to it
  obtain ⟨s₁, h₁, hsize₁, hnode₁, hsucc₁, hpred₁⟩ := SlotArray.setPrev_spec hs (.ofIndex i)
  have hi₁ : i < s₁.size := by omega
  let slot : Slot w K V := .free .null (.ofSuccessor q)
  have hsucc₂ : (SlotArray.freeSucc (s₁.setIfInBounds i slot)) =
      Function.update s.freeSucc i (some q) := by
    rw [SlotArray.freeSucc_setIfInBounds hi₁, hsucc₁]
    exact congrArg _ hqs
  have h0 : SlotArray.freeSucc (s₁.setIfInBounds i slot) 0 = some q := by
    have hfirst : (order ++ [0]).head? = some q := by
      subst hq
      cases order <;> rfl
    rw [hsucc₂, Function.update_of_ne (Ne.symm hi0), h.forward.head_leads hfirst]
  obtain ⟨_, _, hs0, -⟩ := SlotArray.freeSucc_eq_some_iff.mp h0
  obtain ⟨s₃, h₃, hsize₃, hnode₃, hsucc₃, hpred₃⟩ :=
    SlotArray.setFreeNext_spec hs0 (.ofSuccessor i)
  refine ⟨s₃, ?_, ?_, ?_, h.cons hi hq.symm ?_ ?_⟩
  · have hguard : (i = 0 || !s.isUsed i) = false := by
      rw [SlotArray.isUsed_eq_isSome, hx]
      simp [hi0]
    rw [SlotArray.release, hguard, h.first.1, ← hq]
    simp only [Bool.false_eq_true, if_false, ok_bind]
    rw [Link.encodeIndex_eq (by omega), ok_bind, h₁, ok_bind, Link.encodeSuccessor_eq (by omega),
      ok_bind, SlotArray.write_eq hi₁, ok_bind, Link.encodeSuccessor_eq (by omega), ok_bind]
    exact h₃
  · rw [hsize₃, Array.size_setIfInBounds, hsize₁]
  · rw [hnode₃, SlotArray.node_setIfInBounds hi₁, hnode₁]
    rfl
  · rw [hsucc₃, hsucc₂, his]
  · rw [hpred₃, SlotArray.freePred_setIfInBounds hi₁, hpred₁, hil]
    simp [slot, Slot.links?]

/-! ## Slots off the list -/

/-- A slot that is not on the list may hold anything. -/
theorem overwrite (h : FreeCircle s order) (hi : i ∉ 0 :: order) (hsize : i < s.size)
    (slot : Slot w K V) : FreeCircle (s.setIfInBounds i slot) order := by
  apply h.congr
  intro j hj
  rw [SlotArray.links_setIfInBounds hsize, Function.update_of_ne (ne_of_mem_of_not_mem hj hi)]

/-- An entry is written to a slot that is not on the list. -/
theorem write_used (h : FreeCircle s order) (hi : i ∉ 0 :: order) (hsize : i < s.size)
    (next : Link w) (k : K) (v : V) :
    ∃ s', s.write i (.used next k v) = .ok s' ∧ s'.size = s.size ∧
      s'.node = Function.update s.node i (some (next, k, v)) ∧ FreeCircle s' order :=
  ⟨_, SlotArray.write_eq hsize _, Array.size_setIfInBounds, SlotArray.node_setIfInBounds hsize _,
    h.overwrite hi hsize _⟩

/-- A used slot gets another chain link. -/
theorem setChainNext (h : FreeCircle s order) (hx : s.node i = some x) (l : Link w) :
    ∃ s', s.setChainNext i l = .ok s' ∧ s'.size = s.size ∧ s'.node = s.node.relink i l ∧
      FreeCircle s' order := by
  obtain ⟨next, k, v⟩ := x
  have hsize : i < s.size := SlotArray.lt_size_of_node hx
  refine ⟨s.setIfInBounds i (.used l k v), ?_, Array.size_setIfInBounds, ?_,
    h.overwrite (h.notMem_of_node hx) hsize _⟩
  · exact SlotArray.update_eq (SlotArray.node_eq_some_iff.mp hx) rfl
  · rw [SlotArray.node_setIfInBounds hsize, Nodes.relink, hx]
    rfl

end FreeCircle

/-! ## Fresh arrays -/

namespace SlotArray

theorem allocate_eq {c : Nat} (hcap : c ≤ w.maxCapacity) :
    (allocate c : Except TableError (SlotArray w K V)) = .ok (fresh c) := if_pos hcap

theorem allocate_eq_error {c : Nat} (hcap : w.maxCapacity < c) :
    (allocate c : Except TableError (SlotArray w K V)) = .error (.capacityTooLarge c w) :=
  if_neg (Nat.not_le.mpr hcap)

/-- What an array holds is of no matter where it is emptied. -/
theorem reset_eq {s : SlotArray w K V} {c : Nat} (hsize : s.size = c + 1)
    (hcap : c ≤ w.maxCapacity) : s.reset = .ok (fresh c) := by
  have hslots : s.capacity = c := by
    rw [capacity]
    omega
  unfold reset
  rw [hslots, if_neg (by omega), if_neg (by omega)]

theorem size_fresh (capacity : Nat) :
    (fresh capacity : SlotArray w K V).size = capacity + 1 := Array.size_ofFn

theorem getElem?_fresh {capacity i : Nat} (hi : i ≤ capacity) :
    (fresh capacity : SlotArray w K V)[i]? = some (initialSlot capacity i) := by
  rw [fresh, Array.getElem?_ofFn, dif_pos (by omega)]

theorem node_fresh (capacity i : Nat) : (fresh capacity : SlotArray w K V).node i = none := by
  rw [node]
  rcases Nat.lt_or_ge capacity i with hi | hi
  · rw [Array.getElem?_eq_none (by rw [size_fresh]; omega)]
    rfl
  · rw [getElem?_fresh hi]
    rfl

end SlotArray

/-- In a fresh array the slots are on the free list in order of index. -/
theorem freeCircle_fresh {capacity : Nat} (hcap : capacity ≤ w.maxCapacity) :
    FreeCircle (SlotArray.fresh capacity : SlotArray w K V) (List.range' 1 capacity) := by
  have hsucc : ∀ i ≤ capacity, (SlotArray.fresh capacity : SlotArray w K V).freeSucc i =
      some (if i = capacity then 0 else i + 1) := by
    intro i hi
    refine SlotArray.freeSucc_eq_some_iff.mpr ⟨_, _, SlotArray.getElem?_fresh hi, ?_⟩
    exact Link.decodeSuccessor_ofSuccessor (by split <;> omega)
  have hpred : ∀ i ≤ capacity, (SlotArray.fresh capacity : SlotArray w K V).freePred i =
      some (if i = 0 then capacity else i - 1) := by
    intro i hi
    refine SlotArray.freePred_eq_some_iff.mpr ⟨_, _, SlotArray.getElem?_fresh hi, ?_⟩
    exact Link.decodeIndex_ofIndex (by split <;> omega)
  have hrange : 0 :: List.range' 1 capacity = List.range (capacity + 1) := by
    rw [List.range_eq_range', List.range'_succ]
  refine ⟨by simp, ?_, ?_⟩
  · -- every slot leads to the next index, and the last one to the anchor
    rw [hrange, List.range_succ, List.append_assoc, List.singleton_append, Route.append_cons,
      ← List.range_succ]
    refine ⟨(List.isChain_range_succ _ capacity).mpr fun i hi => ?_, ?_⟩
    · rw [hsucc i (by omega), if_neg (by omega)]
    · rw [Route.cons_cons, hsucc capacity le_rfl, if_pos rfl]
      exact ⟨rfl, Route.singleton 0⟩
  · rw [List.cons_append, ← List.reverse_cons, hrange]
    have hlast : (List.range (capacity + 1)).reverse.head? = some capacity := by
      rw [List.range_succ]
      simp
    rw [Route.cons_iff hlast, hpred 0 (Nat.zero_le capacity), if_pos rfl]
    refine ⟨rfl, List.isChain_reverse.mpr ((List.isChain_range_succ _ capacity).mpr ?_)⟩
    intro i hi
    rw [hpred (i + 1) (by omega), if_neg (by omega), Nat.add_sub_cancel]

end HomeChain

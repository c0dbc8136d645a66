import HomeChain.Proofs.Examination.Shape
import Mathlib.Data.List.Perm.Subperm

/-!
# The walk over the free list

The second stage of an examination walks over the free list in both directions. One walk decides
whether there is a `Circuit`: a list of slots, as many as should be free, over which the links of
the direction lead back to the anchor and whose other links lead back the same way. The other
link of the anchor is the one thing that a walk does not look at, and the walk in the other
direction does. Together the two decide whether the free slots form one circle.
-/

namespace HomeChain

variable {w : LinkWidth} {K V : Type}

/-- Marking one place of an array changes that place only. -/
theorem getD_setIfInBounds_true {seen : Array Bool} {i : Nat} (hi : i < seen.size) (j : Nat) :
    (seen.setIfInBounds i true).getD j false = (decide (j = i) || seen.getD j false) := by
  rw [Array.getD_eq_getD_getElem?, Array.getD_eq_getD_getElem?, Array.getElem?_setIfInBounds]
  by_cases hij : i = j
  · subst hij
    rw [if_pos rfl, if_pos hi, decide_eq_true rfl]
    rfl
  · rw [if_neg hij, decide_eq_false (Ne.symm hij)]
    rfl

theorem getD_replicate_false (n j : Nat) : (Array.replicate n false).getD j false = false := by
  rw [Array.getD_eq_getD_getElem?, Array.getElem?_replicate]
  split <;> rfl

namespace SlotArray

variable {s : SlotArray w K V} {d : Direction} {c i j : Nat} {order : List Nat}
  {seen : Array Bool}

/-- Where the links of a direction lead. -/
def ahead (s : SlotArray w K V) : Direction → Nat → Option Nat
  | .forward => s.freeSucc
  | .backward => s.freePred

/-- Where the links of the other direction lead. -/
def behind (s : SlotArray w K V) : Direction → Nat → Option Nat
  | .forward => s.freePred
  | .backward => s.freeSucc

/-- The array has `c` slots behind the anchor, and no link leads out of it. -/
structure Bounded (s : SlotArray w K V) (c : Nat) : Prop where
  size_eq : s.size = c + 1
  links : ∀ (i : Nat) (slot : Slot w K V), s[i]? = some slot → slot.LinksWithin c

/-- A slot that leads somewhere is free. -/
theorem free_of_ahead (h : s.ahead d i = some j) : i < s.size ∧ s.node i = none := by
  apply free_iff.mp
  cases d with
  | forward =>
    obtain ⟨prev, next, hs, -⟩ := freeSucc_eq_some_iff.mp h
    exact ⟨prev, next, hs⟩
  | backward =>
    obtain ⟨prev, next, hs, -⟩ := freePred_eq_some_iff.mp h
    exact ⟨prev, next, hs⟩

theorem behind_eq_none (hi : s.isUsed i = true) : s.behind d i = none := by
  rw [isUsed_eq_isSome, Option.isSome_iff_exists] at hi
  obtain ⟨x, hx⟩ := hi
  have hlinks := links_eq_none_of_node hx
  cases d with
  | forward =>
    show s.freePred i = none
    rw [freePred, hlinks]
    rfl
  | backward =>
    show s.freeSucc i = none
    rw [freeSucc, hlinks]
    rfl

/-- No link leads out of the array. -/
theorem Bounded.ahead_le (hs : s.Bounded c) (h : s.ahead d i = some j) : j ≤ c := by
  cases d with
  | forward =>
    obtain ⟨prev, next, hslot, hnext⟩ := freeSucc_eq_some_iff.mp h
    obtain ⟨-, hlow, -⟩ := hs.links i _ hslot
    rw [Link.decodeSuccessor_eq_ok_iff] at hnext
    omega
  | backward =>
    obtain ⟨prev, next, hslot, hprev⟩ := freePred_eq_some_iff.mp h
    obtain ⟨⟨-, hhigh⟩, -⟩ := hs.links i _ hslot
    rw [Link.decodeIndex_eq_ok_iff] at hprev
    omega

/-- The neighbours of a slot are where its links lead. -/
theorem Bounded.neighbours_spec (hs : s.Bounded c) (hi : i ≤ c) :
    ∃ r, s.neighbours i = .ok r ∧
      ∀ d : Direction, r.map d.ahead = s.ahead d i ∧ r.map d.behind = s.behind d i := by
  have hsize := hs.size_eq
  have hlt : i < s.size := by omega
  have hget : s[i]? = some s[i] := Array.getElem?_eq_getElem hlt
  cases hslot : s[i] with
  | used next k v =>
    rw [hslot] at hget
    have hlinks : s.links i = none := links_eq_none_of_node (node_eq_some_iff.mpr hget)
    have hpred : s.freePred i = none := by rw [freePred, hlinks]; rfl
    have hsucc : s.freeSucc i = none := by rw [freeSucc, hlinks]; rfl
    refine ⟨none, by rw [neighbours, hget], fun d => ?_⟩
    cases d with
    | forward => exact ⟨hsucc.symm, hpred.symm⟩
    | backward => exact ⟨hpred.symm, hsucc.symm⟩
  | free prev next =>
    rw [hslot] at hget
    -- both links have the sign of a free slot, so they can be read
    obtain ⟨⟨hp0, hpc⟩, hnc, hn0⟩ := hs.links i _ hget
    have hp := Link.toIndex_of_nonneg hp0
    have hn := Link.toSuccessor_of_neg hn0
    have hprev : prev.decodeIndex = .ok prev.toIndex := Link.decodeIndex_eq_ok_iff.mpr hp.symm
    have hnext : next.decodeSuccessor = .ok next.toSuccessor :=
      Link.decodeSuccessor_eq_ok_iff.mpr (by omega)
    have hpred : s.freePred i = some prev.toIndex := freePred_eq_some_iff.mpr ⟨_, _, hget, hprev⟩
    have hsucc : s.freeSucc i = some next.toSuccessor :=
      freeSucc_eq_some_iff.mpr ⟨_, _, hget, hnext⟩
    refine ⟨some (prev.toIndex, next.toSuccessor), ?_, fun d => ?_⟩
    · rw [neighbours, hget]
      simp only [hprev, hnext]
    · cases d with
      | forward => exact ⟨hsucc.symm, hpred.symm⟩
      | backward => exact ⟨hpred.symm, hsucc.symm⟩

/-- Only used slots have no neighbours. -/
theorem isUsed_of_neighbours (h : s.neighbours i = .ok none) : s.isUsed i = true := by
  rw [neighbours] at h
  rw [isUsed]
  split at h
  · cases h
  · rename_i hs
    rw [hs]
    rfl
  · split at h <;> cases h

/-- A free slot has two neighbours. -/
theorem Bounded.neighbours_of_free (hs : s.Bounded c) (hi : i ≤ c) (hfree : s.node i = none) :
    ∃ x, s.neighbours i = .ok (some x) ∧
      ∀ d : Direction, s.ahead d i = some (d.ahead x) ∧ s.behind d i = some (d.behind x) := by
  obtain ⟨r, hr, hmap⟩ := hs.neighbours_spec hi
  cases r with
  | none =>
    have hused := isUsed_of_neighbours hr
    rw [isUsed_eq_isSome, hfree] at hused
    cases hused
  | some x => exact ⟨x, hr, fun d => ⟨(hmap d).1.symm, (hmap d).2.symm⟩⟩

/-! ## One walk -/

/-- From slot `i`, the links of direction `d` lead over `order` to the anchor, and the other
links lead back to `i`. The slots of `order` are different ones, and none has been seen. -/
structure Circuit (s : SlotArray w K V) (d : Direction) (i : Nat) (order : List Nat)
    (seen : Array Bool) : Prop where
  route : Route (s.ahead d) (i :: order ++ [0])
  back : Route (s.behind d) (order.reverse ++ [i])
  anchor_notMem : 0 ∉ order
  nodup : order.Nodup
  unseen : ∀ j ∈ order, seen.getD j false = false

theorem circuit_nil_iff : s.Circuit d i [] seen ↔ s.ahead d i = some 0 := by
  constructor
  · intro h
    exact h.route.head_leads rfl
  · intro h
    exact ⟨Route.cons_cons.mpr ⟨h, Route.singleton 0⟩, Route.singleton i, by simp, List.nodup_nil,
      by simp⟩

/-- The first slot of a circuit is one that has not been seen and leads back, and from there on
it must not be seen again. -/
theorem circuit_cons_iff (hj : j < seen.size) : s.Circuit d i (j :: order) seen ↔
    (s.ahead d i = some j ∧ j ≠ 0 ∧ seen.getD j false = false ∧ s.behind d j = some i) ∧
      s.Circuit d j order (seen.setIfInBounds j true) := by
  constructor
  · intro h
    have hroute := Route.cons_cons.mp h.route
    have hback := h.back
    rw [List.reverse_cons, List.append_assoc, List.singleton_append, Route.append_cons] at hback
    have hnodup := List.nodup_cons.mp h.nodup
    have hanchor := h.anchor_notMem
    rw [List.mem_cons, not_or] at hanchor
    refine ⟨⟨hroute.1, Ne.symm hanchor.1, h.unseen j List.mem_cons_self,
      hback.2.head_leads rfl⟩, ⟨hroute.2, hback.1, hanchor.2, hnodup.2, fun k hk => ?_⟩⟩
    rw [getD_setIfInBounds_true hj, h.unseen k (List.mem_cons_of_mem j hk),
      decide_eq_false (ne_of_mem_of_not_mem hk hnodup.1)]
    rfl
  · rintro ⟨⟨hij, hj0, hseen, hji⟩, h⟩
    have hunseen : ∀ k ∈ order, k ≠ j ∧ seen.getD k false = false := fun k hk => by
      have hk' := h.unseen k hk
      rw [getD_setIfInBounds_true hj, Bool.or_eq_false_iff] at hk'
      exact ⟨of_decide_eq_false hk'.1, hk'.2⟩
    refine ⟨Route.cons_cons.mpr ⟨hij, h.route⟩, ?_, ?_, ?_, ?_⟩
    · rw [List.reverse_cons, List.append_assoc, List.singleton_append, Route.append_cons]
      exact ⟨h.back, Route.cons_cons.mpr ⟨hji, Route.singleton i⟩⟩
    · rw [List.mem_cons, not_or]
      exact ⟨Ne.symm hj0, h.anchor_notMem⟩
    · exact List.nodup_cons.mpr ⟨fun hm => (hunseen j hm).1 rfl, h.nodup⟩
    · exact List.forall_mem_cons.mpr ⟨hseen, fun k hk => (hunseen k hk).2⟩

/-- A circuit leads on from where it starts. -/
theorem Circuit.exists_ahead (h : s.Circuit d i order seen) : ∃ j, s.ahead d i = some j := by
  obtain ⟨j, -, hj⟩ := h.route.leads List.mem_cons_self
  exact ⟨j, hj⟩

/-- A circuit goes over free slots. -/
theorem Circuit.free_of_mem (h : s.Circuit d i order seen) (hj : j ∈ i :: order) :
    j < s.size ∧ s.node j = none := by
  obtain ⟨k, -, hk⟩ := h.route.leads hj
  exact free_of_ahead hk

/-- A circuit from `i` goes to the one slot that `i` leads to, and is a circuit from there on. -/
theorem exists_circuit_succ_iff {n : Nat} (hij : s.ahead d i = some j) (hj : j < seen.size) :
    (∃ order, order.length = n + 1 ∧ s.Circuit d i order seen) ↔
      (j ≠ 0 ∧ seen.getD j false = false ∧ s.behind d j = some i) ∧
        ∃ order, order.length = n ∧ s.Circuit d j order (seen.setIfInBounds j true) := by
  constructor
  · rintro ⟨order, hlen, hc⟩
    cases order with
    | nil => cases hlen
    | cons k rest =>
      have hik : s.ahead d i = some k := hc.route.head_leads rfl
      rw [hij, Option.some.injEq] at hik
      subst hik
      obtain ⟨⟨-, hstep⟩, hrest⟩ := (circuit_cons_iff hj).mp hc
      exact ⟨hstep, rest, Nat.succ.inj hlen, hrest⟩
  · rintro ⟨hstep, rest, hlen, hc⟩
    refine ⟨j :: rest, ?_, (circuit_cons_iff hj).mpr ⟨⟨hij, hstep⟩, hc⟩⟩
    rw [List.length_cons, hlen]

/-- A walk of so many steps decides whether there is a circuit of so many slots. -/
theorem walkFreeList_decides (hs : s.Bounded c) (d : Direction) (steps : Nat) {i : Nat}
    {seen : Array Bool} (hi : i ≤ c) (hseen : seen.size = s.size) :
    Decides (fun _ : Unit => ∃ order, order.length = steps ∧ s.Circuit d i order seen)
      (s.walkFreeList d steps i seen) := by
  -- what is left of the circuit shrinks by its first slot at every step, and the slot is marked
  induction steps generalizing i seen with
  | zero =>
    have hiff : (∃ order, order.length = 0 ∧ s.Circuit d i order seen) ↔
        s.ahead d i = some 0 := by
      simp only [List.length_eq_zero_iff, exists_eq_left, circuit_nil_iff]
    obtain ⟨r, hr, hmap⟩ := hs.neighbours_spec hi
    refine Decides.congr ?_ fun _ => hiff.symm
    rw [walkFreeList, hr, ok_bind, (hmap d).1]
    by_cases h : s.ahead d i = some 0
    · rw [if_pos h]
      exact .passed h
    · rw [if_neg h]
      exact .found trivial fun _ => h
  | succ steps ih =>
    obtain ⟨r, hr, hmap⟩ := hs.neighbours_spec hi
    have hahead := (hmap d).1
    rw [walkFreeList, hr, ok_bind]
    cases r with
    | none =>
      refine .found trivial fun _ h => ?_
      obtain ⟨order, -, hc⟩ := h
      obtain ⟨j, hj⟩ := hc.exists_ahead
      rw [← hahead] at hj
      cases hj
    | some x =>
      obtain ⟨j, hj⟩ : ∃ j, j = d.ahead x := ⟨_, rfl⟩
      rw [Option.map_some, ← hj] at hahead
      have hle : j ≤ c := hs.ahead_le hahead.symm
      have hjseen : j < seen.size := by
        have := hs.size_eq
        omega
      refine Decides.congr ?_ fun _ => (exists_circuit_succ_iff hahead.symm hjseen).symm
      dsimp only
      rw [← hj]
      by_cases hbad : (decide (j = 0) || s.isUsed j || seen.getD j false) = true
      · -- the walk must not go to `j`
        rw [if_pos hbad]
        refine .found trivial fun _ h => ?_
        obtain ⟨⟨hj0, hunseen, hback⟩, -⟩ := h
        rw [decide_eq_false hj0, hunseen, Bool.false_or, Bool.or_false] at hbad
        rw [behind_eq_none hbad] at hback
        cases hback
      · obtain ⟨r', hr', hmap'⟩ := hs.neighbours_spec hle
        rw [if_neg hbad, hr', ok_bind, (hmap' d).2]
        simp only [Bool.or_eq_true, decide_eq_true_iff, not_or, Bool.not_eq_true] at hbad
        by_cases hback : s.behind d j = some i
        · rw [if_neg (not_not.mpr hback)]
          refine (ih hle (Array.size_setIfInBounds.trans hseen)).congr fun _ => ?_
          exact (and_iff_right ⟨hbad.1.1, hbad.2, hback⟩).symm
        · rw [if_pos hback]
          exact .found trivial fun _ h => hback h.1.2.2

/-- From the anchor, nothing has been seen. -/
theorem checkFreeList_decides (hs : s.Bounded c) (d : Direction) (free : Nat) :
    Decides (fun _ : Unit => ∃ order, order.length = free ∧
      s.Circuit d 0 order (Array.replicate s.size false)) (s.checkFreeList free d) :=
  walkFreeList_decides hs d free (Nat.zero_le c) Array.size_replicate

/-! ## Both walks -/

/-- A circle of the free slots is a circuit in both directions. -/
theorem circuit_of_freeCircle (h : FreeCircle s order) (n : Nat) :
    s.Circuit .forward 0 order (Array.replicate n false) ∧
      s.Circuit .backward 0 order.reverse (Array.replicate n false) := by
  have hnodup := (List.nodup_cons.mp h.nodup).2
  refine ⟨⟨h.forward, ?_, h.anchor_notMem, hnodup, fun j _ => getD_replicate_false n j⟩,
    ⟨h.backward, ?_, ?_, List.nodup_reverse.mpr hnodup, fun j _ => getD_replicate_false n j⟩⟩
  · exact Route.tail (i := 0) h.backward
  · rw [List.reverse_reverse]
    exact Route.tail (i := 0) h.forward
  · rw [List.mem_reverse]
    exact h.anchor_notMem

/-- A member of a circuit that leads to the anchor is the last one. -/
theorem Circuit.getLast?_of_ahead (h : s.Circuit d i order seen) (hj : j ∈ order)
    (hj0 : s.ahead d j = some 0) : order.getLast? = some j := by
  obtain ⟨a, b, hab⟩ := List.append_of_mem hj
  cases b with
  | nil => rw [hab, List.getLast?_concat]
  | cons k b =>
    have hroute : Route (s.ahead d) (i :: a ++ j :: (k :: b ++ [0])) := by
      simpa [hab] using h.route
    have hk : s.ahead d j = some k := (Route.append_cons.mp hroute).2.head_leads rfl
    rw [hj0, Option.some.injEq] at hk
    exact absurd (by simp [hab, ← hk]) h.anchor_notMem

/-- A circuit is a circle if the anchor leads back to where the circuit comes from. -/
theorem Circuit.freeCircle_of_anchor (h : s.Circuit .forward 0 order seen)
    (hp : s.freePred 0 = (0 :: order).getLast?) : FreeCircle s order := by
  refine ⟨h.anchor_notMem, h.route, ?_⟩
  obtain ⟨p, hlast⟩ : ∃ p, (0 :: order).getLast? = some p := ⟨_, List.getLast?_cons⟩
  have hhead : (order.reverse ++ [0]).head? = some p := by
    rw [← List.reverse_cons, List.head?_reverse, hlast]
  exact (Route.cons_iff hhead).mpr ⟨hp.trans hlast, h.back⟩

/-- Circuits in the two directions over the same slots make a circle. -/
theorem Circuit.freeCircle {order' : List Nat} {seen' : Array Bool}
    (h : s.Circuit .forward 0 order seen) (h' : s.Circuit .backward 0 order' seen')
    (hsub : ∀ j ∈ order', j ∈ order) (hlen : order'.length = order.length) :
    FreeCircle s order := by
  refine h.freeCircle_of_anchor ?_
  cases order' with
  | nil =>
    obtain rfl : order = [] := List.length_eq_zero_iff.mp hlen.symm
    exact h'.route.head_leads rfl
  | cons j rest =>
    -- the slot that the anchor leads back to is on the list and leads to the anchor
    have hj0 : s.freeSucc j = some 0 := by
      have hback := h'.back
      rw [List.reverse_cons, List.append_assoc, List.singleton_append, Route.append_cons] at hback
      exact hback.2.head_leads rfl
    have hlast := h.getLast?_of_ahead (hsub j List.mem_cons_self) hj0
    rw [List.getLast?_cons, hlast]
    exact h'.route.head_leads rfl

/-- Free slots that are as many as there are free slots are all of them. -/
theorem mem_free_iff_of_length (hnodup : order.Nodup)
    (hfree : ∀ i ∈ order, 0 < i ∧ i < s.size ∧ s.node i = none)
    (hlen : order.length = s.freeCount) (i : Nat) :
    i ∈ order ↔ 0 < i ∧ i < s.size ∧ s.node i = none := by
  refine ⟨hfree i, fun hi => ?_⟩
  let all := (List.range' 1 s.capacity).filter fun i => !s.isUsed i
  have hmem : ∀ j, j ∈ all ↔ 0 < j ∧ j < s.size ∧ s.node j = none := fun j => by
    rw [List.mem_filter, List.mem_range'_1, Bool.not_eq_true', isUsed_eq_false_iff, and_assoc,
      capacity]
    constructor
    · rintro ⟨h1, h2, hnone⟩
      exact ⟨h1, by omega, hnone⟩
    · rintro ⟨h1, h2, hnone⟩
      exact ⟨h1, by omega, hnone⟩
  have hcount : s.usedCount + all.length = s.capacity :=
    usedCount_add_length (List.Nodup.filter _ List.nodup_range') hmem
  rw [freeCount] at hlen
  have hsub : order ⊆ all := fun j hj => (hmem j).mpr (hfree j hj)
  have hperm := (List.subperm_of_subset hnodup hsub).perm_of_length_le (by omega)
  exact hperm.mem_iff.mpr ((hmem i).mpr hi)

end SlotArray

namespace Table

variable {t : Table w K V}

theorem Shapely.bounded (ht : t.Shapely) : t.slots.Bounded t.capacity := ⟨ht.size_eq, ht.links⟩

/-- The slots of the list are the free ones, and the list is a circle with the anchor. -/
def FreeOrder (t : Table w K V) (order : List Nat) : Prop :=
  FreeCircle t.slots order ∧
    ∀ i, i ∈ order ↔ 0 < i ∧ i < t.slots.size ∧ t.slots.node i = none

/-- As many free slots as there must be are all free slots. -/
theorem Shapely.mem_iff_of_length (ht : t.Shapely) {order : List Nat} (hnodup : order.Nodup)
    (hfree : ∀ i ∈ order, 0 < i ∧ i < t.slots.size ∧ t.slots.node i = none)
    (hlen : order.length = t.capacity - t.len) (i : Nat) :
    i ∈ order ↔ 0 < i ∧ i < t.slots.size ∧ t.slots.node i = none := by
  refine SlotArray.mem_free_iff_of_length hnodup hfree ?_ i
  rw [hlen, ht.len_eq, SlotArray.freeCount, SlotArray.capacity, ht.size_eq, Nat.add_sub_cancel]

theorem Shapely.length_of_freeOrder (ht : t.Shapely) {order : List Nat} (h : t.FreeOrder order) :
    order.length = t.capacity - t.len := by
  have hcount := SlotArray.usedCount_add_length (List.nodup_cons.mp h.1.nodup).2 h.2
  rw [SlotArray.capacity, ← ht.len_eq, ht.size_eq, Nat.add_sub_cancel] at hcount
  omega

/-- A circuit that is long enough goes over all free slots. -/
theorem Shapely.mem_circuit_iff (ht : t.Shapely) {d : Direction} {order : List Nat}
    {seen : Array Bool} (h : t.slots.Circuit d 0 order seen)
    (hlen : order.length = t.capacity - t.len) (i : Nat) :
    i ∈ order ↔ 0 < i ∧ i < t.slots.size ∧ t.slots.node i = none := by
  refine ht.mem_iff_of_length h.nodup (fun j hj => ?_) hlen i
  have hj0 : j ≠ 0 := ne_of_mem_of_not_mem hj h.anchor_notMem
  exact ⟨Nat.pos_of_ne_zero hj0, h.free_of_mem (List.mem_cons_of_mem 0 hj)⟩

/-- The two walks decide whether the free slots of a shapely table form one circle. -/
theorem Shapely.freeLists_decide (ht : t.Shapely) :
    Decides (fun _ : Unit => ∃ order, t.FreeOrder order) (do
      t.slots.checkFreeList (t.capacity - t.len) .forward
      t.slots.checkFreeList (t.capacity - t.len) .backward) := by
  -- one direction leaves open where the anchor leads back to, the other one settles it
  have hforward := SlotArray.checkFreeList_decides ht.bounded .forward (t.capacity - t.len)
  have hbackward := SlotArray.checkFreeList_decides ht.bounded .backward (t.capacity - t.len)
  refine hforward.bind (fun _ hfree => ?_) fun _ hcircuit => hbackward.congr fun _ => ?_
  · obtain ⟨order, horder⟩ := hfree
    exact ⟨(), order, ht.length_of_freeOrder horder, (SlotArray.circuit_of_freeCircle horder.1 _).1⟩
  · obtain ⟨order, hlen, hc⟩ := hcircuit
    have hmem := ht.mem_circuit_iff hc hlen
    constructor
    · rintro ⟨order', hlen', hc'⟩
      have hmem' := ht.mem_circuit_iff hc' hlen'
      refine ⟨order, hc.freeCircle hc' (fun j hj => ?_) (hlen'.trans hlen.symm), hmem⟩
      exact (hmem j).mpr ((hmem' j).mp hj)
    · rintro ⟨order', horder'⟩
      refine ⟨order'.reverse, ?_, (SlotArray.circuit_of_freeCircle horder'.1 _).2⟩
      rw [List.length_reverse, ht.length_of_freeOrder horder']

end Table

end HomeChain

import HomeChain.Proofs.Examination.FreeWalk
import Mathlib.Logic.Function.Iterate

/-!
# What the walk backward adds

An examination walks over the free list forward and then backward. Where the walk forward passes,
it has gone over all free slots, and each of them leads back to the one before it; what it has not
looked at is where the anchor leads back to. So the walk backward passes just if

  `freePred 0 = lastFree`,

and if it does not pass, it goes wrong at its first step. No walk steps from a used slot, in either
direction: `walkOr stray` answers `stray` where a walk would, and is the walk whatever that is.
-/

namespace HomeChain.SlotArray

variable {w : LinkWidth} {K V : Type} {s : SlotArray w K V} {d : Direction} {c i p : Nat}
  {order : List Nat} {stray stray' : Nat → Except Halt Unit}

/-! ## Steps from used slots -/

/-- The walk over the free list of an examination, where a step from a used slot is answered with
`stray`. -/
def walkOr (s : SlotArray w K V) (d : Direction) (stray : Nat → Except Halt Unit) :
    (steps : Nat) → (i : Nat) → (seen : Array Bool) → Except Halt Unit
  | 0, i, _ => do
    match ← s.neighbours i with
    | none => stray i
    | some links => if d.ahead links = 0 then .ok () else .error (.defect (.brokenFreeList d i))
  | steps + 1, i, seen => do
    match ← s.neighbours i with
    | none => stray i
    | some links =>
      let j := d.ahead links
      if j = 0 || s.isUsed j || seen.getD j false then
        .error (.defect (.brokenFreeList d j))
      else if (← s.neighbours j).map d.behind ≠ some i then
        .error (.defect (.brokenFreeList d j))
      else s.walkOr d stray steps j (seen.setIfInBounds j true)

/-- An examination reports the used slot that a step starts from. -/
theorem walkOr_broken (s : SlotArray w K V) (d : Direction) (steps i : Nat) (seen : Array Bool) :
    s.walkOr d (fun i => .error (.defect (.brokenFreeList d i))) steps i seen =
      s.walkFreeList d steps i seen := by
  induction steps generalizing i seen with
  | zero =>
    rw [walkOr, walkFreeList]
    refine congrArg _ (funext fun r => ?_)
    cases r with
    | none => rfl
    | some links => simp only [Option.map_some, Option.some.injEq]
  | succ steps ih =>
    rw [walkOr, walkFreeList]
    refine congrArg _ (funext fun r => ?_)
    cases r with
    | none => rfl
    | some links => simp only [ih]

/-- A walk that starts from a free slot never steps from a used one. -/
theorem Bounded.walkOr_congr (hs : s.Bounded c) (d : Direction) (steps : Nat) {i : Nat}
    {seen : Array Bool} (hi : i ≤ c) (hfree : s.node i = none) :
    s.walkOr d stray steps i seen = s.walkOr d stray' steps i seen := by
  -- a walk goes on to slots that are not used only
  induction steps generalizing i seen with
  | zero =>
    obtain ⟨x, hx, -⟩ := hs.neighbours_of_free hi hfree
    rw [walkOr, walkOr, hx]
    rfl
  | succ steps ih =>
    obtain ⟨x, hx, hlinks⟩ := hs.neighbours_of_free hi hfree
    have hle : d.ahead x ≤ c := hs.ahead_le (hlinks d).1
    rw [walkOr, walkOr, hx, ok_bind, ok_bind]
    dsimp only
    split
    · rfl
    · rename_i hgood
      simp only [Bool.or_eq_true, not_or, Bool.not_eq_true] at hgood
      obtain ⟨⟨-, hj⟩, -⟩ := hgood
      rw [isUsed_eq_false_iff] at hj
      rw [ih hle hj]

/-! ## The walk backward -/

/-- The slot that the `next` links lead to from the anchor, in as many steps as there are free
slots: the last slot of the walk forward, and the anchor itself if no slot is free. -/
def lastFree (s : SlotArray w K V) : Option Nat :=
  (fun slot => slot.bind s.freeSucc)^[s.freeCount] (some 0)

/-- Step by step, a route leads from its first member to its last one. -/
theorem iterate_route {f : Nat → Option Nat} {l : List Nat} (h : Route f (i :: l)) :
    (fun slot => slot.bind f)^[l.length] (some i) = (i :: l).getLast? := by
  induction l generalizing i with
  | nil => rfl
  | cons j l ih =>
    obtain ⟨hij, hroute⟩ := Route.cons_cons.mp h
    rw [List.length_cons, Function.iterate_succ_apply, Option.bind_some, hij, ih hroute,
      List.getLast?_cons_cons]

theorem Circuit.lastFree_eq {seen : Array Bool} (h : s.Circuit .forward 0 order seen)
    (hlen : order.length = s.freeCount) : s.lastFree = (0 :: order).getLast? := by
  have hroute : Route s.freeSucc (0 :: order) := by
    cases order using List.reverseRecOn with
    | nil => exact Route.singleton 0
    | append_singleton rest j =>
      have h' : Route (s.ahead .forward) (0 :: rest ++ j :: [0]) := by simpa using h.route
      exact (Route.append_cons.mp h').1
  rw [lastFree, ← hlen, iterate_route hroute]

/-- The walk backward goes wrong at once if the anchor does not lead back to the last slot. -/
theorem Circuit.checkFreeList_backward {seen : Array Bool} (hs : s.Bounded c)
    (h : s.Circuit .forward 0 order seen)
    (hmem : ∀ i, i ∈ order ↔ 0 < i ∧ i < s.size ∧ s.node i = none) (hp : s.freePred 0 = some p)
    (hne : (0 :: order).getLast? ≠ some p) :
    s.checkFreeList order.length .backward =
      .error (.defect (.brokenFreeList .backward (if order.length = 0 then 0 else p))) := by
  have hanchor : s.node 0 = none := (h.free_of_mem List.mem_cons_self).2
  obtain ⟨x, hx, hlinks⟩ := hs.neighbours_of_free (Nat.zero_le c) hanchor
  have hahead : Direction.backward.ahead x = p :=
    Option.some.inj ((hlinks .backward).1.symm.trans hp)
  rw [checkFreeList]
  cases order with
  | nil =>
    have hp0 : some p ≠ some 0 := hne.symm
    rw [List.length_nil, walkFreeList, hx, ok_bind, Option.map_some, hahead, if_neg hp0, if_pos rfl]
  | cons j rest =>
    rw [List.length_cons, walkFreeList, hx, ok_bind]
    dsimp only
    rw [hahead, if_neg (Nat.succ_ne_zero _)]
    split
    · rfl
    · rename_i hgood
      simp only [Bool.or_eq_true, decide_eq_true_iff, not_or, Bool.not_eq_true] at hgood
      obtain ⟨⟨hp0, hfree⟩, -⟩ := hgood
      rw [isUsed_eq_false_iff] at hfree
      have hle : p ≤ c := hs.ahead_le (d := .backward) hp
      -- `p` is on the list, and only the last slot of the list leads to the anchor
      obtain ⟨y, hy, hlinks'⟩ := hs.neighbours_of_free hle hfree
      have hp_mem : p ∈ j :: rest := (hmem p).mpr ⟨Nat.pos_of_ne_zero hp0, by
        have := hs.size_eq
        omega, hfree⟩
      have hback : Direction.backward.behind y ≠ 0 := fun h0 => by
        have hp_anchor : s.ahead .forward p = some 0 := by
          rw [← h0]
          exact (hlinks' .backward).2
        have hlast := h.getLast?_of_ahead hp_mem hp_anchor
        exact hne (by rw [List.getLast?_cons, hlast]; rfl)
      rw [hy, ok_bind, Option.map_some, if_pos fun h0 => hback (Option.some.inj h0)]

/-- Neither walk steps from a used slot. Where the walk forward passes, the walk backward passes
just if the anchor leads back to the last slot of the walk forward; otherwise it reports the slot
that the anchor leads back to, or the anchor if no slot is free. -/
theorem backward_adds_anchor (hs : s.Bounded c)
    (h0 : ∃ prev next, s[0]? = some (.free prev next)) :
    (∀ d stray, s.walkOr d stray s.freeCount 0 (Array.replicate s.size false) =
      s.checkFreeList s.freeCount d) ∧
    (s.checkFreeList s.freeCount .forward = .ok () → ∃ p, s.freePred 0 = some p ∧
      s.checkFreeList s.freeCount .backward =
        if s.lastFree = some p then .ok ()
        else .error (.defect (.brokenFreeList .backward (if s.freeCount = 0 then 0 else p)))) := by
  have hanchor : s.node 0 = none := (free_iff.mp h0).2
  refine ⟨fun d stray => ?_, fun hforward => ?_⟩
  · exact (hs.walkOr_congr d _ (Nat.zero_le c) hanchor).trans (walkOr_broken ..)
  · obtain ⟨x, -, hlinks⟩ := hs.neighbours_of_free (Nat.zero_le c) hanchor
    have hp : s.freePred 0 = some (Direction.backward.ahead x) := (hlinks .backward).1
    refine ⟨_, hp, ?_⟩
    generalize Direction.backward.ahead x = p at hp
    -- the walk forward has gone over a circuit of all free slots
    have hdecides := checkFreeList_decides hs .forward s.freeCount
    rw [hforward] at hdecides
    obtain ⟨order, hlen, hcircuit⟩ : ∃ order, order.length = s.freeCount ∧
        s.Circuit .forward 0 order (Array.replicate s.size false) := by
      cases hdecides with
      | passed holds => exact holds
    have hmem := mem_free_iff_of_length hcircuit.nodup (fun i hi =>
      ⟨Nat.pos_of_ne_zero (ne_of_mem_of_not_mem hi hcircuit.anchor_notMem),
        hcircuit.free_of_mem (List.mem_cons_of_mem 0 hi)⟩) hlen
    rw [hcircuit.lastFree_eq hlen]
    split
    · rename_i hlast
      have hcircle := hcircuit.freeCircle_of_anchor (hp.trans hlast.symm)
      have hback := checkFreeList_decides hs .backward s.freeCount
      refine hback.eq_ok ⟨order.reverse, ?_, (circuit_of_freeCircle hcircle _).2⟩ fun _ _ => rfl
      rw [List.length_reverse, hlen]
    · rename_i hlast
      rw [← hlen]
      exact hcircuit.checkFreeList_backward hs hmem hp hlast

/-- Two free slots on a list in order, but the anchor leads back to the first of them. -/
theorem backward_adds_anchor_first_of_two : ∃ s : SlotArray .bits16 Nat Nat,
    s.Bounded 2 ∧ s.checkFreeList s.freeCount .forward = .ok () ∧
      s.checkFreeList s.freeCount .backward = .error (.defect (.brokenFreeList .backward 1)) := by
  let s : SlotArray .bits16 Nat Nat := #[.free (.ofIndex 1) (.ofSuccessor 1),
    .free (.ofIndex 0) (.ofSuccessor 2), .free (.ofIndex 1) (.ofSuccessor 0)]
  have hs : s.Bounded 2 := by
    refine ⟨rfl, ?_⟩
    rintro (_ | _ | _ | i) slot hslot <;> cases hslot <;> refine ⟨⟨?_, ?_⟩, ?_, ?_⟩ <;> decide
  have hforward : s.checkFreeList s.freeCount .forward = .ok () := by decide
  obtain ⟨p, hp, hbackward⟩ := (backward_adds_anchor hs ⟨_, _, rfl⟩).2 hforward
  have hp1 : s.freePred 0 = some 1 := by decide
  have hlast : s.lastFree = some 2 := by decide
  rw [hp1, Option.some.injEq] at hp
  subst hp
  refine ⟨s, hs, hforward, ?_⟩
  rw [hbackward, hlast, if_neg (by decide), if_neg (by decide)]

end HomeChain.SlotArray

import HomeChain.Proofs.FreeCircle

/-!
# The free list as a list

A user of a slot array takes slots off the free list and writes entries into them, gives slots
back, and starts over. Whatever the array is used for, its free list does what a list of indices
does that is changed in front, and from which members are taken: a call on the array answers as the
call on the list, and it leaves a free list that runs over the list left,

  `s.Lists n free → call.onList n free = some (free', answer) →
    ∃ s', call.perform s = .ok (s', answer) ∧ s'.Lists n free'`.
-/

namespace HomeChain

variable {w : LinkWidth} {K V : Type}

/-- A call on a free list. A slot that is taken gets an entry at once. -/
inductive FreeListCall (w : LinkWidth) (K V : Type) where
  /-- Take the first slot. -/
  | acquire (next : Link w) (key : K) (value : V)
  /-- Take slot `i`. -/
  | unlink (i : Nat) (next : Link w) (key : K) (value : V)
  /-- Give slot `i` back. -/
  | release (i : Nat)
  /-- Give all slots back. -/
  | reset

namespace FreeListCall

/-- Makes the call. Answers with the slot that was taken from the front. -/
def perform : FreeListCall w K V → SlotArray w K V → Except Fault (SlotArray w K V × Option Nat)
  | .acquire next key value, s => do
    let (i, s) ← s.acquire
    return (← s.write i (.used next key value), some i)
  | .unlink i next key value, s => do
    let s ← s.unlink i
    return (← s.write i (.used next key value), none)
  | .release i, s => do
    return (← s.release i, none)
  | .reset, s => do
    return (← s.reset, none)

/-- What the call does to a list of free slots, of `n` slots in all. Only a slot on the list can be
taken, and only a slot that is not can be given back. -/
def onList (n : Nat) : FreeListCall w K V → List Nat → Option (List Nat × Option Nat)
  | .acquire .., [] => none
  | .acquire .., i :: free => some (free, some i)
  | .unlink i .., free => if i ∈ free then some (free.erase i, none) else none
  | .release i, free => if 0 < i ∧ i ≤ n ∧ i ∉ free then some (i :: free, none) else none
  | .reset, _ => some (List.range' 1 n, none)

/-- The call may empty slot `i`. -/
def Empties : FreeListCall w K V → Nat → Prop
  | .acquire .., _ => False
  | .unlink .., _ => False
  | .release j, i => i = j
  | .reset, _ => True

/-- Makes calls one after another, as long as there is a result. Answers with the answers. -/
def inTurn {S : Type} {m : Type → Type} [Monad m]
    (perform : FreeListCall w K V → S → m (S × Option Nat)) :
    List (FreeListCall w K V) → S → m (S × List (Option Nat))
  | [], s => return (s, [])
  | call :: calls, s => do
    let (s, answer) ← perform call s
    let (s, answers) ← inTurn perform calls s
    return (s, answer :: answers)

end FreeListCall

/-- The array has `n` slots for entries, and of these the free list visits those without one, each
of them once, in the order `free`; the other way it visits them in reverse. -/
structure SlotArray.Lists (s : SlotArray w K V) (n : Nat) (free : List Nat) : Prop where
  size_eq : s.size = n + 1
  circle : FreeCircle s free
  nodup : free.Nodup
  mem_iff : ∀ i, i ∈ free ↔ 0 < i ∧ ∃ prev next, s[i]? = some (.free prev next)

namespace SlotArray.Lists

variable {s s' : SlotArray w K V} {n i : Nat} {free rest free' : List Nat} {answer : Option Nat}
  {call : FreeListCall w K V}

theorem mem_iff_node (h : s.Lists n free) :
    i ∈ free ↔ 0 < i ∧ i < s.size ∧ s.node i = none := by
  rw [h.mem_iff, free_iff]

/-- The free slots of an array are those on its free list if they are in the `node` view. -/
theorem of_node (hsize : s.size = n + 1) (hcircle : FreeCircle s free)
    (hmem : ∀ i, i ∈ free ↔ 0 < i ∧ i < s.size ∧ s.node i = none) : s.Lists n free := by
  refine ⟨hsize, hcircle, (List.nodup_cons.mp hcircle.nodup).2, fun i => ?_⟩
  rw [hmem, free_iff]

theorem fresh (hn : n ≤ w.maxCapacity) :
    (SlotArray.fresh n : SlotArray w K V).Lists n (List.range' 1 n) := by
  apply of_node (size_fresh n) (freeCircle_fresh hn)
  intro i
  rw [List.mem_range'_1, size_fresh, node_fresh]
  simp only [and_true]
  omega

/-- A slot that was taken off the list gets an entry. -/
theorem write_taken (h : s.Lists n free) (hperm : free.Perm (i :: rest))
    (hsize : s'.size = s.size) (hnode : s'.node = s.node) (hcircle : FreeCircle s' rest)
    (next : Link w) (key : K) (value : V) :
    ∃ u, s'.write i (.used next key value) = .ok u ∧ u.Lists n rest ∧
      u.node = Function.update s.node i (some (next, key, value)) := by
  have hi : 0 < i ∧ i < s.size ∧ s.node i = none :=
    h.mem_iff_node.mp (hperm.mem_iff.mpr List.mem_cons_self)
  have hnodup : (i :: rest).Nodup := hperm.nodup_iff.mp h.nodup
  rw [List.nodup_cons] at hnodup
  have hnotMem : i ∉ 0 :: rest := by
    rw [List.mem_cons, not_or]
    exact ⟨hi.1.ne', hnodup.1⟩
  obtain ⟨u, hwrite, husize, hunode, hucircle⟩ :=
    hcircle.write_used hnotMem (hsize ▸ hi.2.1) next key value
  rw [hnode] at hunode
  refine ⟨u, hwrite, of_node (husize.trans (hsize.trans h.size_eq)) hucircle fun j => ?_, hunode⟩
  -- the list loses `i`, which occurs on it once
  have hmem : j ∈ free ↔ j = i ∨ j ∈ rest := by rw [hperm.mem_iff, List.mem_cons]
  have hne : j ∈ rest → j ≠ i := fun hj => ne_of_mem_of_not_mem hj hnodup.1
  rw [h.mem_iff_node] at hmem
  rw [husize, hsize, hunode]
  by_cases hji : j = i
  · simp [hji, hnodup.1]
  · rw [Function.update_of_ne hji]
    tauto

/-! ## One call -/

/-- Entries that are not in the slot written to stay where they are. -/
theorem getElem?_of_update {l : Option (Link w × K × V)} {j : Nat} {next : Link w} {k : K} {v : V}
    (hnode : s'.node = Function.update s.node i l) (hji : j ≠ i)
    (hj : s[j]? = some (.used next k v)) : s'[j]? = some (.used next k v) := by
  rw [← node_eq_some_iff] at hj ⊢
  rw [hnode, Function.update_of_ne hji, hj]

/-- A slot on the free list is not the slot of an entry. -/
theorem ne_of_mem (h : s.Lists n free) (hi : i ∈ free) {j : Nat} {next : Link w} {k : K} {v : V}
    (hj : s[j]? = some (.used next k v)) : j ≠ i := by
  intro hji
  obtain ⟨-, prev, next', hi⟩ := (h.mem_iff i).mp hi
  rw [← hji, hj] at hi
  cases hi

theorem acquire (h : s.Lists n (i :: free)) (next : Link w) (key : K) (value : V) :
    ∃ u, (FreeListCall.acquire next key value).perform s = .ok (u, some i) ∧ u.Lists n free ∧
      u.node = Function.update s.node i (some (next, key, value)) := by
  obtain ⟨s', hacquire, hsize, hnode, hcircle⟩ := h.circle.acquire
  obtain ⟨u, hwrite, hu⟩ :=
    h.write_taken (List.Perm.refl _) hsize hnode hcircle next key value
  refine ⟨u, ?_, hu⟩
  unfold FreeListCall.perform
  simp only [hacquire, ok_bind, hwrite, pure_eq_ok]

theorem unlink (h : s.Lists n free) (hi : i ∈ free) (next : Link w) (key : K) (value : V) :
    ∃ u, (FreeListCall.unlink i next key value).perform s = .ok (u, none) ∧
      u.Lists n (free.erase i) ∧
      u.node = Function.update s.node i (some (next, key, value)) := by
  obtain ⟨a, b, hab, herase⟩ : ∃ a b, free = a ++ i :: b ∧ free.erase i = a ++ b := by
    obtain ⟨a, b, ha, hfree, herase⟩ := List.exists_erase_eq hi
    exact ⟨a, b, hfree, herase⟩
  obtain ⟨s', hunlink, hsize, hnode, hcircle⟩ := FreeCircle.unlink (hab ▸ h.circle)
  obtain ⟨u, hwrite, hu⟩ :=
    h.write_taken (List.perm_cons_erase hi) hsize hnode (herase ▸ hcircle) next key value
  refine ⟨u, ?_, hu⟩
  unfold FreeListCall.perform
  simp only [hunlink, ok_bind, hwrite, pure_eq_ok]

theorem release (h : s.Lists n free) (hn : n ≤ w.maxCapacity) (hpos : 0 < i) (hle : i ≤ n)
    (hi : i ∉ free) :
    ∃ u, (FreeListCall.release i : FreeListCall w K V).perform s = .ok (u, none) ∧
      u.Lists n (i :: free) ∧ u.node = Function.update s.node i none := by
  have hsize := h.size_eq
  -- what is not on the free list holds an entry
  obtain ⟨x, hx⟩ : ∃ x, s.node i = some x := by
    apply Option.ne_none_iff_exists'.mp
    intro hnone
    exact hi (h.mem_iff_node.mpr ⟨hpos, by omega, hnone⟩)
  obtain ⟨u, hrelease, husize, hunode, hucircle⟩ := h.circle.release hx (by omega)
  refine ⟨u, ?_, of_node (husize.trans hsize) hucircle fun j => ?_, hunode⟩
  · unfold FreeListCall.perform
    simp only [hrelease, ok_bind, pure_eq_ok]
  · rw [List.mem_cons, h.mem_iff_node, husize, hunode]
    by_cases hji : j = i
    · rw [hji, Function.update_self]
      simp only [true_or, and_true, true_iff]
      omega
    · rw [Function.update_of_ne hji]
      tauto

/-- A call that the list allows answers as the list does, and leaves the entries in place that it
does not name. -/
theorem perform (h : s.Lists n free) (hn : n ≤ w.maxCapacity)
    (hcall : call.onList n free = some (free', answer)) :
    ∃ s', call.perform s = .ok (s', answer) ∧ s'.Lists n free' ∧
      ∀ j next k v, ¬ call.Empties j → s[j]? = some (.used next k v) →
        s'[j]? = some (.used next k v) := by
  cases call with
  | acquire next key value =>
    cases free with
    | nil => cases hcall
    | cons i free =>
      cases hcall
      obtain ⟨u, hu, hlists, hnode⟩ := h.acquire next key value
      refine ⟨u, hu, hlists, fun j next k v _ hj => ?_⟩
      exact getElem?_of_update hnode (h.ne_of_mem List.mem_cons_self hj) hj
  | unlink i next key value =>
    rw [FreeListCall.onList, Option.ite_none_right_eq_some] at hcall
    obtain ⟨hi, hcall⟩ := hcall
    cases hcall
    obtain ⟨u, hu, hlists, hnode⟩ := h.unlink hi next key value
    refine ⟨u, hu, hlists, fun j next k v _ hj => ?_⟩
    exact getElem?_of_update hnode (h.ne_of_mem hi hj) hj
  | release i =>
    rw [FreeListCall.onList, Option.ite_none_right_eq_some] at hcall
    obtain ⟨⟨hpos, hle, hi⟩, hcall⟩ := hcall
    cases hcall
    obtain ⟨u, hu, hlists, hnode⟩ := h.release hn hpos hle hi
    exact ⟨u, hu, hlists, fun j next k v hji hj => getElem?_of_update hnode hji hj⟩
  | reset =>
    cases hcall
    refine ⟨SlotArray.fresh n, ?_, .fresh hn, fun j next k v hj => absurd trivial hj⟩
    unfold FreeListCall.perform
    simp only [reset_eq h.size_eq hn, ok_bind, pure_eq_ok]

/-- Calls that the list allows, one after another, answer as the list does. -/
theorem inTurn {calls : List (FreeListCall w K V)} {answers : List (Option Nat)}
    (h : s.Lists n free) (hn : n ≤ w.maxCapacity)
    (hcalls : FreeListCall.inTurn (FreeListCall.onList n) calls free = some (free', answers)) :
    ∃ s', FreeListCall.inTurn FreeListCall.perform calls s = .ok (s', answers) ∧
      s'.Lists n free' := by
  induction calls generalizing s free answers with
  | nil =>
    cases hcalls
    exact ⟨s, rfl, h⟩
  | cons call calls ih =>
    simp only [FreeListCall.inTurn, Option.bind_eq_bind, Option.bind_eq_some_iff,
      Prod.exists] at hcalls
    obtain ⟨free₁, answer, hcall, free₂, answers', hcalls, hlast⟩ := hcalls
    cases hlast
    obtain ⟨s₁, hs₁, hlists, -⟩ := h.perform hn hcall
    obtain ⟨s', hs', hlists'⟩ := ih hlists hcalls
    refine ⟨s', ?_, hlists'⟩
    rw [FreeListCall.inTurn, hs₁, ok_bind]
    dsimp only
    rw [hs']
    rfl

end SlotArray.Lists

/-- The free list of an array that was allocated with `n` slots for entries is that of all slots in
order, and emptying any array of this size allocates it anew. Where the free list runs over a list,
each call that the list allows answers as the list does, leaves a free list that runs over the list
left, and leaves the entries in place that it does not name; and so do any number of calls, one
after another. -/
theorem free_list_refines {n : Nat} (hn : n ≤ w.maxCapacity) :
    ∃ s₀ : SlotArray w K V, SlotArray.allocate n = .ok s₀ ∧ s₀.Lists n (List.range' 1 n) ∧
      (∀ s : SlotArray w K V, s.size = n + 1 → s.reset = .ok s₀) ∧
      (∀ (s : SlotArray w K V) free (call : FreeListCall w K V) free' answer, s.Lists n free →
        call.onList n free = some (free', answer) →
        ∃ s', call.perform s = .ok (s', answer) ∧ s'.Lists n free' ∧
          ∀ j next k v, ¬ call.Empties j → s[j]? = some (.used next k v) →
            s'[j]? = some (.used next k v)) ∧
      ∀ (calls : List (FreeListCall w K V)) free answers,
        FreeListCall.inTurn (FreeListCall.onList n) calls (List.range' 1 n) =
          some (free, answers) →
        ∃ s, FreeListCall.inTurn FreeListCall.perform calls s₀ = .ok (s, answers) ∧
          s.Lists n free := by
  have hfresh : (SlotArray.fresh n : SlotArray w K V).Lists n (List.range' 1 n) := .fresh hn
  refine ⟨SlotArray.fresh n, SlotArray.allocate_eq hn, hfresh,
    fun s hsize => SlotArray.reset_eq hsize hn,
    fun s free call free' answer h hcall => h.perform hn hcall,
    fun calls free answers hcalls => hfresh.inTurn hn hcalls⟩

/-- Of four slots, the first and the third are taken, and the first is given back. -/
theorem free_list_refines_four : 4 ≤ LinkWidth.bits16.maxCapacity ∧
    ∃ s₀ s : SlotArray .bits16 Nat Nat, SlotArray.allocate 4 = .ok s₀ ∧
      FreeListCall.inTurn FreeListCall.perform
        [.acquire .null 5 6, .unlink 3 .null 7 8, .release 1] s₀ = .ok (s, [some 1, none, none]) ∧
      s.Lists 4 [1, 2, 4] := by
  have hle : 4 ≤ LinkWidth.bits16.maxCapacity := by decide
  obtain ⟨s₀, hs₀, -, -, -, hrun⟩ := free_list_refines (w := .bits16) (K := Nat) (V := Nat) hle
  obtain ⟨s, hs⟩ := hrun [.acquire .null 5 6, .unlink 3 .null 7 8, .release 1] [1, 2, 4]
    [some 1, none, none] rfl
  exact ⟨hle, s₀, s, hs₀, hs⟩

end HomeChain

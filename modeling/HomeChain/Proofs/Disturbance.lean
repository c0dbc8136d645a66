import HomeChain.Proofs.Declines
import HomeChain.Proofs.Rebuilding

/-!
# What a change leaves in place

Storing or removing a key writes to several slots, which it finds along the links: the end of a
chain, a predecessor, a successor, neighbours on the free list. Of the other entries at most one
moves, together with its value and its link, and at most one of those that stay is linked anew.
`Keeps` says this of two tables,

  `t.slots[j]? = some (.used next k v) → t'.slots[place j]? = some (.used next k v)`,

where the link is excepted in the slot that is linked anew. For storing, the function `place` moves
what the home slot of the key has been lent to, if it has; for removing, the successor of the entry.
`Rearranges` adds that the slots used are these and, for storing, the one with the new entry. So an
entry that moves is not where it was: what it has left holds the new entry, or is free.
-/

namespace HomeChain

open Function (update update_self update_of_ne)

variable {w : LinkWidth} {K V : Type}

namespace Table

variable {t t' : Table w K V} {L L' : Layout} {key : K} {value v : V} {i j : Nat}
  {next : Link w}

/-- The entries of `t` in the slots `kept` are in `t'`, in the slots that `place` gives, with their
values. Their links are as they were, but for that of the entry in slot `relinked`, if there is
such a slot. -/
def Keeps (t t' : Table w K V) (kept : Nat → Prop) (place : Nat → Nat) (relinked : Option Nat) :
    Prop :=
  ∀ j next k v, kept j → t.slots[j]? = some (.used next k v) →
    ∃ next', t'.slots[place j]? = some (.used next' k v) ∧ (j ∉ relinked → next' = next)

/-- The entries of `t'` are those of `t` in the slots `kept`, as `Keeps` has them, and what is in
slot `new`, if there is such a slot. -/
structure Rearranges (t t' : Table w K V) (kept : Nat → Prop) (place : Nat → Nat)
    (relinked new : Option Nat) : Prop where
  keeps : t.Keeps t' kept place relinked
  /-- An entry that is not the new one has been put where it is. -/
  used : ∀ j, t'.slots.isUsed j = true → j ∉ new →
    ∃ i, kept i ∧ t.slots.isUsed i = true ∧ place i = j

/-- What becomes of the entries where a new key is stored, which is in slot `i` then. -/
structure StoresInPlace (t t' : Table w K V) (key : K) (value : V) (i : Nat) : Prop where
  /-- The new entry is at the end of its chain. -/
  stored : t'.slots[i]? = some (.used .null key value)
  /-- No entry moves if the home slot is free, or holds an entry with this home address. -/
  settled : ¬ t.Lent key → ∃ relinked, t.Rearranges t' (fun _ => True) id relinked (some i)
  /-- The entry that the home slot is lent to moves to the first free slot, and the new entry is in
  the home slot. -/
  lent : t.Lent key → i = t.home key ∧ ∃ spare relinked, t.slots.firstFree = .ok spare ∧
    0 < spare ∧ t.home key ∉ relinked ∧
    t.Rearranges t' (fun _ => True) (update id (t.home key) spare) relinked (some i)

/-- What becomes of the other entries where the one in slot `i`, with the link `next`, is
removed. -/
structure RemovesInPlace (t t' : Table w K V) (i : Nat) (next : Link w) : Prop where
  /-- No entry moves if the entry is the last of its chain, and its slot is free. -/
  last : next = .null → (∃ prev next, t'.slots[i]? = some (.free prev next)) ∧
    ∃ relinked, t.Rearranges t' (fun j => j ≠ i) id relinked none
  /-- Its successor moves into its slot and leaves a free one, and no link changes. -/
  inner : next ≠ .null → ∃ successor, next.decodeIndex = .ok successor ∧
    t.slots.isUsed successor = true ∧
    (∃ prev next, t'.slots[successor]? = some (.free prev next)) ∧
    t.Rearranges t' (fun j => j ≠ i) (update id successor i) none none

theorem keeps_iff {kept : Nat → Prop} {place : Nat → Nat} {relinked : Option Nat} :
    t.Keeps t' kept place relinked ↔ ∀ j next k v, kept j → t.slots.node j = some (next, k, v) →
      ∃ next', t'.slots.node (place j) = some (next', k, v) ∧ (j ∉ relinked → next' = next) := by
  simp only [Keeps, SlotArray.node_eq_some_iff]

/-- A slot that is linked anew keeps its entry, and the other slots keep theirs and their links. -/
theorem relink_keeps {n : Nodes w K V} {k : K} {p : Nat} (l : Link w)
    (hj : n j = some (next, k, v)) :
    ∃ next', n.relink p l j = some (next', k, v) ∧ (j ∉ some p → next' = next) := by
  by_cases hjp : j = p
  · refine ⟨l, ?_, fun h => absurd (congrArg some hjp.symm) h⟩
    rw [Nodes.relink, hjp, update_self, ← hjp, hj]
    rfl
  · refine ⟨next, ?_, fun _ => rfl⟩
    rw [Nodes.relink, update_of_ne hjp, hj]

/-- If a slot that holds none of the entries kept is written to, and of the others at most one is
linked anew, then no entry moves. -/
theorem rearranges_id {n : Nodes w K V} {x : Option (Link w × K × V)} {kept : Nat → Prop}
    {relinked new : Option Nat} (hn : t'.slots.node = update n i x)
    (hkeeps : ∀ j next k v, t.slots.node j = some (next, k, v) →
      ∃ next', n j = some (next', k, v) ∧ (j ∉ relinked → next' = next))
    (hnone : ∀ j, n j = none ↔ t.slots.node j = none)
    (hne : ∀ j, kept j → t.slots.node j ≠ none → j ≠ i) (hkept : ∀ j, j ≠ i → kept j)
    (hnew : x ≠ none → i ∈ new) : t.Rearranges t' kept id relinked new := by
  refine ⟨keeps_iff.mpr fun j next k v hj hs => ?_, fun j hj hjnew => ?_⟩
  · have hji : j ≠ i := hne j hj (by simp [hs])
    rw [hn, id, update_of_ne hji]
    exact hkeeps j next k v hs
  · rw [SlotArray.isUsed_iff, hn] at hj
    have hji : j ≠ i := by
      rintro rfl
      rw [update_self] at hj
      exact hjnew (hnew hj)
    rw [update_of_ne hji, ne_eq, hnone] at hj
    exact ⟨j, hkept j hji, SlotArray.isUsed_iff.mpr hj, rfl⟩

/-- The new entry is at the end of its chain. -/
theorem Adds.node_eq {n : Nodes w K V} (h : t.Adds L key value i n L') :
    n i = some (.null, key, value) := by
  cases h <;> exact update_self ..

namespace LaidOut

/-! ## Storing a new key -/

/-- Where the home slot is lent, its entry goes to the free slot `s`, with its value and its link.
The entries in the other slots stay. -/
theorem moved_keeps {n : Nodes w K V} {x p s : Nat} {y : Link w × K × V} (hs : n s = none)
    (hx : n x = some y) (hp : n p ≠ none) {k : K} (hj : n j = some (next, k, v))
    (l : Option (Link w × K × V)) :
    ∃ next', update (n.moved s x p) x l (update id x s j) = some (next', k, v) ∧
      (j ∉ some p → next' = next) := by
  have hsx : s ≠ x := by
    intro hsx
    rw [← hsx, hs] at hx
    cases hx
  have hsp : s ≠ p := by
    intro hsp
    exact hp (hsp ▸ hs)
  by_cases hjx : j = x
  · -- the entry that moves is not the one that is linked anew
    refine ⟨next, ?_, fun _ => rfl⟩
    rw [hjx, update_self, update_of_ne hsx, Nodes.moved, update_of_ne hsx, Nodes.relink,
      update_of_ne hsp, update_self, ← hjx, hj]
  · have hjs : j ≠ s := by
      intro hjs
      rw [hjs, hs] at hj
      cases hj
    have hj' : update n s (n x) j = some (next, k, v) := by rw [update_of_ne hjs, hj]
    rw [update_of_ne hjx, id, update_of_ne hjx, Nodes.moved, update_of_ne hjx]
    exact relink_keeps (.ofIndex s) hj'

/-- Once the entry in slot `x` has gone to slot `s`, the used slots other than `x` are those in
which an entry has been put. -/
theorem exists_place_of_moved {n : Nodes w K V} {x p s : Nat} {y : Link w × K × V}
    (hx : n x = some y) (hjx : j ≠ x) {l : Option (Link w × K × V)}
    (hj : update (n.moved s x p) x l j ≠ none) : ∃ i, n i ≠ none ∧ update id x s i = j := by
  rw [update_of_ne hjx, ne_eq, Nodes.moved_eq_none hx, not_or, not_and_or, not_not] at hj
  rcases hj.2 with rfl | hj
  · exact ⟨x, by simp [hx], update_self ..⟩
  · exact ⟨j, hj, update_of_ne hjx ..⟩

/-- A new key in a table in order leaves all entries in place, but for one in its home slot that
belongs to another chain. -/
theorem storesInPlace (hL : t.LaidOut L) (h : t.Adds L key value i t'.slots.node L') :
    t.StoresInPlace t' key value i := by
  have hfree : ∀ {s : Nat}, s ∈ L.free → ∀ j, True → t.slots.node j ≠ none → j ≠ s := by
    rintro s hs j - hj rfl
    exact hj ((hL.mem_free j).mp hs).2.2
  have hstored := SlotArray.node_eq_some_iff.mp h.node_eq
  generalize hn : t'.slots.node = n at h
  cases h with
  | @opened a b hab =>
    have hhome : t.home key ∈ L.free := by simp [hab]
    have hsettled : ¬ t.Lent key := Vacant.not_lent (hL.mem_free_iff.mp hhome).2
    refine ⟨hstored, fun _ => ⟨none, ?_⟩, fun hlent => absurd hlent hsettled⟩
    exact rearranges_id hn (fun j next k v hj => ⟨next, hj, fun _ => rfl⟩) (fun j => Iff.rfl)
      (hfree hhome) (fun _ _ => trivial) fun _ => rfl
  | @appended _ p rest a hspare hchain =>
    have hi : i ∈ L.free := by simp [hspare]
    -- the chain has a member, so it starts in the home slot
    obtain ⟨c, hc⟩ := hL.chains.eq_cons (i := p) (h := t.home key) (by simp [hchain])
    have hhome : t.home key ∈ L.chain (t.home key) := hc ▸ List.mem_cons_self
    have hsettled : ¬ t.Lent key := Shared.not_lent (hL.mem_chain_iff.mp hhome)
    refine ⟨hstored, fun _ => ⟨some p, ?_⟩, fun hlent => absurd hlent hsettled⟩
    exact rearranges_id hn (fun j next k v hj => relink_keeps (.ofIndex i) hj)
      (fun j => Nodes.relink_eq_none ..) (hfree hi) (fun _ _ => trivial) fun _ => rfl
  | @displaced spare p g rest a b hspare hchain hne =>
    have hi : spare ∈ L.free := by simp [hspare]
    have hx : t.home key ∈ L.chain g := by simp [hchain]
    have hp : p ∈ L.chain g := by simp [hchain]
    have hpx : p ≠ t.home key := (hL.chains.ne_of_neighbours hchain).1
    obtain ⟨y, hy⟩ := hL.exists_node_of_mem_chain hx
    obtain ⟨z, hz⟩ := hL.exists_node_of_mem_chain hp
    obtain ⟨hspare0, -, hnone⟩ := (hL.mem_free spare).mp hi
    have hlent : t.Lent key := by
      obtain ⟨next, k, v, hs, hk⟩ := hL.mem_chain_iff.mp hx
      exact ⟨next, k, v, hs, fun hh => hne (hk.symm.trans hh)⟩
    refine ⟨hstored, fun hsettled => absurd hlent hsettled, fun _ =>
      ⟨rfl, spare, some p, ?_, hspare0, ?_, keeps_iff.mpr ?_, ?_⟩⟩
    · rw [hL.circle.first.1, hspare, List.headD_cons]
    · intro hmem
      exact hpx (Option.some.inj hmem)
    · intro j next k v _ hj
      rw [hn]
      exact moved_keeps hnone hy (by simp [hz]) hj _
    · intro j hj hjnew
      have hjx : j ≠ t.home key := fun h => hjnew (congrArg some h.symm)
      rw [SlotArray.isUsed_iff, hn] at hj
      obtain ⟨i, hi, hplace⟩ := exists_place_of_moved hy hjx hj
      exact ⟨i, trivial, SlotArray.isUsed_iff.mpr hi, hplace⟩

/-! ## Removing a key -/

/-- Once the entry in slot `s` has gone to slot `i`, the used slots are those in which an entry has
been put. -/
theorem exists_place_of_pulled {n : Nodes w K V} {s : Nat} (his : i ≠ s) (hs : n s ≠ none)
    (hj : update (update n i (n s)) s none j ≠ none) :
    ∃ m, m ≠ i ∧ n m ≠ none ∧ update id s i m = j := by
  rw [ne_eq, Nodes.update_none_eq_none, not_or] at hj
  obtain ⟨hjs, hj⟩ := hj
  by_cases hji : j = i
  · exact ⟨s, his.symm, hs, hji ▸ update_self ..⟩
  · rw [update_of_ne hji] at hj
    exact ⟨j, hji, hj, update_of_ne hjs ..⟩

/-- Without a key, a table in order has all other entries in place, but for the successor of the
entry that is gone. -/
theorem removesInPlace (hL : t.LaidOut L) (hi : t.slots[i]? = some (.used next key v))
    (h : t.Dropped t' L L' key i) : t.RemovesInPlace t' i next := by
  obtain ⟨-, hL', h⟩ := h
  generalize hn : t'.slots.node = n at h
  cases h with
  | only hchain =>
    have hnull : next = .null :=
      Link.eq_null_of_decodeIndex (hL.decodeIndex_eq (a := []) hchain hi)
    have hfreed := (hL'.mem_free_iff.mp List.mem_cons_self).2
    refine ⟨fun _ => ⟨hfreed, none, ?_⟩, fun hne => absurd hnull hne⟩
    exact rearranges_id hn (fun j next k v hj => ⟨next, hj, fun _ => rfl⟩) (fun j => Iff.rfl)
      (fun j hj _ => hj) (fun _ hj => hj) fun hnone => absurd rfl hnone
  | @last p a hchain =>
    have hnull : next = .null := by
      rw [List.append_cons] at hchain
      exact Link.eq_null_of_decodeIndex (hL.decodeIndex_eq hchain hi)
    have hfreed := (hL'.mem_free_iff.mp List.mem_cons_self).2
    refine ⟨fun _ => ⟨hfreed, some p, ?_⟩, fun hne => absurd hnull hne⟩
    exact rearranges_id hn (fun j next k v hj => relink_keeps .null hj)
      (fun j => Nodes.relink_eq_none ..) (fun j hj _ => hj) (fun _ hj => hj)
      fun hnone => absurd rfl hnone
  | @inner s a b hchain =>
    have hdecode : next.decodeIndex = .ok s := hL.decodeIndex_eq hchain hi
    have hs : s ∈ L.chain (t.home key) := by simp [hchain]
    have his : i ≠ s := (hL.chains.ne_of_neighbours hchain).1
    have hne : next ≠ .null :=
      Link.ne_null_of_decodeIndex hdecode (hL.le_capacity_of_mem_chain hs).1.ne'
    obtain ⟨y, hy⟩ := hL.exists_node_of_mem_chain hs
    have hused : t.slots.node s ≠ none := by simp [hy]
    have hfreed := (hL'.mem_free_iff.mp List.mem_cons_self).2
    refine ⟨fun hnull => absurd hnull hne, fun _ =>
      ⟨s, hdecode, SlotArray.isUsed_iff.mpr hused, hfreed, keeps_iff.mpr ?_, ?_⟩⟩
    · intro j next k v hji hj
      refine ⟨next, ?_, fun _ => rfl⟩
      rw [hn]
      by_cases hjs : j = s
      · rw [hjs, update_self, update_of_ne his, update_self, ← hjs, hj]
      · rw [update_of_ne hjs, id, update_of_ne hjs, update_of_ne hji, hj]
    · intro j hj _
      rw [SlotArray.isUsed_iff, hn] at hj
      obtain ⟨m, hmi, hm, hplace⟩ := exists_place_of_pulled his hused hj
      exact ⟨m, hmi, SlotArray.isUsed_iff.mpr hm, hplace⟩

/-! ## Changes of a table -/

variable [DecidableEq K]

/-- A new key for which the table does not grow leaves the entries in place. -/
theorem put_inPlace (hL : t.LaidOut L) (hcap : t.capacity ≤ w.maxCapacity) (hnew : ¬ t.Has key)
    (value : V) :
    ∃ t' r, (t.put key value).outcome = .ok (t', r) ∧ (∀ e, r = .error e → t' = t) ∧
      ∀ i, r = .ok i → t'.capacity = t.capacity → t.StoresInPlace t' key value i := by
  obtain ⟨⟨t', r⟩, hput, -, hspec⟩ := hL.put_spec hcap key value
  refine ⟨t', r, hput, fun e he => hspec.eq_of_error he, ?_⟩
  intro i hi hsame
  rw [hi] at hput
  obtain ⟨L', hadded⟩ := hL.put_added hcap hnew hput hsame
  exact hL.storesInPlace hadded.adds

/-- The removal of a key that is stored leaves the other entries in place. -/
theorem remove_inPlace (hL : t.LaidOut L) (hcap : t.capacity ≤ w.maxCapacity)
    (hi : t.slots[i]? = some (.used next key v)) :
    ∃ t', (t.removeAndGet key).outcome = .ok (t', some v) ∧
      (t.remove key).outcome = .ok (t', true) ∧ t.RemovesInPlace t' i next := by
  obtain ⟨t', L', hremove, hdropped⟩ := hL.removeAndGet_dropped hcap hi
  refine ⟨t', hremove, ?_, hL.removesInPlace hi hdropped⟩
  rw [remove, Traced.outcome_bind, hremove]
  rfl

end LaidOut

/-- On a table that passes an examination, storing a key that it holds replaces the value in the
slot of the key, and changes nothing else. Storing a new one, unless the table grows, and removing
one leave the other entries in place, but for one that moves and one that is linked anew. Removing
a key that is not stored changes nothing. -/
theorem disturbs_at_most_one [DecidableEq K] (t : Table w K V)
    (hcheck : t.check.outcome = .ok (.ok ())) (hcap : t.capacity ≤ w.maxCapacity) (key : K) :
    (∀ i next v value, t.slots[i]? = some (.used next key v) → (t.put key value).outcome =
      .ok ({ t with slots := t.slots.setIfInBounds i (.used next key value) }, .ok i)) ∧
    (¬ t.Has key → ∀ value, ∃ t' r, (t.put key value).outcome = .ok (t', r) ∧
      (∀ e, r = .error e → t' = t) ∧
      ∀ i, r = .ok i → t'.capacity = t.capacity → t.StoresInPlace t' key value i) ∧
    (∀ i next v, t.slots[i]? = some (.used next key v) → ∃ t',
      (t.removeAndGet key).outcome = .ok (t', some v) ∧ (t.remove key).outcome = .ok (t', true) ∧
        t.RemovesInPlace t' i next) ∧
    (¬ t.Has key → (t.removeAndGet key).outcome = .ok (t, none) ∧
      (t.remove key).outcome = .ok (t, false)) := by
  obtain ⟨L, hL⟩ := inOrder_iff.mp (check_eq_ok_iff.mp hcheck)
  refine ⟨fun i next v value hi => put_stored (hL.insert_replaced hi value),
    fun hnew value => hL.put_inPlace hcap hnew value,
    fun i next v hi => hL.remove_inPlace hcap hi, fun habsent => ?_⟩
  have hremove := hL.removeAndGet_absent habsent
  refine ⟨hremove, ?_⟩
  rw [remove, Traced.outcome_bind, hremove]
  rfl

/-- The home slot of the key `1` is lent to the key `4`, which stands behind `0` on its chain.
Storing `1` moves the entry of `4` to the first free slot and has the home slot for itself; removing
`0` moves the entry of `4` home and leaves a free slot. -/
theorem disturbs_at_most_one_lent_home : ∃ t stored removed : Table .bits16 Nat Nat,
    t.check.outcome = .ok (.ok ()) ∧ t.slots[2]? = some (.used .null 4 40) ∧
    (t.put 1 10).outcome = .ok (stored, .ok 2) ∧ stored.slots[3]? = some (.used .null 4 40) ∧
    stored.slots[2]? = some (.used .null 1 10) ∧ (t.remove 0).outcome = .ok (removed, true) ∧
    removed.slots[1]? = some (.used .null 4 40) ∧
    ∃ prev next, removed.slots[2]? = some (.free prev next) := by
  let t : Table .bits16 Nat Nat :=
    ⟨.growable, UInt64.ofNat, #[.free (.ofIndex 4) (.ofSuccessor 3), .used (.ofIndex 2) 0 0,
      .used .null 4 40, .free .null (.ofSuccessor 4), .free (.ofIndex 3) (.ofSuccessor 0)], 2, 3⟩
  have hcheck : t.check.outcome = .ok (.ok ()) := by cbv
  have hcap : t.capacity ≤ LinkWidth.bits16.maxCapacity := by decide
  have h4 : t.slots[2]? = some (.used .null 4 40) := rfl
  have hhome : t.home 1 = 2 := by decide
  have hlent : t.Lent 1 := ⟨.null, 4, 40, hhome ▸ h4, by decide⟩
  have hnew : ¬ t.Has 1 := by
    rw [has_iff]
    rintro ⟨_ | _ | _ | _ | _ | i, hi⟩ <;> cases hi
  -- what the two calls answer is evaluated, and what the slots hold then follows
  obtain ⟨stored, r, hput, -, hstores⟩ := (disturbs_at_most_one t hcheck hcap 1).2.1 hnew 10
  have hr : (t.put 1 10).outcome.map (fun x => (x.2, x.1.capacity)) = .ok (.ok 2, t.capacity) := by
    decide +kernel
  rw [hput, Except.map, Except.ok.injEq, Prod.mk.injEq] at hr
  have hstored := hstores 2 hr.1 hr.2
  obtain ⟨-, spare, relinked, hspare, -, hrelinked, hkeeps, -⟩ := hstored.lent hlent
  have hspare' : t.slots.firstFree = .ok 3 := by cbv
  obtain rfl : 3 = spare := Except.ok.inj (hspare'.symm.trans hspare)
  obtain ⟨_, hs, hlink⟩ := hkeeps 2 .null 4 40 trivial h4
  rw [hhome] at hrelinked hs
  obtain ⟨removed, -, hremove, hremoves⟩ := (disturbs_at_most_one t hcheck hcap 0).2.2.1 1 _ 0 rfl
  obtain ⟨successor, hsuccessor, -, hfreed, hkeeps', -⟩ := hremoves.inner (by decide)
  obtain rfl : 2 = successor := Except.ok.inj hsuccessor
  obtain ⟨_, hs', hlink'⟩ := hkeeps' 2 .null 4 40 (by decide) h4
  refine ⟨t, stored, removed, hcheck, h4, hr.1 ▸ hput, ?_, hstored.stored, hremove, ?_, hfreed⟩
  · rw [← hlink hrelinked]
    exact hs
  · rw [← hlink' (by simp)]
    exact hs'

end Table

end HomeChain

import HomeChain.ChainStats
import HomeChain.Table.Insert
import HomeChain.Proofs.Contents

/-!
# Walks along a chain

Every loop that follows chain links is given a number of steps, and reports an endless walk
when they run out. On a route that ends in the null link no loop takes more steps than the
route has members, so each of them ends, and what it ends with can be read off the route:

* `search` stops at the first member with the key, or at the last member;
* `predecessor` stops in front of the member it is asked about;
* `chainLength` counts the members.

The lookups of a table in order follow: `trail` meets the key if it is stored, and `find`
answers with its slot.

What a search is worth depends on the home slot of the key, which is free (`Vacant`), or holds an
entry of the key's own chain (`Shared`) or of another one (`Lent`).
-/

namespace HomeChain

variable {w : LinkWidth} {K V : Type}

namespace SlotArray

variable {s : SlotArray w K V} {i j p x : Nat} {a b c : List Nat}

theorem chainNext_eq {next : Link w} {k : K} {v : V} (h : s[i]? = some (.used next k v)) :
    s.chainNext i = .ok next := by
  rw [chainNext, read_eq h]
  rfl

theorem value_eq {next : Link w} {k : K} {v : V} (h : s[i]? = some (.used next k v)) :
    s.value i = .ok v := by
  rw [value, read_eq h]
  rfl

/-- Every member of a route is a used slot, and its link names the next one. -/
theorem exists_used_of_route {z : Nat} (h : Route s.node.succ (i :: (c ++ [z]))) :
    ∃ next k v, s[i]? = some (.used next k v) ∧ next.decodeIndex = .ok (c.headD z) := by
  have hc : (c ++ [z]).head? = some (c.headD z) := by cases c <;> rfl
  exact succ_eq_some_iff.mp (h.head_leads hc)

/-! ## Searching -/

section Search

variable [DecidableEq K] {key k : K} {v : V} {next : Link w} {dangling : Fault} {steps : Nat}
  {before : List Nat}

theorem search_hit (hs : s[i]? = some (.used next key v)) :
    s.search key dangling (steps + 1) before i = .ok ⟨i, before, true⟩ := by
  rw [search]
  simp only [hs, if_true]

theorem search_end (hs : s[i]? = some (.used .null k v)) (hk : k ≠ key) :
    s.search key dangling (steps + 1) before i = .ok ⟨i, before, false⟩ := by
  rw [search]
  simp only [hs, if_neg hk, if_true]

theorem search_step (hs : s[i]? = some (.used next k v)) (hk : k ≠ key)
    (hnext : next.decodeIndex = .ok j) (hj : j ≠ 0) :
    s.search key dangling (steps + 1) before i = s.search key dangling steps (i :: before) j := by
  rw [search]
  simp only [hs, if_neg hk, if_neg (Link.ne_null_of_decodeIndex hnext hj), hnext]

/-- A search along a route ends at the first member with the key, or at the end. -/
theorem search_route (key : K) (dangling : Fault) (steps : Nat) (before : List Nat)
    (hroute : Route s.node.succ (i :: (c ++ [0]))) (h0 : 0 ∉ c) (hsteps : c.length < steps) :
    (∃ a j b, i :: c = a ++ j :: b ∧ s.node.key j = some key ∧
      s.search key dangling steps before i = .ok ⟨j, a.reverse ++ before, true⟩) ∨
    ((∀ j ∈ i :: c, s.node.key j ≠ some key) ∧
      ∃ a j, i :: c = a ++ [j] ∧
        s.search key dangling steps before i = .ok ⟨j, a.reverse ++ before, false⟩) := by
  -- by induction on what follows slot `i`; the slots passed pile up in `before`, last one first
  induction c generalizing i steps before with
  | nil =>
    obtain ⟨n, rfl⟩ : ∃ n, steps = n + 1 := ⟨steps - 1, by omega⟩
    obtain ⟨next, k, v, hs, hnext⟩ := exists_used_of_route hroute
    have hkey : s.node.key i = some k := key_eq_some_iff.mpr ⟨next, v, hs⟩
    obtain rfl : next = .null := Link.eq_null_of_decodeIndex hnext
    by_cases hk : k = key
    · subst hk
      exact .inl ⟨[], i, [], rfl, hkey, search_hit hs⟩
    · refine .inr ⟨fun j hj => ?_, [], i, rfl, search_end hs hk⟩
      rw [List.mem_singleton.mp hj, hkey]
      exact fun h => hk (Option.some.inj h)
  | cons j c ih =>
    obtain ⟨n, rfl⟩ : ∃ n, steps = n + 1 := ⟨steps - 1, by omega⟩
    obtain ⟨next, k, v, hs, hnext⟩ := exists_used_of_route hroute
    have hkey : s.node.key i = some k := key_eq_some_iff.mpr ⟨next, v, hs⟩
    by_cases hk : k = key
    · subst hk
      exact .inl ⟨[], i, j :: c, rfl, hkey, search_hit hs⟩
    have hj0 : j ≠ 0 := by
      rintro rfl
      exact h0 List.mem_cons_self
    have hlen : c.length < n := by
      rw [List.length_cons] at hsteps
      omega
    rw [search_step hs hk hnext hj0]
    rcases ih n (i :: before) hroute.tail (fun h => h0 (List.mem_cons_of_mem j h)) hlen with
      ⟨a, x, b, hc, hx, hsearch⟩ | ⟨hne, a, x, hc, hsearch⟩
    · refine .inl ⟨i :: a, x, b, by rw [hc, List.cons_append], hx, ?_⟩
      rw [List.headD_cons, hsearch, List.reverse_cons, List.append_assoc]
      rfl
    · refine .inr ⟨fun y hy => ?_, i :: a, x, by rw [hc, List.cons_append], ?_⟩
      · rcases List.mem_cons.mp hy with rfl | hy
        · rw [hkey]
          exact fun h => hk (Option.some.inj h)
        · exact hne y hy
      · rw [List.headD_cons, hsearch, List.reverse_cons, List.append_assoc]
        rfl

end Search

/-! ## Looking for a predecessor, and counting -/

/-- The search for the slot in front of `x` ends in front of `x`. -/
theorem predecessor_route :
    ∀ {a : List Nat} {i steps : Nat}, Route s.node.succ (a ++ p :: x :: b) →
      (a ++ [p]).head? = some i → 0 ∉ a ++ p :: [x] → x ∉ a ++ [p] → a.length < steps →
      s.predecessor x steps i = .ok p := by
  -- by induction on the members in front of `p`
  intro a
  induction a with
  | nil =>
    intro i steps hroute hi h0 hx hsteps
    obtain rfl : p = i := Option.some.inj hi
    obtain ⟨n, rfl⟩ : ∃ n, steps = n + 1 := ⟨steps - 1, by omega⟩
    obtain ⟨next, k, v, hs, hnext⟩ :=
      succ_eq_some_iff.mp (hroute.head_leads (l := x :: b) rfl)
    have hx0 : x ≠ 0 := by
      rintro rfl
      simp at h0
    rw [predecessor, chainNext_eq hs, ok_bind, if_neg (Link.ne_null_of_decodeIndex hnext hx0), hnext,
      ok_bind, if_pos rfl]
  | cons i a ih =>
    intro i' steps hroute hi h0 hx hsteps
    obtain rfl : i = i' := Option.some.inj hi
    obtain ⟨n, rfl⟩ : ∃ n, steps = n + 1 := ⟨steps - 1, by omega⟩
    obtain ⟨j, hj⟩ : ∃ j, (a ++ [p]).head? = some j := by cases a <;> simp
    have hj' : (a ++ p :: x :: b).head? = some j := by
      cases a <;> simpa using hj
    obtain ⟨next, k, v, hs, hnext⟩ := succ_eq_some_iff.mp (hroute.head_leads hj')
    have hjmem : j ∈ a ++ [p] := List.mem_of_mem_head? hj
    have hj0 : j ≠ 0 := by
      rintro rfl
      simp only [List.mem_append, List.mem_singleton] at hjmem
      simp only [List.cons_append, List.mem_cons, List.mem_append] at h0
      tauto
    have hjx : j ≠ x := by
      rintro rfl
      exact hx (List.mem_cons_of_mem i hjmem)
    rw [predecessor, chainNext_eq hs, ok_bind, if_neg (Link.ne_null_of_decodeIndex hnext hj0), hnext,
      ok_bind, if_neg hjx]
    refine ih hroute.tail hj (fun h => h0 (List.mem_cons_of_mem i h))
      (fun h => hx (List.mem_cons_of_mem i h)) ?_
    rw [List.length_cons] at hsteps
    omega

/-- The walk that counts the members of a chain counts them all. -/
theorem chainLength_route (steps passed : Nat) (hroute : Route s.node.succ (i :: (c ++ [0])))
    (h0 : 0 ∉ c) (hsteps : c.length < steps) :
    s.chainLength steps passed i = .ok (passed + (c.length + 1)) := by
  induction c generalizing i steps passed with
  | nil =>
    obtain ⟨n, rfl⟩ : ∃ n, steps = n + 1 := ⟨steps - 1, by omega⟩
    obtain ⟨next, k, v, hs, hnext⟩ := exists_used_of_route hroute
    rw [chainLength, chainNext_eq hs, ok_bind, if_pos (Link.eq_null_of_decodeIndex hnext)]
    rfl
  | cons j c ih =>
    obtain ⟨n, rfl⟩ : ∃ n, steps = n + 1 := ⟨steps - 1, by omega⟩
    obtain ⟨next, k, v, hs, hnext⟩ := exists_used_of_route hroute
    have hj0 : j ≠ 0 := by
      rintro rfl
      exact h0 List.mem_cons_self
    rw [List.length_cons] at hsteps
    rw [chainLength, chainNext_eq hs, ok_bind, if_neg (Link.ne_null_of_decodeIndex hnext hj0), hnext]
    show s.chainLength n (passed + 1) j = _
    rw [ih n (passed + 1) hroute.tail (fun h => h0 (List.mem_cons_of_mem j h)) (by omega),
      List.length_cons]
    congr 1
    omega

end SlotArray

namespace Table

variable {t : Table w K V} {L : Layout} {key : K} {a c : List Nat} {h i : Nat}

theorem trail_eq_some [DecidableEq K] {dangling : Fault} {r : Trail} {next : Link w} {k : K} {v : V}
    (hs : t.slots[t.home key]? = some (.used next k v))
    (hr : t.slots.search key dangling t.slots.size [] (t.home key) = .ok r) :
    t.trail key dangling = .ok (some r) := by
  rw [trail, SlotArray.read_eq hs, ok_bind]
  show (t.slots.search key dangling t.slots.size [] (t.home key) >>= fun r => pure (some r)) = _
  rw [hr]
  rfl

/-! ## Home slots -/

/-- The home slot of the key is free. -/
def Vacant (t : Table w K V) (key : K) : Prop :=
  ∃ prev next, t.slots[t.home key]? = some (.free prev next)

/-- The home slot of the key holds an entry with this home address. -/
def Shared (t : Table w K V) (key : K) : Prop :=
  ∃ next k v, t.slots[t.home key]? = some (.used next k v) ∧ t.home k = t.home key

/-- The home slot of the key holds an entry with another home address. -/
def Lent (t : Table w K V) (key : K) : Prop :=
  ∃ next k v, t.slots[t.home key]? = some (.used next k v) ∧ t.home k ≠ t.home key

theorem Shared.not_lent (h : t.Shared key) : ¬ t.Lent key := by
  intro hlent
  obtain ⟨next, k, v, hs, hk⟩ := hlent
  obtain ⟨next', k', v', hs', hk'⟩ := h
  rw [hs, Option.some.injEq, Slot.used.injEq] at hs'
  rw [← hs'.2.1] at hk'
  exact hk hk'

theorem Vacant.ne_used (h : t.Vacant key) {next : Link w} {k : K} {v : V} :
    t.slots[t.home key]? ≠ some (.used next k v) := by
  obtain ⟨prev, next', hs⟩ := h
  simp [hs]

theorem Vacant.not_shared (h : t.Vacant key) : ¬ t.Shared key := by
  rintro ⟨next, k, v, hs, -⟩
  exact h.ne_used hs

theorem Vacant.not_lent (h : t.Vacant key) : ¬ t.Lent key := by
  rintro ⟨next, k, v, hs, -⟩
  exact h.ne_used hs

namespace LaidOut

/-! ## Walks on a table in order -/

/-- From any member on, a chain is a route to the null link, and shorter than the array. -/
theorem route_from (hL : t.LaidOut L) (hchain : L.chain h = a ++ i :: c) :
    Route t.slots.node.succ (i :: (c ++ [0])) ∧ 0 ∉ c ∧ c.length < t.slots.size := by
  have hroute := hL.chains.route h
  have h0 := hL.chains.zero_notMem h
  have hlen := hL.length_chain_le h
  have hsize := hL.size_eq
  rw [hchain] at hroute h0 hlen
  rw [List.append_assoc, List.cons_append, Route.append_cons] at hroute
  rw [List.length_append, List.length_cons] at hlen
  refine ⟨hroute.2, fun hc => h0 ?_, by omega⟩
  exact List.mem_append_right a (List.mem_cons_of_mem i hc)

/-- The link of a member names the next one, and the last one has the null link. -/
theorem decodeIndex_eq (hL : t.LaidOut L) (hchain : L.chain h = a ++ i :: c) {next : Link w} {k : K}
    {v : V} (hs : t.slots[i]? = some (.used next k v)) : next.decodeIndex = .ok (c.headD 0) := by
  obtain ⟨hroute, -, -⟩ := hL.route_from hchain
  have hfirst : (c ++ [0]).head? = some (c.headD 0) := by cases c <;> rfl
  have hleads := hroute.head_leads hfirst
  rwa [SlotArray.succ_of_used hs, Link.index?_eq_some_iff] at hleads

/-- A search that starts from a member of a chain ends at the first slot with the key from there
on, or at the end of the chain. -/
theorem search_spec [DecidableEq K] (hL : t.LaidOut L) (key : K) (dangling : Fault)
    (hchain : L.chain h = a ++ i :: c) :
    (∃ before j b, i :: c = before ++ j :: b ∧ t.slots.node.key j = some key ∧
      t.slots.search key dangling t.slots.size [] i = .ok ⟨j, before.reverse, true⟩) ∨
    ((∀ j ∈ i :: c, t.slots.node.key j ≠ some key) ∧ ∃ before j, i :: c = before ++ [j] ∧
      t.slots.search key dangling t.slots.size [] i = .ok ⟨j, before.reverse, false⟩) := by
  obtain ⟨hroute, h0, hlen⟩ := hL.route_from hchain
  have hsearch := SlotArray.search_route key dangling t.slots.size [] hroute h0 hlen
  simp only [List.append_nil] at hsearch
  exact hsearch

/-! ## What a home slot can hold -/

/-- The home slot of a key is free and its chain empty, or it holds the head of the chain, or
it holds a member of another chain, behind a member `p`, and the chain of the key is empty. -/
theorem home_cases (hL : t.LaidOut L) (key : K) :
    (∃ prev next, t.slots[t.home key]? = some (.free prev next) ∧ t.home key ∈ L.free ∧
      L.chain (t.home key) = []) ∨
    (∃ next k v rest, t.slots[t.home key]? = some (.used next k v) ∧ t.home k = t.home key ∧
      L.chain (t.home key) = t.home key :: rest) ∨
    (∃ next k v a p b, t.slots[t.home key]? = some (.used next k v) ∧ t.home k ≠ t.home key ∧
      L.chain (t.home k) = a ++ p :: t.home key :: b ∧ L.chain (t.home key) = []) := by
  obtain ⟨h, hh⟩ : ∃ h, h = t.home key := ⟨_, rfl⟩
  have hpos : 1 ≤ h := hh ▸ t.home_pos key
  have hle : h ≤ t.capacity := hh ▸ t.home_le key
  have hsize : h < t.slots.size := by
    have := hL.size_eq
    omega
  rw [← hh]
  cases hs : t.slots[h]? with
  | none =>
    rw [Array.getElem?_eq_getElem hsize] at hs
    cases hs
  | some slot =>
    cases slot with
    | free prev next =>
      refine .inl ⟨prev, next, rfl, hL.mem_free_iff.mpr ⟨hpos, prev, next, hs⟩, ?_⟩
      refine hL.chains.eq_nil fun k hk => ?_
      obtain ⟨_, _, hs'⟩ := SlotArray.key_eq_some_iff.mp hk
      rw [hs] at hs'
      cases hs'
    | used next k v =>
      have hmem : h ∈ L.chain (t.home k) := hL.mem_chain_iff.mpr ⟨next, k, v, hs, rfl⟩
      have hkey : t.slots.node.key h = some k := SlotArray.key_eq_some_iff.mpr ⟨next, v, hs⟩
      obtain ⟨rest, hrest⟩ := hL.chains.eq_cons hmem
      by_cases hk : t.home k = h
      · rw [hk] at hrest
        exact .inr (.inl ⟨next, k, v, rest, rfl, hk, hrest⟩)
      · refine .inr (.inr ?_)
        rw [hrest] at hmem
        obtain ⟨c, b, hcb⟩ :=
          List.append_of_mem ((List.mem_cons.mp hmem).resolve_left (Ne.symm hk))
        -- the member in front of it is the last of those in front of it
        obtain ⟨a, p, hap⟩ : ∃ a p, t.home k :: c = a ++ [p] :=
          ⟨_, _, (List.dropLast_append_getLast (List.cons_ne_nil _ c)).symm⟩
        refine ⟨next, k, v, a, p, b, rfl, hk, ?_, ?_⟩
        · rw [hrest, hcb, ← List.cons_append, hap, List.append_assoc, List.singleton_append]
        · refine hL.chains.eq_nil fun k' hk' => ?_
          rw [hkey, Option.some.injEq] at hk'
          exact hk' ▸ hk

/-- A key that no member of its chain holds is not stored. -/
theorem absent_of_chain (hL : t.LaidOut L)
    (hne : ∀ i ∈ L.chain (t.home key), t.slots.node.key i ≠ some key) : ¬ t.Has key := by
  intro hhas
  obtain ⟨i, hi⟩ := has_iff.mp hhas
  exact hne i (hL.chains.mem_of_key hi) hi

/-- A key whose chain is empty is not stored. -/
theorem absent_of_chain_eq_nil (hL : t.LaidOut L) (hnil : L.chain (t.home key) = []) :
    ¬ t.Has key := by
  apply hL.absent_of_chain
  rw [hnil]
  intro i hi
  cases hi

/-! ## Looking for a predecessor -/

/-- The search for the slot in front of a member of a chain ends there, also in slots that
differ from those of the table outside of the chain. -/
theorem predecessor_spec (hL : t.LaidOut L) {a b : List Nat} {h p x : Nat}
    {s : SlotArray w K V} (hchain : L.chain h = a ++ p :: x :: b)
    (hsize : s.size = t.slots.size)
    (hsucc : ∀ i ∈ L.chain h, s.node.succ i = t.slots.node.succ i) :
    s.predecessor x s.size h = .ok p := by
  have hroute : Route s.node.succ (L.chain h ++ [0]) := (hL.chains.route h).congr hsucc
  have h0 := hL.chains.zero_notMem h
  have hnodup := hL.chains.nodup h
  have hlen := hL.length_chain_le h
  have hhead : (a ++ [p]).head? = some h := by
    obtain ⟨rest, hrest⟩ := hL.chains.eq_cons (show p ∈ L.chain h by simp [hchain])
    rw [hchain] at hrest
    cases a <;> simpa using congrArg List.head? hrest
  rw [hchain] at h0 hnodup hlen hroute
  rw [List.append_assoc, List.cons_append, List.cons_append] at hroute
  -- `x` is not one of the members in front of `p`, or the walk would stop earlier
  refine SlotArray.predecessor_route hroute hhead (fun hm => h0 ?_) (fun hm => ?_) ?_
  · simp only [List.mem_append, List.mem_cons, List.not_mem_nil, or_false] at hm ⊢
    tauto
  · rw [← List.singleton_append, ← List.append_assoc, List.nodup_append] at hnodup
    exact hnodup.2.2 x hm x List.mem_cons_self rfl
  · rw [List.length_append, List.length_cons] at hlen
    have := hL.size_eq
    omega

/-! ## Lookups -/

section Lookup

variable [DecidableEq K]

/-- The search for a stored key ends at its slot, and what it read before are the members of
the chain in front. The search for any other key ends without a find. -/
theorem trail_spec (hL : t.LaidOut L) (key : K) (dangling : Fault) :
    (∃ a j b, L.chain (t.home key) = a ++ j :: b ∧ t.slots.node.key j = some key ∧
      t.trail key dangling = .ok (some ⟨j, a.reverse, true⟩)) ∨
    (¬ t.Has key ∧ ∃ r, t.trail key dangling = .ok r ∧ ∀ x ∈ r, x.found = false) := by
  rcases hL.home_cases key with ⟨prev, next, hs, -, hnil⟩ | ⟨next, k, v, rest, hs, hk, hchain⟩ |
    ⟨next, k, v, a, p, b, hs, hk, hchain, hnil⟩
  · refine .inr ⟨hL.absent_of_chain_eq_nil hnil, none, ?_, fun x hx => by cases hx⟩
    rw [trail, SlotArray.read_eq hs]
    rfl
  · rcases hL.search_spec (a := []) key dangling hchain with
      ⟨a, j, b, hc, hj, hsearch⟩ | ⟨hne, a, j, -, hsearch⟩
    · exact .inl ⟨a, j, b, hchain.trans hc, hj, trail_eq_some hs hsearch⟩
    · refine .inr ⟨hL.absent_of_chain fun j hj => ?_, _, trail_eq_some hs hsearch, ?_⟩
      · rw [hchain] at hj
        exact hne j hj
      · intro x hx
        cases hx
        rfl
  · -- the search runs along the rest of another chain, where the key cannot be
    have habsent := hL.absent_of_chain_eq_nil hnil
    rw [List.append_cons] at hchain
    refine .inr ⟨habsent, ?_⟩
    rcases hL.search_spec key dangling hchain with
      ⟨a, j, b, hc, hj, hsearch⟩ | ⟨hne, a, j, -, hsearch⟩
    · exact absurd (has_iff.mpr ⟨j, hj⟩) habsent
    · refine ⟨_, trail_eq_some hs hsearch, fun x hx => ?_⟩
      cases hx
      rfl

/-- A lookup answers with the slot of the key, if there is one. -/
theorem find_spec (hL : t.LaidOut L) (key : K) :
    (∃ i, t.slots.node.key i = some key ∧ t.find key = .ok (some i)) ∨
    (¬ t.Has key ∧ t.find key = .ok none) := by
  rcases hL.trail_spec key .keyOfFree with ⟨a, j, b, -, hj, htrail⟩ | ⟨habsent, r, htrail, hr⟩
  · refine .inl ⟨j, hj, ?_⟩
    rw [find, htrail]
    rfl
  · refine .inr ⟨habsent, ?_⟩
    rw [find, htrail]
    cases r with
    | none => rfl
    | some x =>
      have hx := hr x rfl
      show (pure (if x.found then some x.last else none) : Except Fault (Option Nat)) = _
      rw [hx]
      rfl

end Lookup

end LaidOut

end Table

end HomeChain

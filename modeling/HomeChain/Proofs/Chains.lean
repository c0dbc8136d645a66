import HomeChain.Proofs.Route
import Mathlib.Logic.Function.Basic

/-!
# Home chains

Of the used slots only two things matter here: which key slot `i` holds, `key i`, and which
slot its chain link names, `succ i`. `Chains home key succ chain` says that these links thread
the used slots into chains, one for each home address: the chain of `h` starts in slot `h`,
visits the slots whose keys have home address `h`, and ends in the null link.

The changes that insertion and removal make to the links are changes of one list:

* an empty chain is opened, a chain is extended at its end;
* a member moves to another slot;
* a member is dropped from the end, or overwritten by its successor.
-/

namespace HomeChain

open Function (update update_self update_of_ne)

variable {K : Type}

/-- Two neighbours in a list without repetition differ from each other and from all the rest. -/
theorem ne_of_nodup_pair {x y : Nat} {a b : List Nat} (h : (a ++ x :: y :: b).Nodup) :
    x ≠ y ∧ ∀ i ∈ a ++ b, i ≠ x ∧ i ≠ y := by
  have hx := List.nodup_middle.mp h
  have hy : (y :: ((a ++ [x]) ++ b)).Nodup := by
    rw [← List.nodup_middle]
    simpa using h
  simp only [List.nodup_cons, List.mem_append, List.mem_cons] at hx hy
  refine ⟨fun hxy => hx.1 (by simp [hxy]), fun i hi => ⟨?_, ?_⟩⟩
  · rintro rfl
    exact hx.1 ((List.mem_append.mp hi).imp id .inr)
  · rintro rfl
    exact hy.1 ((List.mem_append.mp hi).imp .inl id)

/-- The chain links thread the used slots into the chains of their home addresses. -/
structure Chains (home : K → Nat) (key : Nat → Option K) (succ : Nat → Option Nat)
    (chain : Nat → List Nat) : Prop where
  /-- The anchor holds no key. -/
  anchor : key 0 = none
  /-- The links of the members lead along the chain, and the last one is null. -/
  route : ∀ h, Route succ (chain h ++ [0])
  /-- A chain starts in its home slot. -/
  head : ∀ h i, (chain h).head? = some i → i = h
  /-- The members are the slots of the keys with this home address. -/
  mem_iff : ∀ h i, i ∈ chain h ↔ ∃ k, key i = some k ∧ home k = h
  /-- No key is stored twice. -/
  key_inj : ∀ i j k, key i = some k → key j = some k → i = j

namespace Chains

variable {home : K → Nat} {key key' : Nat → Option K} {succ succ' : Nat → Option Nat}
  {chain : Nat → List Nat} {g h i j p s t x : Nat} {k : K} {a b : List Nat}

theorem ne_zero_of_key (hc : Chains home key succ chain) (hi : key i = some k) : i ≠ 0 := by
  rintro rfl
  rw [hc.anchor] at hi
  cases hi

theorem zero_notMem (hc : Chains home key succ chain) (h : Nat) : 0 ∉ chain h := by
  intro h0
  obtain ⟨k, hk, -⟩ := (hc.mem_iff h 0).mp h0
  exact hc.ne_zero_of_key hk rfl

theorem nodup (hc : Chains home key succ chain) (h : Nat) : (chain h).Nodup :=
  (hc.route h).nodup (hc.zero_notMem h)

/-- Two neighbours on a chain differ from each other and from all other members. -/
theorem ne_of_neighbours (hc : Chains home key succ chain) (hx : chain h = a ++ i :: j :: b) :
    i ≠ j ∧ ∀ m ∈ a ++ b, m ≠ i ∧ m ≠ j := by
  have hnodup := hc.nodup h
  rw [hx] at hnodup
  exact ne_of_nodup_pair hnodup

theorem mem_of_key (hc : Chains home key succ chain) (hi : key i = some k) :
    i ∈ chain (home k) :=
  (hc.mem_iff (home k) i).mpr ⟨k, hi, rfl⟩

/-- A slot is on one chain at most. -/
theorem eq_of_mem (hc : Chains home key succ chain) (hg : i ∈ chain g) (hh : i ∈ chain h) :
    g = h := by
  obtain ⟨k, hk, rfl⟩ := (hc.mem_iff g i).mp hg
  obtain ⟨k', hk', rfl⟩ := (hc.mem_iff h i).mp hh
  rw [hk, Option.some.injEq] at hk'
  rw [hk']

/-- A chain with members has its home slot for a head. -/
theorem eq_cons (hc : Chains home key succ chain) (hi : i ∈ chain h) :
    ∃ rest, chain h = h :: rest := by
  cases hch : chain h with
  | nil => rw [hch] at hi; simp at hi
  | cons j rest =>
    obtain rfl : j = h := hc.head h j (by rw [hch]; rfl)
    exact ⟨rest, rfl⟩

/-- A chain is empty unless its home slot holds a key with this home address. -/
theorem eq_nil (hc : Chains home key succ chain) (hh : ∀ k, key h = some k → home k ≠ h) :
    chain h = [] := by
  refine List.eq_nil_iff_forall_not_mem.mpr fun i hi => ?_
  obtain ⟨rest, hrest⟩ := hc.eq_cons hi
  obtain ⟨k, hk, hkh⟩ := (hc.mem_iff h h).mp (hrest ▸ List.mem_cons_self)
  exact hh k hk hkh

/-- Two ways to thread the same slots are one. -/
theorem chain_unique {chain' : Nat → List Nat} (hc : Chains home key succ chain)
    (hc' : Chains home key succ chain') : chain = chain' := by
  funext h
  by_cases hh : ∃ k, key h = some k ∧ home k = h
  · obtain ⟨a, ha⟩ := hc.eq_cons ((hc.mem_iff h h).mpr hh)
    obtain ⟨b, hb⟩ := hc'.eq_cons ((hc'.mem_iff h h).mpr hh)
    have h0 := hc.zero_notMem h
    have h0' := hc'.zero_notMem h
    have hr := hc.route h
    have hr' := hc'.route h
    rw [ha] at h0 hr
    rw [hb] at h0' hr'
    rw [ha, hb, hr.unique hr' (fun hm => h0 (List.mem_cons_of_mem h hm))
      (fun hm => h0' (List.mem_cons_of_mem h hm))]
  · have hne : ∀ k, key h = some k → home k ≠ h := fun k hk hkh => hh ⟨k, hk, hkh⟩
    rw [hc.eq_nil hne, hc'.eq_nil hne]

/-- A slot of one chain is not a slot of another. -/
theorem ne_of_mem (hc : Chains home key succ chain) (hgh : g ≠ h) (hi : i ∈ chain g)
    (hj : j ∈ chain h) : i ≠ j := by
  intro hij
  exact hgh (hc.eq_of_mem hi (hij ▸ hj))

/-- A free slot is on no chain. -/
theorem ne_of_free (hc : Chains home key succ chain) (hs : key s = none) (hi : i ∈ chain g) :
    i ≠ s := by
  intro his
  obtain ⟨k, hk, -⟩ := (hc.mem_iff g i).mp hi
  rw [his, hs] at hk
  cases hk

/-- No member of a chain holds a key with another home address. -/
theorem key_ne_of_mem (hc : Chains home key succ chain) (hi : i ∈ chain h) (hk : home k ≠ h) :
    key i ≠ some k := by
  intro hik
  exact hk (hc.eq_of_mem (hc.mem_of_key hik) hi)

/-! ## Changes of the keys -/

/-- The slots with the key `k` stay where neither the key overwritten nor the one written is `k`. -/
theorem update_key_iff {o : Option K} (hold : key s ≠ some k) (hnew : o ≠ some k) (i : Nat) :
    update key s o i = some k ↔ key i = some k := by
  by_cases his : i = s
  · rw [his, update_self]
    exact ⟨fun h => absurd h hnew, fun h => absurd h hold⟩
  · rw [update_of_ne his]

/-- The slots with the key `k` stay where another key moves from `x` to `s`. -/
theorem move_key_iff (hs : key s ≠ some k) (hx : key x ≠ some k) (i : Nat) :
    update (update key s (key x)) x none i = some k ↔ key i = some k := by
  have hmove := update_key_iff hs hx
  rw [update_key_iff (fun h => hx ((hmove x).mp h)) (by simp), hmove]

/-- Where a new key is written, no key is stored twice afterwards. -/
theorem key_inj_update (hc : Chains home key succ chain) (hnew : ∀ i, key i ≠ some k) (h : Nat) :
    ∀ i j k', update key h (some k) i = some k' → update key h (some k) j = some k' → i = j := by
  intro i j k' hi hj
  rw [Function.update_apply] at hi hj
  split at hi <;> split at hj
  · rename_i h₁ h₂
    rw [h₁, h₂]
  · rw [← hi] at hj
    exact absurd hj (hnew j)
  · rw [← hj] at hi
    exact absurd hi (hnew i)
  · exact hc.key_inj i j k' hi hj

/-- Where a slot is emptied, no key is stored twice afterwards. -/
theorem key_inj_erase (hc : Chains home key succ chain) (x : Nat) :
    ∀ i j k', update key x none i = some k' → update key x none j = some k' → i = j := by
  intro i j k' hi hj
  rw [Function.update_apply] at hi hj
  split at hi
  · cases hi
  · split at hj
    · cases hj
    · exact hc.key_inj i j k' hi hj

/-- Where a key moves from `x` to `s`, no key is stored twice afterwards. -/
theorem key_inj_move (hc : Chains home key succ chain) (x s : Nat) :
    ∀ i j k', update (update key s (key x)) x none i = some k' →
      update (update key s (key x)) x none j = some k' → i = j := by
  intro i j k' hi hj
  rw [Function.update_apply, Function.update_apply] at hi hj
  split at hi
  · cases hi
  · rename_i hix
    split at hj
    · cases hj
    · rename_i hjx
      split at hi <;> split at hj
      · rename_i his hjs
        rw [his, hjs]
      · exact absurd (hc.key_inj x j k' hi hj).symm hjx
      · exact absurd (hc.key_inj i x k' hi hj) hix
      · exact hc.key_inj i j k' hi hj

/-! ## Changes of one chain -/

/-- The slots of one chain, and unused ones, may change as long as they form a chain again. -/
theorem modify {c : List Nat} (hc : Chains home key succ chain)
    (hroute : Route succ' (c ++ [0])) (hhead : ∀ i, c.head? = some i → i = h)
    (hmem : ∀ i, i ∈ c ↔ ∃ k, key' i = some k ∧ home k = h)
    (hkey : ∀ i k, home k ≠ h → (key' i = some k ↔ key i = some k))
    (hsucc : ∀ g i, g ≠ h → i ∈ chain g → succ' i = succ i)
    (hanchor : key' 0 = none)
    (hinj : ∀ i j k, key' i = some k → key' j = some k → i = j) :
    Chains home key' succ' (update chain h c) := by
  -- the chain of `h` is the new list, and the other ones are not touched
  refine ⟨hanchor, fun g => ?_, fun g i hi => ?_, fun g i => ?_, hinj⟩
  · by_cases hgh : g = h
    · rw [hgh, update_self]
      exact hroute
    · rw [update_of_ne hgh]
      exact (hc.route g).congr fun i hi => hsucc g i hgh hi
  · by_cases hgh : g = h
    · rw [hgh, update_self] at hi
      rw [hgh]
      exact hhead i hi
    · rw [update_of_ne hgh] at hi
      exact hc.head g i hi
  · by_cases hgh : g = h
    · rw [hgh, update_self]
      exact hmem i
    · rw [update_of_ne hgh, hc.mem_iff]
      refine exists_congr fun k => and_congr_left fun hk => ?_
      rw [hkey i k (hk ▸ hgh)]

/-- A key is stored in its free home slot, as a chain of its own. -/
theorem openAt (hc : Chains home key succ chain) (hh : key h = none) (h0 : h ≠ 0)
    (hk : home k = h) (hnew : ∀ i, key i ≠ some k) :
    Chains home (update key h (some k)) (update succ h (some 0)) (update chain h [h]) := by
  -- the home slot is free, so there is no chain yet
  have hnil : chain h = [] := hc.eq_nil fun k hk => by
    rw [hh] at hk
    cases hk
  have hkey : ∀ i k', home k' ≠ h → (update key h (some k) i = some k' ↔ key i = some k') := by
    intro i k' hk'
    refine update_key_iff (by simp [hh]) ?_ i
    intro hkk
    exact hk' (Option.some.inj hkk ▸ hk)
  refine hc.modify ?_ ?_ (fun i => ?_) hkey (fun g i hgh hi => ?_) ?_ (hc.key_inj_update hnew h)
  · exact Route.cons_cons.mpr ⟨update_self .., Route.singleton 0⟩
  · intro i hi
    exact (Option.some.inj hi).symm
  · -- a key with this home address in another slot would be on the chain
    constructor
    · intro hi
      rw [List.mem_singleton.mp hi, update_self]
      exact ⟨k, rfl, hk⟩
    · rintro ⟨k', hk', hh'⟩
      by_contra hne
      rw [update_of_ne (by simpa using hne)] at hk'
      have hmem := hc.mem_of_key hk'
      rw [hh', hnil] at hmem
      cases hmem
  · rw [update_of_ne (hc.ne_of_free hh hi)]
  · rw [update_of_ne (Ne.symm h0), hc.anchor]

/-- A key is stored in a free slot behind the end `t` of its chain. -/
theorem append (hc : Chains home key succ chain) (ht : chain h = a ++ [t]) (hs : key s = none)
    (hs0 : s ≠ 0) (hk : home k = h) (hnew : ∀ i, key i ≠ some k) :
    Chains home (update key s (some k)) (update (update succ t (some s)) s (some 0))
      (update chain h (chain h ++ [s])) := by
  have htmem : t ∈ chain h := by simp [ht]
  have hkey : ∀ i k', home k' ≠ h → (update key s (some k) i = some k' ↔ key i = some k') := by
    intro i k' hk'
    refine update_key_iff (by simp [hs]) ?_ i
    intro hkk
    exact hk' (Option.some.inj hkk ▸ hk)
  have hroute := hc.route h
  have hnodup := hc.nodup h
  rw [ht] at hroute hnodup
  -- the new member goes between the old end and the null link
  refine hc.modify ?_ ?_ (fun i => ?_) hkey (fun g i hgh hi => ?_) ?_ (hc.key_inj_update hnew s)
  · rw [List.append_assoc, List.singleton_append] at hroute
    rw [ht, List.append_assoc, List.append_assoc, List.singleton_append]
    have ht0 : succ t = some 0 := (Route.append_cons.mp hroute).2.head_leads rfl
    refine hroute.interpose (m := []) ?_ ?_ fun i hi => ?_
    · rw [update_of_ne (hc.ne_of_free hs htmem), update_self]
    · rw [update_self, ht0]
    · rw [List.append_nil] at hi
      have hit : i ≠ t := by
        rw [List.nodup_append] at hnodup
        exact hnodup.2.2 i hi t (List.mem_singleton_self t)
      have himem : i ∈ chain h := ht ▸ List.mem_append_left [t] hi
      rw [update_of_ne (hc.ne_of_free hs himem), update_of_ne hit]
  · intro i hi
    refine hc.head h i ?_
    rw [ht] at hi ⊢
    cases a <;> simpa using hi
  · rw [List.mem_append, hc.mem_iff, List.mem_singleton]
    by_cases his : i = s
    · rw [his, update_self]
      exact ⟨fun _ => ⟨k, rfl, hk⟩, fun _ => .inr rfl⟩
    · rw [update_of_ne his]
      exact ⟨fun hi => hi.resolve_right his, .inl⟩
  · rw [update_of_ne (hc.ne_of_free hs hi), update_of_ne (hc.ne_of_mem hgh hi htmem)]
  · rw [update_of_ne (Ne.symm hs0), hc.anchor]

/-- A member that is not the head moves to a free slot; `p` is in front of it. -/
theorem move (hc : Chains home key succ chain) (hx : chain g = a ++ p :: x :: b)
    (hs : key s = none) (hs0 : s ≠ 0) :
    Chains home (update (update key s (key x)) x none)
      (update (update (update succ s (succ x)) p (some s)) x none)
      (update chain g (a ++ p :: s :: b)) := by
  have hmem : ∀ i, i ∈ chain g ↔ i ∈ a ∨ i = p ∨ i = x ∨ i ∈ b := by simp [hx]
  have hpmem : p ∈ chain g := (hmem p).mpr (.inr (.inl rfl))
  have hxmem : x ∈ chain g := (hmem x).mpr (.inr (.inr (.inl rfl)))
  have hsx : s ≠ x := Ne.symm (hc.ne_of_free hs hxmem)
  have hps : p ≠ s := hc.ne_of_free hs hpmem
  have hroute := hc.route g
  rw [hx] at hroute
  have hpx := hc.ne_of_neighbours hx
  -- the new list has the members of the old one, and `s` in place of `x`
  have hiff : ∀ i, i ∈ a ++ p :: s :: b ↔ i = s ∨ (i ≠ x ∧ i ∈ chain g) := by
    intro i
    rw [hmem]
    simp only [List.mem_append, List.mem_cons]
    have hpne : p ≠ x := hpx.1
    have hne := hpx.2 i
    rw [List.mem_append] at hne
    grind
  refine hc.modify ?_ ?_ (fun i => ?_) (fun i k hk => ?_) (fun h i hh hi => ?_) ?_
    (hc.key_inj_move x s)
  · rw [List.append_assoc, List.cons_append, List.cons_append] at hroute ⊢
    refine hroute.replace ?_ ?_ fun i hi => ?_
    · rw [update_of_ne hpx.1, update_self]
    · rw [update_of_ne hsx, update_of_ne (Ne.symm hps), update_self]
    · obtain ⟨hip, hix⟩ := hpx.2 i hi
      have himem : i ∈ chain g := (hmem i).mpr ((List.mem_append.mp hi).imp id fun h => .inr (.inr h))
      rw [update_of_ne hix, update_of_ne hip, update_of_ne (hc.ne_of_free hs himem)]
  · intro i hi
    refine hc.head g i ?_
    rw [hx]
    cases a <;> simpa using hi
  · rw [hiff]
    by_cases hix : i = x
    · rw [hix, update_self]
      exact ⟨fun h' => h'.elim (fun h => absurd h.symm hsx) fun h => absurd rfl h.1,
        fun ⟨k, hk, _⟩ => nomatch hk⟩
    rw [update_of_ne hix]
    by_cases his : i = s
    · rw [his, update_self, ← hc.mem_iff]
      exact ⟨fun _ => hxmem, fun _ => .inl rfl⟩
    · rw [update_of_ne his, ← hc.mem_iff]
      exact ⟨fun h' => (h'.resolve_left his).2, fun h' => .inr ⟨hix, h'⟩⟩
  · exact move_key_iff (by simp [hs]) (hc.key_ne_of_mem hxmem hk) i
  · rw [update_of_ne (hc.ne_of_mem hh hi hxmem), update_of_ne (hc.ne_of_mem hh hi hpmem),
      update_of_ne (hc.ne_of_free hs hi)]
  · have hx0 : x ≠ 0 := ne_of_mem_of_not_mem hxmem (hc.zero_notMem g)
    rw [update_of_ne (Ne.symm hx0), update_of_ne (Ne.symm hs0), hc.anchor]

/-- The only member of a chain is dropped. -/
theorem close (hc : Chains home key succ chain) (hx : chain h = [x]) :
    Chains home (update key x none) (update succ x none) (update chain h []) := by
  have hmem : ∀ i, i ∈ chain h ↔ i = x := by simp [hx]
  have hxmem : x ∈ chain h := (hmem x).mpr rfl
  -- what has home address `h` and is not `x` would have been a second member
  refine hc.modify (Route.singleton 0) ?_ (fun i => ?_) (fun i k hk => ?_) (fun g i hgh hi => ?_) ?_
    (hc.key_inj_erase x)
  · intro i hi
    cases hi
  · simp only [List.not_mem_nil, false_iff, not_exists, not_and]
    intro k hk hkh
    by_cases hix : i = x
    · rw [hix, update_self] at hk
      cases hk
    · rw [update_of_ne hix] at hk
      exact hix ((hmem i).mp (hkh ▸ hc.mem_of_key hk))
  · exact update_key_iff (hc.key_ne_of_mem hxmem hk) (by simp) i
  · rw [update_of_ne (hc.ne_of_mem hgh hi hxmem)]
  · have hx0 : x ≠ 0 := ne_of_mem_of_not_mem hxmem (hc.zero_notMem h)
    rw [update_of_ne (Ne.symm hx0), hc.anchor]

/-- The last member of a chain is dropped; `p` is in front of it. -/
theorem dropLast (hc : Chains home key succ chain) (hx : chain h = a ++ [p, x]) :
    Chains home (update key x none) (update (update succ p (some 0)) x none)
      (update chain h (a ++ [p])) := by
  have hmem : ∀ i, i ∈ chain h ↔ i ∈ a ∨ i = p ∨ i = x := by simp [hx]
  have hpmem : p ∈ chain h := (hmem p).mpr (.inr (.inl rfl))
  have hxmem : x ∈ chain h := (hmem x).mpr (.inr (.inr rfl))
  have hroute := hc.route h
  rw [hx] at hroute
  have hne := hc.ne_of_neighbours hx
  rw [List.append_nil] at hne
  -- the new list has the members of the old one, `x` excepted
  have hiff : ∀ i, i ∈ a ++ [p] ↔ i ≠ x ∧ i ∈ chain h := by
    intro i
    rw [hmem, List.mem_append, List.mem_singleton]
    have hpx := hne.1
    have hia := hne.2 i
    grind
  refine hc.modify ?_ ?_ (fun i => ?_) (fun i k hk => ?_) (fun g i hgh hi => ?_) ?_
    (hc.key_inj_erase x)
  · rw [List.append_assoc, List.cons_append] at hroute ⊢
    have hx0 : succ x = some 0 := (Route.append_cons.mp hroute).2.tail.head_leads rfl
    refine hroute.bypass (m := []) ?_ fun i hi => ?_
    · rw [update_of_ne hne.1, update_self, hx0]
    · rw [List.append_nil] at hi
      rw [update_of_ne (hne.2 i hi).2, update_of_ne (hne.2 i hi).1]
  · intro i hi
    refine hc.head h i ?_
    rw [hx]
    cases a <;> simpa using hi
  · rw [hiff, hc.mem_iff]
    by_cases hix : i = x
    · rw [hix, update_self]
      exact ⟨fun h' => absurd rfl h'.1, fun ⟨k, hk, _⟩ => nomatch hk⟩
    · rw [update_of_ne hix]
      exact ⟨fun h' => h'.2, fun h' => ⟨hix, h'⟩⟩
  · exact update_key_iff (hc.key_ne_of_mem hxmem hk) (by simp) i
  · rw [update_of_ne (hc.ne_of_mem hgh hi hxmem), update_of_ne (hc.ne_of_mem hgh hi hpmem)]
  · have hx0 : x ≠ 0 := ne_of_mem_of_not_mem hxmem (hc.zero_notMem h)
    rw [update_of_ne (Ne.symm hx0), hc.anchor]

/-- A member is overwritten by the one behind it, whose slot falls vacant. -/
theorem pull (hc : Chains home key succ chain) (hx : chain h = a ++ x :: j :: b) :
    Chains home (update (update key x (key j)) j none) (update (update succ x (succ j)) j none)
      (update chain h (a ++ x :: b)) := by
  have hmem : ∀ i, i ∈ chain h ↔ i ∈ a ∨ i = x ∨ i = j ∨ i ∈ b := by simp [hx]
  have hxmem : x ∈ chain h := (hmem x).mpr (.inr (.inl rfl))
  have hjmem : j ∈ chain h := (hmem j).mpr (.inr (.inr (.inl rfl)))
  have hroute := hc.route h
  rw [hx] at hroute
  have hne := hc.ne_of_neighbours hx
  -- slot `j` leaves the list, and its key is in slot `x` from now on
  have hiff : ∀ i, i ∈ a ++ x :: b ↔ i ≠ j ∧ i ∈ chain h := by
    intro i
    rw [hmem, List.mem_append, List.mem_cons]
    have hxj := hne.1
    have hiab := hne.2 i
    rw [List.mem_append] at hiab
    grind
  refine hc.modify ?_ ?_ (fun i => ?_) (fun i k hk => ?_) (fun g i hgh hi => ?_) ?_
    (hc.key_inj_move j x)
  · rw [List.append_assoc, List.cons_append, List.cons_append] at hroute
    rw [List.append_assoc, List.cons_append]
    refine hroute.bypass ?_ fun i hi => ?_
    · rw [update_of_ne hne.1, update_self]
    · rw [update_of_ne (hne.2 i hi).2, update_of_ne (hne.2 i hi).1]
  · intro i hi
    refine hc.head h i ?_
    rw [hx]
    cases a <;> simpa using hi
  · obtain ⟨k, hk, hkh⟩ := (hc.mem_iff h j).mp hjmem
    rw [hiff]
    by_cases hij : i = j
    · rw [hij, update_self]
      exact ⟨fun h' => absurd rfl h'.1, fun ⟨k, hk, _⟩ => nomatch hk⟩
    rw [update_of_ne hij]
    by_cases hix : i = x
    · rw [hix, update_self]
      exact ⟨fun _ => ⟨k, hk, hkh⟩, fun _ => ⟨hix ▸ hij, hxmem⟩⟩
    · rw [update_of_ne hix, ← hc.mem_iff]
      exact ⟨fun h' => h'.2, fun h' => ⟨hij, h'⟩⟩
  · exact move_key_iff (hc.key_ne_of_mem hxmem hk) (hc.key_ne_of_mem hjmem hk) i
  · rw [update_of_ne (hc.ne_of_mem hgh hi hjmem), update_of_ne (hc.ne_of_mem hgh hi hxmem)]
  · have hj0 : j ≠ 0 := ne_of_mem_of_not_mem hjmem (hc.zero_notMem h)
    have hx0 : x ≠ 0 := ne_of_mem_of_not_mem hxmem (hc.zero_notMem h)
    rw [update_of_ne (Ne.symm hj0), update_of_ne (Ne.symm hx0), hc.anchor]

end Chains

end HomeChain

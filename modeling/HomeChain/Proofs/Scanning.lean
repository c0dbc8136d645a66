import HomeChain.Proofs.Examination.Verdict
import HomeChain.Proofs.Iteration
import HomeChain.Proofs.Refinement

/-!
# Lookups and scans

A search reads the slots of one chain, and it does not ask whether that is the chain of the key:
where the home slot of a key is lent to another chain, the search runs along the rest of that
one. On a table that passes an examination it still finds what a scan of the whole array finds,

  `t.find key = ok (some i) ↔ slot i holds key`,

and so does every operation that starts with a search. What iteration gives is what lookups give.
-/

namespace HomeChain

variable {w : LinkWidth} {K V : Type}

namespace Table

variable {t : Table w K V} {L : Layout} {key : K} {i j : Nat} {v : V}

/-- A scan of the array finds the key in slot `i`. -/
def KeyAt (t : Table w K V) (key : K) (i : Nat) : Prop :=
  ∃ next v, t.slots[i]? = some (.used next key v)

theorem keyAt_iff : t.KeyAt key i ↔ t.slots.node.key i = some key :=
  SlotArray.key_eq_some_iff.symm

variable [DecidableEq K]

/-- What searches for a key come to, in terms of a scan of the array and of iteration. -/
structure SearchesLikeScan (t : Table w K V) (key : K) : Prop where
  /-- No two slots hold the key. -/
  unique : ∀ i j, t.KeyAt key i → t.KeyAt key j → i = j
  /-- The search finds the slot that holds the key, if there is one. -/
  find : ∃ r, t.find key = .ok r ∧ ∀ i, r = some i ↔ t.KeyAt key i
  contains : ∃ b, t.contains key = .ok b ∧ (b = true ↔ ∃ i, t.KeyAt key i)
  /-- Where a value is replaced, it is the one in this slot. -/
  modify_some : ∀ f i next v, t.slots[i]? = some (.used next key v) →
    t.modify key f =
      .ok ({ t with slots := t.slots.setIfInBounds i (.used next key (f v)) }, some v)
  modify_none : ∀ f, (∀ i, ¬ t.KeyAt key i) → t.modify key f = .ok (t, none)
  /-- The search that a removal starts with. -/
  remove : ∃ r, t.trail key .freeInChain = .ok r ∧
    ∀ i, (∃ x ∈ r, x.found = true ∧ x.last = i) ↔ t.KeyAt key i
  /-- The search that storing the key starts with, where its home slot holds an entry with the same
  home address. -/
  put : t.Shared key → ∃ x, t.slots.search key .keyOfFree t.slots.size [] (t.home key) = .ok x ∧
    ∀ i, (x.found = true ∧ x.last = i) ↔ t.KeyAt key i
  /-- Where storing the key makes no search, no slot holds it. -/
  put_new : ¬ t.Shared key → ∀ i, ¬ t.KeyAt key i
  /-- The value found is the one that iteration gives for the key, and it gives the key once. -/
  get : ∃ r, t.get key = .ok r ∧ ∀ n, t.len ≤ n → ∀ v,
    (r = some v ↔ (key, v) ∈ t.yielded n) ∧
      (r = some v → (t.yielded n).filter (fun e => e.1 = key) = [(key, v)])

/-! ## What a scan finds -/

omit [DecidableEq K] in
theorem has_iff_keyAt : t.Has key ↔ ∃ i, t.KeyAt key i := by
  simp only [keyAt_iff, has_iff]

/-- If entries have different keys, then one of them is the only one with its key. -/
theorem filter_key_eq {l : List (K × V)} (hl : l.Pairwise fun a b => a.1 ≠ b.1)
    (hmem : (key, v) ∈ l) : l.filter (fun e => e.1 = key) = [(key, v)] := by
  obtain ⟨a, b, rfl⟩ := List.append_of_mem hmem
  rw [List.pairwise_append, List.pairwise_cons] at hl
  obtain ⟨-, ⟨hb, -⟩, ha⟩ := hl
  have ha' : a.filter (fun e => e.1 = key) = [] := by
    rw [List.filter_eq_nil_iff]
    intro e he
    simpa using ha e he _ List.mem_cons_self
  have hb' : b.filter (fun e => e.1 = key) = [] := by
    rw [List.filter_eq_nil_iff]
    intro e he
    simpa using Ne.symm (hb e he)
  rw [List.filter_append, List.filter_cons, ha', hb']
  simp

namespace LaidOut

omit [DecidableEq K] in
theorem keyAt_eq_iff (hL : t.LaidOut L) (hi : t.slots.node.key i = some key) (j : Nat) :
    i = j ↔ t.KeyAt key j := by
  rw [keyAt_iff]
  constructor
  · rintro rfl
    exact hi
  · intro hj
    exact (hL.eq_of_key hi j hj).symm

omit [DecidableEq K] in
theorem mem_entries_iff (hL : t.LaidOut L) : (key, v) ∈ t.entries ↔ t.Holds key v := by
  have hanchor := hL.circle.node_eq_none List.mem_cons_self
  rw [entries_eq hL.len_eq_usedCount, List.mem_filterMap, SlotArray.exists_mem_drop_iff hanchor]
  exact Iff.rfl

omit [DecidableEq K] in
/-- No key is iterated over twice. -/
theorem entries_pairwise (hL : t.LaidOut L) : t.entries.Pairwise fun a b => a.1 ≠ b.1 := by
  rw [entries_eq hL.len_eq_usedCount, List.pairwise_filterMap]
  refine hL.pairwise_distinct.imp ?_
  rintro slot slot' hdistinct ⟨k, v⟩ hkv ⟨k', v'⟩ hkv' rfl
  exact hdistinct _ v v' hkv hkv'

/-! ## What a search finds -/

/-- The search in a chain whose head holds a key with the home address of `key`. -/
theorem search_home (hL : t.LaidOut L) (hhome : t.Shared key) (dangling : Fault) :
    ∃ x, t.slots.search key dangling t.slots.size [] (t.home key) = .ok x ∧
      ∀ i, (x.found = true ∧ x.last = i) ↔ t.KeyAt key i := by
  obtain ⟨next, k, v, hs, hk⟩ := hhome
  obtain ⟨rest, hrest⟩ :=
    hL.chains.eq_cons (hL.mem_chain_iff.mpr ⟨next, k, v, hs, hk⟩ : t.home key ∈ _)
  rcases hL.search_spec (a := []) key dangling hrest with
    ⟨a, j, b, -, hj, hsearch⟩ | ⟨hne, a, j, -, hsearch⟩
  · refine ⟨_, hsearch, fun i => ?_⟩
    rw [← hL.keyAt_eq_iff hj]
    exact and_iff_right rfl
  · have habsent : ¬ t.Has key := hL.absent_of_chain fun i hi => by
      rw [hrest] at hi
      exact hne i hi
    refine ⟨_, hsearch, fun i => ⟨fun h => ?_, fun hi => ?_⟩⟩
    · cases h.1
    · exact absurd (has_iff_keyAt.mpr ⟨i, hi⟩) habsent

omit [DecidableEq K] in
/-- A key whose home slot is free or lent is in no slot. -/
theorem absent_of_not_shared (hL : t.LaidOut L) (hhome : ¬ t.Shared key) : ¬ t.Has key := by
  rcases hL.home_cases key with ⟨prev, next, -, -, hnil⟩ | ⟨next, k, v, rest, hs, hk, -⟩ |
    ⟨next, k, v, a, p, b, -, -, -, hnil⟩
  · exact hL.absent_of_chain_eq_nil hnil
  · exact absurd ⟨next, k, v, hs, hk⟩ hhome
  · exact hL.absent_of_chain_eq_nil hnil

/-- A lookup answers with the slot that holds the key. -/
theorem find_keyAt (hL : t.LaidOut L) (key : K) :
    ∃ r, t.find key = .ok r ∧ ∀ i, r = some i ↔ t.KeyAt key i := by
  rcases hL.find_spec key with ⟨i, hi, hfind⟩ | ⟨habsent, hfind⟩
  · refine ⟨some i, hfind, fun j => ?_⟩
    rw [Option.some.injEq, hL.keyAt_eq_iff hi]
  · refine ⟨none, hfind, fun j => ⟨fun h => ?_, fun hj => ?_⟩⟩
    · cases h
    · exact absurd (has_iff_keyAt.mpr ⟨j, hj⟩) habsent

theorem find_eq_some (hL : t.LaidOut L) {next : Link w}
    (hs : t.slots[i]? = some (.used next key v)) : t.find key = .ok (some i) := by
  obtain ⟨r, hfind, hr⟩ := hL.find_keyAt key
  rw [hfind, (hr i).mpr ⟨next, v, hs⟩]

theorem find_eq_none (hL : t.LaidOut L) (habsent : ∀ i, ¬ t.KeyAt key i) :
    t.find key = .ok none := by
  obtain ⟨r, hfind, hr⟩ := hL.find_keyAt key
  rw [hfind, Option.eq_none_iff_forall_ne_some.mpr fun i hi => habsent i ((hr i).mp hi)]

/-- The search that a removal starts with ends at the slot that holds the key. -/
theorem trail_keyAt (hL : t.LaidOut L) (key : K) (dangling : Fault) :
    ∃ r, t.trail key dangling = .ok r ∧
      ∀ i, (∃ x ∈ r, x.found = true ∧ x.last = i) ↔ t.KeyAt key i := by
  rcases hL.trail_spec key dangling with ⟨a, j, b, -, hj, htrail⟩ | ⟨habsent, r, htrail, hr⟩
  · refine ⟨_, htrail, fun i => ?_⟩
    rw [← hL.keyAt_eq_iff hj]
    simp
  · refine ⟨r, htrail, fun i => ⟨?_, fun hi => ?_⟩⟩
    · rintro ⟨x, hx, hfound, -⟩
      rw [hr x hx] at hfound
      cases hfound
    · exact absurd (has_iff_keyAt.mpr ⟨i, hi⟩) habsent

theorem contains_keyAt (hL : t.LaidOut L) (key : K) :
    ∃ b, t.contains key = .ok b ∧ (b = true ↔ ∃ i, t.KeyAt key i) := by
  obtain ⟨r, hfind, hr⟩ := hL.find_keyAt key
  refine ⟨r.isSome, ?_, ?_⟩
  · rw [contains, hfind]
    rfl
  · simp only [Option.isSome_iff_exists, hr]

/-- What is replaced is the value in the slot that holds the key. -/
theorem modify_eq_some (hL : t.LaidOut L) {next : Link w}
    (hs : t.slots[i]? = some (.used next key v)) (f : V → V) : t.modify key f =
      .ok ({ t with slots := t.slots.setIfInBounds i (.used next key (f v)) }, some v) := by
  have hupdate : t.withSlots (fun s => s.updateValue i f) =
      .ok { t with slots := t.slots.setIfInBounds i (.used next key (f v)) } := updateAt_eq hs f
  rw [modify, hL.find_eq_some hs, ok_bind]
  simp only [SlotArray.value_eq hs, ok_bind, hupdate]
  rfl

theorem modify_eq_none (hL : t.LaidOut L) (habsent : ∀ i, ¬ t.KeyAt key i) (f : V → V) :
    t.modify key f = .ok (t, none) := by
  rw [modify, hL.find_eq_none habsent]
  rfl

/-- The value found for a key is the one that iteration gives. -/
theorem get_entries (hL : t.LaidOut L) (key : K) :
    ∃ r, t.get key = .ok r ∧ ∀ v, r = some v ↔ (key, v) ∈ t.entries := by
  rcases hL.find_spec key with ⟨i, hi, hfind⟩ | ⟨habsent, hfind⟩
  · obtain ⟨next, u, hs⟩ := keyAt_iff.mpr hi
    refine ⟨some u, ?_, fun v => ?_⟩
    · rw [get, hfind, ok_bind]
      simp only [SlotArray.value_eq hs, ok_bind]
      rfl
    · have hentry : t.slots.node.entry i = some (key, u) :=
        Nodes.entry_eq_some_iff.mpr ⟨next, SlotArray.node_eq_some_iff.mpr hs⟩
      rw [hL.mem_entries_iff]
      constructor
      · rintro ⟨⟩
        exact ⟨i, hentry⟩
      · rintro ⟨j, hj⟩
        rw [hL.eq_of_key hi j (Nodes.key_of_entry hj), hentry] at hj
        cases hj
        rfl
  · refine ⟨none, ?_, fun v => ⟨fun h => ?_, fun hv => ?_⟩⟩
    · rw [get, hfind]
      rfl
    · cases h
    · exact absurd ⟨v, hL.mem_entries_iff.mp hv⟩ habsent

end LaidOut

/-- On any table that passes an examination, however it came about, whatever starts with a search
for a key, stored or not, does what a scan of the array would have it do. -/
theorem searches_like_scan (hcheck : t.check.outcome = .ok (.ok ())) (key : K) :
    t.SearchesLikeScan key := by
  obtain ⟨L, hL⟩ := inOrder_iff.mp (check_eq_ok_iff.mp hcheck)
  exact {
    unique := fun i j hi hj => (hL.keyAt_eq_iff (keyAt_iff.mp hi) j).mpr hj
    find := hL.find_keyAt key
    contains := hL.contains_keyAt key
    modify_some := fun f i next v hs => hL.modify_eq_some hs f
    modify_none := fun f habsent => hL.modify_eq_none habsent f
    remove := hL.trail_keyAt key .freeInChain
    put := fun hhome => hL.search_home hhome .keyOfFree
    put_new := fun hhome i hi => hL.absent_of_not_shared hhome (has_iff_keyAt.mpr ⟨i, hi⟩)
    get := by
      obtain ⟨r, hget, hr⟩ := hL.get_entries key
      refine ⟨r, hget, fun n hn v => ?_⟩
      rw [t.yielded_eq_entries hn]
      exact ⟨hr v, fun h => filter_key_eq hL.entries_pairwise ((hr v).mp h)⟩ }

/-- Keys `1` and `3` share the home slot `2`, so `3` is lent slot `1`, where the search for the key
`0` reads it. -/
theorem searches_like_scan_lent_home : ∃ t : Table .bits16 Nat Nat,
    t.check.outcome = .ok (.ok ()) ∧ t.home 3 ≠ t.home 0 ∧
      t.slots[t.home 0]? = some (.used .null 3 4) ∧ ∀ key, t.SearchesLikeScan key := by
  let t : Table .bits16 Nat Nat :=
    ⟨.fixed, UInt64.ofNat, #[.free .null (.ofSuccessor 0), .used .null 3 4,
      .used (.ofIndex 1) 1 2], 2, 1⟩
  have hcheck : t.check.outcome = .ok (.ok ()) := by cbv
  exact ⟨t, hcheck, by decide, by cbv, fun key => searches_like_scan hcheck key⟩

end Table

end HomeChain

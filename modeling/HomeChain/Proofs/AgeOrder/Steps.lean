import HomeChain.Proofs.Declines
import HomeChain.Proofs.Scanning

/-!
# Chains in order of age

An entry changes its slot when its home slot is reclaimed, or when the entry in front of it on its
chain is removed. So slots say nothing about which of two keys came first; chains do. A table is
`OrderedBy` a list of keys if the chain of each home address has the keys with this address in the
order of the list,

  `(L.chain h).map t.slots.node.key = (age.filter fun k => t.home k = h).map some`.

A key that is added comes to the end of its chain and of the list, a key that is removed leaves
both, and a value that is replaced changes neither. A table that is rebuilt takes the keys in the
order of the old slots, so it is ordered by those.
-/

namespace HomeChain

open Function (update update_self update_of_ne)

variable {w : LinkWidth} {K V : Type}

/-- The keys of the array, in the order of their slots. -/
def SlotArray.keys (s : SlotArray w K V) : List K := (s.entriesFrom 1).map Prod.fst

/-! ## The keys along a chain -/

namespace Chains

variable {home : K → Nat} {key : Nat → Option K} {succ : Nat → Option Nat}
  {chain : Nat → List Nat} {g h j p s x : Nat} {k : K} {a b l : List Nat}

/-- A slot that was free is on no chain, whatever key it gets. -/
theorem map_fill (hc : Chains home key succ chain) (hs : key s = none) (o : Option K) (y : Nat) :
    (chain y).map (update key s o) = (chain y).map key := by
  apply List.map_congr_left
  intro i hi
  exact update_of_ne (hc.ne_of_free hs hi) o key

/-- A chain that is opened has one key. -/
theorem map_openAt (hc : Chains home key succ chain) (hh : key h = none) (k : K) (y : Nat) :
    (update chain h [h] y).map (update key h (some k)) =
      (chain y).map key ++ if h = y then [some k] else [] := by
  by_cases hy : h = y
  · -- the slot was free, so there was no chain
    have hnil : chain h = [] := by
      apply hc.eq_nil
      intro k hk
      rw [hh] at hk
      cases hk
    rw [if_pos hy, ← hy, hnil, update_self, List.map_singleton, update_self]
    rfl
  · rw [if_neg hy, update_of_ne (Ne.symm hy), hc.map_fill hh, List.append_nil]

/-- A chain that is extended has one more key, which is the last. -/
theorem map_append (hc : Chains home key succ chain) (hs : key s = none) (k : K) (h y : Nat) :
    (update chain h (chain h ++ [s]) y).map (update key s (some k)) =
      (chain y).map key ++ if h = y then [some k] else [] := by
  by_cases hy : h = y
  · rw [if_pos hy, ← hy, update_self, List.map_append, hc.map_fill hs, List.map_singleton,
      update_self]
  · rw [if_neg hy, update_of_ne (Ne.symm hy), hc.map_fill hs, List.append_nil]

/-- The slots of other chains, and those that are on neither side of the change, keep their keys. -/
theorem map_move (hc : Chains home key succ chain) (hx : chain g = a ++ p :: x :: b)
    (hs : key s = none) (y : Nat) :
    (update chain g (a ++ p :: s :: b) y).map (update (update key s (key x)) x none) =
      (chain y).map key := by
  have hxmem : x ∈ chain g := by simp [hx]
  have hsx : s ≠ x := Ne.symm (hc.ne_of_free hs hxmem)
  have hkept : ∀ z, ∀ i ∈ chain z, i ≠ x →
      update (update key s (key x)) x none i = key i := by
    intro z i hi hix
    rw [update_of_ne hix, update_of_ne (hc.ne_of_free hs hi)]
  by_cases hy : y = g
  · rw [hy, update_self]
    obtain ⟨hpx, hne⟩ := hc.ne_of_neighbours hx
    have hmem : ∀ i ∈ a ++ b, i ∈ chain g := by
      intro i hi
      rw [hx]
      simp only [List.mem_append, List.mem_cons] at hi ⊢
      tauto
    have ha : a.map (update (update key s (key x)) x none) = a.map key :=
      List.map_congr_left fun i hi => hkept g i (hmem i (List.mem_append_left b hi))
        (hne i (List.mem_append_left b hi)).2
    have hb : b.map (update (update key s (key x)) x none) = b.map key :=
      List.map_congr_left fun i hi => hkept g i (hmem i (List.mem_append_right a hi))
        (hne i (List.mem_append_right a hi)).2
    rw [hx, List.map_append, List.map_append, List.map_cons, List.map_cons, List.map_cons,
      List.map_cons, ha, hb, hkept g p (by simp [hx]) hpx, update_of_ne hsx, update_self]
  · rw [update_of_ne hy]
    apply List.map_congr_left
    intro i hi
    exact hkept y i hi (hc.ne_of_mem hy hi hxmem)

/-- A key is in one slot only. -/
theorem notMem_map (hc : Chains home key succ chain) (hx : key x = some k) (hl : x ∉ l) :
    some k ∉ l.map key := by
  intro hk
  obtain ⟨i, hi, hik⟩ := List.mem_map.mp hk
  exact hl (hc.key_inj i x k hik hx ▸ hi)

variable [DecidableEq K]

/-- The last member of a chain is dropped, and with it its key. -/
theorem map_dropLast (hc : Chains home key succ chain) (hx : chain h = a ++ [x])
    (hk : key x = some k) (y : Nat) :
    (update chain h a y).map (update key x none) = ((chain y).map key).erase (some k) := by
  have hxmem : x ∈ chain h := by simp [hx]
  have hkept : ∀ l : List Nat, x ∉ l → l.map (update key x none) = l.map key := by
    intro l hl
    apply List.map_congr_left
    intro i hi
    exact update_of_ne (ne_of_mem_of_not_mem hi hl) none key
  by_cases hy : y = h
  · have hxa : x ∉ a := by
      have hnodup := hc.nodup h
      rw [hx, List.nodup_append] at hnodup
      intro hxa
      exact hnodup.2.2 x hxa x (List.mem_singleton_self x) rfl
    rw [hy, update_self, hx, hkept a hxa, List.map_append, List.erase_append_right _
      (hc.notMem_map hk hxa), List.map_singleton, hk, List.erase_cons_head, List.append_nil]
  · have hxy : x ∉ chain y := fun hxy => hc.ne_of_mem hy hxy hxmem rfl
    rw [update_of_ne hy, hkept _ hxy, List.erase_of_not_mem (hc.notMem_map hk hxy)]

/-- A member of a chain is overwritten by the next one, and its key is gone. -/
theorem map_pull (hc : Chains home key succ chain) (hx : chain h = a ++ x :: j :: b)
    (hk : key x = some k) (y : Nat) :
    (update chain h (a ++ x :: b) y).map (update (update key x (key j)) j none) =
      ((chain y).map key).erase (some k) := by
  have hxmem : x ∈ chain h := by simp [hx]
  have hjmem : j ∈ chain h := by simp [hx]
  have hkept : ∀ l : List Nat, (∀ i ∈ l, i ≠ x ∧ i ≠ j) →
      l.map (update (update key x (key j)) j none) = l.map key := by
    intro l hl
    apply List.map_congr_left
    intro i hi
    rw [update_of_ne (hl i hi).2, update_of_ne (hl i hi).1]
  by_cases hy : y = h
  · obtain ⟨hxj, hne⟩ := hc.ne_of_neighbours hx
    have hxa : x ∉ a := fun hxa => (hne x (List.mem_append_left b hxa)).1 rfl
    have ha := hkept a fun i hi => hne i (List.mem_append_left b hi)
    have hb := hkept b fun i hi => hne i (List.mem_append_right a hi)
    rw [hy, update_self, hx, List.map_append, List.map_append, List.erase_append_right _
      (hc.notMem_map hk hxa), List.map_cons, List.map_cons, List.map_cons, hk,
      List.erase_cons_head, ha, hb, update_of_ne hxj, update_self]
  · have hxy : x ∉ chain y := fun hxy => hc.ne_of_mem hy hxy hxmem rfl
    rw [update_of_ne hy, List.erase_of_not_mem (hc.notMem_map hk hxy)]
    apply hkept
    intro i hi
    exact ⟨hc.ne_of_mem hy hi hxmem, hc.ne_of_mem hy hi hjmem⟩

end Chains

namespace Table

variable {t t' : Table w K V} {L L' : Layout} {age : List K} {key k : K} {value : V} {i c e : Nat}

/-- The table is laid out as `L`, and each chain has its keys in the order of `age`. -/
structure OrderedBy (t : Table w K V) (L : Layout) (age : List K) : Prop where
  laidOut : t.LaidOut L
  nodup : age.Nodup
  keys_eq : ∀ h, (L.chain h).map t.slots.node.key = (age.filter fun k => t.home k = h).map some

namespace LaidOut

/-- Where a new key is added, it comes to the end of its chain. -/
theorem adds_keys {n : Nodes w K V} (hL : t.LaidOut L) (h : t.Adds L key value i n L') (x : Nat) :
    (L'.chain x).map n.key =
      (L.chain x).map t.slots.node.key ++ if t.home key = x then [some key] else [] := by
  have hc := hL.chains
  have hnone : ∀ {s}, s ∈ L.free → t.slots.node.key s = none := fun hs =>
    Nodes.key_eq_none ((hL.mem_free _).mp hs).2.2
  cases h with
  | opened hfree =>
    rw [Nodes.key_update]
    exact hc.map_openAt (hnone (by simp [hfree])) key x
  | @appended _ j rest a hfree hchain =>
    rw [Nodes.key_update, Nodes.key_relink]
    exact hc.map_append (hnone (by simp [hfree])) key (t.home key) x
  | @displaced spare p g rest a b hfree hchain =>
    -- first the occupant of the home slot moves, and then a chain is opened there
    have hmem : spare ∈ L.free := by simp [hfree]
    have hspare : spare ≠ 0 := ((hL.mem_free spare).mp hmem).1.ne'
    have hmoved := hc.move hchain (hnone hmem) hspare
    rw [Nodes.key_update, Nodes.moved, Nodes.key_update, Nodes.key_relink, Nodes.key_update,
      ← hc.map_move hchain (hnone hmem) x]
    exact hmoved.map_openAt (update_self ..) key x

/-- Where a key is removed, it leaves its chain. -/
theorem drops_keys [DecidableEq K] {n : Nodes w K V} (hL : t.LaidOut L)
    (hi : t.slots.node.key i = some key) (h : t.Drops L key i n L') (x : Nat) :
    (L'.chain x).map n.key = ((L.chain x).map t.slots.node.key).erase (some key) := by
  have hc := hL.chains
  cases h with
  | only hchain =>
    rw [Nodes.key_update]
    exact hc.map_dropLast (a := []) hchain hi x
  | @last p a hchain =>
    rw [List.append_cons] at hchain
    rw [Nodes.key_update, Nodes.key_relink]
    exact hc.map_dropLast hchain hi x
  | @inner j a b hchain =>
    rw [Nodes.key_update, Nodes.key_update]
    exact hc.map_pull hchain hi x

end LaidOut

namespace OrderedBy

theorem mem_iff (ho : t.OrderedBy L age) : k ∈ age ↔ t.Has k := by
  have hchain : some k ∈ (L.chain (t.home k)).map t.slots.node.key ↔ k ∈ age := by
    rw [ho.keys_eq, List.mem_map_of_injective (Option.some_injective K), List.mem_filter]
    simp
  rw [← hchain, has_iff, List.mem_map]
  constructor
  · intro h
    obtain ⟨i, -, hi⟩ := h
    exact ⟨i, hi⟩
  · intro h
    obtain ⟨i, hi⟩ := h
    exact ⟨i, ho.laidOut.chains.mem_of_key hi, hi⟩

/-- Without entries there is nothing to put in order. -/
theorem of_empty (hL : t.LaidOut L) (hempty : ∀ k, ¬ t.Has k) : t.OrderedBy L [] := by
  refine ⟨hL, List.nodup_nil, fun h => ?_⟩
  have hnil : L.chain h = [] := by
    apply hL.chains.eq_nil
    intro k hk
    exact absurd (has_iff.mpr ⟨h, hk⟩) (hempty k)
  rw [hnil]
  rfl

/-- Slots of the same shape have the same keys along the chains. -/
theorem sameShape {s : SlotArray w K V} (ho : t.OrderedBy L age) (h : t.slots.SameShape s) :
    ({ t with slots := s } : Table w K V).OrderedBy L age := by
  refine ⟨ho.laidOut.sameShape h, ho.nodup, fun x => ?_⟩
  show (L.chain x).map s.node.key = _
  rw [h.key_eq]
  exact ho.keys_eq x

/-- A new key is the last one. -/
theorem added (ho : t.OrderedBy L age) (h : t.Added t' L L' key value i) (hnew : key ∉ age) :
    t'.OrderedBy L' (age ++ [key]) := by
  refine ⟨h.laidOut, ?_, fun x => ?_⟩
  · rw [← List.concat_eq_append]
    exact ho.nodup.concat hnew
  · rw [ho.laidOut.adds_keys h.adds x, ho.keys_eq, h.toDerived.home_eq, List.filter_append,
      List.map_append]
    by_cases hx : t.home key = x
    · simp [hx]
    · simp [hx]

/-- A key that is removed leaves the order of the others as it is. -/
theorem dropped [DecidableEq K] (ho : t.OrderedBy L age) (h : t.Dropped t' L L' key i)
    (hi : t.KeyAt key i) : t'.OrderedBy L' (age.erase key) := by
  obtain ⟨n, -, hderived⟩ := h.derived
  refine ⟨h.laidOut, ho.nodup.erase key, fun x => ?_⟩
  rw [ho.laidOut.drops_keys (keyAt_iff.mp hi) h.drops x, ho.keys_eq, hderived.home_eq,
    ← List.map_erase (Option.some_injective K), (ho.nodup.filter _).erase_eq_filter,
    ho.nodup.erase_eq_filter, List.filter_filter, List.filter_filter]
  simp only [Bool.and_comm]

end OrderedBy

/-! ## The keys in slot order -/

theorem LaidOut.keys_eq (hL : t.LaidOut L) : t.slots.keys = t.entries.map Prod.fst := by
  rw [entries_eq hL.len_eq_usedCount, SlotArray.keys, SlotArray.entriesFrom]

theorem LaidOut.nodup_keys (hL : t.LaidOut L) : t.slots.keys.Nodup := by
  rw [hL.keys_eq, List.Nodup, List.pairwise_map]
  exact hL.entries_pairwise

theorem LaidOut.mem_keys_iff (hL : t.LaidOut L) : k ∈ t.slots.keys ↔ t.Has k := by
  rw [hL.keys_eq, List.mem_map]
  constructor
  · intro h
    obtain ⟨⟨k', v⟩, hkv, rfl⟩ := h
    exact ⟨v, hL.mem_entries_iff.mp hkv⟩
  · intro h
    obtain ⟨v, hv⟩ := h
    exact ⟨(k, v), hL.mem_entries_iff.mpr hv, rfl⟩

/-- The keys by age where the table may have been rebuilt: with another capacity, they are the keys
of the old slots. -/
def agedAs (t t' : Table w K V) (age : List K) : List K :=
  if t'.capacity = t.capacity then age else t.slots.keys

theorem agedAs_eq (h : t'.capacity = t.capacity) : t.agedAs t' age = age := if_pos h

/-- A value that is replaced in a slot with an entry changes no key and no link. -/
theorem updateAt_sameShape {v : V} {f : V → V} (hi : t.slots.node.entry i = some (k, v))
    (h : t.updateAt i f = .ok t') : ∃ s, t' = { t with slots := s } ∧ t.slots.SameShape s := by
  obtain ⟨next, hn⟩ := Nodes.entry_eq_some_iff.mp hi
  have hs := SlotArray.node_eq_some_iff.mp hn
  rw [updateAt_eq hs f] at h
  cases h
  exact ⟨_, rfl, .setValue hs (f v)⟩

variable [DecidableEq K]

namespace OrderedBy

/-! ## Storing and rebuilding -/

/-- Entries with new keys that fill a table are in order of age behind those that are there. -/
theorem fills {entries : List (K × V)} (h : Fills entries t t') (ho : t.OrderedBy L age)
    (hcap : t.capacity ≤ w.maxCapacity) (hnodup : (age ++ entries.map Prod.fst).Nodup) :
    ∃ L', t'.OrderedBy L' (age ++ entries.map Prod.fst) := by
  induction h generalizing L age with
  | nil =>
    rw [List.map_nil, List.append_nil]
    exact ⟨L, ho⟩
  | @cons t t₁ t' key value i entries hput hsame hrest ih =>
    rw [List.map_cons, List.append_cons] at hnodup ⊢
    have hnew : key ∉ age := by
      rw [List.append_assoc, List.singleton_append, List.nodup_middle, List.nodup_cons] at hnodup
      intro hkey
      exact hnodup.1 (List.mem_append_left _ hkey)
    have habsent : ¬ t.Has key := fun hhas => hnew (ho.mem_iff.mpr hhas)
    obtain ⟨L₁, hadded⟩ := ho.laidOut.put_added hcap habsent hput hsame
    exact ih (ho.added hadded hnew) (hsame ▸ hcap) hnodup

omit [DecidableEq K] in
theorem of_new {policy : Policy} {hash : K → UInt64} (h : t.IsNew policy hash c) :
    ∃ L, t.OrderedBy L [] := by
  obtain ⟨L, hL⟩ := inOrder_iff.mp h.inOrder
  refine ⟨L, of_empty hL fun k hk => ?_⟩
  obtain ⟨v, hv⟩ := hk
  exact h.not_holds k v hv

/-- A table that is rebuilt has the keys in the order in which the old slots had them. -/
theorem of_rebuilt (hL : t.LaidOut L) (hpow : c = 2 ^ e) (hcap : c ≤ w.maxCapacity)
    (h : Fills (t.slots.entriesFrom 1) (blank t.policy t.hash c) t') :
    ∃ L', t'.OrderedBy L' t.slots.keys := by
  have hnew : (blank t.policy t.hash c : Table w K V).IsNew t.policy t.hash c :=
    isNew_blank t.policy t.hash hpow hcap
  obtain ⟨L₀, ho⟩ := of_new hnew
  exact fills h ho (hnew.capacity_eq.symm ▸ hcap) hL.nodup_keys

/-- A new key that is stored is the last one, also where the table grows for it. -/
theorem put_new (ho : t.OrderedBy L age) (hcap : t.capacity ≤ w.maxCapacity) (hnew : ¬ t.Has key)
    (hput : (t.put key value).outcome = .ok (t', .ok i)) :
    ∃ L', t'.OrderedBy L' (t.agedAs t' age ++ [key]) := by
  by_cases hsame : t'.capacity = t.capacity
  · obtain ⟨L', hadded⟩ := ho.laidOut.put_added hcap hnew hput hsame
    rw [agedAs_eq hsame]
    exact ⟨L', ho.added hadded fun hkey => hnew (ho.mem_iff.mp hkey)⟩
  · obtain ⟨r, hr, -, hspec⟩ := ho.laidOut.put_spec hcap key value
    rw [hput, Except.ok.injEq] at hr
    subst hr
    cases hspec with
    | replaced has => exact absurd has hnew
    | added _ _ hstored => exact absurd hstored.capacity_eq hsame
    | grown _ hfull hgrowable hle =>
      obtain ⟨t₁, j, u, hfills, hcap₁, hcap', hput₁, hput'⟩ :=
        ho.laidOut.put_grown hnew hfull hgrowable hle value
      rw [hput] at hput'
      cases hput'
      obtain ⟨e, hpow⟩ := ho.laidOut.two_mul_capacity_pow
      -- the key is stored in the table that was rebuilt
      obtain ⟨L₁, ho₁⟩ := of_rebuilt ho.laidOut hpow hle hfills
      have habsent : key ∉ t.slots.keys := fun hkey => hnew (ho.laidOut.mem_keys_iff.mp hkey)
      have hnew₁ : ¬ t₁.Has key := fun hhas => habsent (ho₁.mem_iff.mpr hhas)
      obtain ⟨L', hadded⟩ :=
        ho₁.laidOut.put_added (hcap₁ ▸ hle) hnew₁ hput₁ (hcap'.trans hcap₁.symm)
      rw [agedAs, if_neg hsame]
      exact ⟨L', ho₁.added hadded habsent⟩

/-- A key that was stored stays where it is. -/
theorem put_stored (ho : t.OrderedBy L age) (hhas : t.Has key)
    (hput : (t.put key value).outcome = .ok (t', .ok i)) :
    t'.capacity = t.capacity ∧ t'.OrderedBy L age := by
  obtain ⟨j, next, v, hs⟩ := has_iff_keyAt.mp hhas
  have hput' := Table.put_stored (ho.laidOut.insert_replaced hs value)
  rw [hput] at hput'
  cases hput'
  exact ⟨rfl, ho.sameShape (.setValue hs value)⟩

/-- Where the table is rebuilt on request, the keys are in slot order. -/
theorem rehash {count : Nat} {r : Except TableError Nat} (ho : t.OrderedBy L age)
    (hcap : t.capacity ≤ w.maxCapacity) (h : (t.rehash count).outcome = .ok (t', r)) :
    ∃ L', t'.OrderedBy L' (t.agedAs t' age) := by
  obtain ⟨x, hx, hspec⟩ := ho.laidOut.rehash_spec count
  rw [h, Except.ok.injEq] at hx
  subst hx
  cases r with
  | error e =>
    obtain rfl : t' = t := hspec.eq_of_error rfl
    rw [agedAs_eq rfl]
    exact ⟨L, ho⟩
  | ok c =>
    cases hspec with
    | rebuilt hgrowable hlen hle hderived =>
      by_cases hsame : 2 ^ Nat.clog 2 count = t.capacity
      · have hkept := rehash_same hgrowable hlen hcap hsame
        rw [h, Except.ok.injEq, Prod.mk.injEq] at hkept
        rw [hkept.1, agedAs_eq rfl]
        exact ⟨L, ho⟩
      · obtain ⟨u, hu, hfills, -⟩ := ho.laidOut.rehash_rebuilt hgrowable hlen hle hsame
        rw [h] at hu
        cases hu
        rw [agedAs, if_neg (hderived.capacity_eq ▸ hsame)]
        exact of_rebuilt ho.laidOut rfl hle hfills

/-! ## Removing and replacing -/

theorem removeAndGet {x : Option V} (ho : t.OrderedBy L age) (hcap : t.capacity ≤ w.maxCapacity)
    (h : (t.removeAndGet key).outcome = .ok (t', x)) :
    t'.capacity = t.capacity ∧ ∃ L', t'.OrderedBy L' (age.erase key) := by
  by_cases hhas : t.Has key
  · obtain ⟨j, next, v, hs⟩ := has_iff_keyAt.mp hhas
    obtain ⟨u, L', hremove, hdropped⟩ := ho.laidOut.removeAndGet_dropped hcap hs
    rw [h] at hremove
    cases hremove
    obtain ⟨n, -, hderived⟩ := hdropped.derived
    exact ⟨hderived.capacity_eq, L', ho.dropped hdropped ⟨next, v, hs⟩⟩
  · have hremove := ho.laidOut.removeAndGet_absent hhas
    rw [h] at hremove
    cases hremove
    rw [List.erase_of_not_mem fun hkey => hhas (ho.mem_iff.mp hkey)]
    exact ⟨rfl, L, ho⟩

theorem remove {b : Bool} (ho : t.OrderedBy L age) (hcap : t.capacity ≤ w.maxCapacity)
    (h : (t.remove key).outcome = .ok (t', b)) :
    t'.capacity = t.capacity ∧ ∃ L', t'.OrderedBy L' (age.erase key) := by
  rw [Table.remove, Traced.outcome_bind] at h
  obtain ⟨⟨u, x⟩, hget, h⟩ := bind_eq_ok_iff.mp h
  cases h
  exact ho.removeAndGet hcap hget

omit [DecidableEq K] in
theorem clear (ho : t.OrderedBy L age) (hcap : t.capacity ≤ w.maxCapacity)
    (h : t.clear = .ok t') : ∃ L', t'.OrderedBy L' [] := by
  obtain ⟨u, hu, hderived⟩ := ho.laidOut.clear_spec hcap
  rw [h] at hu
  cases hu
  obtain ⟨L', hL'⟩ := inOrder_iff.mp hderived.inOrder
  refine ⟨L', of_empty hL' fun k hk => ?_⟩
  obtain ⟨v, hv⟩ := hk
  exact (hderived.holds_iff k v).mp hv

theorem modify {x : Option V} {f : V → V} (ho : t.OrderedBy L age)
    (h : t.modify key f = .ok (t', x)) : t'.capacity = t.capacity ∧ t'.OrderedBy L age := by
  by_cases hhas : ∃ j, t.KeyAt key j
  · obtain ⟨j, next, v, hs⟩ := hhas
    rw [ho.laidOut.modify_eq_some hs f] at h
    cases h
    exact ⟨rfl, ho.sameShape (.setValue hs (f v))⟩
  · rw [ho.laidOut.modify_eq_none (not_exists.mp hhas) f] at h
    cases h
    exact ⟨rfl, ho⟩

end OrderedBy

end Table

end HomeChain

import HomeChain.Proofs.Contents
import HomeChain.Proofs.Walk

/-!
# One attempt to store a key

On a table in order, an attempt ends in one of three ways: the value of a stored key is replaced
(`insert_replaced`), a new key is added (`insert_added`), or the table is full and is handed back
(`insert_full`). Where a new key is added, the slots change in one of three ways (`Adds`), of which
the last is made of two steps on the chains:

* a chain is opened in the home slot, which is free;
* a free slot is appended to the chain;
* the occupant of the home slot moves to a free slot, and then a chain is opened there.

What comes of an attempt, whichever way it takes, is put together in `insert_spec`.
-/

namespace HomeChain

open Function (update update_self update_of_ne)

variable {w : LinkWidth} {K V : Type}

theorem two_mul_maxCapacity_lt (w : LinkWidth) : 2 * w.maxCapacity < wordLimit := by
  cases w <;> decide

/-! ## Used slots and their chains -/

namespace Nodes

variable {n : Nodes w K V} {home : K → Nat} {chain : Nat → List Nat} {a b : List Nat}
  {g h j p s x : Nat} {k : K} {v : V} {y : Link w × K × V}

/-- What the member `x` of a chain holds moves to slot `s`, and slot `p`, which is in front of `x`,
is linked to `s`. -/
def moved (n : Nodes w K V) (s x p : Nat) : Nodes w K V :=
  update (relink (update n s (n x)) p (.ofIndex s)) x none

/-- A chain is opened in a free slot. -/
theorem chains_openAt (hc : Chains home n.key n.succ chain) (hh : n h = none) (h0 : h ≠ 0)
    (hk : home k = h) (hnew : ∀ v, ¬ n.Holds k v) (v : V) :
    Chains home (key (update n h (some (.null, k, v)))) (succ (update n h (some (.null, k, v))))
      (update chain h [h]) := by
  have hopen := hc.openAt (key_eq_none hh) h0 hk (key_ne_of_not_holds hnew)
  rw [key_update, succ_update]
  rwa [← Link.index?_null (w := w)] at hopen

/-- A free slot is appended to a chain, which ends in slot `j`. -/
theorem chains_append (hc : Chains home n.key n.succ chain) (hj : chain h = a ++ [j])
    (hs : n s = none) (hs0 : s ≠ 0) (hk : home k = h) (hnew : ∀ v, ¬ n.Holds k v)
    (hnj : n j = some y) (hlink : (Link.ofIndex s : Link w).index? = some s) (v : V) :
    let n' := update (n.relink j (.ofIndex s)) s (some (.null, k, v))
    Chains home (key n') (succ n') (update chain h (chain h ++ [s])) := by
  intro n'
  have happend := hc.append hj (key_eq_none hs) hs0 hk (key_ne_of_not_holds hnew)
  rw [key_update, succ_update, key_relink, succ_relink hnj, hlink]
  rwa [← Link.index?_null (w := w)] at happend

/-- A member of a chain moves to a free slot. -/
theorem chains_moved (hc : Chains home n.key n.succ chain) (hx : chain g = a ++ p :: x :: b)
    (hs : n s = none) (hs0 : s ≠ 0) (hnp : n p = some y)
    (hlink : (Link.ofIndex s : Link w).index? = some s) :
    Chains home (n.moved s x p).key (n.moved s x p).succ (update chain g (a ++ p :: s :: b)) := by
  have hps : p ≠ s := by
    intro hps
    rw [hps, hs] at hnp
    cases hnp
  have hnp' : update n s (n x) p = some y := by rw [update_of_ne hps, hnp]
  have hmove := hc.move hx (key_eq_none hs) hs0
  rw [moved, key_update, succ_update, key_relink, succ_relink hnp', key_update, succ_update, hlink]
  exact hmove

/-- What is held does not change where a member moves to a free slot. -/
theorem holds_moved (hs : n s = none) (hx : n x = some y) (p : Nat) :
    (n.moved s x p).Holds k v ↔ n.Holds k v := by
  have hsx : s ≠ x := by
    intro hsx
    rw [← hsx, hs] at hx
    cases hx
  rw [← holds_move (x := x) hs hsx]
  apply holds_congr
  rw [moved, entry_update, entry_relink, ← entry_update]

/-- Where a member moves to a free slot, that slot is used, and its own is not. -/
theorem moved_eq_none (hx : n x = some y) (p j : Nat) :
    n.moved s x p j = none ↔ j = x ∨ (j ≠ s ∧ n j = none) := by
  rw [moved, update_none_eq_none, relink_eq_none, hx, update_some_eq_none]

end Nodes

/-! ## Parts of an attempt -/

namespace Table

variable {t : Table w K V} {L : Layout} {u : SlotArray w K V} {i : Nat} {key : K} {value : V}

theorem withSlots_eq_bind (t : Table w K V)
    (f : SlotArray w K V → Except Fault (SlotArray w K V)) :
    t.withSlots f = f t.slots >>= fun s => .ok { t with slots := s } := by
  unfold withSlots
  dsimp only
  cases f t.slots <;> rfl

theorem withSlots_eq {f : SlotArray w K V → Except Fault (SlotArray w K V)}
    (h : f t.slots = .ok u) : t.withSlots f = .ok { t with slots := u } := by
  rw [withSlots_eq_bind, h, ok_bind]

theorem updateAt_eq {next : Link w} {k : K} {v : V} (hs : t.slots[i]? = some (.used next k v))
    (f : V → V) : t.updateAt i f =
      .ok { t with slots := t.slots.setIfInBounds i (.used next k (f v)) } :=
  withSlots_eq (SlotArray.update_eq hs rfl)

theorem acquire_outcome_eq (t : Table w K V) : t.acquire.outcome =
    t.slots.acquire >>= fun x => .ok (x.1, { t with slots := x.2 }) := by
  unfold acquire
  dsimp only
  cases t.slots.acquire <;> rfl

theorem acquire_outcome (h : t.slots.acquire = .ok (i, u)) :
    t.acquire.outcome = .ok (i, { t with slots := u }) := by
  rw [acquire_outcome_eq, h, ok_bind]

theorem occupy_eq_bind (t : Table w K V) (i : Nat) (key : K) (value : V) : t.occupy i key value =
    if wordLimit ≤ t.len + 1 then .error .countOutOfRange
    else t.slots.write i (.used .null key value) >>= fun s =>
      .ok { t with slots := s, len := t.len + 1 } := by
  unfold occupy
  dsimp only
  split
  · rfl
  · cases t.slots.write i (.used .null key value) <;> rfl

theorem occupy_eq (hlen : t.len + 1 < wordLimit)
    (h : t.slots.write i (.used .null key value) = .ok u) :
    t.occupy i key value = .ok { t with slots := u, len := t.len + 1 } := by
  rw [occupy_eq_bind, if_neg (Nat.not_le.mpr hlen), h, ok_bind]

/-- What a table holds once `key` is stored with `value`. -/
def HoldsWith (t : Table w K V) (key : K) (value : V) (k : K) (v : V) : Prop :=
  (k = key ∧ v = value) ∨ (k ≠ key ∧ t.Holds k v)

/-- The table `t'` is `t` with `key` stored in slot `i`; its capacity is `c`, and it has `n`
entries. -/
structure Stored (t t' : Table w K V) (key : K) (value : V) (i c n : Nat) : Prop extends
    t.Derived t' c n (t.HoldsWith key value) where
  entry_eq : t'.slots.node.entry i = some (key, value)

/-- The ways to store a new key in a table that is laid out as `L`: in which slot it is then, what
the slots hold, and how the lists run. -/
inductive Adds (t : Table w K V) (L : Layout) (key : K) (value : V) :
    Nat → Nodes w K V → Layout → Prop where
  /-- The home slot was free, and holds the key. -/
  | opened {a b : List Nat} (free : L.free = a ++ t.home key :: b) :
      Adds t L key value (t.home key)
        (update t.slots.node (t.home key) (some (.null, key, value)))
        ⟨a ++ b, update L.chain (t.home key) [t.home key]⟩
  /-- The chain ended in slot `j`, and goes on to the first free slot, which holds the key. -/
  | appended {i j : Nat} {rest a : List Nat} (free : L.free = i :: rest)
      (chain : L.chain (t.home key) = a ++ [j]) :
      Adds t L key value i
        (update (t.slots.node.relink j (.ofIndex i)) i (some (.null, key, value)))
        ⟨rest, update L.chain (t.home key) (L.chain (t.home key) ++ [i])⟩
  /-- The home slot held an entry that stands behind slot `p` on another chain. That entry is in the
  first free slot, and the home slot holds the key. -/
  | displaced {i p h : Nat} {rest a b : List Nat} (free : L.free = i :: rest)
      (chain : L.chain h = a ++ p :: t.home key :: b) (ne : h ≠ t.home key) :
      Adds t L key value (t.home key)
        (update (t.slots.node.moved i (t.home key) p) (t.home key) (some (.null, key, value)))
        ⟨rest, update (update L.chain h (a ++ p :: i :: b)) (t.home key) [t.home key]⟩

/-- The table `t'` is `t` with the new key `key` in slot `i`; the layout was `L`, and is `L'`. -/
structure Added (t t' : Table w K V) (L L' : Layout) (key : K) (value : V) (i : Nat) : Prop extends
    t.Stored t' key value i t.capacity (t.len + 1) where
  laidOut : t'.LaidOut L'
  adds : t.Adds L key value i t'.slots.node L'

namespace LaidOut

theorem len_lt_capacity (hL : t.LaidOut L) (hi : i ∈ L.free) : t.len < t.capacity := by
  have hcount := hL.count
  have hpos := List.length_pos_of_mem hi
  omega

/-- A table that is not full has a first free slot, and can take it. -/
theorem acquire_spec (hL : t.LaidOut L) (hlen : t.len ≠ t.capacity) :
    ∃ i free s', L.free = i :: free ∧ i ∉ 0 :: free ∧
      t.acquire.outcome = .ok (i, { t with slots := s' }) ∧ s'.size = t.slots.size ∧
      s'.node = t.slots.node ∧ FreeCircle s' free := by
  have hcount := hL.count
  have hcircle := hL.circle
  cases hfree : L.free with
  | nil =>
    rw [hfree, List.length_nil] at hcount
    omega
  | cons i free =>
    rw [hfree] at hcircle
    have hi : i ∉ 0 :: free := by
      have hnodup := hcircle.nodup
      rw [List.nodup_cons, List.nodup_cons, List.mem_cons, not_or] at hnodup
      rw [List.mem_cons, not_or]
      exact ⟨Ne.symm hnodup.1.1, hnodup.2.1⟩
    obtain ⟨s', h, hsize, hnode, hcircle'⟩ := hcircle.acquire
    exact ⟨i, free, s', rfl, hi, acquire_outcome h, hsize, hnode, hcircle'⟩

theorem len_succ_lt (hL : t.LaidOut L) (hcap : t.capacity ≤ w.maxCapacity)
    (hi : i ∈ L.free) : t.len + 1 < wordLimit := by
  have hlen := hL.len_lt_capacity hi
  have hw := two_mul_maxCapacity_lt w
  have hpos := w.maxCapacity_pos
  omega

/-- A free slot has an index that a link can name. -/
theorem of_mem_free (hL : t.LaidOut L) (hcap : t.capacity ≤ w.maxCapacity) (hi : i ∈ L.free) :
    i ≠ 0 ∧ t.slots.node i = none ∧
      (Link.encodeIndex i : Except Fault (Link w)) = .ok (.ofIndex i) ∧
      (Link.ofIndex i : Link w).index? = some i := by
  obtain ⟨h0, -, hnone⟩ := (hL.mem_free i).mp hi
  have hle : i ≤ w.maxCapacity :=
    (hL.le_capacity_of_mem_free (List.mem_cons_of_mem 0 hi)).trans hcap
  exact ⟨Nat.pos_iff_ne_zero.mp h0, hnone, Link.encodeIndex_eq hle,
    Link.index?_eq_some_iff.mpr (Link.decodeIndex_ofIndex hle)⟩

/-- The last step of storing a new key puts it into slot `i`, once slot `j` is off the free list.
Slot `i` apart, the slots hold `m` then, and that is what the table held. -/
theorem occupy_spec (hL : t.LaidOut L) (hcap : t.capacity ≤ w.maxCapacity) {m : Nodes w K V}
    {free : List Nat} {chain : Nat → List Nat} {j : Nat} (hperm : L.free.Perm (j :: free))
    (hsize : u.size = t.slots.size) (hcircle : FreeCircle u free) (hi : i ∉ 0 :: free)
    (hisize : i < t.slots.size) (hm : update u.node i none = m)
    (hnone : ∀ x, x ≠ i ∧ m x = none ↔ x ≠ j ∧ t.slots.node x = none)
    (hheld : ∀ k v, m.Holds k v ↔ t.Holds k v) (hnew : ¬ t.Has key)
    (hchains : Chains t.home (Nodes.key (update m i (some (.null, key, value))))
      (Nodes.succ (update m i (some (.null, key, value)))) chain) :
    ∃ t', occupy { t with slots := u } i key value = .ok t' ∧
      t.Stored t' key value i t.capacity (t.len + 1) ∧ t'.LaidOut ⟨free, chain⟩ ∧
      t'.slots.node = update m i (some (.null, key, value)) := by
  have hlen : t.len + 1 < wordLimit :=
    hL.len_succ_lt hcap (hperm.mem_iff.mpr List.mem_cons_self)
  obtain ⟨u', hwrite, hsize', hnode, hcircle'⟩ :=
    hcircle.write_used hi (hsize ▸ hisize) .null key value
  have hnode' : u'.node = update m i (some (.null, key, value)) := by
    rw [hnode, ← hm, Function.update_idem]
  have hmi : m i = none := by rw [← hm, update_self]
  have hnone' : ∀ x, u'.node x = none ↔ x ≠ j ∧ t.slots.node x = none := by
    intro x
    rw [hnode', Nodes.update_some_eq_none, hnone]
  have hL' : ({ t with slots := u', len := t.len + 1 } : Table w K V).LaidOut ⟨free, chain⟩ :=
    hL.fill hperm (hsize'.trans hsize) hcircle' hnone' (hnode' ▸ hchains)
  -- slot `i` counts as empty here, whatever it still holds, so the key is written into `m`
  have hnew' : ∀ v, ¬ m.Holds key v := fun v hv => hnew ⟨v, (hheld key v).mp hv⟩
  have hholds : ∀ k v, u'.node.Holds k v ↔ t.HoldsWith key value k v := by
    intro k v
    rw [hnode', Nodes.holds_update, hheld]
    · exact Iff.rfl
    · intro k' hk'
      rw [Nodes.key_eq_none hmi] at hk'
      cases hk'
    · intro x hx
      exact absurd hx (Nodes.key_ne_of_not_holds hnew' x)
  refine ⟨_, occupy_eq hlen hwrite, ⟨hL'.derived hholds, ?_⟩, hL', hnode'⟩
  show u'.node.entry i = some (key, value)
  rw [hnode', Nodes.entry_update, update_self]
  rfl

/-! ## Another value for a stored key -/

/-- Another value in a used slot is another value for its key. -/
theorem stored_setValue (hL : t.LaidOut L) {next : Link w} {k : K} {v : V}
    (hs : t.slots[i]? = some (.used next k v)) (v' : V) :
    t.Stored { t with slots := t.slots.setIfInBounds i (.used next k v') } k v' i t.capacity
      t.len := by
  have hn : t.slots.node i = some (next, k, v) := SlotArray.node_eq_some_iff.mpr hs
  have hkey : t.slots.node.key i = some k := SlotArray.key_eq_some_iff.mpr ⟨next, v, hs⟩
  let u := t.slots.setIfInBounds i (.used next k v')
  have hnode : SlotArray.node u = update t.slots.node i (some (next, k, v')) :=
    SlotArray.node_setIfInBounds (SlotArray.lt_size_of_node hn) _
  -- no link and no key changes, so the layout stays
  have hL' : ({ t with slots := u, len := t.len } : Table w K V).LaidOut L :=
    hL.sameShape (.setValue hs v')
  have hholds : ∀ k' v'', (SlotArray.node u).Holds k' v'' ↔ t.HoldsWith k v' k' v'' := by
    intro k' v''
    rw [hnode, Nodes.holds_update]
    · exact Iff.rfl
    · intro k'' hk''
      rw [hkey, Option.some.injEq] at hk''
      exact hk''.symm
    · intro j hj
      exact hL.eq_of_key hkey j hj
  refine ⟨hL'.derived hholds, ?_⟩
  show (SlotArray.node u).entry i = some (k, v')
  rw [hnode, Nodes.entry_update, update_self]
  rfl

/-- The value in a used slot is replaced. -/
theorem updateAt_spec (hL : t.LaidOut L) {k : K} {v : V}
    (hi : t.slots.node.entry i = some (k, v)) (f : V → V) :
    ∃ t', t.updateAt i f = .ok t' ∧ t.Stored t' k (f v) i t.capacity t.len := by
  obtain ⟨next, hn⟩ := Nodes.entry_eq_some_iff.mp hi
  have hs : t.slots[i]? = some (.used next k v) := SlotArray.node_eq_some_iff.mp hn
  exact ⟨_, updateAt_eq hs f, hL.stored_setValue hs (f v)⟩

/-! ## The three ways to add a key -/

/-- A key whose home slot is free is stored there. -/
theorem populate_spec (hL : t.LaidOut L) (hcap : t.capacity ≤ w.maxCapacity)
    (hfree : t.home key ∈ L.free) (hnew : ¬ t.Has key) (value : V) :
    ∃ t' L', (t.populate (t.home key) key value).outcome = .ok (.stored (t.home key) t') ∧
      t.Added t' L L' key value (t.home key) := by
  obtain ⟨h, hh⟩ : ∃ h, h = t.home key := ⟨_, rfl⟩
  rw [← hh] at hfree ⊢
  obtain ⟨h0, hnone, -, -⟩ := hL.of_mem_free hcap hfree
  obtain ⟨a, b, hab⟩ := List.append_of_mem hfree
  have hcircle := hL.circle
  rw [hab] at hcircle
  obtain ⟨u, hu, hsize, hnode, hcircle'⟩ := hcircle.unlink
  have hmem : h ∉ 0 :: (a ++ b) := by
    have hnodup := hcircle.nodup
    rw [← List.cons_append, List.nodup_middle, List.nodup_cons] at hnodup
    exact hnodup.1
  -- the slot has left the free list, and nothing has been written into it yet
  have hm : update u.node h none = t.slots.node := by
    rw [hnode]
    exact Function.update_eq_self_iff.mpr hnone.symm
  obtain ⟨t', ht', hstored, hL', hnode'⟩ := hL.occupy_spec hcap (hab ▸ List.perm_middle) hsize
    hcircle' hmem ((hL.mem_free h).mp hfree).2.1 hm (fun _ => Iff.rfl) (fun _ _ => Iff.rfl) hnew
    (Nodes.chains_openAt hL.chains hnone h0 hh.symm (fun v hv => hnew ⟨v, hv⟩) value)
  have hadds : t.Adds L key value h t'.slots.node ⟨a ++ b, update L.chain h [h]⟩ := by
    rw [hnode', hh]
    exact .opened (hh ▸ hab)
  refine ⟨t', _, ?_, ⟨hstored, hL', hadds⟩⟩
  have hunlink : t.withSlots (fun s => s.unlink h) = .ok { t with slots := u } := withSlots_eq hu
  unfold populate
  simp only [Traced.outcome_bind, Traced.outcome_emit, Traced.outcome_lift, ok_bind, hunlink, ht',
    Traced.outcome_pure]

/-- A key is stored behind the end `j` of its chain. -/
theorem append_spec [DecidableEq K] (hL : t.LaidOut L) (hcap : t.capacity ≤ w.maxCapacity)
    {a before : List Nat} {j : Nat} (hj : L.chain (t.home key) = a ++ [j])
    (hnew : ¬ t.Has key) (hlen : t.len ≠ t.capacity)
    (hsearch : t.slots.search key .keyOfFree t.slots.size [] (t.home key) =
      .ok ⟨j, before, false⟩) (value : V) :
    ∃ i t' L', (t.insertIntoChain (t.home key) key value).outcome = .ok (.stored i t') ∧
      t.Added t' L L' key value i := by
  obtain ⟨i, free, s, hfree, hi, hacquire, hsize, hnode, hcircle⟩ := hL.acquire_spec hlen
  have hmem : i ∈ L.free := hfree ▸ List.mem_cons_self
  obtain ⟨hi0, hnone, hencode, hlink⟩ := hL.of_mem_free hcap hmem
  -- the last member of the chain is linked to the slot taken
  obtain ⟨y, hy⟩ : ∃ y, t.slots.node j = some y :=
    hL.exists_node_of_mem_chain (hj ▸ List.mem_append_right a (List.mem_singleton_self j))
  obtain ⟨u, hset, hsizeu, hnodeu, hcircleu⟩ := hcircle.setChainNext (hnode ▸ hy) (.ofIndex i)
  have hm : update u.node i none = t.slots.node.relink j (.ofIndex i) := by
    rw [hnodeu, hnode]
    exact Function.update_eq_self_iff.mpr ((Nodes.relink_eq_none ..).mpr hnone).symm
  obtain ⟨t', ht', hstored, hL', hnode'⟩ := hL.occupy_spec hcap (List.Perm.of_eq hfree)
    (hsizeu.trans hsize) hcircleu hi ((hL.mem_free i).mp hmem).2.1 hm
    (fun x => by rw [Nodes.relink_eq_none]) (fun _ _ => Nodes.holds_relink ..) hnew
    (Nodes.chains_append hL.chains hj hnone hi0 rfl (fun v hv => hnew ⟨v, hv⟩) hy hlink value)
  refine ⟨i, t', _, ?_, ⟨hstored, hL', hnode' ▸ .appended hfree hj⟩⟩
  have hrelink : withSlots { t with slots := s }
      (fun s => do s.setChainNext j (← Link.encodeIndex i)) = .ok { t with slots := u } := by
    apply withSlots_eq
    rw [hencode]
    exact hset
  unfold insertIntoChain
  simp only [Traced.outcome_bind, Traced.outcome_lift, hsearch, ok_bind, Bool.false_eq_true,
    if_false, if_neg hlen, hacquire, Traced.outcome_emit, hrelink, ht', Traced.outcome_pure]

/-- The occupant `x` of a slot, which stands behind `p` on its chain, moves to the slot `i` that was
taken from the free list. -/
theorem move_spec (hL : t.LaidOut L) {s : SlotArray w K V} {free a b : List Nat} {h p x : Nat}
    (hsize : s.size = t.slots.size) (hnode : s.node = t.slots.node) (hcircle : FreeCircle s free)
    (hi : i ∉ 0 :: free) (hisize : i < t.slots.size) (hnone : t.slots.node i = none)
    (hencode : (Link.encodeIndex i : Except Fault (Link w)) = .ok (.ofIndex i))
    (hchain : L.chain h = a ++ p :: x :: b) :
    ∃ u, (do
        let s ← s.write i (← s.read x)
        let pred ← s.predecessor x s.size h
        s.setChainNext pred (← Link.encodeIndex i)) = .ok u ∧
      u.size = t.slots.size ∧
      u.node = Nodes.relink (update t.slots.node i (t.slots.node x)) p (.ofIndex i) ∧
      FreeCircle u free := by
  obtain ⟨⟨next, k, v⟩, hx⟩ := hL.exists_node_of_mem_chain (i := x) (h := h) (by simp [hchain])
  obtain ⟨y, hy⟩ := hL.exists_node_of_mem_chain (i := p) (h := h) (by simp [hchain])
  have hpi : p ≠ i := by
    intro hpi
    rw [hpi, hnone] at hy
    cases hy
  -- the occupant is copied to the slot taken
  have hread : s[x]? = some (.used next k v) := SlotArray.node_eq_some_iff.mp (hnode ▸ hx)
  obtain ⟨s', hwrite, hsize', hnode', hcircle'⟩ :=
    hcircle.write_used hi (hsize ▸ hisize) next k v
  have hcopy : s'.node = update t.slots.node i (t.slots.node x) := by rw [hnode', hnode, hx]
  -- the links of its chain are as they were, so the search for the slot in front of it ends there
  have hpred : s'.predecessor x s'.size h = .ok p := by
    refine hL.predecessor_spec hchain (hsize'.trans hsize) fun m hm => ?_
    obtain ⟨z, hz⟩ := hL.exists_node_of_mem_chain hm
    have hmi : m ≠ i := by
      intro hmi
      rw [hmi, hnone] at hz
      cases hz
    rw [hcopy, Nodes.succ_update, update_of_ne hmi]
  -- the chain is led to the copy
  have hyp : s'.node p = some y := by rw [hcopy, update_of_ne hpi, hy]
  obtain ⟨u, hset, hsizeu, hnodeu, hcircleu⟩ := hcircle'.setChainNext hyp (.ofIndex i)
  refine ⟨u, ?_, hsizeu.trans (hsize'.trans hsize), hcopy ▸ hnodeu, hcircleu⟩
  show (s.read x >>= fun slot => s.write i slot >>= fun s =>
    s.predecessor x s.size h >>= fun pred => Link.encodeIndex i >>= fun link =>
    s.setChainNext pred link) = _
  rw [SlotArray.read_eq hread, ok_bind, hwrite, ok_bind, hpred, ok_bind, hencode, ok_bind, hset]

/-- The occupant of the home slot, which stands behind `p` on its own chain, moves to a free
slot, and the key is stored at home. -/
theorem displace_spec (hL : t.LaidOut L) (hcap : t.capacity ≤ w.maxCapacity) {a b : List Nat}
    {h p : Nat} (hchain : L.chain h = a ++ p :: t.home key :: b) (hne : h ≠ t.home key)
    (hnew : ¬ t.Has key) (hlen : t.len ≠ t.capacity) (value : V) :
    ∃ t' L', (t.displaceAndInsert (t.home key) h key value).outcome =
        .ok (.stored (t.home key) t') ∧
      t.Added t' L L' key value (t.home key) := by
  obtain ⟨x, hxkey⟩ : ∃ x, x = t.home key := ⟨_, rfl⟩
  rw [← hxkey] at hchain hne ⊢
  obtain ⟨i, free, s, hfree, hi, hacquire, hsize, hnode, hcircle⟩ := hL.acquire_spec hlen
  have hmem : i ∈ L.free := hfree ▸ List.mem_cons_self
  obtain ⟨hi0, hnone, hencode, hlink⟩ := hL.of_mem_free hcap hmem
  obtain ⟨y, hy⟩ := hL.exists_node_of_mem_chain (i := p) (h := h) (by simp [hchain])
  obtain ⟨z, hz⟩ := hL.exists_node_of_mem_chain (i := x) (h := h) (by simp [hchain])
  obtain ⟨u, hmove, hsizeu, hnodeu, hcircleu⟩ := hL.move_spec hsize hnode hcircle hi
    ((hL.mem_free i).mp hmem).2.1 hnone hencode hchain
  have hx0 : x ≠ 0 := by
    have := t.home_pos key
    omega
  have hxi : x ≠ i := by
    intro hxi
    rw [hxi, hnone] at hz
    cases hz
  have hxfree : x ∉ 0 :: free := by
    intro hx
    rcases List.mem_cons.mp hx with hx | hx
    · exact hx0 hx
    · have hfree' : x ∈ L.free := hfree ▸ List.mem_cons_of_mem i hx
      rw [((hL.mem_free x).mp hfree').2.2] at hz
      cases hz
  -- apart from the slot of the occupant, the slots hold what they hold after the move
  have hm : update u.node x none = t.slots.node.moved i x p := by rw [hnodeu, Nodes.moved]
  have hheld : ∀ k v, (t.slots.node.moved i x p).Holds k v ↔ t.Holds k v :=
    fun k v => Nodes.holds_moved hnone hz p
  have hused : ∀ j, j ≠ x ∧ t.slots.node.moved i x p j = none ↔
      j ≠ i ∧ t.slots.node j = none := by
    intro j
    have hjx : t.slots.node j = none → j ≠ x := by
      intro hj hjx
      rw [← hjx, hj] at hz
      cases hz
    rw [Nodes.moved_eq_none hz]
    tauto
  have hopen := Nodes.chains_openAt (Nodes.chains_moved hL.chains hchain hnone hi0 hy hlink)
    (update_self ..) hx0 hxkey.symm (fun v hv => hnew ⟨v, (hheld key v).mp hv⟩) value
  obtain ⟨t', ht', hstored, hL', hnode'⟩ := hL.occupy_spec hcap (List.Perm.of_eq hfree) hsizeu
    hcircleu hxfree (SlotArray.lt_size_of_node hz) hm hused hheld hnew hopen
  have hadds : t.Adds L key value x t'.slots.node
      ⟨free, update (update L.chain h (a ++ p :: i :: b)) x [x]⟩ := by
    rw [hnode', hxkey]
    exact .displaced hfree (hxkey ▸ hchain) (hxkey ▸ hne)
  refine ⟨t', _, ?_, ⟨hstored, hL', hadds⟩⟩
  have hmove' : withSlots { t with slots := s } (fun s => do
      let s ← s.write i (← s.read x)
      let pred ← s.predecessor x s.size h
      s.setChainNext pred (← Link.encodeIndex i)) = .ok { t with slots := u } := withSlots_eq hmove
  unfold displaceAndInsert
  simp only [Traced.outcome_bind, Traced.outcome_lift, ok_bind, if_neg hlen, hacquire,
    Traced.outcome_emit, hmove', ht', Traced.outcome_pure]

end LaidOut

/-! ## Attempts -/

variable [DecidableEq K]

/-- What an attempt to store a key on a table in order can come to. -/
inductive InsertSpec (t : Table w K V) (key : K) (value : V) : Insertion w K V → Prop where
  /-- The key was stored, and has another value. -/
  | replaced {i t'} (has : t.Has key) (stored : t.Stored t' key value i t.capacity t.len) :
      InsertSpec t key value (.stored i t')
  /-- The key was not stored, and is now. -/
  | added {i t'} (new : ¬ t.Has key) (room : t.len < t.capacity)
      (stored : t.Stored t' key value i t.capacity (t.len + 1)) :
      InsertSpec t key value (.stored i t')
  /-- The key was not stored, and there is no room for it. -/
  | full (new : ¬ t.Has key) (full : t.len = t.capacity) : InsertSpec t key value (.full t)

namespace LaidOut

/-- A key that is stored gets another value. -/
theorem insert_replaced (hL : t.LaidOut L) {next : Link w} {v : V}
    (hs : t.slots[i]? = some (.used next key v)) (value : V) :
    (t.insert key value).outcome = .ok (.stored i
      { t with slots := t.slots.setIfInBounds i (.used next key value) }) := by
  have hkey : t.slots.node.key i = some key := SlotArray.key_eq_some_iff.mpr ⟨next, v, hs⟩
  have hmem : i ∈ L.chain (t.home key) := hL.chains.mem_of_key hkey
  have hupdate : t.withSlots (fun s => s.updateValue i fun _ => value) =
      .ok { t with slots := t.slots.setIfInBounds i (.used next key value) } :=
    updateAt_eq hs fun _ => value
  -- the chain of the key is not empty, so the home slot holds the head of it
  rcases hL.home_cases key with ⟨_, _, -, -, hnil⟩ | ⟨next', k, v', rest, hs', hk, hchain⟩ |
    ⟨_, _, _, _, _, _, -, -, -, hnil⟩
  · rw [hnil] at hmem
    cases hmem
  · obtain ⟨a, j, b, -, hj, hsearch⟩ | ⟨hne, -⟩ :=
      hL.search_spec (a := []) key .keyOfFree hchain
    · obtain rfl : j = i := hL.eq_of_key hkey j hj
      unfold insert insertIntoChain
      simp only [Traced.outcome_bind, Traced.outcome_lift, SlotArray.read_eq hs', ok_bind,
        if_pos hk, hsearch, if_true, Traced.outcome_emit, hupdate, Traced.outcome_pure]
    · exact absurd hkey (hne i (hchain ▸ hmem))
  · rw [hnil] at hmem
    cases hmem

/-- A new key is not stored in a full table. -/
theorem insert_full (hL : t.LaidOut L) (hnew : ¬ t.Has key) (hfull : t.len = t.capacity)
    (value : V) : (t.insert key value).outcome = .ok (.full t) := by
  rcases hL.home_cases key with ⟨_, _, -, hfree, -⟩ | ⟨next, k, v, rest, hs, hk, hchain⟩ |
    ⟨next, k, v, a, p, b, hs, hk, -, -⟩
  · have hlen := hL.len_lt_capacity hfree
    omega
  · obtain ⟨a, j, b, -, hj, -⟩ | ⟨-, a, j, -, hsearch⟩ :=
      hL.search_spec (a := []) key .keyOfFree hchain
    · exact absurd (has_iff.mpr ⟨j, hj⟩) hnew
    · unfold insert insertIntoChain
      simp only [Traced.outcome_bind, Traced.outcome_lift, SlotArray.read_eq hs, ok_bind,
        if_pos hk, hsearch, Bool.false_eq_true, if_false, if_pos hfull, Traced.outcome_pure]
  · unfold insert displaceAndInsert
    simp only [Traced.outcome_bind, Traced.outcome_lift, SlotArray.read_eq hs, ok_bind, if_neg hk,
      if_pos hfull, Traced.outcome_pure]

/-- A new key is added where there is room. -/
theorem insert_added (hL : t.LaidOut L) (hcap : t.capacity ≤ w.maxCapacity) (hnew : ¬ t.Has key)
    (hroom : t.len < t.capacity) (value : V) :
    ∃ i t' L', (t.insert key value).outcome = .ok (.stored i t') ∧
      t.Added t' L L' key value i := by
  have hlen : t.len ≠ t.capacity := Nat.ne_of_lt hroom
  unfold insert
  rcases hL.home_cases key with ⟨_, _, hs, hfree, -⟩ | ⟨next, k, v, rest, hs, hk, hchain⟩ |
    ⟨next, k, v, a, p, b, hs, hk, hchain, -⟩
  · -- the home slot is free
    obtain ⟨t', L', ht', hadded⟩ := hL.populate_spec hcap hfree hnew value
    refine ⟨_, t', L', ?_, hadded⟩
    simp only [Traced.outcome_bind, Traced.outcome_lift, SlotArray.read_eq hs, ok_bind]
    exact ht'
  · -- the home slot holds the head of the chain, and the search ends at the end of it
    obtain ⟨a, j, b, -, hj, -⟩ | ⟨-, a, j, hc, hsearch⟩ :=
      hL.search_spec (a := []) key .keyOfFree hchain
    · exact absurd (has_iff.mpr ⟨j, hj⟩) hnew
    · obtain ⟨i, t', L', ht', hadded⟩ :=
        hL.append_spec hcap (hchain.trans hc) hnew hlen hsearch value
      refine ⟨i, t', L', ?_, hadded⟩
      simp only [Traced.outcome_bind, Traced.outcome_lift, SlotArray.read_eq hs, ok_bind, if_pos hk]
      exact ht'
  · -- the home slot holds a member of another chain
    obtain ⟨t', L', ht', hadded⟩ := hL.displace_spec hcap hchain hk hnew hlen value
    refine ⟨_, t', L', ?_, hadded⟩
    simp only [Traced.outcome_bind, Traced.outcome_lift, SlotArray.read_eq hs, ok_bind, if_neg hk]
    exact ht'

/-- An attempt on a table in order runs into no fault, and the table it leaves is in order. -/
theorem insert_spec (hL : t.LaidOut L) (hcap : t.capacity ≤ w.maxCapacity) (key : K)
    (value : V) : ∃ r, (t.insert key value).outcome = .ok r ∧ t.InsertSpec key value r := by
  by_cases hhas : t.Has key
  · obtain ⟨v, i, hi⟩ := hhas
    obtain ⟨next, hn⟩ := Nodes.entry_eq_some_iff.mp hi
    have hs := SlotArray.node_eq_some_iff.mp hn
    exact ⟨_, hL.insert_replaced hs value, .replaced ⟨v, i, hi⟩ (hL.stored_setValue hs value)⟩
  · rcases Nat.lt_or_eq_of_le hL.len_le_capacity with hroom | hfull
    · obtain ⟨i, t', L', ht', hadded⟩ := hL.insert_added hcap hhas hroom value
      exact ⟨_, ht', .added hhas hroom hadded.toStored⟩
    · exact ⟨_, hL.insert_full hhas hfull value, .full hhas hfull⟩

end LaidOut

end Table

end HomeChain

import HomeChain.Proofs.Iteration
import HomeChain.Proofs.Removal
import HomeChain.Table.Rebuild
import Mathlib.Data.Nat.Log

/-!
# Storing, growing and rebuilding

A rebuilt table starts from a fresh array and takes the old entries one by one. What one of them
does is what an attempt to store a new key does, so along the way the table is in order and
holds the entries taken so far, and in the end it holds those of the old table (`rebuild_spec`).

What `put` and `rehash` come to on a table in order follows (`put_spec`, `rehash_spec`). After
one doubling there is room for the key, so `put` never makes a third attempt.
-/

namespace HomeChain

variable {w : LinkWidth} {K V : Type}

/-! ## Capacities -/

theorem isPowerOfTwo_iff {n : Nat} : isPowerOfTwo n = true ↔ ∃ e, n = 2 ^ e := by
  rw [isPowerOfTwo, beq_iff_eq, Nat.one_shiftLeft]
  constructor
  · intro h
    exact ⟨n.log2, h.symm⟩
  · rintro ⟨e, rfl⟩
    rw [Nat.log2_two_pow]

/-- The least power of two that is at least `n` is what its name says. -/
theorem leastPowerOfTwo_eq (n : Nat) : leastPowerOfTwo n = 2 ^ Nat.clog 2 n := by
  have hclog : n ≤ 1 <<< Nat.clog 2 n := by
    rw [Nat.one_shiftLeft]
    exact Nat.le_pow_clog (by decide) n
  have hle := leastPowerOfTwo_le hclog
  rw [Nat.one_shiftLeft] at hle
  refine le_antisymm hle ?_
  have hpow : ∃ e, leastPowerOfTwo n = 2 ^ e := by
    rw [leastPowerOfTwo]
    split
    · exact ⟨0, rfl⟩
    · exact ⟨_, Nat.one_shiftLeft _⟩
  obtain ⟨e, he⟩ := hpow
  have hge := le_leastPowerOfTwo n
  rw [he] at hge ⊢
  exact Nat.pow_le_pow_right (by decide) (Nat.clog_le_of_le_pow hge)

theorem roundCapacity_eq (w : LinkWidth) (count : Nat) : roundCapacity w count =
    if 2 ^ Nat.clog 2 count ≤ w.maxCapacity then .ok (2 ^ Nat.clog 2 count)
    else .error (.capacityTooLarge count w) := by
  rw [roundCapacity, leastPowerOfTwo_eq]

namespace Slot

/-- Two slots do not hold the same key. -/
def Distinct (a b : Slot w K V) : Prop :=
  ∀ k v v', a.entry? = some (k, v) → b.entry? ≠ some (k, v')

end Slot

/-! ## What the slots of a table hold -/

namespace SlotArray

theorem entry_eq (s : SlotArray w K V) (i : Nat) :
    s.node.entry i = s[i]?.bind Slot.entry? := by
  rw [Nodes.entry, node]
  cases s[i]? with
  | none => rfl
  | some slot => exact slot.entry?_eq.symm

/-- The slots behind the anchor hold what the array holds. -/
theorem exists_mem_drop_iff {s : SlotArray w K V} (h0 : s.node 0 = none) (k : K) (v : V) :
    (∃ slot ∈ s.toList.drop 1, slot.entry? = some (k, v)) ↔ s.node.Holds k v := by
  constructor
  · rintro ⟨slot, hslot, hkv⟩
    obtain ⟨i, hi⟩ := List.mem_iff_getElem?.mp hslot
    rw [List.getElem?_drop, Array.getElem?_toList] at hi
    refine ⟨1 + i, ?_⟩
    rw [entry_eq, hi]
    exact hkv
  · rintro ⟨i, hi⟩
    obtain ⟨j, rfl⟩ : ∃ j, i = 1 + j := by
      rcases Nat.eq_zero_or_pos i with rfl | hpos
      · rw [Nodes.entry_eq_none h0] at hi
        cases hi
      · exact ⟨i - 1, by omega⟩
    rw [entry_eq, Option.bind_eq_some_iff] at hi
    obtain ⟨slot, hslot, hkv⟩ := hi
    refine ⟨slot, List.mem_iff_getElem?.mpr ⟨j, ?_⟩, hkv⟩
    rw [List.getElem?_drop, Array.getElem?_toList, hslot]

end SlotArray

namespace Table

variable {t t' : Table w K V} {L : Layout} {key : K} {value : V}

/-- The slots of a table in order hold different keys. -/
theorem LaidOut.pairwise_distinct (hL : t.LaidOut L) :
    (t.slots.toList.drop 1).Pairwise Slot.Distinct := by
  rw [List.pairwise_iff_getElem]
  intro i j hi hj hij k v v' hkv hkv'
  rw [List.getElem_drop] at hkv hkv'
  have hentry : ∀ (m : Nat) (u : V) (hm : 1 + m < t.slots.toList.length),
      Slot.entry? t.slots.toList[1 + m] = some (k, u) → t.slots.node.key (1 + m) = some k := by
    intro m u hm hu
    refine Nodes.key_of_entry (v := u) ?_
    rw [SlotArray.entry_eq, ← Array.getElem?_toList, List.getElem?_eq_getElem hm]
    exact hu
  rw [List.length_drop] at hi hj
  have hkey := hL.eq_of_key (hentry i v (by omega) hkv) _ (hentry j v' (by omega) hkv')
  omega

/-! ## New tables -/

/-- The table is new: in order, of capacity `c`, and without entries. -/
structure IsNew (t : Table w K V) (policy : Policy) (hash : K → UInt64) (c : Nat) : Prop where
  inOrder : t.InOrder
  policy_eq : t.policy = policy
  hash_eq : t.hash = hash
  capacity_eq : t.capacity = c
  len_eq : t.len = 0
  not_holds : ∀ k v, ¬ t.Holds k v

/-- The table of capacity `c` that holds nothing yet. -/
def blank (policy : Policy) (hash : K → UInt64) (c : Nat) : Table w K V :=
  ⟨policy, hash, SlotArray.fresh c, 0, c - 1⟩

theorem isNew_blank (policy : Policy) (hash : K → UInt64) {c e : Nat} (hpow : c = 2 ^ e)
    (hcap : c ≤ w.maxCapacity) : (blank policy hash c : Table w K V).IsNew policy hash c := by
  -- a table has its capacity by way of the mask
  obtain ⟨mask, rfl⟩ : ∃ mask, c = mask + 1 := by
    have := Nat.one_le_two_pow (n := e)
    exact ⟨c - 1, by omega⟩
  have hfresh := laidOut_fresh (w := w) (V := V) policy hash hpow hcap
  exact ⟨hfresh.inOrder, rfl, rfl, rfl, rfl, not_holds_fresh (mask + 1)⟩

/-- A table is given the slots that links can serve, if its capacity is a power of two. -/
theorem allocate_outcome {c : Nat} (hpow : isPowerOfTwo c = true) :
    (allocate c : Traced (Except TableError (SlotArray w K V))).outcome =
      .ok (SlotArray.allocate c) := by
  unfold allocate
  rw [hpow]
  cases (SlotArray.allocate c : Except TableError (SlotArray w K V)) <;> rfl

/-- Slots that links cannot serve are declined, and nothing is recorded. -/
theorem allocate_eq_error {c : Nat} (hpow : isPowerOfTwo c = true) (hcap : w.maxCapacity < c) :
    (allocate c : Traced (Except TableError (SlotArray w K V))) =
      pure (.error (.capacityTooLarge c w)) := by
  unfold allocate
  rw [hpow, SlotArray.allocate_eq_error hcap]
  rfl

/-- A request for a new table runs into no fault. The table has the least power of two that is
asked for as its capacity, or links cannot serve that. -/
theorem withCapacity_outcome (policy : Policy) (hash : K → UInt64) (count : Nat) :
    (withCapacity policy hash count : Traced (Except TableError (Table w K V))).outcome =
      .ok (if 2 ^ Nat.clog 2 count ≤ w.maxCapacity then
        .ok (blank policy hash (2 ^ Nat.clog 2 count))
      else .error (.capacityTooLarge count w)) := by
  unfold withCapacity
  rw [roundCapacity_eq]
  by_cases hcap : 2 ^ Nat.clog 2 count ≤ w.maxCapacity
  · have hpow : isPowerOfTwo (2 ^ Nat.clog 2 count) = true := isPowerOfTwo_iff.mpr ⟨_, rfl⟩
    simp only [if_pos hcap, Traced.outcome_bind, allocate_outcome hpow,
      SlotArray.allocate_eq hcap, ok_bind]
    rfl
  · simp only [if_neg hcap, Traced.outcome_pure]

theorem withCapacity_spec (policy : Policy) (hash : K → UInt64) (count : Nat) :
    (2 ^ Nat.clog 2 count ≤ w.maxCapacity ∧ ∃ t : Table w K V,
      (withCapacity policy hash count).outcome = .ok (.ok t) ∧
        t.IsNew policy hash (2 ^ Nat.clog 2 count)) ∨
    (w.maxCapacity < 2 ^ Nat.clog 2 count ∧
      (withCapacity policy hash count : Traced (Except TableError (Table w K V))).outcome =
        .ok (.error (.capacityTooLarge count w))) := by
  rw [withCapacity_outcome]
  by_cases hcap : 2 ^ Nat.clog 2 count ≤ w.maxCapacity
  · rw [if_pos hcap]
    exact .inl ⟨hcap, _, rfl, isNew_blank policy hash rfl hcap⟩
  · rw [if_neg hcap]
    exact .inr ⟨Nat.lt_of_not_le hcap, rfl⟩

/-- Links of every width can serve a table of one slot. -/
theorem new_outcome (policy : Policy) (hash : K → UInt64) :
    (new policy hash : Traced (Table w K V)).outcome = .ok (blank policy hash 1) := by
  have hone : 1 ≤ w.maxCapacity := w.maxCapacity_pos
  unfold new
  rw [Traced.outcome_bind, withCapacity_outcome, Nat.clog_one_right, Nat.pow_zero, if_pos hone]
  rfl

theorem new_spec (policy : Policy) (hash : K → UInt64) :
    ∃ t : Table w K V, (new policy hash).outcome = .ok t ∧ t.IsNew policy hash 1 :=
  ⟨_, new_outcome policy hash, isNew_blank policy hash (Nat.pow_zero 2).symm w.maxCapacity_pos⟩

variable [DecidableEq K]

/-! ## Storing where there is room -/

/-- Where an attempt stores the key, no other attempt is made. -/
theorem putWithin_stored {i : Nat} (h : (t.insert key value).outcome = .ok (.stored i t'))
    (attempts : Nat) : (putWithin key value (attempts + 1) t).outcome = .ok (t', .ok i) := by
  unfold putWithin
  simp only [Traced.outcome_bind, h, ok_bind, Traced.outcome_pure]

/-- Where an attempt finds the table full and there is more room then, another attempt is made. -/
theorem putWithin_grown {t₁ : Table w K V} (h : (t.insert key value).outcome = .ok (.full t))
    (hgrow : t.grow.outcome = .ok (t₁, none)) (attempts : Nat) :
    (putWithin key value (attempts + 1) t).outcome = (putWithin key value attempts t₁).outcome := by
  rw [putWithin]
  simp only [Traced.outcome_bind, h, ok_bind, hgrow]

/-- Storing a key makes two attempts at least, if they are needed. -/
theorem exists_put_eq (t : Table w K V) (key : K) (value : V) :
    ∃ n, t.put key value = putWithin key value (n + 2) t := by
  have hsize := w.two_le_size
  obtain ⟨n, hn⟩ : ∃ n, w.size = n + 2 := ⟨w.size - 2, by omega⟩
  exact ⟨n, by rw [put, hn]⟩

theorem put_stored {i : Nat} (h : (t.insert key value).outcome = .ok (.stored i t')) :
    (t.put key value).outcome = .ok (t', .ok i) := by
  obtain ⟨n, hn⟩ := t.exists_put_eq key value
  rw [hn]
  exact putWithin_stored h (n + 1)

/-! ## Taking the old entries -/

/-- The entries are stored in `t` one after another, in new slots of the same array, and the table
is `t'` then. -/
inductive Fills : List (K × V) → Table w K V → Table w K V → Prop where
  | nil {t : Table w K V} : Fills [] t t
  | cons {t t₁ t' : Table w K V} {key : K} {value : V} {i : Nat} {entries : List (K × V)}
      (put : (t.put key value).outcome = .ok (t₁, .ok i)) (capacity_eq : t₁.capacity = t.capacity)
      (rest : Fills entries t₁ t') : Fills ((key, value) :: entries) t t'

/-- Inserts the entry of a slot, if there is one. -/
def reinsertStep (result : Traced (Table w K V)) (slot : Slot w K V) : Traced (Table w K V) :=
  match slot with
  | .free .. => result
  | .used _ key value => do
    match ← (← result).insert key value with
    | .stored _ t => return t
    | .full _ => Traced.fail .badRebuild

theorem reinsert_eq (t : Table w K V) (old : List (Slot w K V)) :
    reinsert t old = old.foldl reinsertStep (pure t) := rfl

/-- What a reinsertion comes to depends on what came of the steps before only. -/
theorem outcome_foldl_reinsertStep (old : List (Slot w K V)) {x : Traced (Table w K V)}
    (hx : x.outcome = .ok t) :
    (old.foldl reinsertStep x).outcome = (reinsert t old).outcome := by
  rw [reinsert_eq]
  have hpure : (pure t : Traced (Table w K V)).outcome = .ok t := rfl
  generalize (pure t : Traced (Table w K V)) = y at hpure
  have hxy : x.outcome = y.outcome := hx.trans hpure.symm
  clear hx hpure
  -- the events of `x` and of `y` may differ, so the induction is on both
  induction old generalizing x y with
  | nil => exact hxy
  | cons slot old ih =>
    rw [List.foldl_cons, List.foldl_cons]
    apply ih
    cases slot with
    | free prev next => exact hxy
    | used next k v =>
      unfold reinsertStep
      simp only [Traced.outcome_bind, hxy]

/-- An entry with a new key is taken where there is room. -/
theorem reinsertStep_spec (ht : t.InOrder) (hcap : t.capacity ≤ w.maxCapacity)
    (hnew : ¬ t.Has key) (hroom : t.len < t.capacity) (next : Link w) (value : V) :
    ∃ i t', (reinsertStep (pure t) (.used next key value)).outcome = .ok t' ∧
      (t.put key value).outcome = .ok (t', .ok i) ∧
      t.Stored t' key value i t.capacity (t.len + 1) := by
  obtain ⟨L, hL⟩ := inOrder_iff.mp ht
  obtain ⟨i, t', L', ht', hadded⟩ := hL.insert_added hcap hnew hroom value
  refine ⟨i, t', ?_, put_stored ht', hadded.toStored⟩
  unfold reinsertStep
  simp only [Traced.outcome_bind, Traced.outcome_pure, ok_bind, ht']

/-- Entries with new keys, for which there is room, are all taken. -/
theorem reinsert_spec (old : List (Slot w K V)) (ht : t.InOrder)
    (hcap : t.capacity ≤ w.maxCapacity)
    (hroom : t.len + old.countP Slot.isUsed ≤ t.capacity)
    (hnew : ∀ slot ∈ old, ∀ k v, slot.entry? = some (k, v) → ¬ t.Has k)
    (hdistinct : old.Pairwise Slot.Distinct) :
    ∃ t', (reinsert t old).outcome = .ok t' ∧ Fills (old.filterMap Slot.entry?) t t' ∧
      t.Derived t' t.capacity (t.len + old.countP Slot.isUsed)
        fun k v => t.Holds k v ∨ ∃ slot ∈ old, slot.entry? = some (k, v) := by
  -- the keys to come are different from the one just taken, so they are new to the next table too
  induction old generalizing t with
  | nil => exact ⟨t, rfl, .nil, ht.derived.congr fun k v => by simp⟩
  | cons slot old ih =>
    rw [List.pairwise_cons] at hdistinct
    have hnew' : ∀ slot' ∈ old, ∀ k v, slot'.entry? = some (k, v) → ¬ t.Has k :=
      fun slot' h => hnew slot' (List.mem_cons_of_mem slot h)
    rw [reinsert_eq, List.foldl_cons]
    cases slot with
    | free prev next =>
      have hcount : (Slot.free prev next :: old).countP Slot.isUsed = old.countP Slot.isUsed :=
        List.countP_cons_of_neg (by simp [Slot.isUsed])
      rw [hcount] at hroom ⊢
      obtain ⟨t', ht', hfills, hderived⟩ := ih ht hcap hroom hnew' hdistinct.2
      refine ⟨t', ht', hfills, hderived.congr fun k v => ?_⟩
      simp [ Slot.entry?]
    | used next key value =>
      have hcount : (Slot.used next key value :: old).countP Slot.isUsed =
          old.countP Slot.isUsed + 1 := List.countP_cons_of_pos rfl
      rw [hcount] at hroom ⊢
      have habsent : ¬ t.Has key := hnew _ List.mem_cons_self key value rfl
      obtain ⟨i, t₁, hstep, hput, hstored⟩ :=
        reinsertStep_spec ht hcap habsent (by omega) next value
      have hcap₁ : t₁.capacity = t.capacity := hstored.capacity_eq
      have hlen₁ : t₁.len = t.len + 1 := hstored.len_eq
      have hnew₁ : ∀ slot' ∈ old, ∀ k v, slot'.entry? = some (k, v) → ¬ t₁.Has k := by
        rintro slot' hslot' k v hkv ⟨u, hu⟩
        rcases (hstored.holds_iff k u).mp hu with ⟨rfl, -⟩ | ⟨-, hheld⟩
        · exact hdistinct.1 slot' hslot' k value v rfl hkv
        · exact hnew' slot' hslot' k v hkv ⟨u, hheld⟩
      obtain ⟨t', ht', hfills, hderived⟩ :=
        ih hstored.inOrder (by omega) (by omega) hnew₁ hdistinct.2
      refine ⟨t', (outcome_foldl_reinsertStep old hstep).trans ht', .cons hput hcap₁ hfills, ?_⟩
      have hderived' := hderived.trans hstored.policy_eq hstored.hash_eq
      rw [hcap₁, hlen₁, Nat.add_assoc, Nat.add_comm 1] at hderived'
      refine hderived'.congr fun k v => ?_
      rw [hstored.holds_iff, HoldsWith]
      simp only [List.mem_cons, exists_eq_or_imp, Slot.entry?, Option.some.injEq,
        Prod.mk.injEq, ← or_assoc]
      refine or_congr_left ?_
      by_cases hkey : k = key
      · have hno : ¬ t.Holds k v := fun hheld => habsent ⟨v, hkey ▸ hheld⟩
        simp [hkey, hkey ▸ hno, eq_comm]
      · simp [hkey, Ne.symm hkey]

/-! ## Rebuilding and growing -/

omit [DecidableEq K] in
/-- What a rebuilding asks of the new capacity. -/
theorem rebuild_guard {c e : Nat} (hpow : c = 2 ^ e) (hlen : t.len ≤ c) (hne : c ≠ t.capacity) :
    (!isPowerOfTwo c || decide (c < t.len) || decide (c = t.capacity)) = false := by
  rw [isPowerOfTwo_iff.mpr ⟨e, hpow⟩]
  simp [hne, hlen]

/-- A table in order can be rebuilt with any other power of two for a capacity that has room for
its entries, up to what links can serve. -/
theorem LaidOut.rebuild_spec (hL : t.LaidOut L) {c e : Nat} (hpow : c = 2 ^ e)
    (hlen : t.len ≤ c) (hne : c ≠ t.capacity) (hcap : c ≤ w.maxCapacity) :
    ∃ t', (t.rebuild c).outcome = .ok (t', none) ∧
      Fills (t.slots.entriesFrom 1) (blank t.policy t.hash c) t' ∧
      t.Derived t' c t.len t.Holds := by
  obtain ⟨mask, rfl⟩ : ∃ mask, c = mask + 1 := by
    have := Nat.one_le_two_pow (n := e)
    exact ⟨c - 1, by omega⟩
  let fresh : Table w K V := ⟨t.policy, t.hash, SlotArray.fresh (mask + 1), 0, mask⟩
  have hfresh := laidOut_fresh (w := w) (V := V) t.policy t.hash hpow hcap
  have hcount : (t.slots.toList.drop 1).countP Slot.isUsed = t.len := hL.len_eq_usedCount.symm
  have hempty : ∀ k, ¬ fresh.Has k := fun k ⟨v, hv⟩ => not_holds_fresh _ k v hv
  -- the fresh table has room for all the old entries, and their keys are new to it
  obtain ⟨t', ht', hfills, hderived⟩ := reinsert_spec (t := fresh) (t.slots.toList.drop 1)
    hfresh.inOrder hcap (by rw [hcount, Nat.zero_add]; exact hlen)
    (fun _ _ k _ _ => hempty k) hL.pairwise_distinct
  rw [hcount, Nat.zero_add] at hderived
  refine ⟨t', ?_, hfills, Derived.congr (hderived.trans (t := t) rfl rfl) fun k v => ?_⟩
  · unfold rebuild
    rw [rebuild_guard hpow hlen hne]
    simp only [Bool.false_eq_true, if_false, Traced.outcome_bind, Traced.outcome_emit, ok_bind,
      allocate_outcome (isPowerOfTwo_iff.mpr ⟨e, hpow⟩), SlotArray.allocate_eq hcap]
    show ((reinsert fresh (t.slots.toList.drop 1)).outcome >>= _) = _
    rw [ht', ok_bind, if_pos hderived.len_eq]
    rfl
  · have h0 := hL.circle.node_eq_none (i := 0) List.mem_cons_self
    rw [SlotArray.exists_mem_drop_iff h0]
    exact or_iff_right (not_holds_fresh _ k v)

/-- A rebuilding that links cannot serve is declined. -/
theorem rebuild_eq_tooLarge {c e : Nat} (hpow : c = 2 ^ e) (hlen : t.len ≤ c)
    (hne : c ≠ t.capacity) (hcap : w.maxCapacity < c) :
    t.rebuild c = pure (t, some (.capacityTooLarge c w)) := by
  unfold rebuild
  rw [rebuild_guard hpow hlen hne, allocate_eq_error (isPowerOfTwo_iff.mpr ⟨e, hpow⟩) hcap]
  rfl

/-- What making room in a table in order can come to. -/
inductive GrowSpec (t : Table w K V) : Table w K V × Option TableError → Prop where
  /-- The capacity has doubled. -/
  | grown {t' : Table w K V} (growable : t.policy = .growable)
      (le : 2 * t.capacity ≤ w.maxCapacity)
      (derived : t.Derived t' (2 * t.capacity) t.len t.Holds) : GrowSpec t (t', none)
  /-- The capacity is fixed. -/
  | fixed (fixed : t.policy = .fixed) :
      GrowSpec t (t, some (.capacityExhausted t.capacity))
  /-- Links cannot serve twice the capacity. -/
  | tooLarge (growable : t.policy = .growable) (lt : w.maxCapacity < 2 * t.capacity) :
      GrowSpec t (t, some (.capacityTooLarge (2 * t.capacity) w))

/-- To make room is to rebuild the table with twice the capacity, if it may grow. -/
theorem grow_eq (hgrowable : t.policy = .growable) (hcap : t.capacity ≤ w.maxCapacity) :
    t.grow = t.rebuild (2 * t.capacity) := by
  have hw := two_mul_maxCapacity_lt w
  unfold grow
  rw [hgrowable]
  show (if wordLimit ≤ 2 * t.capacity then _ else t.rebuild (2 * t.capacity)) = _
  -- twice the capacity is a number that fits, since links can serve the capacity
  rw [if_neg (by omega)]

omit [DecidableEq K] in
theorem LaidOut.two_mul_capacity_pow (hL : t.LaidOut L) : ∃ e, 2 * t.capacity = 2 ^ e := by
  obtain ⟨e, he⟩ := hL.capacity_pow
  exact ⟨e + 1, by rw [he, Nat.pow_succ, Nat.mul_comm]⟩

/-- A growable table in order doubles its capacity if links can serve that. -/
theorem LaidOut.grow_doubled (hL : t.LaidOut L) (hgrowable : t.policy = .growable)
    (hle : 2 * t.capacity ≤ w.maxCapacity) :
    ∃ t', t.grow.outcome = .ok (t', none) ∧
      Fills (t.slots.entriesFrom 1) (blank t.policy t.hash (2 * t.capacity)) t' ∧
      t.Derived t' (2 * t.capacity) t.len t.Holds := by
  have hlen := hL.len_le_capacity
  have hpos : 0 < t.capacity := Nat.succ_pos t.mask
  obtain ⟨e, hpow⟩ := hL.two_mul_capacity_pow
  rw [grow_eq hgrowable (by omega)]
  exact hL.rebuild_spec hpow (by omega) (by omega) hle

theorem LaidOut.grow_spec (hL : t.LaidOut L) (hcap : t.capacity ≤ w.maxCapacity) :
    ∃ r, t.grow.outcome = .ok r ∧ t.GrowSpec r := by
  cases hpolicy : t.policy with
  | fixed =>
    refine ⟨_, ?_, .fixed hpolicy⟩
    unfold grow
    rw [hpolicy]
    rfl
  | growable =>
    by_cases hle : 2 * t.capacity ≤ w.maxCapacity
    · obtain ⟨t', ht', -, hderived⟩ := hL.grow_doubled hpolicy hle
      exact ⟨_, ht', .grown hpolicy hle hderived⟩
    · have hlen := hL.len_le_capacity
      have hpos : 0 < t.capacity := Nat.succ_pos t.mask
      obtain ⟨e, hpow⟩ := hL.two_mul_capacity_pow
      refine ⟨_, ?_, .tooLarge hpolicy (by omega)⟩
      rw [grow_eq hpolicy hcap, rebuild_eq_tooLarge hpow (by omega) (by omega) (by omega)]
      rfl

/-! ## Storing -/

/-- What storing a key in a table in order can come to. -/
inductive PutSpec (t : Table w K V) (key : K) (value : V) :
    Table w K V × Except TableError Nat → Prop where
  /-- The key was stored, and has another value. -/
  | replaced {i t'} (has : t.Has key) (stored : t.Stored t' key value i t.capacity t.len) :
      PutSpec t key value (t', .ok i)
  /-- The key was not stored, and is now. -/
  | added {i t'} (new : ¬ t.Has key) (room : t.len < t.capacity)
      (stored : t.Stored t' key value i t.capacity (t.len + 1)) : PutSpec t key value (t', .ok i)
  /-- The key was not stored, and is now, in a table of twice the capacity. -/
  | grown {i t'} (new : ¬ t.Has key) (full : t.len = t.capacity) (growable : t.policy = .growable)
      (le : 2 * t.capacity ≤ w.maxCapacity)
      (stored : t.Stored t' key value i (2 * t.capacity) (t.len + 1)) :
      PutSpec t key value (t', .ok i)
  /-- The key was not stored, and the capacity is fixed. -/
  | exhausted (new : ¬ t.Has key) (full : t.len = t.capacity) (fixed : t.policy = .fixed) :
      PutSpec t key value (t, .error (.capacityExhausted t.capacity))
  /-- The key was not stored, and links cannot serve twice the capacity. -/
  | tooLarge (new : ¬ t.Has key) (full : t.len = t.capacity) (growable : t.policy = .growable)
      (lt : w.maxCapacity < 2 * t.capacity) :
      PutSpec t key value (t, .error (.capacityTooLarge (2 * t.capacity) w))

omit [DecidableEq K] in
/-- Whatever slot storing a key answers with, it holds the key and the value. -/
theorem PutSpec.entry_eq {i : Nat} (h : t.PutSpec key value (t', .ok i)) :
    t'.slots.node.entry i = some (key, value) := by
  cases h with
  | replaced _ hstored => exact hstored.entry_eq
  | added _ _ hstored => exact hstored.entry_eq
  | grown _ _ _ _ hstored => exact hstored.entry_eq

/-- Where a new key finds a table full that may grow, there is room for it after that. -/
theorem LaidOut.grow_insert (hL : t.LaidOut L) (hnew : ¬ t.Has key) (hfull : t.len = t.capacity)
    (hgrowable : t.policy = .growable) (hle : 2 * t.capacity ≤ w.maxCapacity) (value : V) :
    ∃ t₁ i t', t.grow.outcome = .ok (t₁, none) ∧
      Fills (t.slots.entriesFrom 1) (blank t.policy t.hash (2 * t.capacity)) t₁ ∧
      t.Derived t₁ (2 * t.capacity) t.len t.Holds ∧
      (t₁.insert key value).outcome = .ok (.stored i t') ∧
      t.Stored t' key value i (2 * t.capacity) (t.len + 1) := by
  obtain ⟨t₁, hgrow, hfills, hderived⟩ := hL.grow_doubled hgrowable hle
  obtain ⟨L₁, hL₁⟩ := inOrder_iff.mp hderived.inOrder
  have hcap₁ : t₁.capacity = 2 * t.capacity := hderived.capacity_eq
  have hlen₁ : t₁.len = t.len := hderived.len_eq
  have hpos : 0 < t.capacity := Nat.succ_pos t.mask
  have hnew₁ : ¬ t₁.Has key := by
    intro hhas
    obtain ⟨v, hv⟩ := hhas
    exact hnew ⟨v, (hderived.holds_iff key v).mp hv⟩
  obtain ⟨i, t', L', hinsert, hadded⟩ := hL₁.insert_added (by omega) hnew₁ (by omega) value
  have hderived' := hadded.toDerived.trans hderived.policy_eq hderived.hash_eq
  rw [hcap₁, hlen₁] at hderived'
  refine ⟨t₁, i, t', hgrow, hfills, hderived, hinsert,
    hderived'.congr fun k v => ?_, hadded.entry_eq⟩
  rw [HoldsWith, HoldsWith, hderived.holds_iff]

/-- Storing a key in a table in order runs into no fault. Any number of attempts from two on
comes to the same. -/
theorem LaidOut.putWithin_spec (hL : t.LaidOut L) (hcap : t.capacity ≤ w.maxCapacity) (key : K)
    (value : V) :
    ∃ r, (∀ attempts, (putWithin key value (attempts + 2) t).outcome = .ok r) ∧
      t.PutSpec key value r := by
  obtain ⟨r, hr, hspec⟩ := hL.insert_spec hcap key value
  cases hspec with
  | @replaced i t' hhas hstored =>
    exact ⟨(t', .ok i), fun n => putWithin_stored hr (n + 1), .replaced hhas hstored⟩
  | @added i t' hnew hroom hstored =>
    exact ⟨(t', .ok i), fun n => putWithin_stored hr (n + 1), .added hnew hroom hstored⟩
  | full hnew hfull =>
    obtain ⟨g, hg, hgrow⟩ := hL.grow_spec hcap
    cases hgrow with
    | fixed hfixed =>
      refine ⟨_, fun n => ?_, .exhausted hnew hfull hfixed⟩
      unfold putWithin
      simp only [Traced.outcome_bind, hr, ok_bind, hg, Traced.outcome_pure]
    | tooLarge hgrowable hlt =>
      refine ⟨_, fun n => ?_, .tooLarge hnew hfull hgrowable hlt⟩
      unfold putWithin
      simp only [Traced.outcome_bind, hr, ok_bind, hg, Traced.outcome_pure]
    | grown hgrowable hle =>
      -- the second attempt finds room for the key
      obtain ⟨t₁, i, t', hg', -, -, ht', hstored⟩ :=
        hL.grow_insert hnew hfull hgrowable hle value
      refine ⟨(t', .ok i), fun n => ?_, .grown hnew hfull hgrowable hle hstored⟩
      rw [putWithin_grown hr hg']
      exact putWithin_stored ht' n

/-- Two attempts are enough to store a key. -/
theorem LaidOut.put_spec (hL : t.LaidOut L) (hcap : t.capacity ≤ w.maxCapacity) (key : K)
    (value : V) :
    ∃ r, (t.put key value).outcome = .ok r ∧ (putWithin key value 2 t).outcome = .ok r ∧
      t.PutSpec key value r := by
  obtain ⟨r, hr, hspec⟩ := hL.putWithin_spec hcap key value
  obtain ⟨n, hn⟩ := t.exists_put_eq key value
  exact ⟨r, hn ▸ hr n, hr 0, hspec⟩

/-- Where a new key is stored and the table has not grown, it was added to the table. -/
theorem LaidOut.put_added {i : Nat} (hL : t.LaidOut L) (hcap : t.capacity ≤ w.maxCapacity)
    (hnew : ¬ t.Has key) (hput : (t.put key value).outcome = .ok (t', .ok i))
    (hsame : t'.capacity = t.capacity) : ∃ L', t.Added t' L L' key value i := by
  rcases Nat.lt_or_eq_of_le hL.len_le_capacity with hroom | hfull
  · obtain ⟨j, u, L', hinsert, hadded⟩ := hL.insert_added hcap hnew hroom value
    have hput' := put_stored hinsert
    rw [hput] at hput'
    cases hput'
    exact ⟨L', hadded⟩
  · -- there is no room in a full table
    obtain ⟨r, hr, -, hspec⟩ := hL.put_spec hcap key value
    rw [hput, Except.ok.injEq] at hr
    subst hr
    cases hspec with
    | replaced has => exact absurd has hnew
    | added _ hroom => omega
    | grown _ _ _ _ hstored =>
      have hdouble : t'.capacity = 2 * t.capacity := hstored.capacity_eq
      have hpos : 0 < t.capacity := Nat.succ_pos t.mask
      omega

/-- Where the table grows for a new key, the key is stored in the table that was rebuilt. -/
theorem LaidOut.put_grown (hL : t.LaidOut L) (hnew : ¬ t.Has key) (hfull : t.len = t.capacity)
    (hgrowable : t.policy = .growable) (hle : 2 * t.capacity ≤ w.maxCapacity) (value : V) :
    ∃ t₁ i t', Fills (t.slots.entriesFrom 1) (blank t.policy t.hash (2 * t.capacity)) t₁ ∧
      t₁.capacity = 2 * t.capacity ∧ t'.capacity = 2 * t.capacity ∧
      (t₁.put key value).outcome = .ok (t', .ok i) ∧
      (t.put key value).outcome = .ok (t', .ok i) := by
  obtain ⟨t₁, i, t', hgrow, hfills, hderived, hinsert, hstored⟩ :=
    hL.grow_insert hnew hfull hgrowable hle value
  obtain ⟨n, hn⟩ := t.exists_put_eq key value
  refine ⟨t₁, i, t', hfills, hderived.capacity_eq, hstored.capacity_eq, put_stored hinsert, ?_⟩
  rw [hn, putWithin_grown (hL.insert_full hnew hfull value) hgrow]
  exact putWithin_stored hinsert n

/-! ## Rebuilding on request -/

/-- What a request for another capacity can come to on a table in order. -/
inductive RehashSpec (t : Table w K V) (count : Nat) :
    Table w K V × Except TableError Nat → Prop where
  /-- The table has the capacity asked for. -/
  | rebuilt {t' : Table w K V} (growable : t.policy = .growable) (len_le : t.len ≤ count)
      (le : 2 ^ Nat.clog 2 count ≤ w.maxCapacity)
      (derived : t.Derived t' (2 ^ Nat.clog 2 count) t.len t.Holds) :
      RehashSpec t count (t', .ok (2 ^ Nat.clog 2 count))
  /-- The capacity is fixed. -/
  | fixed (fixed : t.policy = .fixed) : RehashSpec t count (t, .error .notGrowable)
  /-- There are more entries than the capacity asked for has room for. -/
  | below (growable : t.policy = .growable) (lt : count < t.len) :
      RehashSpec t count (t, .error (.belowPopulation count t.len))
  /-- Links cannot serve the capacity asked for. -/
  | tooLarge (growable : t.policy = .growable) (len_le : t.len ≤ count)
      (lt : w.maxCapacity < 2 ^ Nat.clog 2 count) :
      RehashSpec t count (t, .error (.capacityTooLarge count w))

/-- Without a request for another capacity, nothing is done. -/
theorem rehash_same {count : Nat} (hgrowable : t.policy = .growable) (hlen : t.len ≤ count)
    (hcap : t.capacity ≤ w.maxCapacity) (heq : 2 ^ Nat.clog 2 count = t.capacity) :
    (t.rehash count).outcome = .ok (t, .ok t.capacity) := by
  unfold rehash
  rw [hgrowable]
  show (if count < t.len then _ else _ : Traced _).outcome = _
  rw [if_neg (Nat.not_lt.mpr hlen), roundCapacity_eq, heq, if_pos hcap]
  show (if t.capacity = t.capacity then _ else _ : Traced _).outcome = _
  rw [if_pos rfl]
  rfl

/-- A growable table in order is rebuilt with another capacity, if links can serve it and there is
room for the entries. -/
theorem LaidOut.rehash_rebuilt (hL : t.LaidOut L) {count : Nat} (hgrowable : t.policy = .growable)
    (hlen : t.len ≤ count) (hcap : 2 ^ Nat.clog 2 count ≤ w.maxCapacity)
    (hne : 2 ^ Nat.clog 2 count ≠ t.capacity) :
    ∃ t', (t.rehash count).outcome = .ok (t', .ok (2 ^ Nat.clog 2 count)) ∧
      Fills (t.slots.entriesFrom 1) (blank t.policy t.hash (2 ^ Nat.clog 2 count)) t' ∧
      t.Derived t' (2 ^ Nat.clog 2 count) t.len t.Holds := by
  have hle : count ≤ 2 ^ Nat.clog 2 count := Nat.le_pow_clog (by decide) count
  obtain ⟨t', ht', hfills, hderived⟩ := hL.rebuild_spec rfl (hlen.trans hle) hne hcap
  refine ⟨t', ?_, hfills, hderived⟩
  unfold rehash
  rw [hgrowable]
  show (if count < t.len then _ else _ : Traced _).outcome = _
  rw [if_neg (Nat.not_lt.mpr hlen), roundCapacity_eq, if_pos hcap]
  show (if 2 ^ Nat.clog 2 count = t.capacity then _ else _ : Traced _).outcome = _
  rw [if_neg hne, Traced.outcome_bind, ht', ok_bind]
  show Except.ok (t', Except.ok t'.capacity) = _
  rw [hderived.capacity_eq]

/-- A request for another capacity runs into no fault on a table in order. -/
theorem LaidOut.rehash_spec (hL : t.LaidOut L) (count : Nat) :
    ∃ r, (t.rehash count).outcome = .ok r ∧ t.RehashSpec count r := by
  cases hpolicy : t.policy with
  | fixed =>
    refine ⟨_, ?_, .fixed hpolicy⟩
    unfold rehash
    rw [hpolicy]
    rfl
  | growable =>
    by_cases hlt : count < t.len
    · refine ⟨_, ?_, .below hpolicy hlt⟩
      unfold rehash
      rw [hpolicy]
      show (if count < t.len then _ else _ : Traced _).outcome = _
      rw [if_pos hlt]
      rfl
    · have hlen : t.len ≤ count := Nat.le_of_not_lt hlt
      by_cases hcap : 2 ^ Nat.clog 2 count ≤ w.maxCapacity
      · by_cases heq : 2 ^ Nat.clog 2 count = t.capacity
        · refine ⟨_, rehash_same hpolicy hlen (heq ▸ hcap) heq, ?_⟩
          rw [← heq]
          exact .rebuilt hpolicy hlen hcap (heq ▸ hL.inOrder.derived)
        · obtain ⟨t', ht', -, hderived⟩ := hL.rehash_rebuilt hpolicy hlen hcap heq
          exact ⟨_, ht', .rebuilt hpolicy hlen hcap hderived⟩
      · refine ⟨_, ?_, .tooLarge hpolicy hlen (Nat.lt_of_not_le hcap)⟩
        unfold rehash
        rw [hpolicy]
        show (if count < t.len then _ else _ : Traced _).outcome = _
        rw [if_neg hlt, roundCapacity_eq, if_neg hcap]
        rfl

end Table

end HomeChain

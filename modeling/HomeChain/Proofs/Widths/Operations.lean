import HomeChain.Proofs.Widths.Alike
import HomeChain.Table.Rebuild
import HomeChain.Table.Remove

/-!
# Operations on tables that are alike

Two tables are alike if they have the same policy, hash, count and mask, and slots that are alike.
An operation does the same to both: what it answers is the same, and the tables that it leaves are
alike. The exception is that links of one width may not serve a capacity that links of the other
can; then one of the two tables declines the request.
-/

namespace HomeChain

variable {w w' : LinkWidth} {K V : Type}

/-- The tables differ at most in the width of their links. -/
structure Table.Alike (t : Table w K V) (t' : Table w' K V) : Prop where
  policy_eq : t.policy = t'.policy
  hash_eq : t.hash = t'.hash
  slots : t.slots.Alike t'.slots
  len_eq : t.len = t'.len
  mask_eq : t.mask = t'.mask

/-- The tables are alike, and the answers are the same. -/
def Table.AlikeWith {A : Type} (x : Table w K V × A) (y : Table w' K V × A) : Prop :=
  x.1.Alike y.1 ∧ x.2 = y.2

/-- Links cannot serve the capacity that was asked for. -/
def TableError.TooLarge : TableError → Prop
  | capacityTooLarge .. => True
  | _ => False

/-- The tables are alike and the answers the same, unless one of the answers is that links cannot
serve a capacity. -/
def Table.AlikeUnless {A : Type} (large : A → Prop) (x : Table w K V × A) (y : Table w' K V × A) :
    Prop :=
  large x.2 ∨ large y.2 ∨ AlikeWith x y

theorem Table.AlikeUnless.of_alike {A : Type} {large : A → Prop} {t : Table w K V}
    {t' : Table w' K V} (h : t.Alike t') (a : A) : AlikeUnless large (t, a) (t', a) :=
  .inr (.inr ⟨h, rfl⟩)

/-- What comes after two answers that are the same. -/
theorem Table.AlikeWith.bind {A γ δ : Type} {S : γ → δ → Prop} {x : Except Fault (Table w K V × A)}
    {y : Except Fault (Table w' K V × A)} {f : Table w K V × A → Except Fault γ}
    {g : Table w' K V × A → Except Fault δ} (h : Agree AlikeWith x y)
    (hfg : ∀ u u' a, u.Alike u' → Agree S (f (u, a)) (g (u', a))) :
    Agree S (x >>= f) (y >>= g) := by
  refine Agree.bind h ?_
  rintro ⟨u, a⟩ ⟨u', a'⟩ ⟨hu, haa⟩
  obtain rfl : a = a' := haa
  exact hfg u u' a hu

/-- What is declined since a capacity is too large makes the request it is part of be declined for
the same reason. -/
theorem Table.AlikeUnless.bind {A B : Type} {large : A → Prop} {large' : B → Prop}
    {x : Except Fault (Table w K V × A)} {y : Except Fault (Table w' K V × A)}
    {f : Table w K V × A → Except Fault (Table w K V × B)}
    {g : Table w' K V × A → Except Fault (Table w' K V × B)} (h : Agree (AlikeUnless large) x y)
    (hlarge : ∀ a, large a → (∀ u, ∃ r, f (u, a) = .ok r ∧ large' r.2) ∧
      ∀ u, ∃ r, g (u, a) = .ok r ∧ large' r.2)
    (hfg : ∀ u u' a, u.Alike u' → Agree (AlikeUnless large') (f (u, a)) (g (u', a))) :
    Agree (AlikeUnless large') (x >>= f) (y >>= g) := by
  refine h.bind ?_
  rintro ⟨u, a⟩ ⟨u', a'⟩ (ha | ha | ⟨hu, haa⟩)
  · obtain ⟨r, hr, hr'⟩ := (hlarge a ha).1 u
    rw [hr]
    exact .left fun _ => .inl hr'
  · obtain ⟨r, hr, hr'⟩ := (hlarge a' ha).2 u'
    rw [hr]
    exact .right fun _ => .inr (.inl hr')
  · obtain rfl : a = a' := haa
    exact hfg u u' a hu

/-- The attempts came to the same, and the tables are alike. -/
inductive Insertion.Alike : Insertion w K V → Insertion w' K V → Prop where
  | stored (slot : Nat) {t : Table w K V} {t' : Table w' K V} (alike : t.Alike t') :
      Alike (.stored slot t) (.stored slot t')
  | full {t : Table w K V} {t' : Table w' K V} (alike : t.Alike t') : Alike (.full t) (.full t')

namespace Table

variable {t : Table w K V} {t' : Table w' K V}

theorem alike_blank (policy : Policy) (hash : K → UInt64) {c : Nat} (h : c ≤ w.maxCapacity)
    (h' : c ≤ w'.maxCapacity) :
    (blank policy hash c : Table w K V).Alike (blank policy hash c : Table w' K V) :=
  ⟨rfl, rfl, SlotArray.alike_fresh h h', rfl, rfl⟩

namespace Alike

theorem home_eq (h : t.Alike t') (key : K) : t.home key = t'.home key := by
  rw [home, home, h.hash_eq, h.mask_eq]

theorem capacity_eq (h : t.Alike t') : t.capacity = t'.capacity := by
  rw [capacity, capacity, h.mask_eq]

theorem setSlots (h : t.Alike t') {s : SlotArray w K V} {s' : SlotArray w' K V}
    (hs : s.Alike s') :
    ({ t with slots := s } : Table w K V).Alike ({ t' with slots := s' } : Table w' K V) :=
  ⟨h.policy_eq, h.hash_eq, hs, h.len_eq, h.mask_eq⟩

theorem withSlots (h : t.Alike t') {f : SlotArray w K V → Except Fault (SlotArray w K V)}
    {f' : SlotArray w' K V → Except Fault (SlotArray w' K V)}
    (hf : Agree SlotArray.Alike (f t.slots) (f' t'.slots)) :
    Agree Alike (t.withSlots f) (t'.withSlots f') := by
  rw [withSlots_eq_bind, withSlots_eq_bind]
  exact hf.bind fun s s' hs => .ok (h.setSlots hs)

theorem acquire (h : t.Alike t') :
    Agree (fun x y => x.1 = y.1 ∧ x.2.Alike y.2) t.acquire.outcome t'.acquire.outcome := by
  rw [acquire_outcome_eq, acquire_outcome_eq]
  exact h.slots.acquire.bind fun x y hxy => .ok ⟨hxy.1, h.setSlots hxy.2⟩

theorem occupy (h : t.Alike t') (i : Nat) (key : K) (value : V) :
    Agree Alike (t.occupy i key value) (t'.occupy i key value) := by
  rw [occupy_eq_bind, occupy_eq_bind, ← h.len_eq]
  split
  · exact .error_left
  · exact (h.slots.write (.used Link.alike_null) i).bind fun s s' hs =>
      .ok ⟨h.policy_eq, h.hash_eq, hs, rfl, h.mask_eq⟩

/-! ## Lookups -/

section Lookup

variable [DecidableEq K]

theorem trail (h : t.Alike t') (key : K) (dangling : Fault) :
    Agree (· = ·) (t.trail key dangling) (t'.trail key dangling) := by
  unfold Table.trail
  rw [← h.home_eq, ← h.slots.size_eq]
  refine (h.slots.read (t.home key)).bind fun a b hab => ?_
  rw [hab.isUsed_eq]
  split
  · exact (h.slots.search key dangling _ [] _).bind_eq fun x => .refl _
  · exact .refl _

theorem find (h : t.Alike t') (key : K) : Agree (· = ·) (t.find key) (t'.find key) := by
  unfold Table.find
  exact (h.trail key .keyOfFree).bind_eq fun x => .refl _

theorem get (h : t.Alike t') (key : K) : Agree (· = ·) (t.get key) (t'.get key) := by
  unfold Table.get
  refine (h.find key).bind_eq fun r => ?_
  cases r with
  | none => exact .refl _
  | some i =>
    exact (h.slots.value i).bind_eq fun v => .refl _

theorem contains (h : t.Alike t') (key : K) :
    Agree (· = ·) (t.contains key) (t'.contains key) := by
  unfold Table.contains
  exact (h.find key).bind_eq fun r => .refl _

omit [DecidableEq K] in
theorem updateAt (h : t.Alike t') (i : Nat) (f : V → V) :
    Agree Alike (t.updateAt i f) (t'.updateAt i f) :=
  h.withSlots (h.slots.updateValue i f)

theorem modify (h : t.Alike t') (key : K) (f : V → V) :
    Agree AlikeWith (t.modify key f) (t'.modify key f) := by
  unfold Table.modify
  refine (h.find key).bind_eq fun r => ?_
  cases r with
  | none => exact .ok ⟨h, rfl⟩
  | some i =>
    refine (h.slots.value i).bind_eq fun v => ?_
    exact (h.updateAt i f).bind fun u u' hu => .ok ⟨hu, rfl⟩

end Lookup

/-! ## Insertion -/

theorem populate (h : t.Alike t') (home : Nat) (key : K) (value : V) :
    Agree Insertion.Alike (t.populate home key value).outcome
      (t'.populate home key value).outcome := by
  unfold Table.populate
  simp only [Traced.outcome_bind, Traced.outcome_emit, Traced.outcome_lift, Traced.outcome_pure,
    ok_bind]
  refine (h.withSlots (h.slots.unlink home)).bind fun u u' hu => ?_
  exact (hu.occupy home key value).bind fun v v' hv => .ok (.stored home hv)

theorem insertIntoChain [DecidableEq K] (h : t.Alike t') (head : Nat) (key : K) (value : V) :
    Agree Insertion.Alike (t.insertIntoChain head key value).outcome
      (t'.insertIntoChain head key value).outcome := by
  unfold Table.insertIntoChain
  simp only [Traced.outcome_bind, Traced.outcome_lift, ← h.slots.size_eq, ← h.len_eq,
    ← h.capacity_eq]
  refine (h.slots.search key .keyOfFree _ [] head).bind_eq fun x => ?_
  by_cases hfound : x.found = true
  · simp only [if_pos hfound, Traced.outcome_bind, Traced.outcome_emit, Traced.outcome_lift,
      Traced.outcome_pure, ok_bind]
    exact (h.withSlots (h.slots.updateValue x.last fun _ => value)).bind fun u u' hu =>
      .ok (.stored x.last hu)
  simp only [if_neg hfound]
  by_cases hfull : t.len = t.capacity
  · simp only [if_pos hfull, Traced.outcome_pure]
    exact .ok (.full h)
  simp only [if_neg hfull, Traced.outcome_bind]
  refine h.acquire.bind ?_
  rintro ⟨i, u⟩ ⟨_, u'⟩ ⟨rfl, hu⟩
  dsimp only at hu ⊢
  simp only [Traced.outcome_emit, Traced.outcome_lift, Traced.outcome_pure, ok_bind]
  refine (hu.withSlots ?_).bind fun v v' hv => ?_
  · exact (Link.agree_encodeIndex i).bind fun l l' hl => hu.slots.setChainNext hl x.last
  · exact (hv.occupy i key value).bind fun z z' hz => .ok (.stored i hz)

theorem displaceAndInsert (h : t.Alike t') (home head : Nat) (key : K) (value : V) :
    Agree Insertion.Alike (t.displaceAndInsert home head key value).outcome
      (t'.displaceAndInsert home head key value).outcome := by
  unfold Table.displaceAndInsert
  rw [← h.len_eq, ← h.capacity_eq]
  by_cases hfull : t.len = t.capacity
  · rw [if_pos hfull, if_pos hfull]
    exact .ok (.full h)
  rw [if_neg hfull, if_neg hfull, Traced.outcome_bind, Traced.outcome_bind]
  refine h.acquire.bind ?_
  rintro ⟨spare, u⟩ ⟨_, u'⟩ ⟨rfl, hu⟩
  dsimp only at hu ⊢
  simp only [Traced.outcome_bind, Traced.outcome_emit, Traced.outcome_lift, Traced.outcome_pure,
    ok_bind]
  refine (hu.withSlots ?_).bind fun v v' hv => ?_
  · -- the occupant is copied, and the slot in front of it led to the copy
    refine (hu.slots.read home).bind fun a b hab => ?_
    refine (hu.slots.write hab spare).bind fun s s' hs => ?_
    rw [← hs.size_eq]
    refine (hs.predecessor home _ head).bind_eq fun pred => ?_
    exact (Link.agree_encodeIndex spare).bind fun l l' hl => hs.setChainNext hl pred
  · exact (hv.occupy home key value).bind fun z z' hz => .ok (.stored home hz)

section Storing

variable [DecidableEq K]

theorem insert (h : t.Alike t') (key : K) (value : V) :
    Agree Insertion.Alike (t.insert key value).outcome (t'.insert key value).outcome := by
  unfold Table.insert
  simp only [Traced.outcome_bind, Traced.outcome_lift, ← h.home_eq]
  refine (h.slots.read (t.home key)).bind fun a b hab => ?_
  cases hab with
  | free => exact h.populate (t.home key) key value
  | @used next next' occupant v hnext =>
    dsimp only
    by_cases hhome : t.home occupant = t.home key
    · rw [if_pos hhome, if_pos hhome]
      exact h.insertIntoChain (t.home key) key value
    · rw [if_neg hhome, if_neg hhome]
      exact h.displaceAndInsert (t.home key) (t.home occupant) key value

/-! ## Rebuilding -/

/-- Entries are taken from arrays that are alike. -/
theorem reinsertStep {x : Traced (Table w K V)} {y : Traced (Table w' K V)}
    (h : Agree Alike x.outcome y.outcome) {a : Slot w K V} {b : Slot w' K V} (hab : a.Alike b) :
    Agree Alike (Table.reinsertStep x a).outcome (Table.reinsertStep y b).outcome := by
  cases hab with
  | free => exact h
  | @used next next' key value hnext =>
    unfold Table.reinsertStep
    simp only [Traced.outcome_bind]
    refine h.bind fun u u' hu => (hu.insert key value).bind fun r r' hr => ?_
    cases hr with
    | stored slot hv => exact .ok hv
    | full hv => exact .error_left

theorem reinsert (h : t.Alike t') {old : List (Slot w K V)} {old' : List (Slot w' K V)}
    (hold : List.Forall₂ Slot.Alike old old') :
    Agree Alike (t.reinsert old).outcome (t'.reinsert old').outcome := by
  have hfold : ∀ {x : Traced (Table w K V)} {y : Traced (Table w' K V)},
      Agree Alike x.outcome y.outcome →
        Agree Alike (old.foldl Table.reinsertStep x).outcome
          (old'.foldl Table.reinsertStep y).outcome := by
    induction hold with
    | nil => exact id
    | cons hab _ ih => exact fun hxy => ih (reinsertStep hxy hab)
  rw [reinsert_eq, reinsert_eq]
  exact hfold (.ok h)

theorem rebuild (h : t.Alike t') (c : Nat) :
    Agree (AlikeUnless fun o => ∃ e ∈ o, e.TooLarge) (t.rebuild c).outcome
      (t'.rebuild c).outcome := by
  unfold Table.rebuild
  simp only [← h.len_eq, ← h.capacity_eq]
  split
  · exact .error_left
  rename_i hguard
  have hpow : isPowerOfTwo c = true := by
    simp only [Bool.or_eq_true, not_or, Bool.not_eq_true, Bool.not_eq_false'] at hguard
    exact hguard.1.1
  by_cases hc : c ≤ w.maxCapacity
  · by_cases hc' : c ≤ w'.maxCapacity
    · -- both arrays are there, and both tables start from nothing
      simp only [Traced.outcome_bind, Traced.outcome_emit, Table.allocate_outcome hpow,
        SlotArray.allocate_eq hc, SlotArray.allocate_eq hc', ok_bind]
      rw [← h.policy_eq, ← h.hash_eq]
      have hblank := alike_blank (V := V) t.policy t.hash hc hc'
      refine (hblank.reinsert (h.slots.forall₂_drop 1)).bind fun u u' hu => ?_
      rw [← hu.len_eq]
      split
      · exact .ok (.of_alike hu _)
      · exact .error_left
    · rw [Table.allocate_eq_error hpow (Nat.not_le.mp hc')]
      exact .right fun _ => .inr (.inl ⟨_, rfl, trivial⟩)
  · rw [Table.allocate_eq_error hpow (Nat.not_le.mp hc)]
    exact .left fun _ => .inl ⟨_, rfl, trivial⟩

theorem grow (h : t.Alike t') :
    Agree (AlikeUnless fun o => ∃ e ∈ o, e.TooLarge) t.grow.outcome t'.grow.outcome := by
  unfold Table.grow
  rw [← h.policy_eq, ← h.capacity_eq]
  cases t.policy with
  | fixed => exact .ok (.of_alike h _)
  | growable =>
    dsimp only
    split
    · exact .left fun _ => .inl ⟨_, rfl, trivial⟩
    · exact h.rebuild (2 * t.capacity)

theorem putWithin (h : t.Alike t') (key : K) (value : V) (attempts : Nat) :
    Agree (AlikeUnless fun r => ∃ e, r = .error e ∧ e.TooLarge)
      (Table.putWithin key value attempts t).outcome
      (Table.putWithin key value attempts t').outcome := by
  induction attempts generalizing t t' with
  | zero => exact .error_left
  | succ attempts ih =>
    unfold Table.putWithin
    simp only [Traced.outcome_bind]
    refine (h.insert key value).bind fun r r' hr => ?_
    cases hr with
    | stored i hu => exact .ok (.of_alike hu _)
    | full hu =>
      simp only [Traced.outcome_bind]
      refine AlikeUnless.bind hu.grow ?_ fun v v' o hv => ?_
      · rintro _ ⟨e, ⟨⟩, he⟩
        exact ⟨fun u => ⟨_, rfl, e, rfl, he⟩, fun u => ⟨_, rfl, e, rfl, he⟩⟩
      · cases o with
        | none => exact ih hv
        | some e => exact .ok (.of_alike hv _)

theorem rehash (h : t.Alike t') (count : Nat) :
    Agree (AlikeUnless fun r => ∃ e, r = .error e ∧ e.TooLarge) (t.rehash count).outcome
      (t'.rehash count).outcome := by
  unfold Table.rehash
  rw [← h.policy_eq, ← h.len_eq, ← h.capacity_eq]
  cases t.policy with
  | fixed => exact .ok (.of_alike h _)
  | growable =>
    dsimp only
    split
    · exact .ok (.of_alike h _)
    rw [roundCapacity_eq, roundCapacity_eq]
    generalize 2 ^ Nat.clog 2 count = c
    by_cases hc : c ≤ w.maxCapacity
    · by_cases hc' : c ≤ w'.maxCapacity
      · rw [if_pos hc, if_pos hc']
        dsimp only
        split
        · exact .ok (.of_alike h _)
        rw [Traced.outcome_bind, Traced.outcome_bind]
        refine AlikeUnless.bind (h.rebuild c) ?_ fun v v' o hv => ?_
        · rintro _ ⟨e, ⟨⟩, he⟩
          exact ⟨fun u => ⟨_, rfl, e, rfl, he⟩, fun u => ⟨_, rfl, e, rfl, he⟩⟩
        · cases o with
          | none =>
            dsimp only
            rw [Traced.outcome_pure, Traced.outcome_pure, ← hv.capacity_eq]
            exact .ok (.of_alike hv _)
          | some e => exact .ok (.of_alike hv _)
      · rw [if_neg hc']
        exact .right fun _ => .inr (.inl ⟨_, rfl, trivial⟩)
    · rw [if_neg hc]
      exact .left fun _ => .inl ⟨_, rfl, trivial⟩

end Storing

/-! ## Removal -/

theorem vacate (h : t.Alike t') (i : Nat) : Agree Alike (t.vacate i) (t'.vacate i) := by
  rw [vacate_eq_bind, vacate_eq_bind, ← h.len_eq]
  refine (h.slots.release i).bind fun s s' hs => ?_
  cases t.len with
  | zero => exact .error_left
  | succ len => exact .ok ⟨h.policy_eq, h.hash_eq, hs, rfl, h.mask_eq⟩

theorem cut (h : t.Alike t') (trail : Trail) :
    Agree Alike (t.cut trail).outcome (t'.cut trail).outcome := by
  unfold Table.cut
  simp only [Traced.outcome_bind, Traced.outcome_lift]
  refine (h.slots.chainNext trail.last).bind fun next next' hnext => ?_
  simp only [hnext.eq_null_iff, hnext.decodeIndex_eq]
  split
  · cases trail.before with
    | nil => exact h.vacate trail.last
    | cons pred before =>
      simp only [Traced.outcome_bind, Traced.outcome_lift]
      refine (h.withSlots (h.slots.setChainNext Link.alike_null pred)).bind fun u u' hu => ?_
      exact hu.vacate trail.last
  · simp only [Traced.outcome_bind, Traced.outcome_lift, Traced.outcome_emit, ok_bind]
    refine (Agree.refl _).bind_eq fun successor => ?_
    refine (h.withSlots ?_).bind fun u u' hu => hu.vacate successor
    exact (h.slots.read successor).bind fun a b hab => h.slots.write hab trail.last

theorem removeAndGet [DecidableEq K] (h : t.Alike t') (key : K) :
    Agree AlikeWith (t.removeAndGet key).outcome (t'.removeAndGet key).outcome := by
  unfold Table.removeAndGet
  simp only [Traced.outcome_bind, Traced.outcome_lift]
  refine (h.trail key .freeInChain).bind_eq fun r => ?_
  cases r with
  | none => exact .ok ⟨h, rfl⟩
  | some trail =>
    dsimp only
    split
    · simp only [Traced.outcome_bind, Traced.outcome_lift, Traced.outcome_pure]
      refine (h.slots.value trail.last).bind_eq fun v => ?_
      exact (h.cut trail).bind fun u u' hu => .ok ⟨hu, rfl⟩
    · exact .ok ⟨h, rfl⟩

theorem remove [DecidableEq K] (h : t.Alike t') (key : K) :
    Agree AlikeWith (t.remove key).outcome (t'.remove key).outcome := by
  unfold Table.remove
  rw [Traced.outcome_bind, Traced.outcome_bind]
  exact AlikeWith.bind (h.removeAndGet key) fun u u' v hu => .ok ⟨hu, rfl⟩

theorem clear (h : t.Alike t') : Agree Alike t.clear t'.clear := by
  rw [clear_eq_bind, clear_eq_bind]
  exact h.slots.reset.bind fun s s' hs => .ok ⟨h.policy_eq, h.hash_eq, hs, rfl, h.mask_eq⟩

/-! ## Going over all slots -/

theorem next_eq (h : t.Alike t') (c : Cursor) : t.next c = t'.next c := by
  unfold Table.next
  rw [h.slots.cursor_next_eq c]
  split
  · rw [h.slots.entryAt_eq]
  · rfl

theorem start_eq (h : t.Alike t') : t.start = t'.start := by
  rw [start, start, h.len_eq]

theorem steps_eq (h : t.Alike t') (n : Nat) : t.steps n = t'.steps n := by
  rw [steps, steps, funext h.next_eq, h.start_eq]

/-- A visit sees the same entries, and gives them the same values. -/
theorem visitFrom (f : K → V → V) (steps : Nat) {x : Visit w K V} {y : Visit w' K V}
    (hseen : x.seen = y.seen) (hcursor : x.cursor = y.cursor) (h : x.table.Alike y.table) :
    (Table.visitFrom f steps x).seen = (Table.visitFrom f steps y).seen ∧
      (Table.visitFrom f steps x).table.Alike (Table.visitFrom f steps y).table := by
  induction steps generalizing x y with
  | zero => exact ⟨hseen, h⟩
  | succ steps ih =>
    obtain ⟨seen, cursor, ⟨policy, hash, slots, len, mask⟩⟩ := x
    obtain ⟨_, _, ⟨policy', hash', slots', len', mask'⟩⟩ := y
    obtain rfl : seen = _ := hseen
    obtain rfl : cursor = _ := hcursor
    have hslots : slots.Alike slots' := h.slots
    unfold Table.visitFrom
    dsimp only
    rw [hslots.cursor_next_eq cursor]
    split
    · exact ⟨rfl, h⟩
    · rename_i i after hnext
      have hupdated := hslots.updateEntry i f
      refine ih ?_ rfl (h.setSlots hupdated)
      dsimp only
      rw [hupdated.entryAt_eq]

theorem visit (h : t.Alike t') (limit : Option Nat) (f : K → V → V) :
    (t.visit limit f).seen = (t'.visit limit f).seen ∧
      (t.visit limit f).table.Alike (t'.visit limit f).table := by
  unfold Table.visit
  rw [h.slots.size_eq]
  exact visitFrom f _ rfl h.start_eq h

theorem tallySlot (h : t.Alike t') (tally : ChainStats.Tally) (i : Nat) :
    Agree (· = ·) (t.tallySlot tally i) (t'.tallySlot tally i) := by
  unfold Table.tallySlot
  refine (h.slots.read i).bind fun a b hab => ?_
  cases hab with
  | free => exact .refl _
  | used =>
    dsimp only
    rw [← h.home_eq, ← h.slots.size_eq]
    split
    · exact (h.slots.chainLength _ 0 i).bind_eq fun n => .refl _
    · exact .refl _

theorem chainStats (h : t.Alike t') : Agree (· = ·) t.chainStats t'.chainStats := by
  have hfold : ∀ (l : List Nat) (tally : ChainStats.Tally),
      Agree (· = ·) (l.foldlM t.tallySlot tally) (l.foldlM t'.tallySlot tally) := by
    intro l
    induction l with
    | nil => exact fun tally => .refl _
    | cons i l ih =>
      intro tally
      rw [List.foldlM_cons, List.foldlM_cons]
      exact (h.tallySlot tally i).bind_eq fun tally => ih tally
  unfold Table.chainStats
  rw [← h.capacity_eq, ← h.len_eq]
  exact (hfold _ _).bind_eq fun tally => .refl _

end Alike

end Table

end HomeChain

import HomeChain.Proofs.Declines
import HomeChain.Proofs.Preservation

/-!
# The capacity follows the peak

As long as nobody asks for a table to be rebuilt, its capacity depends on the count that it was
built for and on the most entries that it ever held, and on nothing else in its past. The invariant
is `Follows`, which keeps the peak so far beside the table. The peak stays within the capacity: a
table that doubles is full, so it is at its peak, and the entry that it doubles for is beyond it.
-/

namespace HomeChain

variable {w : LinkWidth} {K V : Type} {policy : Policy}

/-- The count of entries that a table is built for. -/
def Start.count : Start → Nat
  | .new => 1
  | .withCapacity count => count

/-- The capacity of a table that was built with capacity `c`, where its peak asks for `p`. -/
def Policy.capacityFor (policy : Policy) (c p : Nat) : Nat :=
  match policy with
  | .growable => max c p
  | .fixed => c

/-- A full table, which may grow, has doubled its capacity for one more entry. -/
structure Doubles (policy : Policy) (len capacity len' capacity' : Nat) : Prop where
  growable : policy = .growable
  full : len = capacity
  len_eq : len' = len + 1
  capacity_eq : capacity' = 2 * capacity

/-- The most entries that one of the tables holds. -/
def peak (ts : List (Table w K V)) : Nat := (ts.map Table.len).foldr max 0

theorem peak_concat (ts : List (Table w K V)) (t : Table w K V) :
    peak (ts ++ [t]) = max (peak ts) t.len := by
  induction ts with
  | nil => exact Nat.max_comm ..
  | cons u ts ih =>
    show max u.len (peak (ts ++ [t])) = max (max u.len (peak ts)) t.len
    rw [ih, max_assoc]

theorem peak_take_succ {ts : List (Table w K V)} {t : Table w K V} {k : Nat}
    (h : ts[k]? = some t) : peak (ts.take (k + 1)) = max (peak (ts.take k)) t.len := by
  rw [List.take_add_one, h, Option.toList_some, peak_concat]

theorem two_pow_clog_succ (e : Nat) : 2 ^ Nat.clog 2 (2 ^ e + 1) = 2 ^ (e + 1) := by
  congr 1
  refine le_antisymm (Nat.clog_le_of_le_pow ?_) ((Nat.lt_clog_iff_pow_lt (by decide)).mpr ?_)
  · rw [Nat.pow_succ, Nat.mul_two]
    exact Nat.add_le_add_left Nat.one_le_two_pow _
  · exact Nat.lt_succ_self _

/-! ## The invariant -/

namespace Table

variable {t t' : Table w K V} {c top : Nat}

/-- The table was built with capacity `c`, and `top` is the most entries that it held so far. -/
structure Follows (t : Table w K V) (policy : Policy) (c top : Nat) : Prop where
  consistent : t.Consistent
  policy_eq : t.policy = policy
  top_le : top ≤ t.capacity
  capacity_eq : t.capacity = policy.capacityFor c (2 ^ Nat.clog 2 top)

namespace Follows

theorem keeps (h : t.Follows policy c top) (ht' : t'.Consistent) (hpolicy : t'.policy = t.policy)
    (hcap : t'.capacity = t.capacity) : t'.Follows policy c (max top t'.len) := by
  obtain ⟨L, hL⟩ := ht'.exists_laidOut
  obtain ⟨e, he⟩ := hL.capacity_pow
  have htop : max top t'.len ≤ t'.capacity := max_le (hcap ▸ h.top_le) hL.len_le_capacity
  refine ⟨ht', hpolicy.trans h.policy_eq, htop, ?_⟩
  -- the new peak asks for no more than there is, and for no less than the old one
  have hle : 2 ^ Nat.clog 2 (max top t'.len) ≤ t'.capacity := by
    rw [he] at htop ⊢
    exact Nat.pow_le_pow_right (by decide) (Nat.clog_le_of_le_pow htop)
  have hge : 2 ^ Nat.clog 2 top ≤ 2 ^ Nat.clog 2 (max top t'.len) :=
    Nat.pow_le_pow_right (by decide) (Nat.clog_mono_right 2 (le_max_left ..))
  have hold := hcap.trans h.capacity_eq
  cases policy with
  | growable =>
    unfold Policy.capacityFor at hold ⊢
    dsimp only at hold ⊢
    omega
  | fixed => exact hold

theorem doubles (h : t.Follows policy c top) (ht' : t'.Consistent)
    (hpolicy : t'.policy = t.policy) (hd : Doubles policy t.len t.capacity t'.len t'.capacity) :
    t'.Follows policy c (max top t'.len) := by
  have htop := h.top_le
  have hcap := h.capacity_eq
  obtain ⟨rfl, hfull, hlen', hcap'⟩ := hd
  obtain ⟨L, hL⟩ := h.consistent.exists_laidOut
  obtain ⟨e, he⟩ := hL.capacity_pow
  -- the peak was at most the capacity, which is now exceeded by one
  have hpeak : max top t'.len = 2 ^ e + 1 := by omega
  have hroom : 2 ^ Nat.clog 2 (2 ^ e + 1) = t'.capacity := by
    rw [hcap', he, two_pow_clog_succ, Nat.pow_succ, Nat.mul_comm]
  have hpos := Nat.one_le_two_pow (n := e)
  refine ⟨ht', hpolicy.trans h.policy_eq, by omega, ?_⟩
  rw [hpeak, hroom]
  unfold Policy.capacityFor at hcap ⊢
  dsimp only at hcap ⊢
  omega

/-- A table that doubles was never so full before. -/
theorem lt_len (h : t.Follows policy c top)
    (hd : Doubles policy t.len t.capacity t'.len t'.capacity) : top < t'.len := by
  have htop := h.top_le
  rw [hd.len_eq, hd.full]
  omega

end Follows

end Table

/-! ## A single call -/

variable [DecidableEq K]

namespace BoundedMap

variable {m m' : BoundedMap K V} {key : K} {value : V}

theorem put_capacity (hm : m.size ≤ m.capacity) (h : m.put w policy key value = .ok m') :
    m'.capacity = m.capacity ∨ Doubles policy m.size m.capacity m'.size m'.capacity := by
  unfold put at h
  split at h
  · cases h
    exact .inl rfl
  · rename_i hnoroom
    obtain ⟨hnew, hfull⟩ := not_or.mp hnoroom
    cases policy with
    | fixed => cases h
    | growable =>
      dsimp only at h
      split at h
      · cases h
        exact .inr ⟨rfl, hm.antisymm (not_lt.mp hfull), card_insert_of_notMem hnew, rfl⟩
      · cases h

theorem modify_bounds (m : BoundedMap K V) (key : K) (f : V → V) :
    (m.modify key f).capacity = m.capacity ∧ (m.modify key f).size = m.size := by
  unfold modify
  cases hlookup : m.map.lookup key with
  | none => exact ⟨rfl, rfl⟩
  | some v => exact ⟨rfl, card_insert_of_mem (Finmap.mem_of_lookup_eq_some hlookup)⟩

theorem perform_capacity {call : MapCall K V} (hm : m.size ≤ m.capacity)
    (hcall : ∀ n, call ≠ .rehash n) :
    (m.perform w policy call).1.capacity = m.capacity ∨
      (∃ key value write, call = .put key value write) ∧
        Doubles policy m.size m.capacity (m.perform w policy call).1.size
          (m.perform w policy call).1.capacity := by
  cases call with
  | put key value write =>
    dsimp only [perform]
    cases hput : m.put w policy key value with
    | error e => exact .inl rfl
    | ok m' =>
      have hstored := put_capacity hm hput
      -- what is written afterwards changes neither number
      cases write with
      | none => exact hstored.imp id fun h => ⟨⟨key, value, none, rfl⟩, h⟩
      | some f =>
        obtain ⟨hcap, hsize⟩ := m'.modify_bounds key f
        dsimp only
        rw [hcap, hsize]
        exact hstored.imp id fun h => ⟨⟨key, value, some f, rfl⟩, h⟩
  | modify key f => exact .inl (m.modify_bounds key f).1
  | rehash n => exact absurd rfl (hcall n)
  | get | contains | remove | removeAndGet | clear | len | isEmpty | capacity => exact .inl rfl

end BoundedMap

/-- What a call other than rebuilding does to the capacity. -/
inductive Call.KeepsOrDoubles (t t' : Table w K V) : Call K V → Prop where
  | keeps {call : Call K V} (capacity_eq : t'.capacity = t.capacity) : KeepsOrDoubles t t' call
  /-- The call stores a key for which there is no room. -/
  | doubles {key : K} {value : V} {write : Option (V → V)}
      (doubles : Doubles t.policy t.len t.capacity t'.len t'.capacity) :
      KeepsOrDoubles t t' (.map (.put key value write))

variable {t t' : Table w K V} {ts : List (Table w K V)} {call : Call K V}
  {calls : List (Call K V)} {answer : Answer K V} {c top : Nat}

theorem Call.keepsOrDoubles (ht : t.Consistent) (hcall : ∀ n, call ≠ .map (.rehash n))
    (h : call.perform t = .ok (t', answer)) : call.KeepsOrDoubles t t' := by
  obtain ⟨L, hL⟩ := ht.exists_laidOut
  unfold perform at h
  cases call with
  | map call =>
    -- it is what becomes of the state that the table represents
    obtain ⟨m, hm⟩ := ht.exists_represents
    obtain ⟨u, hu, hreach⟩ := hm.perform_spec call
    dsimp only at h
    rw [hu] at h
    cases h
    have hsize : m.size ≤ m.capacity := by
      rw [← hm.len_eq, ← hm.capacity_eq]
      exact hL.len_le_capacity
    rcases m.perform_capacity hsize fun n hn => hcall n (congrArg _ hn) with
      hcap | ⟨⟨key, value, write, rfl⟩, hdoubles⟩
    · exact .keeps (by rw [hreach.represents.capacity_eq, hm.capacity_eq, hcap])
    · rw [← hreach.represents.capacity_eq, ← hreach.represents.len_eq, ← hm.capacity_eq,
        ← hm.len_eq] at hdoubles
      exact .doubles hdoubles
  | iterate asks =>
    cases h
    exact .keeps rfl
  | visit limit write =>
    obtain ⟨s, hs, -⟩ := hL.visit_spec limit write
    dsimp only at h
    rw [hs] at h
    cases h
    exact .keeps rfl
  | check =>
    obtain ⟨verdict, -, h⟩ := bind_eq_ok_iff.mp h
    cases h
    exact .keeps rfl
  | chainStats =>
    obtain ⟨stats, -, h⟩ := bind_eq_ok_iff.mp h
    cases h
    exact .keeps rfl

/-- A call leaves the table with the capacity that its peak asks for. -/
theorem Table.Follows.perform (h : t.Follows policy c top) (hcall : ∀ n, call ≠ .map (.rehash n))
    (ht' : call.perform t = .ok (t', answer)) : t'.Follows policy c (max top t'.len) := by
  obtain ⟨u, a, hu, hconsistent, hpolicy, -⟩ := call.perform_consistent h.consistent
  rw [ht'] at hu
  cases hu
  cases Call.keepsOrDoubles h.consistent hcall ht' with
  | keeps hcap => exact h.keeps hconsistent hpolicy hcap
  | doubles hdoubles => exact h.doubles hconsistent hpolicy (h.policy_eq ▸ hdoubles)

/-! ## Calls one after another -/

/-- Makes calls one after another. Answers with the tables passed through, from the first on. -/
def passed : List (Call K V) → Table w K V → Except Fault (List (Table w K V))
  | [], t => return [t]
  | call :: calls, t => do
    let (t', _) ← call.perform t
    return t :: (← passed calls t')

/-- The tables that calls on a table pass through: each but the first is what a call makes of the
one before. -/
structure Passes (calls : List (Call K V)) (t : Table w K V) (ts : List (Table w K V)) :
    Prop where
  length_eq : ts.length = calls.length + 1
  first : ts[0]? = some t
  step : ∀ k u', ts[k + 1]? = some u' → ∃ u call answer,
    ts[k]? = some u ∧ calls[k]? = some call ∧ call.perform u = .ok (u', answer)

theorem Passes.cons (ht' : call.perform t = .ok (t', answer)) (h : Passes calls t' ts) :
    Passes (call :: calls) t (t :: ts) where
  length_eq := congrArg (· + 1) h.length_eq
  first := rfl
  step k u' hu' := by
    cases k with
    | zero =>
      cases h.first.symm.trans hu'
      exact ⟨t, call, answer, rfl, rfl, ht'⟩
    | succ k => exact h.step k u' hu'

theorem passed_spec (ht : t.Consistent) (calls : List (Call K V)) :
    ∃ ts, passed calls t = .ok ts ∧ Passes calls t ts := by
  induction calls generalizing t with
  | nil =>
    refine ⟨[t], rfl, rfl, rfl, fun k u' h => ?_⟩
    cases h
  | cons call calls ih =>
    obtain ⟨t', answer, ht', hconsistent, -⟩ := call.perform_consistent ht
    obtain ⟨ts, hts, hpasses⟩ := ih hconsistent
    refine ⟨t :: ts, ?_, hpasses.cons ht'⟩
    rw [passed, ht', ok_bind]
    dsimp only
    rw [hts]
    rfl

/-- Every table that the calls pass through has the capacity that the peak so far asks for. -/
theorem Passes.follows (h : Passes calls t ts) (ht : t.Follows policy c t.len)
    (hcalls : ∀ n, .map (.rehash n) ∉ calls) {k : Nat} {u : Table w K V} (hu : ts[k]? = some u) :
    u.Follows policy c (peak (ts.take (k + 1))) := by
  rw [peak_take_succ hu]
  induction k generalizing u with
  | zero =>
    cases h.first.symm.trans hu
    rw [List.take_zero]
    exact (Nat.zero_max t.len).symm ▸ ht
  | succ k ih =>
    obtain ⟨u₀, call, answer, hu₀, hcall, hperform⟩ := h.step k u hu
    rw [peak_take_succ hu₀]
    refine (ih hu₀).perform (fun n hn => hcalls n ?_) hperform
    exact hn ▸ List.mem_of_getElem? hcall

/-- How the capacity develops along the tables that calls pass through. -/
structure CapacityFollowsPeak (start : Start) (policy : Policy) (calls : List (Call K V))
    (ts : List (Table w K V)) : Prop where
  capacity : ∀ k u, ts[k]? = some u → ∃ c p, IsLeastCapacity start.count c ∧
    IsLeastCapacity (peak (ts.take (k + 1))) p ∧ u.capacity = policy.capacityFor c p
  le_maxCapacity : ∀ u ∈ ts, u.capacity ≤ w.maxCapacity
  never_shrinks : (ts.map Table.capacity).Pairwise (· ≤ ·)
  /-- Where the capacity changes, it doubles for a key that is stored, and the table holds more
  entries than ever before. -/
  changes : ∀ k u u', ts[k]? = some u → ts[k + 1]? = some u' → u'.capacity ≠ u.capacity →
    (∃ key value write, calls[k]? = some (.map (.put key value write))) ∧
      Doubles policy u.len u.capacity u'.len u'.capacity ∧ peak (ts.take (k + 1)) < u'.len

theorem Passes.capacityFollowsPeak {start : Start} (h : Passes calls t ts)
    (ht : t.Follows policy (2 ^ Nat.clog 2 start.count) t.len)
    (hcalls : ∀ n, .map (.rehash n) ∉ calls) : CapacityFollowsPeak start policy calls ts := by
  have hfollows : ∀ {k} {u : Table w K V}, ts[k]? = some u →
      u.Follows policy (2 ^ Nat.clog 2 start.count) (peak (ts.take (k + 1))) :=
    fun hu => h.follows ht hcalls hu
  have hstep : ∀ {k} {u u' : Table w K V}, ts[k]? = some u → ts[k + 1]? = some u' →
      ∃ call, calls[k]? = some call ∧ call.KeepsOrDoubles u u' := by
    intro k u u' hu hu'
    obtain ⟨u₀, call, answer, hu₀, hcall, hperform⟩ := h.step k u' hu'
    cases hu.symm.trans hu₀
    refine ⟨call, hcall, Call.keepsOrDoubles (hfollows hu).consistent ?_ hperform⟩
    exact fun n hn => hcalls n (hn ▸ List.mem_of_getElem? hcall)
  exact {
    capacity := fun k u hu => ⟨_, _, isLeastCapacity_iff.mpr rfl, isLeastCapacity_iff.mpr rfl,
      (hfollows hu).capacity_eq⟩
    le_maxCapacity := fun u hu => by
      obtain ⟨k, hk⟩ := List.mem_iff_getElem?.mp hu
      exact (hfollows hk).consistent.capacity_le
    never_shrinks := by
      rw [← List.isChain_iff_pairwise, List.isChain_map, List.isChain_iff_getElem]
      intro k hk
      obtain ⟨call, -, hchange⟩ := hstep
        (List.getElem?_eq_getElem (Nat.lt_of_succ_lt hk)) (List.getElem?_eq_getElem hk)
      cases hchange with
      | keeps hcap => exact hcap.ge
      | doubles hdoubles =>
        rw [hdoubles.capacity_eq]
        omega
    changes := fun k u u' hu hu' hne => by
      obtain ⟨call, hcall, hchange⟩ := hstep hu hu'
      cases hchange with
      | keeps hcap => exact absurd hcap hne
      | doubles hdoubles =>
        have hd := (hfollows hu).policy_eq ▸ hdoubles
        exact ⟨⟨_, _, _, hcall⟩, hd, (hfollows hu).lt_len hd⟩ }

omit [DecidableEq K] in
theorem BoundedMap.start_eq {start : Start} {m : BoundedMap K V}
    (h : BoundedMap.start w start = .ok m) : m = ⟨∅, 2 ^ Nat.clog 2 start.count⟩ := by
  cases start with
  | new =>
    cases h
    rw [Start.count, Nat.clog_one_right, Nat.pow_zero]
  | withCapacity count =>
    rw [BoundedMap.start] at h
    split at h
    · cases h
      rfl
    · cases h

/-- A table that is built has the capacity that its count asks for, and holds no entries. -/
theorem Start.build_follows {start : Start} {hash : K → UInt64}
    (h : start.build policy hash = .ok (.ok t)) :
    t.Follows policy (2 ^ Nat.clog 2 start.count) t.len := by
  rcases start.build_spec (w := w) (V := V) policy hash with
    ⟨e, -, he⟩ | ⟨m, u, hm, hu, hrep, hpolicy, -⟩
  · rw [he] at h
    cases h
  · rw [hu] at h
    cases h
    obtain rfl := BoundedMap.start_eq hm
    have hlen : t.len = 0 := hrep.len_eq
    rw [hlen]
    refine ⟨hrep.consistent, hpolicy, Nat.zero_le _, hrep.capacity_eq.trans ?_⟩
    cases policy with
    | growable =>
      rw [Policy.capacityFor, Nat.clog_zero_right]
      exact (max_eq_left Nat.one_le_two_pow).symm
    | fixed => rfl

/-- As long as nobody asks for a table to be rebuilt, the calls on it pass through tables whose
capacity is the least power of two with room for the count that the first one was built for and
for the most entries held so far. -/
theorem capacity_follows_peak {start : Start} {hash : K → UInt64}
    (hbuild : start.build policy hash = .ok (.ok t)) (calls : List (Call K V))
    (hcalls : ∀ n, .map (.rehash n) ∉ calls) :
    ∃ ts, passed calls t = .ok ts ∧ Passes calls t ts ∧
      CapacityFollowsPeak start policy calls ts := by
  have ht := start.build_follows hbuild
  obtain ⟨ts, hts, hpasses⟩ := passed_spec ht.consistent calls
  exact ⟨ts, hts, hpasses, hpasses.capacityFollowsPeak ht hcalls⟩

/-- The second key makes the table grow. It keeps its capacity when the first one is removed, and
for the third one there is room. -/
theorem capacity_follows_peak_three_keys : ∃ t : Table .bits16 Nat Nat, ∃ ts,
    Start.new.build .growable (fun _ => 0) = .ok (.ok t) ∧
    passed [.map (.put 1 10 none), .map (.put 2 20 none), .map (.remove 1),
      .map (.put 3 30 none)] t = .ok ts ∧
    ts.map Table.capacity = [1, 1, 2, 2, 2] ∧
    CapacityFollowsPeak .new .growable [.map (.put 1 10 none), .map (.put 2 20 none),
      .map (.remove 1), .map (.put 3 30 none)] ts := by
  let calls : List (Call Nat Nat) := [.map (.put 1 10 none), .map (.put 2 20 none),
    .map (.remove 1), .map (.put 3 30 none)]
  let t : Table .bits16 Nat Nat := .blank .growable (fun _ => 0) 1
  have hbuild : Start.new.build .growable (fun _ => 0) = .ok (.ok t) := by cbv
  have hcalls : ∀ n, .map (.rehash n) ∉ calls := fun n h => by simp [calls] at h
  obtain ⟨ts, hts, -, hfollows⟩ := capacity_follows_peak hbuild calls hcalls
  have hcaps : (passed calls t).map (List.map Table.capacity) = .ok [1, 1, 2, 2, 2] := by
    decide +kernel
  rw [hts, Except.map, Except.ok.injEq] at hcaps
  exact ⟨t, ts, hbuild, hts, hcaps, hfollows⟩

end HomeChain

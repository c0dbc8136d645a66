import HomeChain.Proofs.Examination.Verdict
import HomeChain.Proofs.Refinement
import Mathlib.Order.Bounds.Basic

/-!
# Requests that are declined

A table in order declines a request for one reason only, the answer names the reason, and the
table is left as it was: `DeclinesPut` and `DeclinesRehash` list the reasons, and a request is
declined just if one of them is there. Three places compare a capacity with what links can serve.
A count that the first one lets through passes the second,

  `roundCapacity w count = ok c → allocate c = ok (fresh c)`,

so whoever is declined for a capacity that is too large is told the count that was asked for.
-/

namespace HomeChain

variable {w : LinkWidth} {K V : Type}

/-- The least power of two with room for `count` entries, and for one at least. -/
def IsLeastCapacity (count c : Nat) : Prop :=
  IsLeast {c | (∃ e, c = 2 ^ e) ∧ max count 1 ≤ c} c

theorem isLeastCapacity_iff {count c : Nat} :
    IsLeastCapacity count c ↔ c = 2 ^ Nat.clog 2 count := by
  have hleast : IsLeastCapacity count (2 ^ Nat.clog 2 count) := by
    refine ⟨⟨⟨_, rfl⟩, max_le (Nat.le_pow_clog (by decide) count) Nat.one_le_two_pow⟩, ?_⟩
    rintro _ ⟨⟨e, rfl⟩, hle⟩
    have hcount : count ≤ 2 ^ e := le_trans (le_max_left count 1) hle
    exact Nat.pow_le_pow_right (by decide) (Nat.clog_le_of_le_pow hcount)
  constructor
  · intro h
    exact h.unique hleast
  · rintro rfl
    exact hleast

theorem maxCapacity_lt_wordLimit (w : LinkWidth) : w.maxCapacity < wordLimit := by
  have := two_mul_maxCapacity_lt w
  omega

namespace Table

variable {t : Table w K V} {key : K} {value : V} {count : Nat} {e : TableError}

/-- The reasons for which a table declines to store a key. -/
inductive DeclinesPut (t : Table w K V) (key : K) : TableError → Prop where
  /-- The key is new to a full table whose capacity is fixed. -/
  | exhausted (full : t.len = t.capacity) (absent : ¬ t.Has key) (fixed : t.policy = .fixed) :
      DeclinesPut t key (.capacityExhausted t.capacity)
  /-- The key is new to a full table, and links cannot serve twice the capacity. -/
  | tooLarge (full : t.len = t.capacity) (absent : ¬ t.Has key) (growable : t.policy = .growable)
      (lt : w.maxCapacity < 2 * t.capacity) :
      DeclinesPut t key (.capacityTooLarge (2 * t.capacity) w)

/-- The reasons for which a growable table declines to be rebuilt with room for `count` entries. -/
inductive DeclinesRehash (t : Table w K V) (count : Nat) : TableError → Prop where
  /-- There are more entries than that. -/
  | below (lt : count < t.len) : DeclinesRehash t count (.belowPopulation count t.len)
  /-- The capacity is not a 64-bit number, or links cannot serve it. -/
  | tooLarge {c : Nat} (len_le : t.len ≤ count) (least : IsLeastCapacity count c)
      (lt : wordLimit ≤ c ∨ w.maxCapacity < c) :
      DeclinesRehash t count (.capacityTooLarge count w)

/-- Storing a key is declined for these reasons, and for no other. -/
theorem PutSpec.error_iff {r : Table w K V × Except TableError Nat}
    (h : t.PutSpec key value r) : r.2 = .error e ↔ t.DeclinesPut key e := by
  constructor
  · intro he
    cases h with
    | replaced => cases he
    | added => cases he
    | grown => cases he
    | exhausted hnew hfull hfixed =>
      cases he
      exact .exhausted hfull hnew hfixed
    | tooLarge hnew hfull hgrowable hlt =>
      cases he
      exact .tooLarge hfull hnew hgrowable hlt
  · intro he
    -- either reason needs a full table to which the key is new, so nothing was stored
    have hfull : t.len = t.capacity ∧ ¬ t.Has key := by
      cases he with
      | exhausted hfull hnew => exact ⟨hfull, hnew⟩
      | tooLarge hfull hnew => exact ⟨hfull, hnew⟩
    cases h with
    | replaced hhas => exact absurd hhas hfull.2
    | added _ hroom => omega
    | grown _ _ hgrowable hle =>
      cases he with
      | exhausted _ _ hfixed =>
        cases hgrowable.symm.trans hfixed
      | tooLarge _ _ _ hlt => omega
    | exhausted _ _ hfixed =>
      cases he with
      | exhausted => rfl
      | tooLarge _ _ hgrowable =>
        cases hgrowable.symm.trans hfixed
    | tooLarge _ _ hgrowable =>
      cases he with
      | exhausted _ _ hfixed =>
        cases hgrowable.symm.trans hfixed
      | tooLarge => rfl

theorem PutSpec.eq_of_error {r : Table w K V × Except TableError Nat}
    (h : t.PutSpec key value r) (he : r.2 = .error e) : r.1 = t := by
  cases h with
  | replaced => cases he
  | added => cases he
  | grown => cases he
  | exhausted => rfl
  | tooLarge => rfl

/-- Rebuilding a growable table is declined for these reasons, and for no other. -/
theorem RehashSpec.error_iff {r : Table w K V × Except TableError Nat}
    (h : t.RehashSpec count r) (hgrowable : t.policy = .growable) :
    r.2 = .error e ↔ t.DeclinesRehash count e := by
  have hmax := maxCapacity_lt_wordLimit w
  constructor
  · intro he
    cases h with
    | rebuilt => cases he
    | fixed hfixed =>
      cases hgrowable.symm.trans hfixed
    | below _ hlt =>
      cases he
      exact .below hlt
    | tooLarge _ hle hlt =>
      cases he
      exact .tooLarge hle (isLeastCapacity_iff.mpr rfl) (.inr hlt)
  · intro he
    cases he with
    | below hlt =>
      cases h with
      | rebuilt _ hle => omega
      | fixed hfixed =>
        cases hgrowable.symm.trans hfixed
      | below => rfl
      | tooLarge _ hle => omega
    | @tooLarge c hle hleast hlt =>
      -- what is no 64-bit number is more than links can serve
      obtain rfl := isLeastCapacity_iff.mp hleast
      have hlt' : w.maxCapacity < 2 ^ Nat.clog 2 count := by
        rcases hlt with hlt | hlt
        · omega
        · exact hlt
      cases h with
      | rebuilt _ _ hcap => omega
      | fixed hfixed =>
        cases hgrowable.symm.trans hfixed
      | below _ hlt => omega
      | tooLarge => rfl

theorem RehashSpec.eq_of_error {r : Table w K V × Except TableError Nat}
    (h : t.RehashSpec count r) (he : r.2 = .error e) : r.1 = t := by
  cases h with
  | rebuilt => cases he
  | fixed => rfl
  | below => rfl
  | tooLarge => rfl

end Table

/-- A capacity that a count was rounded to is one that links can serve. -/
theorem allocate_of_roundCapacity {count c : Nat} (h : roundCapacity w count = .ok c) :
    (SlotArray.allocate c : Except TableError (SlotArray w K V)) = .ok (SlotArray.fresh c) := by
  rw [roundCapacity_eq] at h
  split at h
  · rename_i hle
    cases h
    exact SlotArray.allocate_eq hle
  · cases h

theorem BoundedMap.start_error_iff {start : Start} {e : TableError} :
    BoundedMap.start (K := K) (V := V) w start = .error e ↔
      ∃ count c, start = .withCapacity count ∧ IsLeastCapacity count c ∧ w.maxCapacity < c ∧
        e = .capacityTooLarge count w := by
  cases start with
  | new =>
    constructor
    · intro h
      cases h
    · rintro ⟨count, c, hstart, -⟩
      cases hstart
  | withCapacity count =>
    rw [BoundedMap.start]
    split
    · rename_i hle
      constructor
      · intro h
        cases h
      · rintro ⟨count', c, hstart, hleast, hlt, -⟩
        cases hstart
        rw [isLeastCapacity_iff.mp hleast] at hlt
        omega
    · rename_i hlt
      constructor
      · intro h
        cases h
        exact ⟨count, _, rfl, isLeastCapacity_iff.mpr rfl, Nat.not_le.mp hlt, rfl⟩
      · rintro ⟨count', c, hstart, -, -, rfl⟩
        cases hstart
        rfl

variable [DecidableEq K]

/-- No table is built just if one was asked for that links cannot serve. -/
theorem Start.build_error_iff {start : Start} {policy : Policy} {hash : K → UInt64}
    {e : TableError} :
    (start.build policy hash : Except Fault (Except TableError (Table w K V))) = .ok (.error e) ↔
      ∃ count c, start = .withCapacity count ∧ IsLeastCapacity count c ∧ w.maxCapacity < c ∧
        e = .capacityTooLarge count w := by
  rw [← BoundedMap.start_error_iff (K := K) (V := V)]
  rcases start.build_spec (w := w) (V := V) policy hash with
    ⟨e', he', hbuild⟩ | ⟨m, t, hm, hbuild, -⟩
  · rw [he', hbuild, Except.ok.injEq, Except.error.injEq, Except.error.injEq]
  · rw [hm, hbuild]
    simp

/-- On a table that passes an examination, storing a key or rebuilding is declined exactly for the
reasons listed, with the error that names the reason, and the table is as it was. The capacity
that a count is rounded to is never declined, so a constructor that declines, like a rebuilding
that does, names the count it was given. -/
theorem declined_exactly :
    (∀ t : Table w K V, t.check.outcome = .ok (.ok ()) → t.capacity ≤ w.maxCapacity →
      (∀ key value, ∃ t' r, (t.put key value).outcome = .ok (t', r) ∧
        ∀ e, (r = .error e ↔ t.DeclinesPut key e) ∧ (r = .error e → t' = t)) ∧
      (t.policy = .growable → ∀ count, ∃ t' r, (t.rehash count).outcome = .ok (t', r) ∧
        ∀ e, (r = .error e ↔ t.DeclinesRehash count e) ∧ (r = .error e → t' = t))) ∧
    (∀ count c, roundCapacity w count = .ok c →
      (SlotArray.allocate c : Except TableError (SlotArray w K V)) = .ok (SlotArray.fresh c)) ∧
    (∀ (start : Start) (policy : Policy) (hash : K → UInt64) (e : TableError),
      (start.build policy hash : Except Fault (Except TableError (Table w K V))) =
          .ok (.error e) ↔
        ∃ count c, start = .withCapacity count ∧ IsLeastCapacity count c ∧ w.maxCapacity < c ∧
          e = .capacityTooLarge count w) := by
  refine ⟨fun t hcheck hcap => ?_, fun count c h => allocate_of_roundCapacity h,
    fun start policy hash e => Start.build_error_iff⟩
  obtain ⟨L, hL⟩ := Table.inOrder_iff.mp (Table.check_eq_ok_iff.mp hcheck)
  constructor
  · intro key value
    obtain ⟨⟨t', r⟩, hr, -, hspec⟩ := hL.put_spec hcap key value
    exact ⟨t', r, hr, fun e => ⟨hspec.error_iff, hspec.eq_of_error⟩⟩
  · intro hgrowable count
    obtain ⟨⟨t', r⟩, hr, hspec⟩ := hL.rehash_spec count
    exact ⟨t', r, hr, fun e => ⟨hspec.error_iff hgrowable, hspec.eq_of_error⟩⟩

/-- A table whose only slot is taken declines another key if its capacity is fixed, and if it may
grow, to be rebuilt without room for an entry. -/
theorem declined_exactly_last_slot : ∃ full : Policy → Table .bits16 Nat Nat,
    (∀ policy, (full policy).check.outcome = .ok (.ok ()) ∧ (full policy).capacity = 1) ∧
    ((full .fixed).put 3 4).outcome = .ok (full .fixed, .error (.capacityExhausted 1)) ∧
    ((full .growable).rehash 0).outcome =
      .ok (full .growable, .error (.belowPopulation 0 1)) := by
  let full (policy : Policy) : Table .bits16 Nat Nat :=
    ⟨policy, fun _ => 0, #[.free .null (.ofSuccessor 0), .used .null 1 2], 1, 0⟩
  have hcheck : ∀ policy, (full policy).check.outcome = .ok (.ok ()) := fun policy => by
    cases policy <;> cbv
  have hle : 1 ≤ LinkWidth.bits16.maxCapacity := by decide
  obtain ⟨hdeclines, -⟩ := declined_exactly (w := .bits16) (K := Nat) (V := Nat)
  refine ⟨full, fun policy => ⟨hcheck policy, rfl⟩, ?_, ?_⟩
  · obtain ⟨t', r, hr, h⟩ := (hdeclines _ (hcheck .fixed) hle).1 3 4
    have habsent : ¬ (full .fixed).Has 3 := by
      rw [Table.has_iff]
      rintro ⟨_ | _ | i, hi⟩ <;> cases hi
    have he := (h _).1.mpr (.exhausted rfl habsent rfl)
    rw [hr, (h _).2 he, he]
    rfl
  · obtain ⟨t', r, hr, h⟩ := (hdeclines _ (hcheck .growable) hle).2 rfl 0
    have he := (h _).1.mpr (.below Nat.one_pos)
    rw [hr, (h _).2 he, he]

end HomeChain

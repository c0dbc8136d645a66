import HomeChain.Proofs.Declines
import HomeChain.Proofs.Demonstration.Multiples
import HomeChain.Proofs.Visiting
import Mathlib.Algebra.Order.Interval.Finset.SuccPred
import Mathlib.Data.Nat.SuccPred

/-!
# What the demonstration reports

A table accepts as many entries as are asked for, whatever their hashes are and however often keys
are repeated, if it has room for the different keys among them. The demonstration asks for no more
entries than the capacity, so nothing is declined, the table it ends with is in order, and

  `population = min count (2 ^ (64 - t))`,

where `t` is the number of zero bits that the stride ends in. It stops before that only where links
cannot serve the capacity, and then nothing has been stored, or even allocated.
-/

namespace HomeChain

/-! ## Storing many entries -/

section Bulk

variable {w : LinkWidth} {K V : Type} [DecidableEq K] {t : Table w K V} {m : BoundedMap K V}

/-- An entry is stored if its key is stored already, or there is room for it. -/
theorem Table.Represents.putNext_spec (h : t.Represents m) (entry : Nat → K × V) (k : Nat)
    (hroom : (entry k).1 ∈ m.map ∨ m.size < m.capacity) :
    ∃ t', (Table.putNext entry ⟨t, k, none⟩).outcome = .ok (.yield ⟨t', k + 1, none⟩) ∧
      t.Reaches t' ⟨m.map.insert (entry k).1 (entry k).2, m.capacity⟩ := by
  have hput : m.put w t.policy (entry k).1 (entry k).2 =
      .ok ⟨m.map.insert (entry k).1 (entry k).2, m.capacity⟩ := if_pos hroom
  rcases h.put_spec (entry k).1 (entry k).2 with ⟨e, he, -⟩ | ⟨m', t', i, hm', ht', hreach, -⟩
  · rw [hput] at he
    cases he
  · rw [hput, Except.ok.injEq] at hm'
    subst hm'
    refine ⟨t', ?_, hreach⟩
    rw [Table.putNext, Traced.outcome_bind, ht', ok_bind]
    rfl

/-- The keys from position `k` on, `n` of them. -/
def keysFrom (entry : Nat → K × V) (k n : Nat) : Finset K :=
  (Finset.Ico k (k + n)).image fun i => (entry i).1

theorem union_keysFrom_succ (keys : Finset K) (entry : Nat → K × V) (k n : Nat) :
    keys ∪ keysFrom entry k (n + 1) = insert (entry k).1 keys ∪ keysFrom entry (k + 1) n := by
  have hlt : k < k + (n + 1) := by omega
  rw [keysFrom, ← Finset.insert_Ico_add_one_left_eq_Ico hlt, Finset.image_insert,
    Finset.union_insert, Finset.insert_union, ← Nat.add_assoc, Nat.add_right_comm]
  rfl

theorem card_lt_card_insert_union {keys : Finset K} {key : K} (hkey : key ∉ keys)
    (later : Finset K) : keys.card < (insert key keys ∪ later).card :=
  calc keys.card < (insert key keys).card := Finset.card_lt_card (Finset.ssubset_insert hkey)
    _ ≤ (insert key keys ∪ later).card := Finset.card_le_card Finset.subset_union_left

/-- Entries are stored one after another as long as there is room for all their keys. -/
theorem Table.Represents.repeat_putNext (h : t.Represents m) (entry : Nat → K × V) (n k : Nat)
    (hroom : (m.map.keys ∪ keysFrom entry k n).card ≤ m.capacity) :
    ∃ t' map', (Traced.repeatUpTo n (Table.putNext entry) ⟨t, k, none⟩).outcome =
        .ok ⟨t', k + n, none⟩ ∧
      t.Reaches t' ⟨map', m.capacity⟩ ∧ map'.keys = m.map.keys ∪ keysFrom entry k n := by
  -- each key moves from those that are still to come to those that are stored
  induction n generalizing k t m with
  | zero =>
    refine ⟨t, m.map, rfl, h.reaches, ?_⟩
    rw [keysFrom, Nat.add_zero, Finset.Ico_self, Finset.image_empty, Finset.union_empty]
  | succ n ih =>
    rw [union_keysFrom_succ] at hroom
    have hroom' : (entry k).1 ∈ m.map ∨ m.size < m.capacity := by
      by_cases hmem : (entry k).1 ∈ m.map
      · exact .inl hmem
      · right
        refine (card_lt_card_insert_union ?_ _).trans_le hroom
        exact fun hk => hmem (Finmap.mem_keys.mp hk)
    obtain ⟨t₁, ht₁, hreach⟩ := h.putNext_spec entry k hroom'
    obtain ⟨t', map', ht', hreach', hkeys⟩ :=
      ih hreach.represents (k + 1) (by rw [keys_insert]; exact hroom)
    refine ⟨t', map', ?_, hreach.trans hreach', ?_⟩
    · rw [Traced.outcome_repeatUpTo_succ, ht₁, ok_bind]
      dsimp only
      rw [ht', Nat.add_assoc, Nat.add_comm 1 n]
    · rw [hkeys, keys_insert, union_keysFrom_succ]

/-- An empty table with room for the different keys of a sequence stores all of its entries. -/
theorem Table.Represents.putAll_spec {c : Nat} (h : t.Represents ⟨∅, c⟩) (entry : Nat → K × V)
    (count : Nat) (hroom : ((Finset.range count).image fun i => (entry i).1).card ≤ c) :
    ∃ t', (t.putAll count entry).outcome = .ok ⟨t', count, none⟩ ∧ t'.Consistent ∧
      t'.capacity = c ∧ t'.len = ((Finset.range count).image fun i => (entry i).1).card := by
  have hkeys : (∅ : Finmap fun _ : K => V).keys ∪ keysFrom entry 0 count =
      (Finset.range count).image fun i => (entry i).1 := by
    rw [Finmap.keys_empty, Finset.empty_union, keysFrom, Nat.zero_add, Finset.range_eq_Ico]
  obtain ⟨t', map', ht', hreach, hmap⟩ := h.repeat_putNext entry count 0 (by rwa [hkeys])
  rw [Nat.zero_add] at ht'
  refine ⟨t', ht', hreach.represents.consistent, hreach.represents.capacity_eq, ?_⟩
  rw [hreach.represents.len_eq, BoundedMap.size, hmap, hkeys]

end Bulk

/-! ## The report -/

namespace Demo

/-- The transcript of a run that stores `count` entries, in a table of capacity `c` that has the
given statistics in the end. -/
def reported (options : Options) (c count : Nat) (stats : ChainStats) : Transcript where
  exit := 0
  stdout :=
    [ s!"Creating FixedScatterTable with target capacity: {options.targetCapacity}",
      s!"Actual capacity: {c}",
      s!"Filling table with {count} keys (stride {options.stride})...",
      s!"Inserted {stats.len} values into table" ] ++ stats.report
  stderr := []

/-- The transcript of a run that is declined its table. -/
def declined (options : Options) : Transcript where
  exit := 1
  stdout := [s!"Creating FixedScatterTable with target capacity: {options.targetCapacity}"]
  stderr :=
    let e : TableError := .capacityTooLarge options.targetCapacity .bits32
    [s!"cannot create table: {e.message}"]

/-- The second line of a report has the population and the capacity. -/
theorem report_population (stats : ChainStats) : ∃ percent : String, stats.report[1]? =
    some s!"Population: {stats.len}/{stats.capacity} ({percent}% load factor)" := ⟨_, rfl⟩

/-- There are never more keys to be stored than there are slots. -/
theorem keyCount_le (c load : Nat) : keyCount c load ≤ c := by
  rw [keyCount]
  refine Nat.div_le_of_le_mul ?_
  rw [Nat.mul_comm 100]
  exact Nat.mul_le_mul_left c (Nat.min_le_right load 100)

/-- A new table is filled and reported on. -/
theorem fillAndReport_outcome {t : DemoTable} {c : Nat} (options : Options)
    (h : t.Represents ⟨∅, c⟩) :
    ∃ stats : ChainStats, stats.capacity = c ∧
      stats.len = min (keyCount c options.load) (2 ^ (64 - options.stride.toBitVec.ctz.toNat)) ∧
      (fillAndReport options t
        [s!"Creating FixedScatterTable with target capacity: {options.targetCapacity}"]).outcome =
          .ok (reported options c (keyCount c options.load) stats) := by
  have hroom : ((Finset.range (keyCount c options.load)).image fun i =>
      (demoEntry options.stride i).1).card ≤ c :=
    (Finset.card_image_le.trans (Finset.card_range _).le).trans (keyCount_le c options.load)
  obtain ⟨t', ht', hconsistent, hcap, hlen⟩ :=
    h.putAll_spec (demoEntry options.stride) (keyCount c options.load) hroom
  obtain ⟨L, hL⟩ := hconsistent.exists_laidOut
  have hcheck := Table.check_eq_ok_iff.mpr hconsistent.toInOrder
  rw [card_keys] at hlen
  obtain ⟨stats, hstats, hslen, hscap⟩ : ∃ stats : ChainStats, t'.chainStats = .ok stats ∧
      stats.len = t'.len ∧ stats.capacity = t'.capacity := ⟨_, hL.chainStats_eq, rfl, rfl⟩
  refine ⟨stats, hscap.trans hcap, hslen.trans hlen, ?_⟩
  unfold fillAndReport
  rw [h.capacity_eq]
  simp only [Traced.outcome_bind, ht', ok_bind, hcheck, Traced.outcome_lift, hstats,
    Traced.outcome_pure]
  rw [reported, hslen]
  rfl

/-- If links can serve the least capacity that the demonstration is asked for, it stores what it
announces and reports on a table in order; the population is the number of different keys. If not,
it says so and ends, and not even an allocation has been recorded. -/
theorem reports_population (usual : UInt64 → UInt64) (options : Options) :
    ∃ c, IsLeastCapacity options.targetCapacity c ∧
      (c ≤ 2 ^ 30 → ∃ (count : Nat) (stats : ChainStats) (percent : String),
        c * min options.load 100 < wordLimit ∧ count = c * min options.load 100 / 100 ∧
        stats.len = min count (2 ^ (64 - options.stride.toBitVec.ctz.toNat)) ∧
        stats.report[1]? = some s!"Population: {stats.len}/{c} ({percent}% load factor)" ∧
        (run usual options).outcome = .ok (reported options c count stats)) ∧
      (2 ^ 30 < c → run usual options = ⟨#[], .ok (declined options)⟩) := by
  have hmax : LinkWidth.bits32.maxCapacity = 2 ^ 30 := rfl
  refine ⟨2 ^ Nat.clog 2 options.targetCapacity, isLeastCapacity_iff.mpr rfl, fun hle => ?_,
    fun hlt => ?_⟩
  · obtain ⟨stats, hcap, hlen, hfill⟩ := fillAndReport_outcome options
      ((Table.isNew_blank .fixed (options.hasher.hash usual) rfl hle).represents hle)
    obtain ⟨percent, hpercent⟩ := report_population stats
    refine ⟨keyCount _ options.load, stats, percent, ?_, rfl, hlen, hcap ▸ hpercent, ?_⟩
    · calc 2 ^ Nat.clog 2 options.targetCapacity * min options.load 100
          ≤ 2 ^ 30 * 100 := Nat.mul_le_mul hle (Nat.min_le_right _ _)
        _ < wordLimit := by decide
    · unfold run
      rw [Traced.outcome_bind, Table.withCapacity_outcome, hmax, if_pos hle, ok_bind]
      exact hfill
  · have hround : roundCapacity .bits32 options.targetCapacity =
        .error (.capacityTooLarge options.targetCapacity .bits32) := by
      rw [roundCapacity_eq, hmax, if_neg (Nat.not_le.mpr hlt)]
    unfold run Table.withCapacity
    rw [hround]
    rfl

/-- With a stride of `2 ^ 62` there are four different keys among eight. -/
theorem reports_population_four_of_eight :
    (∃ stats : ChainStats, stats.len = 4 ∧
      (run id ⟨6, 100, 4611686018427387904, .identity⟩).outcome =
        .ok (reported ⟨6, 100, 4611686018427387904, .identity⟩ 8 8 stats)) ∧
      run id ⟨2 ^ 30 + 1, 100, 1, .usual⟩ =
        ⟨#[], .ok (declined ⟨2 ^ 30 + 1, 100, 1, .usual⟩)⟩ := by
  constructor
  · obtain ⟨c, hleast, hfits, -⟩ :=
      reports_population id ⟨6, 100, 4611686018427387904, .identity⟩
    have hc : c = 8 := isLeastCapacity_iff.mp hleast
    subst hc
    obtain ⟨count, stats, -, -, hcount, hlen, -, hrun⟩ := hfits (by decide)
    have hctz : (4611686018427387904 : UInt64).toBitVec.ctz.toNat = 62 := by cbv
    have hcount' : count = 8 := hcount
    dsimp only at hlen
    rw [hctz, hcount'] at hlen
    exact ⟨stats, hlen, hcount' ▸ hrun⟩
  · obtain ⟨c, hleast, -, hlarge⟩ := reports_population id ⟨2 ^ 30 + 1, 100, 1, .usual⟩
    obtain ⟨⟨-, hle⟩, -⟩ := hleast
    exact hlarge (lt_of_lt_of_le (by decide) hle)

end Demo

end HomeChain

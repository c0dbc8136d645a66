import HomeChain.Proofs.AgeOrder.Steps
import HomeChain.Proofs.Visiting
import HomeChain.Proofs.Statistics.Histogram
import Mathlib.Data.List.Dedup

/-!
# Statistics as a function of home addresses

The statistics are collected by walks along the chains, but on a table that passes an examination
they say nothing about links and slots. A chain has as many members as there are stored keys with
its home address, so the lengths that are counted are, up to order, the numbers of occurrences
of the home addresses, and `ChainStats.Counts` tells each statistic from the list of the home
addresses alone. Two tables whose keys have the same home addresses have the same statistics.
-/

namespace HomeChain

open Finset (range)

variable {w : LinkWidth} {K V : Type}

namespace ChainStats

/-- The statistics are those of a table with the given capacity whose stored keys have the home
addresses in `homes`, each listed once for every key that has it. -/
structure Counts (s : ChainStats) (capacity : Nat) (homes : List Nat) : Prop where
  len_eq : s.len = homes.length
  capacity_eq : s.capacity = capacity
  /-- The chains are the different home addresses. -/
  chains_eq : s.chains = homes.dedup.length
  chains_le : s.chains ≤ s.len
  displaced_eq : s.displaced = s.len - s.chains
  /-- The histogram has the home addresses by the number of keys that share them. -/
  getD_eq : ∀ n, s.histogram.getD n 0 = homes.dedup.countP fun h => homes.count h = n + 1
  sum_eq_chains : ∑ n ∈ range s.histogram.size, s.histogram.getD n 0 = s.chains
  sum_eq_len : ∑ n ∈ range s.histogram.size, s.histogram.getD n 0 * (n + 1) = s.len
  size_eq : s.histogram.size = s.longest
  last_ne_zero : ∀ n, n + 1 = s.histogram.size → s.histogram.getD n 0 ≠ 0
  /-- The longest chain is that of a home address that the largest number of keys share. -/
  count_le_longest : ∀ h, homes.count h ≤ s.longest
  longest_eq : (homes = [] ∧ s.longest = 0) ∨ ∃ h ∈ homes, homes.count h = s.longest
  loadFactor_eq : s.loadFactor = toFloat s.len / toFloat s.capacity

variable {s s' : ChainStats} {c : Nat} {homes homes' : List Nat}

/-- The longest chains of two orders of the home addresses are equally long. -/
theorem Counts.longest_le (h : s.Counts c homes) (h' : s'.Counts c homes')
    (hperm : homes.Perm homes') : s.longest ≤ s'.longest := by
  rcases h.longest_eq with ⟨-, hlongest⟩ | ⟨g, -, hcount⟩
  · rw [hlongest]
    exact Nat.zero_le _
  · rw [← hcount, hperm.count_eq]
    exact h'.count_le_longest g

/-- The home addresses settle the statistics, in whatever order they are listed. -/
theorem Counts.unique (h : s.Counts c homes) (h' : s'.Counts c homes')
    (hperm : homes.Perm homes') : s = s' := by
  have hlen : s.len = s'.len := h.len_eq.trans (hperm.length_eq.trans h'.len_eq.symm)
  have hcapacity : s.capacity = s'.capacity := h.capacity_eq.trans h'.capacity_eq.symm
  have hchains : s.chains = s'.chains :=
    h.chains_eq.trans (hperm.dedup.length_eq.trans h'.chains_eq.symm)
  have hlongest : s.longest = s'.longest :=
    Nat.le_antisymm (h.longest_le h' hperm) (h'.longest_le h hperm.symm)
  have hdisplaced : s.displaced = s'.displaced := by
    rw [h.displaced_eq, h'.displaced_eq, hlen, hchains]
  have hhistogram : s.histogram = s'.histogram := by
    have hsize : s.histogram.size = s'.histogram.size := by rw [h.size_eq, h'.size_eq, hlongest]
    refine Array.ext hsize fun n hn hn' => ?_
    have hget : s.histogram.getD n 0 = s'.histogram.getD n 0 := by
      rw [h.getD_eq, h'.getD_eq, hperm.dedup.countP_eq]
      simp only [hperm.count_eq]
    rwa [Array.getD_eq_getD_getElem?, Array.getD_eq_getD_getElem?, Array.getElem?_eq_getElem hn,
      Array.getElem?_eq_getElem hn', Option.getD_some, Option.getD_some] at hget
  have hload : s.loadFactor = s'.loadFactor := by
    rw [h.loadFactor_eq, h'.loadFactor_eq, hlen, hcapacity]
  cases s
  cases s'
  simp only [ChainStats.mk.injEq]
  exact ⟨hlen, hcapacity, hchains, hlongest, hdisplaced, hhistogram, hload⟩

/-- What has been counted over the lengths of the chains of a table with these home addresses. -/
theorem Counts.of_lengths {lengths : List Nat} {displaced : Nat}
    (hlengths : lengths.Perm (homes.dedup.map fun h => homes.count h))
    (hdisplaced : lengths.length + displaced = homes.length) :
    Counts {
      len := homes.length
      capacity := c
      chains := lengths.length
      longest := (histogramOf lengths).size
      displaced := displaced
      histogram := histogramOf lengths
      loadFactor := toFloat homes.length / toFloat c } c homes := by
  have hmem : ∀ n, n ∈ lengths ↔ ∃ h ∈ homes, homes.count h = n := fun n => by
    rw [hlengths.mem_iff, List.mem_map]
    simp only [List.mem_dedup]
  have hpos : ∀ n ∈ lengths, 0 < n := fun n hn => by
    obtain ⟨h, hh, rfl⟩ := (hmem n).mp hn
    exact List.count_pos_iff.mpr hh
  refine {
    len_eq := rfl
    capacity_eq := rfl
    chains_eq := ?_
    chains_le := ?_
    displaced_eq := ?_
    getD_eq := fun n => ?_
    sum_eq_chains := ?_
    sum_eq_len := ?_
    size_eq := rfl
    last_ne_zero := fun n hn => ?_
    count_le_longest := fun h => ?_
    longest_eq := ?_
    loadFactor_eq := rfl }
  · exact hlengths.length_eq.trans (List.length_map _)
  · show lengths.length ≤ homes.length
    omega
  · show displaced = homes.length - lengths.length
    omega
  · rw [getD_histogramOf hpos, hlengths.count_eq, List.count_eq_countP, List.countP_map]
    exact List.countP_congr fun h _ => by simp
  · have hsum := sum_histogramOf hpos fun _ => 1
    simp only [Nat.mul_one, List.map_const', List.sum_replicate, Nat.nsmul_eq_mul] at hsum
    exact hsum
  · have hsum := sum_histogramOf hpos fun n => n
    rw [List.map_id', hlengths.sum_eq, List.sum_map_count_dedup_eq_length] at hsum
    exact hsum
  · have hlast : n + 1 ∈ lengths := by
      rw [hn]
      refine size_histogramOf_mem ?_
      rintro rfl
      cases hn
    show (histogramOf lengths).getD n 0 ≠ 0
    rw [getD_histogramOf hpos]
    exact (List.count_pos_iff.mpr hlast).ne'
  · by_cases hh : h ∈ homes
    · exact le_size_histogramOf ((hmem _).mpr ⟨h, hh, rfl⟩)
    · rw [List.count_eq_zero_of_not_mem hh]
      exact Nat.zero_le _
  · rcases eq_or_ne lengths [] with rfl | hne
    · refine .inl ⟨?_, rfl⟩
      rw [List.nil_perm, List.map_eq_nil_iff] at hlengths
      exact (List.dedup_eq_nil homes).mp hlengths
    · exact .inr ((hmem _).mp (size_histogramOf_mem hne))

/-- The histogram is that of the numbers of keys that share a home address. -/
theorem Counts.histogram_eq (h : s.Counts c homes) :
    s.histogram = histogramOf (homes.dedup.map fun g => homes.count g) := by
  have hdisplaced :
      (homes.dedup.map fun g => homes.count g).length + s.displaced = homes.length := by
    have hle := h.chains_le
    rw [List.length_map, ← h.chains_eq, h.displaced_eq, ← h.len_eq]
    omega
  exact congrArg histogram (h.unique (.of_lengths (.refl _) hdisplaced) (.refl _))

end ChainStats

/-! ## Chains and home addresses -/

/-- The lengths of the chains that start in the slots of a list. -/
def Layout.lengths (L : Layout) (l : List Nat) : List Nat :=
  (l.map fun h => (L.chain h).length).filter (0 < ·)

namespace Table

variable {t : Table w K V} {L : Layout}

/-- The home addresses of the stored keys, in slot order. -/
def homes (t : Table w K V) : List Nat := t.slots.keys.map t.home

/-- The keys in slot order, by index. -/
theorem keys_eq_filterMap (hsize : t.slots.size = t.capacity + 1) :
    t.slots.keys = (List.range' 1 t.capacity).filterMap t.slots.node.key := by
  have hkey : t.slots.node.key = fun i => (t.slots.toList[i]?).bind fun slot =>
      slot.entry?.map Prod.fst := funext fun i => by
    rw [Nodes.key_eq, SlotArray.entry_eq, Array.getElem?_toList]
    cases t.slots[i]? <;> rfl
  have hmap := map_getElem?_range' t.slots.toList
  rw [Array.length_toList, hsize, Nat.add_sub_cancel] at hmap
  calc t.slots.keys
      = (t.slots.toList.drop 1).filterMap fun slot => slot.entry?.map Prod.fst := by
        rw [SlotArray.keys, SlotArray.entriesFrom, List.map_filterMap]
    _ = ((t.slots.toList.drop 1).map some).filterMap fun x =>
          x.bind fun slot => slot.entry?.map Prod.fst := by
        rw [List.filterMap_map]
        rfl
    _ = (List.range' 1 t.capacity).filterMap t.slots.node.key := by
        rw [← hmap, List.filterMap_map, hkey]
        rfl

namespace LaidOut

/-- A chain has as many members as there are keys with its home address. -/
theorem count_homes (hL : t.LaidOut L) (h : Nat) : t.homes.count h = (L.chain h).length := by
  let p : Nat → Bool := fun i => ((t.slots.node.key i).map fun k => t.home k == h).getD false
  have hp : ∀ i, p i = true ↔ i ∈ L.chain h := fun i => by
    rw [hL.chains.mem_iff]
    simp only [p]
    cases t.slots.node.key i <;> simp
  have hperm : (L.chain h).Perm ((List.range' 1 t.capacity).filter p) := by
    refine (List.perm_ext_iff_of_nodup (hL.chains.nodup h)
      (List.Nodup.filter _ List.nodup_range')).mpr fun i => ?_
    rw [List.mem_filter, hp, List.mem_range'_1]
    refine (and_iff_right_of_imp fun hi => ?_).symm
    have := hL.le_capacity_of_mem_chain hi
    omega
  rw [homes, keys_eq_filterMap hL.size_eq, List.count_eq_countP, List.countP_map,
    List.countP_filterMap, hperm.length_eq, ← List.countP_eq_length_filter]
  rfl

/-- There is one home address for every entry. -/
theorem length_homes (hL : t.LaidOut L) : t.homes.length = t.len := by
  rw [homes, List.length_map, hL.keys_eq, List.length_map, length_entries hL.len_eq_usedCount]

/-- The chains that start in the slots for entries are those of the different home addresses. -/
theorem lengths_perm (hL : t.LaidOut L) :
    (L.lengths (List.range' 1 t.capacity)).Perm (t.homes.dedup.map fun h => t.homes.count h) := by
  have hheads : ((List.range' 1 t.capacity).filter fun h => 0 < (L.chain h).length).Perm
      t.homes.dedup := by
    refine (List.perm_ext_iff_of_nodup (List.Nodup.filter _ List.nodup_range')
      (List.nodup_dedup _)).mpr fun h => ?_
    rw [List.mem_filter, List.mem_dedup, ← List.count_pos_iff (a := h) (l := t.homes),
      hL.count_homes, decide_eq_true_iff, List.mem_range'_1]
    refine and_iff_right_of_imp fun hpos => ?_
    -- a chain with members has its home slot for one
    obtain ⟨i, hi⟩ := List.exists_mem_of_length_pos hpos
    obtain ⟨k, -, rfl⟩ := (hL.chains.mem_iff h i).mp hi
    have := t.home_pos k
    have := t.home_le k
    omega
  have hcount : (fun h => t.homes.count h) = fun h => (L.chain h).length := funext hL.count_homes
  rw [Layout.lengths, List.filter_map, hcount]
  exact hheads.map _

/-! ## The tally -/

/-- What slots add up to: the lengths of the chains that start there, and the used slots where no
chain starts. -/
theorem tallyOf_eq (t : Table w K V) (L : Layout) (l : List Nat) : t.tallyOf L l = {
    chains := (L.lengths l).length
    displaced := l.countP fun i => t.slots.isUsed i && !decide (0 < (L.chain i).length)
    histogram := ChainStats.histogramOf (L.lengths l) } := by
  induction l using List.reverseRecOn with
  | nil => rfl
  | append_singleton l i ih =>
    rw [tallyOf] at ih
    rw [tallyOf, List.foldl_concat, ih, ChainStats.Tally.add, Layout.lengths, Layout.lengths,
      List.map_append, List.filter_append, List.countP_append]
    by_cases hpos : 0 < (L.chain i).length
    · simp [hpos, ChainStats.histogramOf_concat]
    · cases hused : t.slots.isUsed i <;> simp [hpos, hused]

/-- Every used slot is the first one of a chain, or one where no chain starts. -/
theorem length_lengths_add (hL : t.LaidOut L) (l : List Nat) :
    (L.lengths l).length + l.countP (fun i => t.slots.isUsed i &&
      !decide (0 < (L.chain i).length)) = l.countP t.slots.isUsed := by
  have hused : ∀ i, 0 < (L.chain i).length → t.slots.isUsed i = true := fun i hpos => by
    obtain ⟨j, hj⟩ := List.exists_mem_of_length_pos hpos
    obtain ⟨rest, hrest⟩ := hL.chains.eq_cons hj
    obtain ⟨x, hx⟩ := hL.exists_node_of_mem_chain (hrest ▸ List.mem_cons_self : i ∈ L.chain i)
    rw [SlotArray.isUsed_eq_isSome, hx]
    rfl
  have hheads : (L.lengths l).length =
      l.countP fun i => t.slots.isUsed i && decide (0 < (L.chain i).length) := by
    rw [Layout.lengths, List.filter_map, List.length_map, ← List.countP_eq_length_filter]
    refine List.countP_congr fun i _ => ?_
    simp only [Function.comp_apply, decide_eq_true_iff, Bool.and_eq_true]
    exact (and_iff_right_of_imp (hused i)).symm
  rw [hheads, List.countP_eq_countP_filter_add l t.slots.isUsed fun i =>
    decide (0 < (L.chain i).length), List.countP_filter, List.countP_filter]

/-- The statistics of a table in order count its home addresses. -/
theorem chainStats_counts (hL : t.LaidOut L) :
    ∃ s, t.chainStats = .ok s ∧ s.Counts t.capacity t.homes := by
  have hdisplaced := hL.length_lengths_add (List.range' 1 t.capacity)
  have hused : (List.range' 1 t.capacity).countP t.slots.isUsed = t.homes.length := by
    rw [hL.length_homes, hL.len_eq_usedCount, SlotArray.usedCount_eq, SlotArray.capacity,
      hL.size_eq, Nat.add_sub_cancel]
  have hcounts := ChainStats.Counts.of_lengths (c := t.capacity) hL.lengths_perm
    (hdisplaced.trans hused)
  rw [hL.length_homes] at hcounts
  refine ⟨_, hL.chainStats_eq, ?_⟩
  rw [tallyOf_eq]
  exact hcounts

end LaidOut

/-! ## Independence of the layout -/

/-- Tables with the same keys have the same home addresses, up to order, if their capacity and
their hash are the same. -/
theorem LaidOut.homes_perm {w' : LinkWidth} {V' : Type} {t' : Table w' K V'} {L' : Layout}
    (hL : t.LaidOut L) (hL' : t'.LaidOut L') (hcapacity : t'.capacity = t.capacity)
    (hhash : t'.hash = t.hash) (hkeys : ∀ k, t'.Has k ↔ t.Has k) : t'.homes.Perm t.homes := by
  have hhome : t'.home = t.home := funext fun k => by
    rw [home, home, hhash, Nat.succ.inj hcapacity]
  have hperm : t'.slots.keys.Perm t.slots.keys :=
    (List.perm_ext_iff_of_nodup hL'.nodup_keys hL.nodup_keys).mpr fun k => by
      rw [hL'.mem_keys_iff, hL.mem_keys_iff, hkeys]
  rw [homes, homes, hhome]
  exact hperm.map _

/-- On a table that passes an examination, the statistics count the home addresses of the stored
keys. So they are those of any other such table with the same capacity, hash and keys, however
the two came about. -/
theorem chainStats_counts_homes [DecidableEq K] (hcheck : t.check.outcome = .ok (.ok ())) :
    ∃ s, t.chainStats = .ok s ∧ s.len = t.len ∧ s.Counts t.capacity t.homes ∧
      ∀ (w' : LinkWidth) (V' : Type) (t' : Table w' K V'), t'.check.outcome = .ok (.ok ()) →
        t'.capacity = t.capacity → t'.hash = t.hash → (∀ k, t'.Has k ↔ t.Has k) →
        t'.chainStats = .ok s := by
  obtain ⟨L, hL⟩ := inOrder_iff.mp (check_eq_ok_iff.mp hcheck)
  obtain ⟨s, hs, hcounts⟩ := hL.chainStats_counts
  refine ⟨s, hs, hcounts.len_eq.trans hL.length_homes, hcounts, ?_⟩
  intro w' V' t' hcheck' hcapacity hhash hkeys
  obtain ⟨L', hL'⟩ := inOrder_iff.mp (check_eq_ok_iff.mp hcheck')
  obtain ⟨s', hs', hcounts'⟩ := hL'.chainStats_counts
  rw [hcapacity] at hcounts'
  rw [hs', hcounts'.unique hcounts (hL.homes_perm hL' hcapacity hhash hkeys)]

/-- Keys `1` and `3` share the home slot `2`, and it does not matter which of them is there. -/
theorem chainStats_counts_homes_either_order : ∃ t t' : Table .bits16 Nat Nat,
    t.check.outcome = .ok (.ok ()) ∧ t.slots ≠ t'.slots ∧
      ∃ s, t.chainStats = .ok s ∧ t'.chainStats = .ok s ∧ s.Counts 2 [2, 2] := by
  let t : Table .bits16 Nat Nat :=
    ⟨.fixed, UInt64.ofNat, #[.free .null (.ofSuccessor 0), .used .null 3 4,
      .used (.ofIndex 1) 1 2], 2, 1⟩
  let t' : Table .bits16 Nat Nat :=
    ⟨.fixed, UInt64.ofNat, #[.free .null (.ofSuccessor 0), .used .null 1 2,
      .used (.ofIndex 1) 3 4], 2, 1⟩
  have hcheck : t.check.outcome = .ok (.ok ()) := by cbv
  have hcheck' : t'.check.outcome = .ok (.ok ()) := by cbv
  have hkeys : ∀ k, t'.Has k ↔ t.Has k := fun k => by
    obtain ⟨L, hL⟩ := inOrder_iff.mp (check_eq_ok_iff.mp hcheck)
    obtain ⟨L', hL'⟩ := inOrder_iff.mp (check_eq_ok_iff.mp hcheck')
    have hslots : t.slots.keys = [3, 1] := rfl
    have hslots' : t'.slots.keys = [1, 3] := rfl
    rw [← hL.mem_keys_iff, ← hL'.mem_keys_iff, hslots, hslots']
    exact (List.Perm.swap 3 1 []).mem_iff
  have hhomes : t.homes = [2, 2] := by cbv
  obtain ⟨s, hs, -, hcounts, hsame⟩ := chainStats_counts_homes hcheck
  rw [hhomes] at hcounts
  exact ⟨t, t', hcheck, by decide, s, hs, hsame _ _ t' hcheck' rfl rfl hkeys, hcounts⟩

end Table

end HomeChain

import HomeChain.Proofs.Statistics.Homes
import HomeChain.Proofs.Statistics.Reads
import Mathlib.Algebra.Group.Nat.Even
import Mathlib.Algebra.BigOperators.Ring.Finset
import Mathlib.Algebra.Order.BigOperators.Group.Finset
import Mathlib.Data.List.GetD
import Mathlib.Tactic.Ring

/-!
# The probe total

Looking up each of the `n` members of a chain once reads `1 + 2 + ⋯ + n` slots, which is
`triangle n`. So the slots that lookups of all stored keys read are counted by a sum of triangles
over the chains, and that is a sum over the histogram, which `ChainStats.probeTotal` computes
in 64-bit words. The words are wide enough as long as a table has less than `2 ^ 32` entries.
-/

namespace HomeChain

open Finset (range)

variable {w : LinkWidth} {K V : Type}

/-! ## Triangles -/

/-- The slots that looking up each of `n` members of a chain once reads. -/
def triangle (n : Nat) : Nat := n * (n + 1) / 2

@[simp] theorem triangle_zero : triangle 0 = 0 := rfl

theorem triangle_succ (n : Nat) : triangle (n + 1) = triangle n + (n + 1) := by
  have hmul : (n + 1) * (n + 1 + 1) = n * (n + 1) + 2 * (n + 1) := by ring
  rw [triangle, triangle, hmul, Nat.add_mul_div_left _ _ (by decide)]

/-- One long chain takes more reads than two short ones. -/
theorem triangle_add_le (m n : Nat) : triangle m + triangle n ≤ triangle (m + n) := by
  induction n with
  | zero => rfl
  | succ n ih =>
    rw [triangle_succ, ← Nat.add_assoc m, triangle_succ]
    omega

theorem sum_triangle_le (l : List Nat) : (l.map triangle).sum ≤ triangle l.sum := by
  induction l with
  | nil => rfl
  | cons n l ih =>
    rw [List.map_cons, List.sum_cons, List.sum_cons]
    exact (Nat.add_le_add_left ih _).trans (triangle_add_le n l.sum)

/-- Nothing is lost when the reads of some chains of one length are halved together. -/
theorem two_dvd_mul_mul (c n : Nat) : 2 ∣ c * (n + 1) * (n + 2) := by
  rw [Nat.mul_assoc]
  exact Dvd.dvd.mul_left (Nat.even_mul_succ_self (n + 1)).two_dvd c

theorem mul_mul_div_two (c n : Nat) : c * (n + 1) * (n + 2) / 2 = c * triangle (n + 1) := by
  rw [Nat.mul_assoc, Nat.mul_div_assoc c (Nat.even_mul_succ_self (n + 1)).two_dvd, triangle]

/-! ## The total in words -/

/-- A sum of words that does not overflow. -/
theorem toNat_foldl_add {α : Type} (f : α → UInt64) (l : List α) (total : UInt64)
    (h : total.toNat + (l.map fun a => (f a).toNat).sum < 2 ^ 64) :
    (l.foldl (fun total a => total + f a) total).toNat =
      total.toNat + (l.map fun a => (f a).toNat).sum := by
  induction l generalizing total with
  | nil => rfl
  | cons a l ih =>
    rw [List.map_cons, List.sum_cons, ← Nat.add_assoc] at h ⊢
    have hadd : (total + f a).toNat = total.toNat + (f a).toNat := by
      rw [UInt64.toNat_add, Nat.mod_eq_of_lt (by omega)]
    rw [List.foldl_cons, ih (total + f a) (by rwa [hadd]), hadd]

/-- A sum over a list with its places. -/
theorem sum_zipIdx (f : Nat → Nat → Nat) (l : List Nat) :
    (l.zipIdx.map fun x => f x.2 x.1).sum = ∑ n ∈ range l.length, f n (l.getD n 0) := by
  induction l using List.reverseRecOn with
  | nil => rfl
  | append_singleton l a ih =>
    have hfront : ∀ n ∈ range l.length, f n ((l ++ [a]).getD n 0) = f n (l.getD n 0) := by
      intro n hn
      rw [List.getD_append _ _ _ _ (Finset.mem_range.mp hn)]
    rw [List.zipIdx_append, List.map_append, List.sum_append, ih, List.length_append,
      List.length_singleton, Finset.sum_range_succ, Finset.sum_congr rfl hfront]
    simp

namespace ChainStats

variable {s : ChainStats} {c : Nat} {homes : List Nat}

/-- The probes on chains of one length, where their product fits in a word. -/
theorem toNat_probes {n count : Nat} (hcount : count < 2 ^ 64) (hn : n + 2 < 2 ^ 64)
    (hproduct : count * (n + 1) * (n + 2) < 2 ^ 64) :
    (probes n count).toNat = count * (n + 1) * (n + 2) / 2 := by
  have hle : count * (n + 1) ≤ count * (n + 1) * (n + 2) := Nat.le_mul_of_pos_right _ (by omega)
  have h1 : (1 : UInt64).toNat = 1 := rfl
  have h2 : (2 : UInt64).toNat = 2 := rfl
  rw [probes, UInt64.toNat_div, UInt64.toNat_mul, UInt64.toNat_mul, UInt64.toNat_add,
    UInt64.toNat_add, Nat.toUInt64_eq, Nat.toUInt64_eq, UInt64.toNat_ofNat', UInt64.toNat_ofNat',
    h1, h2, Nat.mod_eq_of_lt hcount, Nat.mod_eq_of_lt (show n < 2 ^ 64 by omega),
    Nat.mod_eq_of_lt (show n + 1 < 2 ^ 64 by omega), Nat.mod_eq_of_lt hn,
    Nat.mod_eq_of_lt (show count * (n + 1) < 2 ^ 64 by omega), Nat.mod_eq_of_lt hproduct]

/-- The probe total is computed in words as it would be in numbers: no product and no sum
overflows, and every product that is halved is even. -/
structure ExactTotal (s : ChainStats) : Prop where
  product_lt : ∀ n < s.histogram.size, s.histogram.getD n 0 < 2 ^ 64 ∧ n + 2 < 2 ^ 64 ∧
    s.histogram.getD n 0 * (n + 1) < 2 ^ 64 ∧ s.histogram.getD n 0 * (n + 1) * (n + 2) < 2 ^ 64
  even : ∀ n, 2 ∣ s.histogram.getD n 0 * (n + 1) * (n + 2)
  sum_lt : ∀ m ≤ s.histogram.size,
    ∑ n ∈ range m, s.histogram.getD n 0 * (n + 1) * (n + 2) / 2 < 2 ^ 64
  total_eq : s.probeTotal.toNat =
    ∑ n ∈ range s.histogram.size, s.histogram.getD n 0 * (n + 1) * (n + 2) / 2

/-- The chains of one length have at most as many members as there are entries, and are at most as
long. -/
theorem Counts.le_len (h : s.Counts c homes) {n : Nat} (hn : n < s.histogram.size) :
    s.histogram.getD n 0 * (n + 1) ≤ s.len ∧ n + 1 ≤ s.len := by
  constructor
  · rw [← h.sum_eq_len]
    exact Finset.single_le_sum (f := fun n => s.histogram.getD n 0 * (n + 1))
      (fun n _ => Nat.zero_le _) (Finset.mem_range.mpr hn)
  · rw [h.size_eq] at hn
    rw [h.len_eq]
    rcases h.longest_eq with ⟨-, hzero⟩ | ⟨g, -, hg⟩
    · omega
    · have hle : homes.count g ≤ homes.length := List.count_le_length
      omega

/-- The reads of the chains of all lengths up to some length. -/
theorem Counts.sum_le (h : s.Counts c homes) {m : Nat} (hm : m ≤ s.histogram.size) :
    ∑ n ∈ range m, s.histogram.getD n 0 * (n + 1) * (n + 2) / 2 ≤ s.len * (s.len + 1) :=
  calc ∑ n ∈ range m, s.histogram.getD n 0 * (n + 1) * (n + 2) / 2
      ≤ ∑ n ∈ range s.histogram.size, s.histogram.getD n 0 * (n + 1) * (n + 2) / 2 :=
        Finset.sum_le_sum_of_subset (Finset.range_mono hm)
    _ ≤ ∑ n ∈ range s.histogram.size, s.histogram.getD n 0 * (n + 1) * (s.len + 1) := by
        refine Finset.sum_le_sum fun n hn => (Nat.div_le_self _ 2).trans ?_
        have hle := (h.le_len (Finset.mem_range.mp hn)).2
        exact Nat.mul_le_mul_left _ (by omega)
    _ = s.len * (s.len + 1) := by rw [← Finset.sum_mul, h.sum_eq_len]

/-- The probe total, without words, is a sum of triangles over the home addresses. -/
theorem Counts.sum_triangle (h : s.Counts c homes) :
    ∑ n ∈ range s.histogram.size, s.histogram.getD n 0 * (n + 1) * (n + 2) / 2 =
      ((homes.dedup.map fun g => homes.count g).map triangle).sum := by
  have hpos : ∀ n ∈ homes.dedup.map (fun g => homes.count g), 0 < n := fun n hn => by
    obtain ⟨g, hg, rfl⟩ := List.mem_map.mp hn
    exact List.count_pos_iff.mpr (List.mem_dedup.mp hg)
  simp only [mul_mul_div_two]
  rw [h.histogram_eq, sum_histogramOf hpos]

/-- The words are wide enough for statistics that count so many home addresses. -/
theorem Counts.exactTotal (h : s.Counts c homes) (hlen : s.len < 2 ^ 32) : s.ExactTotal := by
  have hsquare : s.len * (s.len + 1) < 2 ^ 64 :=
    calc s.len * (s.len + 1) ≤ (2 ^ 32 - 1) * 2 ^ 32 := Nat.mul_le_mul (by omega) (by omega)
      _ < 2 ^ 64 := by decide
  have hproduct : ∀ n < s.histogram.size, s.histogram.getD n 0 < 2 ^ 64 ∧ n + 2 < 2 ^ 64 ∧
      s.histogram.getD n 0 * (n + 1) < 2 ^ 64 ∧
      s.histogram.getD n 0 * (n + 1) * (n + 2) < 2 ^ 64 := fun n hn => by
    obtain ⟨hmembers, hlength⟩ := h.le_len hn
    have hcount : s.histogram.getD n 0 ≤ s.histogram.getD n 0 * (n + 1) :=
      Nat.le_mul_of_pos_right _ (Nat.succ_pos n)
    have hle : s.histogram.getD n 0 * (n + 1) * (n + 2) ≤ s.len * (s.len + 1) :=
      Nat.mul_le_mul hmembers (by omega)
    omega
  have hsum : ∀ m ≤ s.histogram.size,
      ∑ n ∈ range m, s.histogram.getD n 0 * (n + 1) * (n + 2) / 2 < 2 ^ 64 := fun m hm =>
    (h.sum_le hm).trans_lt hsquare
  refine ⟨hproduct, fun n => two_dvd_mul_mul _ n, hsum, ?_⟩
  have hterms : (s.histogram.toList.zipIdx.map fun x => (probes x.2 x.1).toNat).sum =
      ∑ n ∈ range s.histogram.size, s.histogram.getD n 0 * (n + 1) * (n + 2) / 2 := by
    rw [sum_zipIdx fun n count => (probes n count).toNat, Array.length_toList]
    refine Finset.sum_congr rfl fun n hn => ?_
    obtain ⟨hcount, hn2, -, hlt⟩ := hproduct n (Finset.mem_range.mp hn)
    have hget : s.histogram.toList.getD n 0 = s.histogram.getD n 0 := by
      rw [List.getD_eq_getElem?_getD, Array.getElem?_toList, Array.getD_eq_getD_getElem?]
    rw [hget, toNat_probes hcount hn2 hlt]
  have hfold := toNat_foldl_add (fun x => probes x.2 x.1) s.histogram.toList.zipIdx 0
  rw [hterms] at hfold
  have hzero : (0 : UInt64).toNat = 0 := rfl
  rw [hzero, Nat.zero_add] at hfold
  exact hfold (hsum _ le_rfl)

end ChainStats

/-! ## What all lookups read -/

namespace Table

variable {t : Table w K V} {L : Layout} {key : K}

/-- The stored keys, chain by chain. -/
theorem LaidOut.keys_perm (hL : t.LaidOut L) : t.slots.keys.Perm
    ((t.indices.map L.chain).flatten.filterMap t.slots.node.key) := by
  have hnodup : ((t.indices.map L.chain).flatten.filterMap t.slots.node.key).Nodup := by
    refine List.Nodup.filterMap (fun i j k hi hj => ?_) (hL.claimedChains 0).nodup
    exact hL.eq_of_key hj i hi
  refine (List.perm_ext_iff_of_nodup hL.nodup_keys hnodup).mpr fun k => ?_
  rw [hL.mem_keys_iff, has_iff, List.mem_filterMap]
  refine exists_congr fun i => (and_iff_right_of_imp fun hi => ?_).symm
  refine List.mem_flatten.mpr ⟨_, List.mem_map_of_mem (t.home_mem_indices k), ?_⟩
  exact hL.chains.mem_of_key hi

/-- Looking up the members of a chain reads a triangle of slots, if each takes as many reads as its
place on the chain says. -/
theorem LaidOut.sum_chain (hL : t.LaidOut L) {cost : K → Nat} {h : Nat} {a c : List Nat}
    (hcost : ∀ a i b k, L.chain h = a ++ i :: b → t.slots.node.key i = some k →
      cost k = a.length + 1) (hchain : L.chain h = a ++ c) :
    triangle a.length + ((c.filterMap t.slots.node.key).map cost).sum =
      triangle (L.chain h).length := by
  induction c generalizing a with
  | nil =>
    rw [List.append_nil] at hchain
    simp [hchain]
  | cons i c ih =>
    obtain ⟨k, hk, -⟩ := (hL.chains.mem_iff h i).mp (hchain ▸ by simp)
    have hrest := ih (a := a ++ [i]) (by rw [hchain, List.append_cons])
    rw [List.length_append, List.length_singleton, triangle_succ] at hrest
    rw [List.filterMap_cons_some hk, List.map_cons, List.sum_cons, hcost a i c k hchain hk,
      ← Nat.add_assoc]
    exact hrest

/-- Looking up every stored key once reads a triangle of slots for each chain. -/
theorem LaidOut.sum_keys (hL : t.LaidOut L) {cost : K → Nat}
    (hcost : ∀ h a i b k, L.chain h = a ++ i :: b → t.slots.node.key i = some k →
      cost k = a.length + 1) :
    (t.slots.keys.map cost).sum = ((L.lengths t.indices).map triangle).sum := by
  have hchain : ∀ h, (((L.chain h).filterMap t.slots.node.key).map cost).sum =
      triangle (L.chain h).length := fun h => by
    have hsum := hL.sum_chain (a := []) (hcost h) rfl
    rwa [List.length_nil, triangle_zero, Nat.zero_add] at hsum
  -- the empty chains, which are not counted, add nothing
  have hfilter : ∀ l : List Nat, ((l.filter (0 < ·)).map triangle).sum = (l.map triangle).sum := by
    intro l
    induction l with
    | nil => rfl
    | cons n l ih =>
      rcases Nat.eq_zero_or_pos n with rfl | hn
      · simp [ih]
      · simp [hn, ih]
  rw [(hL.keys_perm.map cost).sum_eq, List.filterMap_flatten, List.map_flatten, List.sum_flatten,
    Layout.lengths, hfilter]
  simp only [List.map_map, Function.comp_def, hchain]

theorem LaidOut.chain_eq (hL : t.LaidOut L) {h i : Nat} {a b : List Nat}
    (hc : t.IsHomeChain h (a ++ i :: b)) : L.chain h = a ++ i :: b := by
  obtain ⟨k, hk, hkh⟩ := hc.exists_key
  exact (hL.isHomeChain ((hL.chains.mem_iff h h).mpr ⟨k, hk, hkh⟩)).unique hc hL.anchor_free

/-- A stored key takes as many reads as its place on its chain says. -/
theorem LaidOut.length_eq (hL : t.LaidOut L) {slots a b : List Nat} {h i : Nat}
    (hreads : t.Reads key slots) (hchain : L.chain h = a ++ i :: b)
    (hi : t.slots.node.key i = some key) : slots.length = a.length + 1 := by
  have hhas : t.Has key := has_iff.mpr ⟨i, hi⟩
  cases hreads with
  | @stored a' b' j holds chain =>
    obtain rfl : i = j := hL.eq_of_key (keyAt_iff.mp holds) i hi
    have hmem : i ∈ L.chain h := hchain ▸ by simp
    obtain rfl : h = t.home key := hL.chains.eq_of_mem hmem (hL.chains.mem_of_key hi)
    have hsplit : a ++ i :: b = a' ++ i :: b' := hchain.symm.trans (hL.chain_eq chain)
    have hnodup := List.nodup_middle.mp (hchain ▸ hL.chains.nodup (t.home key))
    rw [List.nodup_cons, List.mem_append, not_or] at hnodup
    obtain ⟨rfl, -, -⟩ := (List.append_cons_inj_of_notMem hnodup.1.1 hnodup.1.2).mp hsplit
    rw [List.length_append, List.length_singleton]
  | none absent _ => exact absurd hhas absent
  | whole absent _ _ => exact absurd hhas absent
  | rest absent _ _ _ => exact absurd hhas absent

/-- On a table that passes an examination, a lookup reads a known list of slots, and the probe total
of the statistics is the number of slots that lookups of all stored keys read. It is computed in
words without loss, if the table has less than `2 ^ 32` entries. -/
theorem probe_total_counts_reads [DecidableEq K] (hcheck : t.check.outcome = .ok (.ok ())) :
    ∃ slots : K → List Nat, (∀ key, t.LooksUp key (slots key)) ∧ (t.len < 2 ^ 32 →
      ∃ s, t.chainStats = .ok s ∧ s.ExactTotal ∧
        s.probeTotal.toNat = (t.slots.keys.map fun key => (slots key).length).sum ∧
        s.probeTotal.toNat ≤ t.len * (t.len + 1) / 2) := by
  obtain ⟨L, hL⟩ := inOrder_iff.mp (check_eq_ok_iff.mp hcheck)
  choose slots hslots using fun key => hL.exists_looksUp key
  refine ⟨slots, hslots, fun hlen => ?_⟩
  obtain ⟨s, hs, hcounts⟩ := hL.chainStats_counts
  have hlen_eq : s.len = t.len := hcounts.len_eq.trans hL.length_homes
  have hexact := hcounts.exactTotal (hlen_eq ▸ hlen)
  have htotal := hexact.total_eq.trans hcounts.sum_triangle
  have hreads : (t.slots.keys.map fun key => (slots key).length).sum = s.probeTotal.toNat := by
    rw [hL.sum_keys fun h a i b k hchain hi => hL.length_eq (hslots k).reads hchain hi, htotal]
    exact (hL.lengths_perm.map triangle).sum_eq
  refine ⟨s, hs, hexact, hreads.symm, ?_⟩
  rw [htotal, ← hL.length_homes, ← List.sum_map_count_dedup_eq_length t.homes]
  exact sum_triangle_le _

/-- Keys `1` and `3` are on one chain, so looking up both takes `1 + 2` reads. -/
theorem probe_total_counts_reads_one_chain : ∃ t : Table .bits16 Nat Nat,
    t.check.outcome = .ok (.ok ()) ∧ t.LooksUp 3 [2, 1] ∧ t.LooksUp 0 [1] ∧
      ∃ s, t.chainStats = .ok s ∧ s.ExactTotal ∧ s.probeTotal.toNat = 3 := by
  let t : Table .bits16 Nat Nat :=
    ⟨.fixed, UInt64.ofNat, #[.free .null (.ofSuccessor 0), .used .null 3 4,
      .used (.ofIndex 1) 1 2], 2, 1⟩
  have hcheck : t.check.outcome = .ok (.ok ()) := by cbv
  obtain ⟨slots, hslots, hstats⟩ := probe_total_counts_reads hcheck
  have hprobes : ∀ key l, t.probes key = .ok l → slots key = l := fun key l h => by
    rw [(hslots key).probes_eq, Except.ok.injEq] at h
    exact h
  have h1 : slots 1 = [2] := hprobes 1 _ (by cbv)
  have h3 : slots 3 = [2, 1] := hprobes 3 _ (by cbv)
  have h0 : slots 0 = [1] := hprobes 0 _ (by cbv)
  have hlen : t.len < 2 ^ 32 := by decide
  obtain ⟨s, hs, hexact, htotal, -⟩ := hstats hlen
  have hkeys : t.slots.keys = [3, 1] := rfl
  refine ⟨t, hcheck, h3 ▸ hslots 3, h0 ▸ hslots 0, s, hs, hexact, ?_⟩
  rw [htotal, hkeys]
  simp [h1, h3]

end Table

end HomeChain

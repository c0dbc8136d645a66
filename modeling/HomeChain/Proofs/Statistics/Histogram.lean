import HomeChain.ChainStats
import Mathlib.Algebra.BigOperators.Group.Finset.Basic
import Mathlib.Algebra.BigOperators.Intervals

/-!
# Histograms of lengths

A histogram is built by counting one length after another, and it is as long as the largest
length counted so far. So once a list of positive lengths has been counted,

  `histogram[i] = the number of times that i + 1 is in the list`,

and every sum over the list is a sum over the histogram, weighted with its entries.
-/

namespace HomeChain.ChainStats

open Finset (range)

/-- The histogram of a list of lengths, counted in the order of the list. -/
def histogramOf (lengths : List Nat) : Array Nat := lengths.foldl count #[]

variable {histogram : Array Nat} {lengths : List Nat} {n : Nat}

theorem histogramOf_concat (lengths : List Nat) (n : Nat) :
    histogramOf (lengths ++ [n]) = count (histogramOf lengths) n := List.foldl_concat ..

/-! ## Counting one length -/

theorem size_count (histogram : Array Nat) (n : Nat) :
    (count histogram n).size = max histogram.size n := by
  rw [count, Array.size_modify, Array.size_append, Array.size_replicate]
  omega

/-- The places that are added to make room for a length count nothing. -/
theorem getD_append_replicate (histogram : Array Nat) (m i : Nat) :
    (histogram ++ Array.replicate m 0).getD i 0 = histogram.getD i 0 := by
  rw [Array.getD_eq_getD_getElem?, Array.getD_eq_getD_getElem?, Array.getElem?_append]
  split
  · rfl
  · rename_i hi
    rw [Array.getElem?_replicate, Array.getElem?_eq_none (by omega)]
    split <;> rfl

/-- Counting a length raises the entry for that length, and no other. -/
theorem getD_count (hn : 0 < n) (i : Nat) :
    (count histogram n).getD i 0 = histogram.getD i 0 + if n = i + 1 then 1 else 0 := by
  have hsize : n - 1 < (histogram ++ Array.replicate (n - histogram.size) 0).size := by
    rw [Array.size_append, Array.size_replicate]
    omega
  have happend := getD_append_replicate histogram (n - histogram.size) i
  rw [Array.getD_eq_getD_getElem?] at happend
  rw [count, Array.getD_eq_getD_getElem?, Array.getElem?_modify]
  by_cases hni : n = i + 1
  · rw [if_pos (by omega), if_pos hni, ← happend, Array.getElem?_eq_getElem (by omega)]
    rfl
  · rw [if_neg (by omega), if_neg hni, happend]
    rfl

/-! ## Counting a list of lengths -/

/-- An entry is the number of times that its length was counted. -/
theorem getD_histogramOf (hpos : ∀ n ∈ lengths, 0 < n) (i : Nat) :
    (histogramOf lengths).getD i 0 = lengths.count (i + 1) := by
  induction lengths using List.reverseRecOn with
  | nil => rfl
  | append_singleton lengths n ih =>
    rw [List.forall_mem_append, List.forall_mem_singleton] at hpos
    rw [histogramOf_concat, getD_count hpos.2, ih hpos.1, List.count_append, List.count_singleton]
    simp only [beq_iff_eq]

/-- A histogram has room for every length. -/
theorem le_size_histogramOf (hn : n ∈ lengths) : n ≤ (histogramOf lengths).size := by
  induction lengths using List.reverseRecOn with
  | nil => cases hn
  | append_singleton lengths m ih =>
    rw [histogramOf_concat, size_count]
    rcases List.mem_append.mp hn with hn | hn
    · exact (ih hn).trans (le_max_left ..)
    · rw [List.mem_singleton.mp hn]
      exact le_max_right ..

/-- It has no more room than that. -/
theorem size_histogramOf_mem (hne : lengths ≠ []) : (histogramOf lengths).size ∈ lengths := by
  induction lengths using List.reverseRecOn with
  | nil => exact absurd rfl hne
  | append_singleton lengths n ih =>
    rw [histogramOf_concat, size_count, List.mem_append, List.mem_singleton]
    rcases eq_or_ne lengths [] with rfl | hlengths
    · exact .inr (Nat.zero_max n)
    · rcases max_choice (histogramOf lengths).size n with hmax | hmax
      · rw [hmax]
        exact .inl (ih hlengths)
      · exact .inr hmax

/-- A sum over lengths is a sum over the histogram. -/
theorem sum_histogramOf (hpos : ∀ n ∈ lengths, 0 < n) (f : Nat → Nat) :
    ∑ i ∈ range (histogramOf lengths).size, (histogramOf lengths).getD i 0 * f (i + 1) =
      (lengths.map f).sum := by
  have hsub : lengths.toFinset ⊆ Finset.Ico 1 ((histogramOf lengths).size + 1) := fun n hn => by
    rw [List.mem_toFinset] at hn
    exact Finset.mem_Ico.mpr ⟨hpos n hn, Nat.lt_succ_of_le (le_size_histogramOf hn)⟩
  have hnone : ∀ n, n ∉ lengths.toFinset → lengths.count n * f n = 0 := fun n hn => by
    rw [List.mem_toFinset] at hn
    rw [List.count_eq_zero_of_not_mem hn, Nat.zero_mul]
  calc ∑ i ∈ range (histogramOf lengths).size, (histogramOf lengths).getD i 0 * f (i + 1)
      = ∑ i ∈ range (histogramOf lengths).size, lengths.count (i + 1) * f (i + 1) :=
        Finset.sum_congr rfl fun i _ => by rw [getD_histogramOf hpos]
    _ = ∑ n ∈ Finset.Ico 1 ((histogramOf lengths).size + 1), lengths.count n * f n := by
        rw [Finset.range_eq_Ico, Finset.sum_Ico_add' (fun n => lengths.count n * f n), Nat.zero_add]
    _ = ∑ n ∈ lengths.toFinset, lengths.count n * f n :=
        (Finset.sum_subset hsub fun n _ hn => hnone n hn).symm
    _ = (lengths.map f).sum := (Finset.sum_list_map_count lengths f).symm

end HomeChain.ChainStats

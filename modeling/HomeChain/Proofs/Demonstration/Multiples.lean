import HomeChain.Demo.Run
import Mathlib.Data.Finset.Card
import Mathlib.Data.Nat.ModEq
import Mathlib.Data.Nat.Prime.Basic
import Mathlib.Order.Interval.Finset.Nat

/-!
# The keys of the demonstration

The demonstration stores the multiples of a word, its stride, in 64-bit arithmetic. If the stride
ends in `t` zero bits, two multiples are the same just if

  `i ≡ j [MOD 2 ^ (64 - t)]`,

so the first `n` multiples are `min n (2 ^ (64 - t))` different keys.
-/

namespace HomeChain.Demo

/-! ## Trailing zeros -/

theorem ctz_zero : (0 : UInt64).toBitVec.ctz.toNat = 64 := by
  have h : (0 : UInt64).toBitVec.ctz = 64 := by
    rw [BitVec.ctz_eq_reverse_clz]
    exact BitVec.clz_eq_iff_eq_zero.mpr (BitVec.reverse_eq_zero_iff.mpr rfl)
  rw [h]
  rfl

/-- A word that is not zero is an odd number, shifted by its trailing zeros. -/
theorem exists_odd_mul {n : UInt64} (hn : n ≠ 0) : n.toBitVec.ctz.toNat < 64 ∧
    ∃ q, Odd q ∧ n.toNat = 2 ^ n.toBitVec.ctz.toNat * q := by
  have hne : n.toBitVec ≠ 0#64 := fun h => hn (UInt64.toBitVec_inj.mp h)
  have hone : n.toBitVec.getLsbD n.toBitVec.ctz.toNat = true :=
    BitVec.getLsbD_true_ctz_of_ne_zero hne
  have hzero : n.toNat % 2 ^ n.toBitVec.ctz.toNat = 0 := by
    refine Nat.eq_of_testBit_eq fun i => ?_
    rw [Nat.testBit_mod_two_pow, Nat.zero_testBit, Bool.and_eq_false_iff]
    by_cases hi : i < n.toBitVec.ctz.toNat
    · exact .inr (BitVec.getLsbD_false_of_lt_ctz hi)
    · exact .inl (decide_eq_false hi)
  refine ⟨BitVec.lt_of_getLsbD hone, n.toNat / 2 ^ n.toBitVec.ctz.toNat, ?_,
    (Nat.mul_div_cancel' (Nat.dvd_of_mod_eq_zero hzero)).symm⟩
  -- the lowest bit of what is left is the lowest bit that is set
  have hbit : (n.toNat / 2 ^ n.toBitVec.ctz.toNat).testBit 0 = true := by
    rw [Nat.testBit_div_two_pow, Nat.zero_add]
    exact hone
  rw [Nat.testBit_zero, decide_eq_true_iff] at hbit
  exact Nat.odd_iff.mpr hbit

theorem ctz_le (n : UInt64) : n.toBitVec.ctz.toNat ≤ 64 := by
  rcases eq_or_ne n 0 with rfl | hn
  · rw [ctz_zero]
  · exact (exists_odd_mul hn).1.le

theorem gcd_two_pow (n : UInt64) : Nat.gcd (2 ^ 64) n.toNat = 2 ^ n.toBitVec.ctz.toNat := by
  rcases eq_or_ne n 0 with rfl | hn
  · rw [ctz_zero, UInt64.toNat_zero, Nat.gcd_zero_right]
  · obtain ⟨hlt, q, hq, hn⟩ := exists_odd_mul hn
    have hcoprime : Nat.Coprime (2 ^ (64 - n.toBitVec.ctz.toNat)) q :=
      (Nat.coprime_two_left.mpr hq).pow_left _
    have hsplit : 2 ^ 64 = 2 ^ n.toBitVec.ctz.toNat * 2 ^ (64 - n.toBitVec.ctz.toNat) := by
      rw [← Nat.pow_add, Nat.add_sub_cancel' hlt.le]
    rw [hn, hsplit, Nat.gcd_mul_left, hcoprime.gcd_eq_one, Nat.mul_one]

/-! ## Multiples -/

theorem mul_modEq_iff {m : Nat} (hm : 0 < m) (c i j : Nat) :
    i * c ≡ j * c [MOD m] ↔ i ≡ j [MOD m / m.gcd c] := by
  constructor
  · exact Nat.ModEq.cancel_right_div_gcd hm
  · intro h
    refine Nat.ModEq.of_dvd ?_ (h.mul_right' c)
    -- what is divided out of the modulus is a factor of `c`
    obtain ⟨d, hd⟩ := Nat.gcd_dvd_right m c
    refine ⟨d, ?_⟩
    nth_rewrite 2 [hd]
    rw [← Nat.mul_assoc, Nat.div_mul_cancel (Nat.gcd_dvd_left m c)]

/-- Two keys are the same just if their positions are, up to as many as there are different
multiples. -/
theorem demoEntry_key_eq_iff (stride : UInt64) (i j : Nat) :
    (demoEntry stride i).1 = (demoEntry stride j).1 ↔
      i ≡ j [MOD 2 ^ (64 - stride.toBitVec.ctz.toNat)] := by
  have hkey : ∀ i, (demoEntry stride i).1.toNat = i * stride.toNat % 2 ^ 64 := fun i => by
    rw [demoEntry, UInt64.toNat_mul, Nat.toUInt64_eq, UInt64.toNat_ofNat', Nat.mod_mul_mod]
  have hperiod : 2 ^ 64 / Nat.gcd (2 ^ 64) stride.toNat =
      2 ^ (64 - stride.toBitVec.ctz.toNat) := by
    rw [gcd_two_pow, Nat.pow_div (ctz_le stride) Nat.two_pos]
  rw [← UInt64.toNat_inj, hkey, hkey, ← hperiod]
  exact mul_modEq_iff (by decide) _ i j

/-! ## Different keys -/

open Finset in
/-- A sequence that repeats itself with period `m`, and has no other repetitions, has `m` different
terms, or as many as were taken. -/
theorem card_image_range {α : Type} [DecidableEq α] {f : Nat → α} {m : Nat} (hm : 0 < m)
    (hf : ∀ i j, f i = f j ↔ i ≡ j [MOD m]) (n : Nat) : ((range n).image f).card = min n m := by
  have himage : (range n).image f = (range (min n m)).image f := by
    refine Subset.antisymm (image_subset_iff.mpr fun i hi => ?_)
      (image_subset_image (range_subset_range.mpr (Nat.min_le_left n m)))
    have hlt := Nat.mod_lt i hm
    have hle := Nat.mod_le i m
    refine mem_image.mpr ⟨i % m, mem_range.mpr ?_, (hf _ _).mpr (Nat.mod_modEq i m)⟩
    rw [mem_range] at hi
    omega
  rw [himage, card_image_of_injOn fun i hi j hj h => ?_, card_range]
  rw [coe_range, Set.mem_Iio] at hi hj
  exact ((hf i j).mp h).eq_of_lt_of_lt (by omega) (by omega)

/-- The number of different keys among the first `count`. -/
theorem card_keys (stride : UInt64) (count : Nat) :
    ((Finset.range count).image fun i => (demoEntry stride i).1).card =
      min count (2 ^ (64 - stride.toBitVec.ctz.toNat)) :=
  card_image_range (Nat.two_pow_pos _) (demoEntry_key_eq_iff stride) count

end HomeChain.Demo

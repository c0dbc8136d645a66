import HomeChain.Link
import Mathlib.Tactic.Common

/-!
# Links as integers

Each of the two ways to read a link succeeds on the links of one sign, and what it reads is
settled by the integer that the link stands for:

  `l.decodeIndex = ok i ↔ l.toInt = i`, `l.decodeSuccessor = ok i ↔ l.toInt = -(i + 1)`.

Writing an index that the width can name and reading it back gives the index.
-/

namespace HomeChain.Link

variable {w : LinkWidth}

/-! ## Reading -/

theorem toIndex_of_nonneg {l : Link w} (h : 0 ≤ l.toInt) : (l.toIndex : Int) = l.toInt := by
  have hu : l.word.toNat < 2 ^ w.size := l.word.isLt
  rw [toInt, BitVec.toInt_eq_toNat_cond] at h ⊢
  by_cases hw : 2 * l.word.toNat < 2 ^ w.size
  · rw [if_pos hw, toIndex]
  · rw [if_neg hw] at h
    omega

theorem toSuccessor_of_neg {l : Link w} (h : l.toInt < 0) :
    (l.toSuccessor : Int) = -(l.toInt + 1) := by
  have hu : l.word.toNat < 2 ^ w.size := l.word.isLt
  have h1 : (1 : BitVec w.size).toNat = 1 := by cases w <;> decide
  rw [toInt, BitVec.toInt_eq_toNat_cond] at h ⊢
  rw [toSuccessor, BitVec.toNat_neg, BitVec.toNat_add, h1]
  split at h
  · omega
  · rcases Nat.lt_or_ge (l.word.toNat + 1) (2 ^ w.size) with hlt | hge
    · rw [Nat.mod_eq_of_lt hlt, Nat.mod_eq_of_lt (by omega), if_neg (by omega)]
      omega
    · have htop : l.word.toNat + 1 = 2 ^ w.size := by omega
      rw [htop, Nat.mod_self, Nat.sub_zero, Nat.mod_self, if_neg (by omega)]
      omega

theorem isNegative_eq_false_iff (l : Link w) : l.isNegative = false ↔ 0 ≤ l.toInt := by
  rw [← Bool.not_eq_true, isNegative_iff, Int.not_lt]

theorem decodeIndex_eq_ok_iff {l : Link w} {i : Nat} :
    l.decodeIndex = .ok i ↔ l.toInt = i := by
  rw [decodeIndex]
  split
  · rename_i h
    rw [isNegative_iff] at h
    constructor
    · intro h'
      cases h'
    · intro h'
      omega
  · rename_i h
    rw [isNegative_iff] at h
    have hi := toIndex_of_nonneg (l := l) (by omega)
    rw [Except.ok.injEq]
    omega

theorem decodeSuccessor_eq_ok_iff {l : Link w} {i : Nat} :
    l.decodeSuccessor = .ok i ↔ l.toInt = -(i + 1) := by
  rw [decodeSuccessor]
  split
  · rename_i h
    rw [isNegative_iff] at h
    have hi := toSuccessor_of_neg h
    rw [Except.ok.injEq]
    omega
  · rename_i h
    rw [isNegative_iff] at h
    constructor
    · intro h'
      cases h'
    · intro h'
      omega

/-! ## The two readings as partial functions -/

/-- The index a link names as a chain link, if it is one. -/
def index? (l : Link w) : Option Nat := l.decodeIndex.toOption

/-- The index a link names as a free-list link, if it is one. -/
def successor? (l : Link w) : Option Nat := l.decodeSuccessor.toOption

theorem toOption_eq_some_iff {α : Type} {x : Except Fault α} {a : α} :
    x.toOption = some a ↔ x = .ok a := by
  cases x <;> simp [Except.toOption]

@[simp] theorem index?_eq_some_iff {l : Link w} {i : Nat} :
    l.index? = some i ↔ l.decodeIndex = .ok i := toOption_eq_some_iff

@[simp] theorem successor?_eq_some_iff {l : Link w} {i : Nat} :
    l.successor? = some i ↔ l.decodeSuccessor = .ok i := toOption_eq_some_iff

@[simp] theorem toInt_null : (null : Link w).toInt = 0 := by
  cases w <;> decide

theorem decodeIndex_null : (null : Link w).decodeIndex = .ok 0 :=
  decodeIndex_eq_ok_iff.mpr toInt_null

@[simp] theorem index?_null : (null : Link w).index? = some 0 :=
  index?_eq_some_iff.mpr decodeIndex_null

/-- Only the null link ends a chain. -/
theorem eq_null_of_decodeIndex {l : Link w} (h : l.decodeIndex = .ok 0) : l = null :=
  ext_toInt (by rw [decodeIndex_eq_ok_iff.mp h, toInt_null]; rfl)

theorem ne_null_of_decodeIndex {l : Link w} {i : Nat} (h : l.decodeIndex = .ok i) (hi : i ≠ 0) :
    l ≠ null := by
  rintro rfl
  rw [decodeIndex_null, Except.ok.injEq] at h
  exact hi h.symm

/-! ## Writing and reading back -/

theorem encodeIndex_eq {i : Nat} (h : i ≤ w.maxCapacity) :
    (encodeIndex i : Except Fault (Link w)) = .ok (ofIndex i) := if_pos h

theorem encodeSuccessor_eq {i : Nat} (h : i ≤ w.maxCapacity) :
    (encodeSuccessor i : Except Fault (Link w)) = .ok (ofSuccessor i) := if_pos h

theorem decodeIndex_ofIndex {i : Nat} (h : i ≤ w.maxCapacity) :
    (ofIndex i : Link w).decodeIndex = .ok i :=
  decodeIndex_eq_ok_iff.mpr (toInt_ofIndex h)

theorem decodeSuccessor_ofSuccessor {i : Nat} (h : i ≤ w.maxCapacity) :
    (ofSuccessor i : Link w).decodeSuccessor = .ok i :=
  decodeSuccessor_eq_ok_iff.mpr (toInt_ofSuccessor h)

end HomeChain.Link

import HomeChain.Proofs.Examination.Verdict
import Mathlib.Algebra.Group.Int.Defs
import Mathlib.Data.Set.BooleanAlgebra
import Mathlib.Data.Set.Function
import Mathlib.Order.Bounds.Basic
import Mathlib.Order.CompletePartialOrder

/-!
# The limits of links

Links are words, and `-(i + 1)` is computed in two steps, each of which could leave the range of the
words. Up to the largest capacity none does, so an index is `NamedExactly` by its two links; and
every negative word, the least one included, is `ReadExactly`:

  `ofSuccessor (toSuccessor l) = l`, `toSuccessor l = -(l + 1)` as integers.

The largest capacity is as large as it can be: twice as much has no chain link.
-/

namespace HomeChain

variable {w : LinkWidth} {i j : Nat}

/-- There are twice as many words that are not negative as the largest capacity. -/
theorem LinkWidth.two_mul_maxCapacity (w : LinkWidth) :
    (2 : Int) ^ (w.size - 1) = 2 * w.maxCapacity := by
  cases w <;> rfl

namespace Link

/-- There is a link that stands for the number. -/
def Representable (w : LinkWidth) (n : Int) : Prop := ∃ l : Link w, l.toInt = n

/-- Slot `i` is named by a chain link that is not negative and by a free-list link that is. Both are
written without a fault and can be read back, and of the words from which the free-list link is
computed, none leaves the range. -/
structure NamedExactly (w : LinkWidth) (i : Nat) : Prop where
  chain_written : (encodeIndex i : Except Fault (Link w)) = .ok (ofIndex i)
  chain_nonneg : (ofIndex i : Link w).isNegative = false
  chain_read : (ofIndex i : Link w).decodeIndex = .ok i
  free_written : (encodeSuccessor i : Except Fault (Link w)) = .ok (ofSuccessor i)
  free_word : (ofSuccessor i : Link w).word = -BitVec.ofNat w.size i - 1
  cast_exact : (BitVec.ofNat w.size i).toInt = i
  neg_exact : (BitVec.ofNat w.size i).negOverflow = false
  sub_exact : (-BitVec.ofNat w.size i).ssubOverflow 1 = false
  free_negative : (ofSuccessor i : Link w).isNegative = true
  free_read : (ofSuccessor i : Link w).decodeSuccessor = .ok i

/-- The free-list link is read without a fault, no word from which the index is computed leaves the
range, and writing the index gives the link back. -/
structure ReadExactly (l : Link w) : Prop where
  read : l.decodeSuccessor = .ok l.toSuccessor
  read_word : l.toSuccessor = (-(l.word + 1)).toNat
  add_exact : l.word.saddOverflow 1 = false
  neg_exact : (l.word + 1).negOverflow = false
  toSuccessor_eq : (l.toSuccessor : Int) = -(l.toInt + 1)
  written_back : ofSuccessor l.toSuccessor = l

/-! ## Indices -/

theorem toInt_one (w : LinkWidth) : (1 : BitVec w.size).toInt = 1 := by
  cases w <;> decide

theorem negOverflow_ofNat (hi : i ≤ w.maxCapacity) :
    (BitVec.ofNat w.size i).negOverflow = false := by
  have hcast : (BitVec.ofNat w.size i).toInt = i := toInt_ofIndex hi
  have hrange := w.two_mul_maxCapacity
  have hpos := w.maxCapacity_pos
  rw [BitVec.negOverflow, hcast, hrange, beq_eq_false_iff_ne]
  omega

theorem ssubOverflow_neg_ofNat (hi : i ≤ w.maxCapacity) :
    (-BitVec.ofNat w.size i).ssubOverflow 1 = false := by
  have hcast : (BitVec.ofNat w.size i).toInt = i := toInt_ofIndex hi
  have hneg : (-BitVec.ofNat w.size i).toInt = -i := by
    rw [BitVec.toInt_neg_of_not_negOverflow (Bool.eq_false_iff.mp (negOverflow_ofNat hi)), hcast]
  have hrange := w.two_mul_maxCapacity
  have hpos := w.maxCapacity_pos
  rw [BitVec.ssubOverflow, hneg, toInt_one, hrange, Bool.or_eq_false_iff, decide_eq_false_iff_not,
    decide_eq_false_iff_not]
  omega

theorem namedExactly (hi : i ≤ w.maxCapacity) : NamedExactly w i where
  chain_written := encodeIndex_eq hi
  chain_nonneg := by
    rw [isNegative_eq_false_iff, toInt_ofIndex hi]
    exact Int.natCast_nonneg i
  chain_read := decodeIndex_ofIndex hi
  free_written := encodeSuccessor_eq hi
  free_word := rfl
  cast_exact := toInt_ofIndex hi
  neg_exact := negOverflow_ofNat hi
  sub_exact := ssubOverflow_neg_ofNat hi
  free_negative := by
    rw [isNegative_iff, toInt_ofSuccessor hi]
    omega
  free_read := decodeSuccessor_ofSuccessor hi

/-! ## Negative links -/

theorem saddOverflow_one {l : Link w} (hl : l.toInt < 0) : l.word.saddOverflow 1 = false := by
  have hlow : -(2 : Int) ^ (w.size - 1) ≤ l.toInt := BitVec.le_toInt l.word
  have hrange := w.two_mul_maxCapacity
  have hword : l.word.toInt = l.toInt := rfl
  rw [BitVec.saddOverflow, toInt_one, Bool.or_eq_false_iff, decide_eq_false_iff_not,
    decide_eq_false_iff_not, hword]
  omega

/-- One more than a negative word is not the least one, so it can be negated. -/
theorem negOverflow_add_one {l : Link w} (hl : l.toInt < 0) :
    (l.word + 1).negOverflow = false := by
  have hlow : -(2 : Int) ^ (w.size - 1) ≤ l.toInt := BitVec.le_toInt l.word
  have hsum : (l.word + 1).toInt = l.toInt + 1 := by
    rw [BitVec.toInt_add_of_not_saddOverflow (Bool.eq_false_iff.mp (saddOverflow_one hl)),
      toInt_one]
    rfl
  rw [BitVec.negOverflow, hsum, beq_eq_false_iff_ne]
  omega

theorem ofSuccessor_toSuccessor (l : Link w) : ofSuccessor l.toSuccessor = l := by
  cases l with
  | mk word =>
    rw [ofSuccessor, toSuccessor, BitVec.ofNat_toNat, BitVec.setWidth_eq, BitVec.neg_neg,
      BitVec.add_sub_cancel]

theorem readExactly {l : Link w} (hl : l.isNegative = true) : l.ReadExactly := by
  have hneg : l.toInt < 0 := (isNegative_iff l).mp hl
  exact ⟨if_pos hl, rfl, saddOverflow_one hneg, negOverflow_add_one hneg, toSuccessor_of_neg hneg,
    ofSuccessor_toSuccessor l⟩

/-! ## The two ways of writing an index -/

theorem injOn_ofIndex (w : LinkWidth) :
    Set.InjOn (ofIndex : Nat → Link w) (Set.Iic w.maxCapacity) := by
  intro i hi j hj h
  have hint := congrArg toInt h
  rw [toInt_ofIndex hi, toInt_ofIndex hj] at hint
  omega

theorem injOn_ofSuccessor (w : LinkWidth) :
    Set.InjOn (ofSuccessor : Nat → Link w) (Set.Iic w.maxCapacity) := by
  intro i hi j hj h
  have hint := congrArg toInt h
  rw [toInt_ofSuccessor hi, toInt_ofSuccessor hj] at hint
  omega

theorem disjoint_images (w : LinkWidth) :
    Disjoint ((ofIndex : Nat → Link w) '' Set.Iic w.maxCapacity)
      (ofSuccessor '' Set.Iic w.maxCapacity) := by
  rw [Set.disjoint_left]
  rintro _ ⟨i, hi, rfl⟩ ⟨j, hj, h⟩
  have hint := congrArg toInt h
  rw [toInt_ofSuccessor hj, toInt_ofIndex hi] at hint
  omega

/-! ## The largest capacity -/

theorem isGreatest_maxCapacity (w : LinkWidth) :
    IsGreatest {c : Nat | (∃ e, c = 2 ^ e) ∧ Representable w c ∧ Representable w (-(c + 1))}
      w.maxCapacity := by
  refine ⟨⟨⟨w.size - 2, ?_⟩, ⟨_, toInt_ofIndex le_rfl⟩, ⟨_, toInt_ofSuccessor le_rfl⟩⟩, ?_⟩
  · rw [w.maxCapacity_eq, Nat.one_shiftLeft]
  · rintro _ ⟨⟨e, rfl⟩, ⟨l, hl⟩, -⟩
    -- a power of two that is less than half the number of words is at most a quarter of it
    have hlt : l.toInt < 2 ^ (w.size - 1) := BitVec.toInt_lt
    rw [hl] at hlt
    have he : e < w.size - 1 := (Nat.pow_lt_pow_iff_right Nat.one_lt_two).mp (by exact_mod_cast hlt)
    rw [w.maxCapacity_eq, Nat.one_shiftLeft]
    exact Nat.pow_le_pow_right (by decide) (by omega)

end Link

/-! ## The links of a table -/

variable {K V : Type}

/-- The links in a slot. -/
def Slot.storedLinks : Slot w K V → List (Link w)
  | free prev next => [prev, next]
  | used next _ _ => [next]

theorem Slot.LinksWithin.mem_storedLinks {c : Nat} {slot : Slot w K V} (h : slot.LinksWithin c)
    {l : Link w} (hl : l ∈ slot.storedLinks) : -(c + 1 : Int) ≤ l.toInt ∧ l.toInt ≤ c := by
  cases slot with
  | free prev next =>
    obtain ⟨⟨hprev, hprev'⟩, hnext, hnext'⟩ := h
    rcases List.mem_pair.mp hl with rfl | rfl <;> omega
  | used next k v =>
    obtain ⟨hnext, hnext'⟩ := h
    obtain rfl := List.mem_singleton.mp hl
    omega

/-- Up to the largest capacity of a width, every index is named exactly by its two links; every
negative link is read exactly. So no link is written for two indices, or in both ways. The links of
a table that passes an examination lie between `-(capacity + 1)` and `capacity`. The largest
capacity is the largest power of two `c` such that there are links for `c` and for `-(c + 1)`. -/
theorem links_exact (w : LinkWidth) :
    (∀ i ≤ w.maxCapacity, Link.NamedExactly w i) ∧
    (∀ l : Link w, l.isNegative = true → l.ReadExactly) ∧
    Disjoint ((Link.ofIndex : Nat → Link w) '' Set.Iic w.maxCapacity)
      (Link.ofSuccessor '' Set.Iic w.maxCapacity) ∧
    Set.InjOn (Link.ofIndex : Nat → Link w) (Set.Iic w.maxCapacity) ∧
    Set.InjOn (Link.ofSuccessor : Nat → Link w) (Set.Iic w.maxCapacity) ∧
    (∀ (K V : Type) [DecidableEq K] (t : Table w K V), t.check.outcome = .ok (.ok ()) →
      ∀ (i : Nat) (slot : Slot w K V), t.slots[i]? = some slot → ∀ l ∈ slot.storedLinks,
        -(t.capacity + 1 : Int) ≤ l.toInt ∧ l.toInt ≤ t.capacity) ∧
    IsGreatest {c : Nat | (∃ e, c = 2 ^ e) ∧ Link.Representable w c ∧
      Link.Representable w (-(c + 1))} w.maxCapacity := by
  refine ⟨fun i hi => Link.namedExactly hi, fun l hl => Link.readExactly hl,
    Link.disjoint_images w, Link.injOn_ofIndex w, Link.injOn_ofSuccessor w,
    fun K V _ t hcheck i slot hslot l hl => ?_, Link.isGreatest_maxCapacity w⟩
  have ht : t.Shapely := (Table.check_eq_ok_iff.mp hcheck).shapely
  exact (ht.links i slot hslot).mem_storedLinks hl

/-- The largest index and the least word of sixteen bits, and a table with one free slot. -/
theorem links_exact_extremes :
    Link.NamedExactly .bits16 16384 ∧
    (⟨BitVec.intMin 16⟩ : Link .bits16).ReadExactly ∧
    (⟨BitVec.intMin 16⟩ : Link .bits16).toSuccessor = 32767 ∧
    ∃ t : Table .bits16 Nat Nat, t.check.outcome = .ok (.ok ()) ∧
      ∀ (i : Nat) (slot : Slot .bits16 Nat Nat), t.slots[i]? = some slot →
        ∀ l ∈ slot.storedLinks, -2 ≤ l.toInt ∧ l.toInt ≤ 1 := by
  obtain ⟨hnamed, hread, -, -, -, htable, -⟩ := links_exact .bits16
  let t : Table .bits16 Nat Nat := ⟨.fixed, fun _ => 0, SlotArray.fresh 1, 0, 0⟩
  have hcheck : t.check.outcome = .ok (.ok ()) := by cbv
  exact ⟨hnamed 16384 (by decide), hread _ (by decide), by decide, t, hcheck,
    htable Nat Nat t hcheck⟩

end HomeChain

import HomeChain.Fault

/-!
# Slot links

Slots refer to each other by links: signed words of 16, 32 or 64 bits. A chain link is the
index of the next member of the chain, and `0` ends the chain. A free-list link is stored as
`-(successor + 1)`, so its sign tells the two kinds apart.

`ofIndex` and `ofSuccessor` compute in the word, modulo `2 ^ size`; `encodeIndex` and
`encodeSuccessor` refuse what would not come back, and `decodeIndex` and `decodeSuccessor`
refuse a link of the other kind.
-/

namespace HomeChain

/-- The width of the words that links are stored in. -/
inductive LinkWidth where
  | bits16
  | bits32
  | bits64
deriving DecidableEq, Repr

namespace LinkWidth

/-- The number of bits in a link. -/
def size : LinkWidth → Nat
  | bits16 => 16
  | bits32 => 32
  | bits64 => 64

/-- The name a link width goes by in messages. -/
def name : LinkWidth → String
  | bits16 => "i16"
  | bits32 => "i32"
  | bits64 => "i64"

/-- The largest capacity links of this width can serve: one bit is the sign, and one more
keeps `-(capacity + 1)` in range. -/
def maxCapacity : LinkWidth → Nat
  | bits16 => 1 <<< 14
  | bits32 => 1 <<< 30
  | bits64 => 1 <<< 62

/-- Half the number of words: those from here on are the negative ones. -/
def halfRange : LinkWidth → Nat
  | bits16 => 1 <<< 15
  | bits32 => 1 <<< 31
  | bits64 => 1 <<< 63

theorem maxCapacity_eq (w : LinkWidth) : w.maxCapacity = 1 <<< (w.size - 2) := by
  cases w <;> rfl

theorem two_mul_halfRange (w : LinkWidth) : 2 * w.halfRange = 1 <<< w.size := by
  cases w <;> rfl

theorem two_le_size (w : LinkWidth) : 2 ≤ w.size := by
  cases w <;> decide

theorem four_mul_maxCapacity (w : LinkWidth) : 4 * w.maxCapacity = 1 <<< w.size := by
  cases w <;> rfl

theorem maxCapacity_pos (w : LinkWidth) : 0 < w.maxCapacity := by
  cases w <;> decide

end LinkWidth

/-- A link of width `w`: a word in two's complement. -/
structure Link (w : LinkWidth) where
  /-- The bits of the link. -/
  word : BitVec w.size
deriving DecidableEq

namespace Link

variable {w : LinkWidth}

/-- The link that ends a chain; it is also the index of the free list's anchor. -/
def null : Link w := ⟨BitVec.zero w.size⟩

/-- The number a link stands for. -/
def toInt (l : Link w) : Int := l.word.toInt

/-- The sign bit, read off the unsigned value of the word. -/
def isNegative (l : Link w) : Bool := w.halfRange ≤ l.word.toNat

/-- The link that stands for `n`, if the width has one. -/
def ofInt? (n : Int) : Option (Link w) :=
  let l : Link w := ⟨BitVec.ofInt w.size n⟩
  if l.toInt = n then some l else none

/-! ## The words -/

/-- The chain link to slot `i`. -/
def ofIndex (i : Nat) : Link w := ⟨BitVec.ofNat w.size i⟩

/-- The index a chain link names. -/
def toIndex (l : Link w) : Nat := l.word.toNat

/-- The free-list link to slot `i`. -/
def ofSuccessor (i : Nat) : Link w := ⟨-BitVec.ofNat w.size i - 1⟩

/-- The index a free-list link names. -/
def toSuccessor (l : Link w) : Nat := (-(l.word + 1)).toNat

/-! ## The checked forms -/

/-- The chain link to slot `i`, where the width can name that slot. -/
def encodeIndex (i : Nat) : Except Fault (Link w) :=
  if i ≤ w.maxCapacity then .ok (ofIndex i) else .error .indexTooLarge

/-- The index that a link names as a chain link. -/
def decodeIndex (l : Link w) : Except Fault Nat :=
  if l.isNegative then .error .negativeLink else .ok l.toIndex

/-- The free-list link to slot `i`, where the width can name that slot. -/
def encodeSuccessor (i : Nat) : Except Fault (Link w) :=
  if i ≤ w.maxCapacity then .ok (ofSuccessor i) else .error .indexTooLarge

/-- The index that a link names as a free-list link. -/
def decodeSuccessor (l : Link w) : Except Fault Nat :=
  if l.isNegative then .ok l.toSuccessor else .error .nonNegativeLink

/-! ## What the words stand for -/

theorem ext_toInt {a b : Link w} (h : a.toInt = b.toInt) : a = b := by
  cases a
  cases b
  exact congrArg Link.mk (BitVec.eq_of_toInt_eq h)

theorem isNegative_iff (l : Link w) : l.isNegative = true ↔ l.toInt < 0 := by
  have hl : l.word.toNat < 2 ^ w.size := l.word.isLt
  have hr : 2 * w.halfRange = 2 ^ w.size := by rw [w.two_mul_halfRange, Nat.one_shiftLeft]
  rw [isNegative, decide_eq_true_iff, toInt, BitVec.toInt_eq_toNat_cond]
  split <;> omega

theorem toInt_ofIndex {i : Nat} (h : i ≤ w.maxCapacity) : (ofIndex i : Link w).toInt = i := by
  have hw : 4 * w.maxCapacity = 2 ^ w.size := by rw [w.four_mul_maxCapacity, Nat.one_shiftLeft]
  have hm := w.maxCapacity_pos
  show (BitVec.ofNat w.size i).toInt = i
  rw [BitVec.toInt_ofNat']
  exact Int.bmod_eq_of_le (by omega) (by omega)

theorem toInt_ofSuccessor {i : Nat} (h : i ≤ w.maxCapacity) :
    (ofSuccessor i : Link w).toInt = -(i + 1) := by
  have hi : (BitVec.ofNat w.size i).toInt = i := toInt_ofIndex h
  have h1 : (1 : BitVec w.size).toInt = 1 := by cases w <;> decide
  have hw : 4 * w.maxCapacity = 2 ^ w.size := by rw [w.four_mul_maxCapacity, Nat.one_shiftLeft]
  have hm := w.maxCapacity_pos
  show (-BitVec.ofNat w.size i - 1).toInt = -(i + 1)
  rw [BitVec.toInt_sub, BitVec.toInt_neg, hi, h1,
    Int.bmod_eq_of_le (n := -(i : Int)) (by omega) (by omega),
    Int.bmod_eq_of_le (by omega) (by omega)]
  omega

end Link

end HomeChain

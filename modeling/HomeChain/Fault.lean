/-!
# Faults

A fault is an operation's discovery that the slots it walks over cannot belong to a
well-formed table, or that it was asked to touch a slot or link it has no business with.
A fault ends the operation: no table comes out of it.

Faults are told apart from the errors of a healthy table (`TableError`) and from the
findings of an examination (`Inconsistency`).
-/

namespace HomeChain

/-- Why an operation had to stop. -/
inductive Fault where
  /-- A chain leads to a slot that holds no entry. -/
  | freeInChain
  /-- The key of a slot that holds no entry was asked for. -/
  | keyOfFree
  /-- The value of a slot that holds no entry was asked for. -/
  | valueOfFree
  /-- The free list leads to a slot that holds an entry. -/
  | usedOnFreeList
  /-- A free slot was needed and the free list is empty. -/
  | freeListExhausted
  /-- A link that names a chain member was expected, and it is negative. -/
  | negativeLink
  /-- A link that names a free slot was expected, and it is not negative. -/
  | nonNegativeLink
  /-- An index is beyond what links of this width can name. -/
  | indexTooLarge
  /-- There is no slot of that index. -/
  | noSuchSlot
  /-- Only a slot that holds an entry can be given back to the free list. -/
  | notReleasable
  /-- A displaced entry is not on the chain of its home address. -/
  | strayOccupant
  /-- A walk took more steps than there are slots. -/
  | endlessWalk
  /-- An array of slots was asked for whose capacity is not a power of two. -/
  | notPowerOfTwo
  /-- Links cannot even serve a table of one slot. -/
  | noRoomForOne
  /-- A rebuilt table would not have the shape or the population that was asked for. -/
  | badRebuild
  /-- The entry count left the range of 64-bit words. -/
  | countOutOfRange
deriving DecidableEq, Repr

namespace Fault

/-- The wording of a fault. -/
def message : Fault → String
  | freeInChain => "free slot inside a home chain"
  | keyOfFree => "reading the key of a free slot"
  | valueOfFree => "reading the value of a free slot"
  | usedOnFreeList => "used slot on the free list"
  | freeListExhausted => "acquiring a slot from an exhausted free list"
  | negativeLink => "negative link"
  | nonNegativeLink => "non-negative link"
  | indexTooLarge => "index out of range"
  | noSuchSlot => "slot out of range"
  | notReleasable => "slot not releasable"
  | strayOccupant => "displaced node is not on its home chain"
  | endlessWalk => "chain without an end"
  | notPowerOfTwo => "capacity is not a power of two"
  | noRoomForOne => "every link type can address one slot"
  | badRebuild => "rehash target smaller than the entry count"
  | countOutOfRange => "entry count out of range"

end Fault

end HomeChain

/-!
# Inconsistencies

The ways in which a table can be found out of order. Slots are named by their index; slot `0`
is the anchor of the free list.
-/

namespace HomeChain

/-- A direction on the free list. -/
inductive Direction where
  /-- Along the `next` links. -/
  | forward
  /-- Along the `prev` links. -/
  | backward
deriving DecidableEq, Repr

namespace Direction

/-- The name of a direction. -/
def name : Direction → String
  | forward => "forward"
  | backward => "backward"

/-- Of the predecessor and the successor of a slot, the one ahead. -/
def ahead : Direction → Nat × Nat → Nat
  | forward, (_, next) => next
  | backward, (prev, _) => prev

/-- Of the predecessor and the successor of a slot, the one behind. -/
def behind : Direction → Nat × Nat → Nat
  | forward, (prev, _) => prev
  | backward, (_, next) => next

end Direction

/-- What is wrong with a table. -/
inductive Inconsistency where
  /-- The capacity is not a power of two, or the array has not one slot more than that. -/
  | badCapacity (capacity slots : Nat)
  /-- The anchor holds an entry. -/
  | sentinelOccupied
  /-- A link has the wrong sign for its slot, or leads out of the array. -/
  | badLink (index : Nat)
  /-- The table counts more or fewer entries than there are. -/
  | countMismatch (len used : Nat)
  /-- Iteration gives more or fewer entries than there are. -/
  | iterationMismatch (visited len : Nat)
  /-- The free slots and the anchor do not form one circle. -/
  | brokenFreeList (direction : Direction) (index : Nat)
  /-- The chain of `head` leads to a free slot. -/
  | chainThroughFreeSlot (head index : Nat)
  /-- The chain of `head` leads to a slot that is on a chain already. -/
  | sharedSlot (head index : Nat)
  /-- The chain of `head` has a member with another home address. -/
  | foreignMember (head index home : Nat)
  /-- An entry is not on the chain of its home address. -/
  | unreachable (index home : Nat)
  /-- A key is stored twice. -/
  | duplicateKey (index : Nat)
deriving DecidableEq, Repr

namespace Inconsistency

/-- The wording of an inconsistency. -/
def message : Inconsistency → String
  | badCapacity capacity slots =>
    s!"capacity {capacity} does not match a slot array of {slots} slots"
  | sentinelOccupied => "the free-list sentinel is occupied"
  | badLink index => s!"slot #{index} has a malformed link"
  | countMismatch len used => s!"table reports {len} entries but {used} slots are used"
  | iterationMismatch visited len =>
    s!"iteration produced {visited} entries, expected {len}"
  | brokenFreeList direction index =>
    s!"free list broken at slot #{index} walking {direction.name}"
  | chainThroughFreeSlot head index => s!"chain at #{head} links to free slot #{index}"
  | sharedSlot head index =>
    s!"slot #{index} is shared by chains or loops back into its chain at #{head}"
  | foreignMember head index home =>
    s!"slot #{index} on the chain at #{head} has home address #{home}"
  | unreachable index home =>
    s!"slot #{index} is used but unreachable from its home address #{home}"
  | duplicateKey index => s!"slot #{index} holds a duplicate key"

end Inconsistency

end HomeChain

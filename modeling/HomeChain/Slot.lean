import HomeChain.Link

/-!
# Slots

A slot is free or holds an entry. The accessors ask for one of the two shapes and report a
fault on the other, so a walk that strays from its list is stopped where it strays.
-/

namespace HomeChain

/-- One slot. A free slot stands in a doubly linked list: `prev` is a plain index and `next`
is stored negated. A used slot holds an entry and the link to the next member of its chain. -/
inductive Slot (w : LinkWidth) (K V : Type) where
  | free (prev next : Link w)
  | used (next : Link w) (key : K) (value : V)
deriving DecidableEq

namespace Slot

variable {w : LinkWidth} {K V : Type}

/-- The slot holds an entry. -/
def isUsed : Slot w K V → Bool
  | free .. => false
  | used .. => true

/-- The `next` link of either shape. -/
def rawNext : Slot w K V → Link w
  | free _ next => next
  | used next _ _ => next

/-- The entry in a slot, if there is one. -/
def entry? : Slot w K V → Option (K × V)
  | free .. => none
  | used _ key value => some (key, value)

/-! ## Used slots -/

/-- The link to the next member of the chain. -/
def chainNext : Slot w K V → Except Fault (Link w)
  | free .. => .error .freeInChain
  | used next _ _ => .ok next

/-- The slot with another link to the next member of the chain. -/
def setChainNext (link : Link w) : Slot w K V → Except Fault (Slot w K V)
  | free .. => .error .freeInChain
  | used _ key value => .ok (used link key value)

/-- The key of the entry. -/
def key : Slot w K V → Except Fault K
  | free .. => .error .keyOfFree
  | used _ key _ => .ok key

/-- The value of the entry. -/
def value : Slot w K V → Except Fault V
  | free .. => .error .valueOfFree
  | used _ _ value => .ok value

/-- The slot with its value replaced by `f` of it. -/
def updateValue (f : V → V) : Slot w K V → Except Fault (Slot w K V)
  | free .. => .error .valueOfFree
  | used next key value => .ok (used next key (f value))

/-! ## Free slots -/

/-- The two links of a slot on the free list. -/
def freeLinks : Slot w K V → Except Fault (Link w × Link w)
  | free prev next => .ok (prev, next)
  | used .. => .error .usedOnFreeList

/-- The slot with another link to its predecessor on the free list. -/
def setPrev (link : Link w) : Slot w K V → Except Fault (Slot w K V)
  | free _ next => .ok (free link next)
  | used .. => .error .usedOnFreeList

/-- The slot with another link to its successor on the free list. -/
def setFreeNext (link : Link w) : Slot w K V → Except Fault (Slot w K V)
  | free prev _ => .ok (free prev link)
  | used .. => .error .usedOnFreeList

end Slot

end HomeChain

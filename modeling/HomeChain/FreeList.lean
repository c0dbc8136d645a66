import HomeChain.SlotArray

/-!
# The free list

The free slots and the anchor form one circle, linked both ways. Slots are taken from behind
the anchor and given back there; a slot can also be taken from anywhere in the circle. No
operation here allocates.

A slot that was taken keeps its free shape until the caller overwrites it.
-/

namespace HomeChain.SlotArray

variable {w : LinkWidth} {K V : Type}

/-- The array with another predecessor link in the free slot `i`. -/
def setPrev (s : SlotArray w K V) (i : Nat) (link : Link w) : Except Fault (SlotArray w K V) :=
  s.update i (Slot.setPrev link)

/-- The array with another successor link in the free slot `i`. -/
def setFreeNext (s : SlotArray w K V) (i : Nat) (link : Link w) :
    Except Fault (SlotArray w K V) :=
  s.update i (Slot.setFreeNext link)

/-- The first slot on the free list; `0` if the list is empty. -/
def firstFree (s : SlotArray w K V) : Except Fault Nat := do
  (← s.read 0).rawNext.decodeSuccessor

/-- Takes the first slot off the free list. -/
def acquire (s : SlotArray w K V) : Except Fault (Nat × SlotArray w K V) := do
  let first ← s.firstFree
  if first = 0 then .error .freeListExhausted
  else
    let (_, next) ← (← s.read first).freeLinks
    let second ← next.decodeSuccessor
    let s ← s.setPrev second .null
    let s ← s.setFreeNext 0 next
    return (first, s)

/-- Takes the free slot `i` off the free list, wherever it stands. -/
def unlink (s : SlotArray w K V) (i : Nat) : Except Fault (SlotArray w K V) := do
  let (prev, next) ← (← s.read i).freeLinks
  let s ← s.setFreeNext (← prev.decodeIndex) next
  s.setPrev (← next.decodeSuccessor) prev

/-- Empties the used slot `i` and puts it in front of the free list. -/
def release (s : SlotArray w K V) (i : Nat) : Except Fault (SlotArray w K V) :=
  if i = 0 || !s.isUsed i then .error .notReleasable
  else do
    let first ← s.firstFree
    let s ← s.setPrev first (← Link.encodeIndex i)
    let s ← s.write i (.free .null (← Link.encodeSuccessor first))
    s.setFreeNext 0 (← Link.encodeSuccessor i)

/-- The array with every slot empty, as if freshly allocated. -/
def reset (s : SlotArray w K V) : Except Fault (SlotArray w K V) :=
  if s.size = 0 then .error .noSuchSlot
  else if w.maxCapacity < s.capacity then .error .indexTooLarge
  else .ok (fresh s.capacity)

end HomeChain.SlotArray

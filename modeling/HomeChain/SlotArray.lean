import HomeChain.Slot
import HomeChain.TableError

/-!
# The slot array

The slots of a table of capacity `n` stand in one array of `n + 1`: slot `0` is the anchor of
the free list and never holds an entry, slots `1, …, n` hold the entries. `fresh n` is the
array in which every slot is on the free list, in order of index.
-/

namespace HomeChain

/-- The slots of a table, anchor included. -/
abbrev SlotArray (w : LinkWidth) (K V : Type) := Array (Slot w K V)

namespace SlotArray

variable {w : LinkWidth} {K V : Type}

/-- The number of slots for entries. -/
def capacity (s : SlotArray w K V) : Nat := s.size - 1

/-- Slot `i` of a fresh array: its neighbours on the free list are its neighbours in the
array, and the anchor joins the two ends. -/
def initialSlot (capacity i : Nat) : Slot w K V :=
  .free (.ofIndex (if i = 0 then capacity else i - 1))
    (.ofSuccessor (if i = capacity then 0 else i + 1))

/-- An array of `capacity` free slots and the anchor. -/
def fresh (capacity : Nat) : SlotArray w K V :=
  Array.ofFn (n := capacity + 1) fun i => initialSlot capacity i.val

/-- An array of `capacity` free slots, where links of this width can serve that many. That the
capacity is a power of two is for the table to see to (`Table.allocate`). -/
def allocate (capacity : Nat) : Except TableError (SlotArray w K V) :=
  if capacity ≤ w.maxCapacity then .ok (fresh capacity)
  else .error (.capacityTooLarge capacity w)

/-! ## Reading and writing slots -/

/-- Slot `i`. -/
def read (s : SlotArray w K V) (i : Nat) : Except Fault (Slot w K V) :=
  match s[i]? with
  | some slot => .ok slot
  | none => .error .noSuchSlot

/-- The array with `slot` in place of slot `i`. -/
def write (s : SlotArray w K V) (i : Nat) (slot : Slot w K V) : Except Fault (SlotArray w K V) :=
  if h : i < s.size then .ok (s.set i slot h) else .error .noSuchSlot

/-- The array with slot `i` replaced by `f` of it. -/
def update (s : SlotArray w K V) (i : Nat) (f : Slot w K V → Except Fault (Slot w K V)) :
    Except Fault (SlotArray w K V) :=
  if h : i < s.size then
    match f s[i] with
    | .ok slot => .ok (s.set i slot h)
    | .error fault => .error fault
  else .error .noSuchSlot

/-- Slot `i` exists and holds an entry. -/
def isUsed (s : SlotArray w K V) (i : Nat) : Bool :=
  match s[i]? with
  | some slot => slot.isUsed
  | none => false

/-- The number of slots that hold an entry, the anchor left out. -/
def usedCount (s : SlotArray w K V) : Nat :=
  (s.toList.drop 1).countP Slot.isUsed

/-- The number of slots without an entry, the anchor left out. -/
def freeCount (s : SlotArray w K V) : Nat :=
  s.capacity - s.usedCount

/-- The key in slot `i`. -/
def key (s : SlotArray w K V) (i : Nat) : Except Fault K := do
  (← s.read i).key

/-- The value in slot `i`. -/
def value (s : SlotArray w K V) (i : Nat) : Except Fault V := do
  (← s.read i).value

/-- The array with the value in slot `i` replaced by `f` of it. -/
def updateValue (s : SlotArray w K V) (i : Nat) (f : V → V) : Except Fault (SlotArray w K V) :=
  s.update i (Slot.updateValue f)

/-- The chain link of slot `i`. -/
def chainNext (s : SlotArray w K V) (i : Nat) : Except Fault (Link w) := do
  (← s.read i).chainNext

/-- The array with another chain link in slot `i`. -/
def setChainNext (s : SlotArray w K V) (i : Nat) (link : Link w) :
    Except Fault (SlotArray w K V) :=
  s.update i (Slot.setChainNext link)

end SlotArray

end HomeChain

import HomeChain.FreeList
import HomeChain.Table.Lookup

/-!
# Insertion

One attempt to store a key. The home slot of the key decides which of three things happens:

* it is free: the entry goes there, and is a chain of its own;
* its occupant has the same home address: the chain is searched, and the entry found is
  updated, or a free slot is appended to the chain;
* its occupant belongs to another chain: the occupant moves to a free slot, where its own
  chain is made to find it, and the key starts its chain at home.

The last two need a free slot, and without one the attempt leaves the table alone.
-/

namespace HomeChain

/-- What an attempt to store a key came to. -/
inductive Insertion (w : LinkWidth) (K V : Type) where
  /-- The key is in slot `slot`. -/
  | stored (slot : Nat) (t : Table w K V)
  /-- The key is new and there is no free slot for it. -/
  | full (t : Table w K V)

namespace SlotArray

variable {w : LinkWidth} {K V : Type}

/-- The slot whose chain link leads to slot `target`, found by following a chain from slot `i`
for at most `steps` links. -/
def predecessor (s : SlotArray w K V) (target : Nat) :
    (steps : Nat) → (i : Nat) → Except Fault Nat
  | 0, _ => .error .endlessWalk
  | steps + 1, i => do
    let next ← s.chainNext i
    if next = .null then .error .strayOccupant
    else
      let j ← next.decodeIndex
      if j = target then .ok i else s.predecessor target steps j

end SlotArray

namespace Table

variable {w : LinkWidth} {K V : Type}

/-- Takes the first free slot. -/
def acquire (t : Table w K V) : Traced (Nat × Table w K V) :=
  match t with
  | ⟨policy, hash, slots, len, mask⟩ =>
    match slots.acquire with
    | .ok (i, slots) => do
      Traced.emit (.acquired i)
      return (i, ⟨policy, hash, slots, len, mask⟩)
    | .error fault => Traced.fail fault

/-- Puts a new entry into slot `i`, as the last of its chain. -/
def occupy (t : Table w K V) (i : Nat) (key : K) (value : V) : Except Fault (Table w K V) :=
  match t with
  | ⟨policy, hash, slots, len, mask⟩ =>
    if wordLimit ≤ len + 1 then .error .countOutOfRange
    else
      match slots.write i (.used .null key value) with
      | .ok slots => .ok ⟨policy, hash, slots, len + 1, mask⟩
      | .error fault => .error fault

/-- Stores a key in its free home slot. -/
def populate (t : Table w K V) (home : Nat) (key : K) (value : V) :
    Traced (Insertion w K V) := do
  Traced.emit (.populating home)
  let t ← t.withSlots fun s => s.unlink home
  return .stored home (← t.occupy home key value)

/-- Stores a key in the chain that starts in slot `head`. -/
def insertIntoChain [DecidableEq K] (t : Table w K V) (head : Nat) (key : K) (value : V) :
    Traced (Insertion w K V) := do
  let trail ← t.slots.search key .keyOfFree t.slots.size [] head
  if trail.found then
    Traced.emit (.updating trail.last)
    let t ← t.withSlots fun s => s.updateValue trail.last fun _ => value
    return .stored trail.last t
  else if t.len = t.capacity then
    return .full t
  else
    let (i, t) ← t.acquire
    Traced.emit (.appending i head)
    let t ← t.withSlots fun s => do s.setChainNext trail.last (← Link.encodeIndex i)
    return .stored i (← t.occupy i key value)

/-- Moves the occupant of slot `home`, a member of the chain that starts in slot `head`, to a
free slot, and stores the key at home. -/
def displaceAndInsert (t : Table w K V) (home head : Nat) (key : K) (value : V) :
    Traced (Insertion w K V) := do
  if t.len = t.capacity then
    return .full t
  else
    let (spare, t) ← t.acquire
    Traced.emit (.displacing home spare head)
    let t ← t.withSlots fun s => do
      let s ← s.write spare (← s.read home)
      let pred ← s.predecessor home s.size head
      s.setChainNext pred (← Link.encodeIndex spare)
    return .stored home (← t.occupy home key value)

/-- One attempt to store a key. -/
def insert [DecidableEq K] (t : Table w K V) (key : K) (value : V) :
    Traced (Insertion w K V) := do
  let home := t.home key
  match ← t.slots.read home with
  | .free .. => t.populate home key value
  | .used _ occupant _ =>
    let head := t.home occupant
    if head = home then t.insertIntoChain home key value
    else t.displaceAndInsert home head key value

end Table

end HomeChain

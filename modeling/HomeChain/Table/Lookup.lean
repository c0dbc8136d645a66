import HomeChain.Table.Basic

/-!
# Lookup

A search starts in the home slot of the key and follows the chain it finds there, until it
meets the key or the chain ends. It is one search for all purposes: what it leaves behind is
the trail of slots it read, from which a lookup takes the last, an insertion the end of the
chain, and a removal the predecessor.

A chain has at most as many members as there are slots, so a search that reads more of them
goes round in a circle; it ends with a fault.
-/

namespace HomeChain

/-- The slots that a search read. -/
structure Trail where
  /-- The slot where the search ended. -/
  last : Nat
  /-- The slots read before, the nearest one first. -/
  before : List Nat
  /-- The last slot holds the key that was searched for. -/
  found : Bool
deriving DecidableEq, Repr

/-- The slots that a search read, in the order of reading. -/
def Trail.visited (t : Trail) : List Nat := (t.last :: t.before).reverse

namespace SlotArray

variable {w : LinkWidth} {K V : Type} [DecidableEq K]

/-- Follows a chain from slot `i` in search of a key, reading at most `steps` more slots.
`dangling` is the fault reported where the chain leads to a free slot. -/
def search (s : SlotArray w K V) (key : K) (dangling : Fault) :
    (steps : Nat) → (before : List Nat) → (i : Nat) → Except Fault Trail
  | 0, _, _ => .error .endlessWalk
  | steps + 1, before, i =>
    match s[i]? with
    | none => .error .noSuchSlot
    | some (.free ..) => .error dangling
    | some (.used next k _) =>
      if k = key then .ok ⟨i, before, true⟩
      else if next = .null then .ok ⟨i, before, false⟩
      else
        match next.decodeIndex with
        | .ok j => s.search key dangling steps (i :: before) j
        | .error fault => .error fault

end SlotArray

namespace Table

variable {w : LinkWidth} {K V : Type} [DecidableEq K]

/-- The trail of the search for a key; none if the home slot is free. -/
def trail (t : Table w K V) (key : K) (dangling : Fault) : Except Fault (Option Trail) := do
  if (← t.slots.read (t.home key)).isUsed then
    return some (← t.slots.search key dangling t.slots.size [] (t.home key))
  else
    return none

/-- The slots whose keys a lookup reads, in order. -/
def probes (t : Table w K V) (key : K) : Except Fault (List Nat) := do
  match ← t.trail key .keyOfFree with
  | some trail => return trail.visited
  | none => return []

/-- The slot that holds a key. -/
def find (t : Table w K V) (key : K) : Except Fault (Option Nat) := do
  match ← t.trail key .keyOfFree with
  | some trail => return if trail.found then some trail.last else none
  | none => return none

/-- The value stored for a key. -/
def get (t : Table w K V) (key : K) : Except Fault (Option V) := do
  match ← t.find key with
  | some i => return some (← t.slots.value i)
  | none => return none

/-- The key is stored. -/
def contains (t : Table w K V) (key : K) : Except Fault Bool := do
  return (← t.find key).isSome

/-- The table with the value of a stored key replaced by `f` of it, and the value it had. -/
def modify (t : Table w K V) (key : K) (f : V → V) : Except Fault (Table w K V × Option V) := do
  match ← t.find key with
  | some i =>
    let old ← t.slots.value i
    let t ← t.withSlots fun s => s.updateValue i f
    return (t, some old)
  | none => return (t, none)

end Table

namespace Table

variable {w : LinkWidth} {K V : Type}

/-! ## By slot

Storing a key answers with its slot, through which the value can be read and replaced until
the table changes. -/

/-- The value in slot `i`. -/
def valueAt (t : Table w K V) (i : Nat) : Except Fault V := t.slots.value i

/-- The table with the value in slot `i` replaced by `f` of it. -/
def updateAt (t : Table w K V) (i : Nat) (f : V → V) : Except Fault (Table w K V) :=
  t.withSlots fun s => s.updateValue i f

end Table

end HomeChain

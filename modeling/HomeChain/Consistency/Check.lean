import HomeChain.Consistency.Inconsistency
import HomeChain.Table.Iteration

/-!
# Examining a table

`Table.check` establishes from the slots alone that a table is in order, or names the first
thing that is not. It takes any table, however damaged, and goes by these steps, each of which
relies on the ones before:

* the capacity is a power of two and the array has its size;
* the anchor is free, and every link has the sign of its slot and stays in the array;
* the table counts its entries right;
* the free slots and the anchor form one circle, in both directions;
* from every head, the chain has members of that home address only and meets no slot twice;
* every entry is on a chain, and no key is stored twice.
-/

namespace HomeChain

/-- Why an examination ended before its last step. -/
inductive Halt where
  /-- It could not go on. -/
  | fault (f : Fault)
  /-- It found something wrong. -/
  | defect (d : Inconsistency)
deriving DecidableEq, Repr

namespace SlotArray

variable {w : LinkWidth} {K V : Type}

/-- Checks the links of some slots, the first of which has index `i`, and counts the used ones
on top of `used`. -/
def scan (capacity : Nat) : (i used : Nat) → List (Slot w K V) → Except Halt Nat
  | _, used, [] => .ok used
  | i, used, .free prev next :: rest =>
    if !next.isNegative || prev.isNegative || capacity < prev.toIndex
        || capacity < next.toSuccessor then
      .error (.defect (.badLink i))
    else scan capacity (i + 1) used rest
  | i, used, .used next _ _ :: rest =>
    if i = 0 then .error (.defect .sentinelOccupied)
    else if next.isNegative || capacity < next.toIndex then .error (.defect (.badLink i))
    else scan capacity (i + 1) (used + 1) rest

/-- The predecessor and the successor of slot `i` on the free list; none if it is used. -/
def neighbours (s : SlotArray w K V) (i : Nat) : Except Halt (Option (Nat × Nat)) :=
  match s[i]? with
  | none => .error (.fault .noSuchSlot)
  | some (.used ..) => .ok none
  | some (.free prev next) =>
    match prev.decodeIndex, next.decodeSuccessor with
    | .ok p, .ok n => .ok (some (p, n))
    | .error f, _ => .error (.fault f)
    | _, .error f => .error (.fault f)

/-- Walks from slot `i` over `steps` free slots not seen before, each of which must link back
to where the walk comes from, and then to the anchor. -/
def walkFreeList (s : SlotArray w K V) (d : Direction) :
    (steps : Nat) → (i : Nat) → (seen : Array Bool) → Except Halt Unit
  | 0, i, _ => do
    if (← s.neighbours i).map d.ahead = some 0 then .ok ()
    else .error (.defect (.brokenFreeList d i))
  | steps + 1, i, seen => do
    match ← s.neighbours i with
    | none => .error (.defect (.brokenFreeList d i))
    | some links =>
      let j := d.ahead links
      if j = 0 || s.isUsed j || seen.getD j false then
        .error (.defect (.brokenFreeList d j))
      else if (← s.neighbours j).map d.behind ≠ some i then
        .error (.defect (.brokenFreeList d j))
      else s.walkFreeList d steps j (seen.setIfInBounds j true)

/-- The free list visits `free` slots, each once, and returns to the anchor. -/
def checkFreeList (s : SlotArray w K V) (free : Nat) (d : Direction) : Except Halt Unit :=
  s.walkFreeList d free 0 (Array.replicate s.size false)

end SlotArray

namespace Table

variable {w : LinkWidth} {K V : Type}

/-- Checks the size of the array, the links and the count. Answers with the number of used
slots. -/
def checkShape (t : Table w K V) : Except Halt Nat :=
  if !isPowerOfTwo t.capacity || t.slots.size ≠ t.capacity + 1 then
    .error (.defect (.badCapacity t.capacity t.slots.size))
  else do
    let used ← SlotArray.scan t.capacity 0 0 t.slots.toList
    if used ≠ t.len then .error (.defect (.countMismatch t.len used))
    else if t.entries.length ≠ t.len then
      .error (.defect (.iterationMismatch t.entries.length t.len))
    else .ok used

/-- Follows the chain of `head` from slot `i`, for at most `steps` slots, and claims them. -/
def claimChain (t : Table w K V) (head : Nat) :
    (steps : Nat) → (i : Nat) → (claimed : Array Bool) → Except Halt (Array Bool)
  | 0, _, _ => .error (.fault .endlessWalk)
  | steps + 1, i, claimed =>
    match t.slots[i]? with
    | none => .error (.fault .noSuchSlot)
    | some (.free ..) => .error (.defect (.chainThroughFreeSlot head i))
    | some (.used next key _) =>
      if claimed.getD i false then .error (.defect (.sharedSlot head i))
      else if t.home key ≠ head then .error (.defect (.foreignMember head i (t.home key)))
      else if next = .null then .ok (claimed.setIfInBounds i true)
      else
        match next.decodeIndex with
        | .ok j => t.claimChain head steps j (claimed.setIfInBounds i true)
        | .error f => .error (.fault f)

/-- Follows the chains whose heads are among some slots. Answers with the number of chains, on
top of `chains`, and with the slots claimed. -/
def claimChains (t : Table w K V) :
    List Nat → (chains : Nat) → (claimed : Array Bool) → Except Halt (Nat × Array Bool)
  | [], chains, claimed => .ok (chains, claimed)
  | head :: rest, chains, claimed =>
    match t.slots[head]? with
    | none => .error (.fault .noSuchSlot)
    | some (.free ..) => t.claimChains rest chains claimed
    | some (.used _ key _) =>
      if t.home key = head then
        match t.claimChain head (t.slots.size + 1) head claimed with
        | .ok claimed => t.claimChains rest (chains + 1) claimed
        | .error halt => .error halt
      else t.claimChains rest chains claimed

/-- Checks that the entries in some slots are on chains and have new keys. `seen` holds the
keys met so far, by home address. -/
def checkKeys [DecidableEq K] (t : Table w K V) (claimed : Array Bool) :
    List Nat → (seen : Array (List K)) → Except Halt Unit
  | [], _ => .ok ()
  | i :: rest, seen =>
    match t.slots[i]? with
    | none => .error (.fault .noSuchSlot)
    | some (.free ..) => t.checkKeys claimed rest seen
    | some (.used _ key _) =>
      let home := t.home key
      if !claimed.getD i false then .error (.defect (.unreachable i home))
      else if key ∈ seen.getD home [] then .error (.defect (.duplicateKey i))
      else t.checkKeys claimed rest (seen.setIfInBounds home (key :: seen.getD home []))

/-- How an examination that halted is reported. -/
def reportHalt : Halt → Traced (Except Inconsistency Unit)
  | .fault f => Traced.fail f
  | .defect d => return .error d

/-- The slots for entries, by index. -/
def indices (t : Table w K V) : List Nat := List.range' 1 t.capacity

/-- The first inconsistency of a table, or the verdict that it is in order. -/
def check [DecidableEq K] (t : Table w K V) : Traced (Except Inconsistency Unit) :=
  match t.checkShape with
  | .error halt => reportHalt halt
  | .ok used => do
    let free := t.capacity - used
    Traced.emit (.examiningFreeList free)
    let bothWays := do
      t.slots.checkFreeList free .forward
      t.slots.checkFreeList free .backward
    match bothWays with
    | .error halt => reportHalt halt
    | .ok () =>
      match t.claimChains t.indices 0 (Array.replicate (t.capacity + 1) false) with
      | .error halt => reportHalt halt
      | .ok (chains, claimed) => do
        Traced.emit (.examinedChains chains t.len)
        match t.checkKeys claimed t.indices (Array.replicate (t.capacity + 1) []) with
        | .error halt => reportHalt halt
        | .ok () => return .ok ()

end Table

end HomeChain

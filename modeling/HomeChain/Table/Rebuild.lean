import HomeChain.Table.Insert

/-!
# Storing, growing and rebuilding

A capacity changes by starting over: a fresh array takes the entries of the old one in the
order of their slots. `put` does so, at twice the capacity, when a growable table has no slot
for a new key; `rehash` does so at the least capacity with room for a wanted number of
entries.

An operation that declines its request returns the table it was given.
-/

namespace HomeChain.Table

variable {w : LinkWidth} {K V : Type} [DecidableEq K]

/-- Inserts the entries of some slots, in order, into a table with room for them. -/
def reinsert (t : Table w K V) (old : List (Slot w K V)) : Traced (Table w K V) :=
  old.foldl (fun result slot =>
    match slot with
    | .free .. => result
    | .used _ key value => do
      match ← (← result).insert key value with
      | .stored _ t => return t
      | .full _ => Traced.fail .badRebuild) (return t)

/-- Moves all entries to an array of another capacity. -/
def rebuild (t : Table w K V) (capacity : Nat) : Traced (Table w K V × Option TableError) :=
  if !isPowerOfTwo capacity || capacity < t.len || capacity = t.capacity then
    Traced.fail .badRebuild
  else do
    match ← allocate capacity with
    | .error e => return (t, some e)
    | .ok slots =>
      Traced.emit (.rebuilding t.capacity capacity t.len)
      let rebuilt ← reinsert ⟨t.policy, t.hash, slots, 0, capacity - 1⟩ (t.slots.toList.drop 1)
      if rebuilt.len = t.len then return (rebuilt, none) else Traced.fail .badRebuild

/-- Makes room in a full table, if it may grow. -/
def grow (t : Table w K V) : Traced (Table w K V × Option TableError) :=
  match t.policy with
  | .fixed => return (t, some (.capacityExhausted t.capacity))
  | .growable =>
    if wordLimit ≤ 2 * t.capacity then
      return (t, some (.capacityTooLarge (wordLimit - 1) w))
    else t.rebuild (2 * t.capacity)

/-- Stores a key in at most `attempts` attempts, growing the table between them. -/
def putWithin (key : K) (value : V) :
    (attempts : Nat) → (t : Table w K V) → Traced (Table w K V × Except TableError Nat)
  | 0, _ => Traced.fail .endlessWalk
  | attempts + 1, t => do
    match ← t.insert key value with
    | .stored i t => return (t, .ok i)
    | .full t =>
      match ← t.grow with
      | (t, some e) => return (t, .error e)
      | (t, none) => putWithin key value attempts t

/-- Stores a key with a value, or replaces the value if the key is stored already. Answers
with the slot of the key. A capacity can double less often than a link has bits. -/
def put (t : Table w K V) (key : K) (value : V) : Traced (Table w K V × Except TableError Nat) :=
  putWithin key value w.size t

/-- Rebuilds a growable table with the least capacity that has room for `count` entries.
Answers with the capacity. -/
def rehash (t : Table w K V) (count : Nat) : Traced (Table w K V × Except TableError Nat) :=
  match t.policy with
  | .fixed => return (t, .error .notGrowable)
  | .growable =>
    if count < t.len then return (t, .error (.belowPopulation count t.len))
    else
      match roundCapacity w count with
      | .error e => return (t, .error e)
      | .ok capacity =>
        if capacity = t.capacity then return (t, .ok capacity)
        else do
          match ← t.rebuild capacity with
          | (t, some e) => return (t, .error e)
          | (t, none) => return (t, .ok t.capacity)

end HomeChain.Table

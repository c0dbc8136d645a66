import HomeChain.Table.Rebuild
import HomeChain.Table.Remove

/-!
# Many keys at once

The keys, or entries, of a bulk operation are the first terms of a sequence. The sequence is a
function of the position and is never laid out, so its length costs nothing by itself: storing
stops at the first entry that the table declines, whatever number was to come after it.
Removing and looking up go through all keys.
-/

namespace HomeChain.Table

variable {w : LinkWidth} {K V : Type} [DecidableEq K]

/-- How far the storing of several entries came. -/
structure Progress (w : LinkWidth) (K V : Type) where
  /-- The table after the entries that were stored. -/
  table : Table w K V
  /-- The number of entries stored. -/
  done : Nat
  /-- The key that was declined, and why. -/
  failed : Option (K × TableError)

/-- Stores the next entry of a sequence; it is the last if the table declines it. -/
def putNext (entry : Nat → K × V) : Progress w K V → Traced (ForInStep (Progress w K V))
  | ⟨t, done, _⟩ => do
    let (key, value) := entry done
    match ← t.put key value with
    | (t, .ok _) => return .yield ⟨t, done + 1, none⟩
    | (t, .error e) => return .done ⟨t, done, some (key, e)⟩

/-- Stores the first `count` entries of a sequence, up to the first that is declined. -/
def putAll (t : Table w K V) (count : Nat) (entry : Nat → K × V) : Traced (Progress w K V) :=
  Traced.repeatUpTo count (putNext entry) ⟨t, 0, none⟩

/-- Removes the key at position `i` of a sequence, and counts it in `removed` if it was
stored. -/
def removeNext (key : Nat → K) :
    Table w K V × Nat × Nat → Traced (ForInStep (Table w K V × Nat × Nat))
  | (t, i, removed) => do
    let (t, stored) ← t.remove (key i)
    return .yield (t, i + 1, removed + stored.toNat)

/-- Removes the first `count` keys of a sequence. Answers with the number of keys that were
stored. -/
def removeAll (t : Table w K V) (count : Nat) (key : Nat → K) : Traced (Table w K V × Nat) := do
  let (t, _, removed) ← Traced.repeatUpTo count (removeNext key) (t, 0, 0)
  return (t, removed)

/-- The values stored for the first `count` keys of a sequence, the keys that are not stored
left out. -/
def getAll (t : Table w K V) (count : Nat) (key : Nat → K) : Except Fault (Array V) :=
  count.foldM (fun i _ found => do
    match ← t.get (key i) with
    | some value => return found.push value
    | none => return found) #[]

end HomeChain.Table

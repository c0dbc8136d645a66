import HomeChain.FreeList
import HomeChain.Table.Lookup

/-!
# Removal

A removed entry that has a successor on its chain is replaced by it, so that the head of a
chain never leaves its home slot; otherwise its predecessor becomes the end of the chain. The
slot that falls vacant goes to the front of the free list.
-/

namespace HomeChain.Table

variable {w : LinkWidth} {K V : Type}

/-- Gives slot `i` back to the free list and counts one entry less. -/
def vacate (t : Table w K V) (i : Nat) : Except Fault (Table w K V) :=
  match t with
  | ⟨policy, hash, slots, len, mask⟩ =>
    match slots.release i with
    | .ok slots =>
      match len with
      | 0 => .error .countOutOfRange
      | len + 1 => .ok ⟨policy, hash, slots, len, mask⟩
    | .error fault => .error fault

/-- Removes the entry at the end of a trail from its chain. -/
def cut (t : Table w K V) (trail : Trail) : Traced (Table w K V) := do
  let next ← t.slots.chainNext trail.last
  if next = .null then
    match trail.before with
    | [] => t.vacate trail.last
    | pred :: _ =>
      let t ← t.withSlots fun s => s.setChainNext pred .null
      t.vacate trail.last
  else
    let successor ← next.decodeIndex
    Traced.emit (.pulling successor trail.last)
    let t ← t.withSlots fun s => do s.write trail.last (← s.read successor)
    t.vacate successor

/-- Removes a key. Answers with the value it had. -/
def removeAndGet [DecidableEq K] (t : Table w K V) (key : K) :
    Traced (Table w K V × Option V) := do
  match ← t.trail key .freeInChain with
  | none => return (t, none)
  | some trail =>
    if trail.found then
      let value ← t.slots.value trail.last
      return (← t.cut trail, some value)
    else
      return (t, none)

/-- Removes a key. Answers whether it was stored. -/
def remove [DecidableEq K] (t : Table w K V) (key : K) : Traced (Table w K V × Bool) := do
  let (t, value) ← t.removeAndGet key
  return (t, value.isSome)

/-- Removes all entries and keeps the capacity. -/
def clear (t : Table w K V) : Except Fault (Table w K V) :=
  match t with
  | ⟨policy, hash, slots, _, mask⟩ =>
    match slots.reset with
    | .ok slots => .ok ⟨policy, hash, slots, 0, mask⟩
    | .error fault => .error fault

end HomeChain.Table

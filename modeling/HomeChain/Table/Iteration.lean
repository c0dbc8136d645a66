import HomeChain.Table.Basic

/-!
# Iteration

The entries of a table come in the order of their slots. `entries` lists them. A `Cursor`
walks over them one at a time, counting down from the number of entries the table reports, so
it can say how many are left; it stops when the countdown or the array ends, whichever is
first. On a table in order the two end together.
-/

namespace HomeChain

/-- A place in the array of slots, and how many entries are left from there on. -/
structure Cursor where
  /-- The next slot to look at. -/
  position : Nat
  /-- The number of entries left, by the table's count. -/
  remaining : Nat
deriving DecidableEq, Repr

namespace SlotArray

variable {w : LinkWidth} {K V : Type}

/-- The first used slot among the `steps` slots from `i` on. -/
def nextUsed (s : SlotArray w K V) : (steps : Nat) → (i : Nat) → Option Nat
  | 0, _ => none
  | steps + 1, i => if s.isUsed i then some i else s.nextUsed steps (i + 1)

/-- The entry in slot `i`, if there is one. -/
def entryAt (s : SlotArray w K V) (i : Nat) : Option (K × V) := s[i]?.bind Slot.entry?

/-- The array with the value in slot `i` replaced by `f` of the key and the value, if there
is an entry. -/
def updateEntry (s : SlotArray w K V) (i : Nat) (f : K → V → V) : SlotArray w K V :=
  match s[i]? with
  | some (.used next key value) => s.setIfInBounds i (.used next key (f key value))
  | _ => s

end SlotArray

/-- Moves a cursor past the next entry. Answers with the slot of that entry. -/
def Cursor.next {w : LinkWidth} {K V : Type} (c : Cursor) (s : SlotArray w K V) :
    Option Nat × Cursor :=
  if c.remaining = 0 then (none, c)
  else
    match s.nextUsed (s.size - c.position) c.position with
    | some i => (some i, ⟨i + 1, c.remaining - 1⟩)
    | none => (none, ⟨s.size, c.remaining⟩)

namespace Table

variable {w : LinkWidth} {K V : Type}

/-- The entries in slot order, as many of them as the table counts. -/
def entries (t : Table w K V) : List (K × V) :=
  ((t.slots.toList.drop 1).filterMap Slot.entry?).take t.len

/-- The cursor in front of the first entry. -/
def start (t : Table w K V) : Cursor := ⟨1, t.len⟩

/-- The next entry, and the cursor behind it. -/
def next (t : Table w K V) (c : Cursor) : Option (K × V) × Cursor :=
  match c.next t.slots with
  | (some i, c) => (t.slots.entryAt i, c)
  | (none, c) => (none, c)

/-- Asks `n` times for the next entry, whether or not there is one. Answers with what was left
before each call and what the call gave, and with the cursor after the last one. -/
def steps (t : Table w K V) (n : Nat) : Array (Nat × Option (K × V)) × Cursor :=
  (List.range n).foldl (fun (seen, c) _ =>
    let (entry, after) := t.next c
    (seen.push (c.remaining, entry), after)) (#[], t.start)

/-- What became of a table whose values were visited. -/
structure Visit (w : LinkWidth) (K V : Type) where
  /-- For each entry visited, what was left before it, its key and its new value. -/
  seen : Array (Nat × K × V)
  /-- The cursor behind the last entry visited. -/
  cursor : Cursor
  /-- The table with the new values. -/
  table : Table w K V

/-- Replaces the values of the next entries, `steps` of them at most, by `f` of the key and
the value. -/
def visitFrom (f : K → V → V) : (steps : Nat) → Visit w K V → Visit w K V
  | 0, v => v
  | steps + 1, ⟨seen, cursor, ⟨policy, hash, slots, len, mask⟩⟩ =>
    match cursor.next slots with
    | (none, after) => ⟨seen, after, ⟨policy, hash, slots, len, mask⟩⟩
    | (some i, after) =>
      let slots := slots.updateEntry i f
      let seen :=
        match slots.entryAt i with
        | some entry => seen.push (cursor.remaining, entry)
        | none => seen
      visitFrom f steps ⟨seen, after, ⟨policy, hash, slots, len, mask⟩⟩

/-- Replaces the values of the first `limit` entries, or of all of them, by `f` of the key and
the value. -/
def visit (t : Table w K V) (limit : Option Nat) (f : K → V → V) : Visit w K V :=
  visitFrom f (limit.getD t.slots.size) ⟨#[], t.start, t⟩

end Table

end HomeChain

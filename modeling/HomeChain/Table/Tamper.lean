import HomeChain.Table.Insert

/-!
# Tampering

Ways to put a table out of order: to see what an examination makes of it, and how the
operations fare on what is left.
-/

namespace HomeChain.Table

variable {w : LinkWidth} {K V : Type}

/-- The table with another entry count. -/
def setLen (t : Table w K V) (len : Nat) : Table w K V := { t with len }

/-- The table with slot `i` overwritten. -/
def setSlot (t : Table w K V) (i : Nat) (slot : Slot w K V) : Except Fault (Table w K V) :=
  t.withSlots fun s => s.write i slot

/-- The table with another chain link in slot `i`. -/
def setNext (t : Table w K V) (i : Nat) (link : Link w) : Except Fault (Table w K V) :=
  t.withSlots fun s => s.setChainNext i link

/-- The table with slot `i` given back to the free list and not discounted. -/
def releaseSlot (t : Table w K V) (i : Nat) : Except Fault (Table w K V) :=
  t.withSlots fun s => s.release i

/-- The table with a fresh array of `capacity` slots in place of its own. -/
def replaceSlots (t : Table w K V) (capacity : Nat) :
    Traced (Table w K V × Option TableError) := do
  match ← allocate capacity with
  | .error e => return (t, some e)
  | .ok slots => return ({ t with slots }, none)

end HomeChain.Table

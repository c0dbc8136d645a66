import HomeChain.Key
import HomeChain.SlotArray
import HomeChain.Traced

/-!
# Tables

A table of capacity `n`, a power of two, gives every key a home address among the slots
`1, …, n`: the low bits of its hash, plus one. The entries with one home address form one
chain, and the chain starts in the home slot itself. What a table needs besides its slots is
the number of entries, the mask that cuts a hash down to an address, the hash, and whether it
may grow.

A `Table` is plain data: nothing in the type says that the slots are in order. Whether they
are is what `Table.check` finds out.
-/

namespace HomeChain

/-- Whether a full table makes room for new keys. -/
inductive Policy where
  /-- The capacity doubles. -/
  | growable
  /-- New keys are refused. -/
  | fixed
deriving DecidableEq, Repr

/-- A hash table with keys `K` and values `V` in slots with links of width `w`. -/
structure Table (w : LinkWidth) (K V : Type) where
  /-- What to do about a new key when the table is full. -/
  policy : Policy
  /-- The hash of a key. -/
  hash : K → UInt64
  /-- The slots, anchor included. -/
  slots : SlotArray w K V
  /-- The number of entries. -/
  len : Nat
  /-- One less than the capacity. -/
  mask : Nat

/-- The number of values of a 64-bit word: counts stay below it. -/
def wordLimit : Nat := 1 <<< 64

/-- The least power of two that is at least `n` and at least one. -/
def leastPowerOfTwo (n : Nat) : Nat :=
  if n ≤ 1 then 1 else 1 <<< ((n - 1).log2 + 1)

/-- `n` is a power of two. -/
def isPowerOfTwo (n : Nat) : Bool := 1 <<< n.log2 == n

/-- The least capacity with room for `count` entries, where links of width `w` can serve it. -/
def roundCapacity (w : LinkWidth) (count : Nat) : Except TableError Nat :=
  let capacity := leastPowerOfTwo count
  if capacity ≤ w.maxCapacity then .ok capacity else .error (.capacityTooLarge count w)

namespace Table

variable {w : LinkWidth} {K V : Type}

/-- The number of slots for entries, as the table's mask has it. -/
def capacity (t : Table w K V) : Nat := t.mask + 1

/-- The table has no entries. -/
def isEmpty (t : Table w K V) : Bool := t.len == 0

/-- The home address of a key. -/
def home (t : Table w K V) (key : K) : Nat := ((t.hash key).toNat &&& t.mask) + 1

/-- The slots of a table of some capacity, all of them free. To ask for a capacity that is not a
power of two is a fault. -/
def allocate (capacity : Nat) : Traced (Except TableError (SlotArray w K V)) :=
  if !isPowerOfTwo capacity then Traced.fail .notPowerOfTwo
  else
    match SlotArray.allocate capacity with
    | .error e => return .error e
    | .ok slots => do
      Traced.emit (.allocating capacity w)
      return .ok slots

/-- An empty table with room for `count` entries at least. -/
def withCapacity (policy : Policy) (hash : K → UInt64) (count : Nat) :
    Traced (Except TableError (Table w K V)) :=
  match roundCapacity w count with
  | .error e => return .error e
  | .ok capacity => do
    match ← allocate capacity with
    | .error e => return .error e
    | .ok slots => return .ok ⟨policy, hash, slots, 0, capacity - 1⟩

/-- An empty table with one slot. -/
def new (policy : Policy) (hash : K → UInt64) : Traced (Table w K V) := do
  match ← withCapacity policy hash 1 with
  | .ok t => return t
  | .error _ => Traced.fail .noRoomForOne

/-- The table with its slots replaced by `f` of them. -/
@[inline] def withSlots (t : Table w K V)
    (f : SlotArray w K V → Except Fault (SlotArray w K V)) : Except Fault (Table w K V) :=
  match t with
  | ⟨policy, hash, slots, len, mask⟩ =>
    match f slots with
    | .ok slots => .ok ⟨policy, hash, slots, len, mask⟩
    | .error fault => .error fault

end Table

/-! ## Capacities -/

theorem Table.home_pos {w : LinkWidth} {K V : Type} (t : Table w K V) (key : K) :
    1 ≤ t.home key := Nat.le_add_left 1 _

theorem Table.home_le {w : LinkWidth} {K V : Type} (t : Table w K V) (key : K) :
    t.home key ≤ t.capacity :=
  Nat.add_le_add_right Nat.and_le_right 1

theorem le_leastPowerOfTwo (n : Nat) : n ≤ leastPowerOfTwo n := by
  rw [leastPowerOfTwo]
  split
  · assumption
  · have h : n - 1 < 2 ^ ((n - 1).log2 + 1) := Nat.lt_log2_self
    rw [Nat.one_shiftLeft]
    omega

theorem leastPowerOfTwo_le {n k : Nat} (h : n ≤ 1 <<< k) : leastPowerOfTwo n ≤ 1 <<< k := by
  rw [Nat.one_shiftLeft] at h ⊢
  rw [leastPowerOfTwo]
  split
  · exact Nat.one_le_two_pow
  · have hlog : (n - 1).log2 < k := by
      rw [Nat.log2_lt (by omega)]
      omega
    rw [Nat.one_shiftLeft]
    exact Nat.pow_le_pow_right (by decide) hlog

end HomeChain

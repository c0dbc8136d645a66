import HomeChain.Table.Basic

/-!
# Chain statistics

How the entries of a table are spread over its chains. A chain of `n` members costs
`1 + 2 + ⋯ + n` probes to look up each member once, so the probes for all entries are the sum
of `n (n + 1) / 2` over the chains; `probeTotal` computes it from the histogram in 64-bit
words.
-/

namespace HomeChain

/-- Statistics of the chains of a table. -/
structure ChainStats where
  /-- The number of entries. -/
  len : Nat
  /-- The number of slots for entries. -/
  capacity : Nat
  /-- The number of chains. -/
  chains : Nat
  /-- The length of the longest chain. -/
  longest : Nat
  /-- The number of entries outside their home slot. -/
  displaced : Nat
  /-- At place `n`, the number of chains of length `n + 1`. -/
  histogram : Array Nat
  /-- Entries per slot. -/
  loadFactor : Float

namespace SlotArray

variable {w : LinkWidth} {K V : Type}

/-- The number of members of a chain: `passed`, and those from slot `i` on, which are at most
`steps`. -/
def chainLength (s : SlotArray w K V) : (steps passed i : Nat) → Except Fault Nat
  | 0, _, _ => .error .endlessWalk
  | steps + 1, passed, i => do
    let next ← s.chainNext i
    if next = .null then return passed + 1
    else s.chainLength steps (passed + 1) (← next.decodeIndex)

end SlotArray

namespace ChainStats

/-- What has been counted up to some slot. -/
structure Tally where
  chains : Nat
  displaced : Nat
  histogram : Array Nat
deriving DecidableEq, Repr

/-- The histogram with one more chain of the given length. -/
def count (histogram : Array Nat) (length : Nat) : Array Nat :=
  (histogram ++ Array.replicate (length - histogram.size) 0).modify (length - 1) (· + 1)

/-- A count as a number with a fractional part. -/
def toFloat (n : Nat) : Float := n.toUInt64.toFloat

end ChainStats

namespace Table

variable {w : LinkWidth} {K V : Type}

/-- Counts what slot `i` adds to a tally. -/
def tallySlot (t : Table w K V) (tally : ChainStats.Tally) (i : Nat) :
    Except Fault ChainStats.Tally := do
  match ← t.slots.read i with
  | .free .. => return tally
  | .used _ key _ =>
    if t.home key = i then
      let length ← t.slots.chainLength t.slots.size 0 i
      return { tally with
        chains := tally.chains + 1
        histogram := ChainStats.count tally.histogram length }
    else
      return { tally with displaced := tally.displaced + 1 }

/-- The statistics of a table, from a walk over all of its chains. -/
def chainStats (t : Table w K V) : Except Fault ChainStats := do
  let tally ← (List.range' 1 t.capacity).foldlM t.tallySlot ⟨0, 0, #[]⟩
  return {
    len := t.len
    capacity := t.capacity
    chains := tally.chains
    longest := tally.histogram.size
    displaced := tally.displaced
    histogram := tally.histogram
    loadFactor := ChainStats.toFloat t.len / ChainStats.toFloat t.capacity }

end Table

namespace ChainStats

/-- The probes spent on `count` chains of length `n + 1`, in 64-bit words. -/
def probes (n count : Nat) : UInt64 :=
  count.toUInt64 * (n.toUInt64 + 1) * (n.toUInt64 + 2) / 2

/-- The probes that looking up every entry once would take, in 64-bit words. -/
def probeTotal (s : ChainStats) : UInt64 :=
  s.histogram.toList.zipIdx.foldl (fun total (count, n) => total + probes n count) 0

/-- The probes that looking up an entry takes on average. -/
def meanProbeLength (s : ChainStats) : Float :=
  if s.len = 0 then 0 else s.probeTotal.toFloat / toFloat s.len

end ChainStats

end HomeChain

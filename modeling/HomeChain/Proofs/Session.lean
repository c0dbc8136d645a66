import HomeChain.ChainStats
import HomeChain.Consistency.Check
import HomeChain.Table.Rebuild
import HomeChain.Table.Remove

/-!
# Sessions

A session builds a table and then calls its operations, in any order and with any arguments. A
`MapCall` is a call of one of the operations that make the table a map; a `Call` is one of these,
or a call that goes over the whole table. Each call turns a table into the next one and gives an
answer, unless it runs into a fault; `run` makes several calls, one after another.
-/

namespace HomeChain

/-- A call of one of the operations of a map. -/
inductive MapCall (K V : Type) where
  /-- Store a key. If there is something to write, replace the value stored by it, through the
  slot that storing the key answers with. -/
  | put (key : K) (value : V) (write : Option (V → V))
  | get (key : K)
  | contains (key : K)
  /-- Replace the value of a key, if it is stored. -/
  | modify (key : K) (write : V → V)
  | remove (key : K)
  | removeAndGet (key : K)
  | clear
  | rehash (count : Nat)
  | len
  | isEmpty
  | capacity

/-- What a call of an operation of a map answers. -/
inductive MapAnswer (V : Type) where
  | done
  | value (value : Option V)
  | flag (flag : Bool)
  | count (count : Nat)
  /-- The request was declined. -/
  | declined (error : TableError)

/-- A call of one of the operations of a table. -/
inductive Call (K V : Type) where
  | map (call : MapCall K V)
  /-- Ask for the next entry so many times. -/
  | iterate (asks : Nat)
  /-- Replace the values of the first entries, or of all. -/
  | visit (limit : Option Nat) (write : K → V → V)
  | check
  | chainStats

/-- What a call answers. -/
inductive Answer (K V : Type) where
  | map (answer : MapAnswer V)
  | entries (seen : Array (Nat × Option (K × V)))
  | visited (seen : Array (Nat × K × V))
  | verdict (verdict : Except Inconsistency Unit)
  | stats (stats : ChainStats)

/-- A way to build a table. -/
inductive Start where
  /-- With one slot. -/
  | new
  /-- With room for so many entries. -/
  | withCapacity (count : Nat)
deriving DecidableEq, Repr

variable {w : LinkWidth} {K V : Type}

/-- The table built, or why it was declined. -/
def Start.build (start : Start) (policy : Policy) (hash : K → UInt64) :
    Except Fault (Except TableError (Table w K V)) :=
  match start with
  | .new => do
    return .ok (← (Table.new policy hash).outcome)
  | .withCapacity count => (Table.withCapacity policy hash count).outcome

/-- Makes calls one after another. Answers with the answers. -/
def run {C A : Type} (perform : C → Table w K V → Except Fault (Table w K V × A)) :
    List C → Table w K V → Except Fault (Table w K V × List A)
  | [], t => return (t, [])
  | call :: calls, t => do
    let (t, answer) ← perform call t
    let (t, answers) ← run perform calls t
    return (t, answer :: answers)

/-- Builds a table, and makes calls. -/
def session {C A : Type} (perform : C → Table w K V → Except Fault (Table w K V × A))
    (policy : Policy) (hash : K → UInt64) (start : Start) (calls : List C) :
    Except Fault (Except TableError (Table w K V × List A)) := do
  match ← start.build policy hash with
  | .error e => return .error e
  | .ok t => return .ok (← run perform calls t)

variable [DecidableEq K]

/-- Makes a call. -/
def MapCall.perform (call : MapCall K V) (t : Table w K V) :
    Except Fault (Table w K V × MapAnswer V) :=
  match call with
  | .put key value write => do
    match ← (t.put key value).outcome with
    | (t, .error e) => return (t, .declined e)
    | (t, .ok i) =>
      let t ← match write with
        | some f => t.updateAt i f
        | none => pure t
      return (t, .value (some (← t.valueAt i)))
  | .get key => do
    return (t, .value (← t.get key))
  | .contains key => do
    return (t, .flag (← t.contains key))
  | .modify key write => do
    let (t, value) ← t.modify key write
    return (t, .value value)
  | .remove key => do
    let (t, stored) ← (t.remove key).outcome
    return (t, .flag stored)
  | .removeAndGet key => do
    let (t, value) ← (t.removeAndGet key).outcome
    return (t, .value value)
  | .clear => do
    return (← t.clear, .done)
  | .rehash count => do
    match ← (t.rehash count).outcome with
    | (t, .ok n) => return (t, .count n)
    | (t, .error e) => return (t, .declined e)
  | .len => return (t, .count t.len)
  | .isEmpty => return (t, .flag t.isEmpty)
  | .capacity => return (t, .count t.capacity)

/-- Makes a call. -/
def Call.perform (call : Call K V) (t : Table w K V) :
    Except Fault (Table w K V × Answer K V) :=
  match call with
  | .map call => do
    let (t, answer) ← call.perform t
    return (t, .map answer)
  | .iterate asks => return (t, .entries (t.steps asks).1)
  | .visit limit write =>
    let visit := t.visit limit write
    return (visit.table, .visited visit.seen)
  | .check => do
    return (t, .verdict (← t.check.outcome))
  | .chainStats => do
    return (t, .stats (← t.chainStats))

end HomeChain
